import Marmoset.Value.View

/-!
# Calls of builtins

A builtin that is misused answers with an error value, and the program goes on.
-/

namespace Marmoset

namespace Builtin

/-- The answer to a wrong number of arguments. -/
def wrongArity (wanted got : Nat) : Value :=
  .error ("wrong number of arguments. want=" ++ toString wanted ++ ", got=" ++ toString got)

/-- The answer of `first`, `last` and `rest` to something that is no array. -/
def notAnArray (name : String) (v : Value) : Value :=
  .error ("argument to `" ++ name ++ "` must be Array, got " ++ v.kind.name)

/-- The length of a string in bytes, or of an array. -/
def callLen (s : Store) (v : Value) : Value :=
  match v with
  | .string t => .integer (Int64.ofNat t.utf8ByteSize)
  | .array ref => .integer (Int64.ofNat (s.array ref).size)
  | v => .error ("argument to `len` not supported, got " ++ v.kind.name)

/-- The array without its first element; nil if it is empty. -/
def callRest (s : Store) (v : Value) : Value × Store :=
  match v with
  | .array ref =>
    let items := s.array ref
    if items.isEmpty then (.nil, s) else s.newArray (items.drop 1)
  | v => (notAnArray "rest" v, s)

/-- A new array with one more element. -/
def callPush (s : Store) (v item : Value) : Value × Store :=
  match v with
  | .array ref => s.newArray ((s.array ref).push item)
  | v => (.error ("first argument to `push` must be Array, got " ++ v.kind.name), s)

/-- Prints each value on a line. -/
def printAll (s : Store) : List Value → Store
  | [] => s
  | v :: vs => printAll (s.print (s.textOf v)) vs

/-- Calls a builtin. -/
def call (b : Builtin) (s : Store) (args : List Value) : Value × Store :=
  match b, args with
  | .puts, args => (.nil, printAll s args)
  | .len, [v] => (callLen s v, s)
  | .first, [.array ref] => ((s.array ref).getD 0 .nil, s)
  | .first, [v] => (notAnArray "first" v, s)
  | .last, [.array ref] => ((s.array ref).back?.getD .nil, s)
  | .last, [v] => (notAnArray "last" v, s)
  | .rest, [v] => callRest s v
  | .push, [v, item] => callPush s v item
  | .push, args => (wrongArity 2 args.length, s)
  | _, args => (wrongArity 1 args.length, s)

end Builtin

end Marmoset
