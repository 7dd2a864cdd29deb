/-!
# Builtin functions

The functions that every program starts with.  Compiled code refers to them by their place in the
table.
-/

namespace Marmoset

/-- A function of the language that is not written in it. -/
inductive Builtin where
  | len
  | puts
  | first
  | last
  | rest
  | push
deriving DecidableEq, Repr, Inhabited

namespace Builtin

def name : Builtin → String
  | len => "len"
  | puts => "puts"
  | first => "first"
  | last => "last"
  | rest => "rest"
  | push => "push"

/-- The builtins in the order in which compiled code counts them. -/
def table : List Builtin :=
  [len, puts, first, last, rest, push]

/-- The builtin with the given name. -/
def ofName? (name : String) : Option Builtin :=
  table.find? fun b => b.name == name

end Builtin

end Marmoset
