import Marmoset.Decimal.Text
import Marmoset.Store
import Marmoset.Text.Quoted

/-!
# Values spread out

A view is what a value looks like when everything it refers to is written out.  An array or hash
that is met again inside itself is not written out again: the view says how many arrays and hashes
up it is.  So every value has a view, and the text of a value is the text of its view.
-/

namespace Marmoset

/-- A value with what it refers to written out. -/
inductive View where
  | integer (n : Int64)
  | float (x : Double)
  | boolean (b : Bool)
  | nil
  | string (s : String)
  | array (items : List View)
  | hash (pairs : List (HashKey × View))
  | compiled (address : Nat) (fn : CompiledFunction)
  | closure (address : Nat) (fn : CompiledFunction) (free : List View)
  | builtin (b : Builtin)
  | function (name : Option String) (params : List String) (body : String)
  | error (message : String)
  /-- An enclosing array or hash, the directly enclosing one being 1. -/
  | cycle (up : Nat)
deriving Inhabited

/-- An array or a hash by its place. -/
inductive Container where
  | array (ref : Nat)
  | hash (ref : Nat)
deriving DecidableEq, Repr, Inhabited

namespace Store

/-- The view of a value inside the given containers, the directly enclosing one first.  `fuel`
bounds how deep it goes. -/
def viewWithin (s : Store) : (fuel : Nat) → List Container → Value → View
  | 0, _, _ => .cycle 0
  | fuel + 1, within, v =>
    match v with
    | .integer n => .integer n
    | .float x => .float x
    | .boolean b => .boolean b
    | .nil => .nil
    | .string t => .string t
    | .array ref =>
      match within.idxOf? (.array ref) with
      | some i => .cycle (i + 1)
      | none => .array ((s.array ref).toList.map (viewWithin s fuel (.array ref :: within)))
    | .hash ref =>
      match within.idxOf? (.hash ref) with
      | some i => .cycle (i + 1)
      | none =>
        let inside := viewWithin s fuel (.hash ref :: within)
        .hash ((s.hash ref).entries.map fun (k, v) => (k, inside v))
    | .compiled id fn => .compiled id fn
    | .closure ref =>
      match s.closures[ref]? with
      | some c => .closure ref c.fn (c.free.toList.map (viewWithin s fuel within))
      | none => .closure ref default []
    | .builtin b => .builtin b
    | .function ref =>
      match s.functions[ref]? with
      | some f => .function f.name f.params (Stmt.blockText f.body)
      | none => .function none [] ""
    | .error message => .error message

/-- More than the depth of any view: on the way down no container is open twice, and between two
containers each closure is older than the one before. -/
def viewDepth (s : Store) : Nat :=
  (s.arrays.size + s.hashes.size + 1) * (s.closures.size + 1) + 1

/-- The view of a value. -/
def view (s : Store) (v : Value) : View :=
  s.viewWithin s.viewDepth [] v

end Store

namespace HashKey

def text : HashKey → String
  | integer n => toString n.toInt
  | float x => x.text
  | boolean b => if b then "true" else "false"
  | nil => "nil"
  | string s => s

end HashKey

namespace View

/-- A place as the language shows it. -/
def addressText (address : Nat) : String :=
  "[0x" ++ String.ofList (Nat.toDigits 16 address) ++ "]"

mutual

/-- The text that `puts` prints for the value. -/
def text : View → String
  | integer n => toString n.toInt
  | float x => x.text
  | boolean b => if b then "true" else "false"
  | nil => "nil"
  | string s => s
  | array items => "[" ++ commas (texts items) ++ "]"
  | hash pairs => "\x7b" ++ commas (pairTexts pairs) ++ "\x7d"
  | compiled address _ => "CompiledFunction" ++ addressText address
  | closure address _ _ => "Closure" ++ addressText address
  | builtin _ => "builtin function"
  | function _ params body => "fn(" ++ commas params ++ ") " ++ body
  | error message => "Error: " ++ message
  | cycle _ => "..."
termination_by structural v => v

def texts : List View → List String
  | [] => []
  | v :: vs => v.text :: texts vs
termination_by structural vs => vs

def pairTexts : List (HashKey × View) → List String
  | [] => []
  | (k, v) :: ps => (k.text ++ ": " ++ v.text) :: pairTexts ps
termination_by structural ps => ps

end

mutual

/-- Whether the value contains itself. -/
def isCyclic : View → Bool
  | array items => anyCyclic items
  | hash pairs => anyCyclicPair pairs
  | closure _ _ free => anyCyclic free
  | cycle _ => true
  | _ => false
termination_by structural v => v

def anyCyclic : List View → Bool
  | [] => false
  | v :: vs => v.isCyclic || anyCyclic vs
termination_by structural vs => vs

def anyCyclicPair : List (HashKey × View) → Bool
  | [] => false
  | (_, v) :: ps => v.isCyclic || anyCyclicPair ps
termination_by structural ps => ps

end

/-- The parts of a compiled function, on one line. -/
def functionOutline (fn : CompiledFunction) : String :=
  "CompiledFunction \x7b instructions: Instructions([" ++
    commas (fn.code.toList.map fun b => toString b.toNat) ++ "]), num_locals: " ++
    toString fn.locals.toNat ++ ", num_parameters: " ++ toString fn.params.toNat ++ " \x7d"

mutual

/-- The kind of the value and what it holds, on one line. -/
def outline : View → String
  | integer n => "Integer(" ++ toString n.toInt ++ ")"
  | float x => "Float(" ++ x.text ++ ")"
  | boolean b => if b then "Boolean(true)" else "Boolean(false)"
  | nil => "Nil(nil)"
  | string s => "String(" ++ Text.quoted s ++ ")"
  | array items => "Array([" ++ commas (texts items) ++ "])"
  | hash pairs => "Hash(\x7b" ++ commas (pairTexts pairs) ++ "\x7d)"
  | compiled _ fn => functionOutline fn
  | closure _ fn free =>
    "Closure \x7b function: " ++ functionOutline fn ++ ", free: [" ++
      commas (outlines free) ++ "] \x7d"
  | builtin _ => "Builtin(builtin function)"
  | function name params _ =>
    let shown := match name with
      | some n => "Some(" ++ Text.quoted n ++ ")"
      | none => "None"
    "Function \x7b name: " ++ shown ++ ", parameters: [" ++ commas (params.map Text.quoted) ++
    "], .. \x7d"
  | error message => "Error(" ++ Text.quoted message ++ ")"
  | cycle _ => "..."
termination_by structural v => v

def outlines : List View → List String
  | [] => []
  | v :: vs => v.outline :: outlines vs
termination_by structural vs => vs

end

end View

namespace Store

/-- The text that `puts` prints for a value. -/
def textOf (s : Store) (v : Value) : String :=
  (s.view v).text

end Store

end Marmoset
