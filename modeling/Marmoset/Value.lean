import Marmoset.Builtin
import Marmoset.Bytecode

/-!
# Values

Numbers, truth values, strings and nil are what they are; arrays, hashes and functions are places in
the `Store`, and two of them are the same if they are the same place.  So an array that is reached
in two ways shows a change in both, and values can hold themselves.
-/

namespace Marmoset

/-- The kinds of values, named in error messages. -/
inductive Kind where
  | integer | float | boolean | nil | string | array | hash
  | compiled | closure | builtin | function | error
deriving DecidableEq, Repr, Inhabited

namespace Kind

def name : Kind → String
  | integer => "Integer"
  | float => "Float"
  | boolean => "Boolean"
  | nil => "Nil"
  | string => "String"
  | array => "Array"
  | hash => "Hash"
  | compiled => "CompiledFunction"
  | closure => "Closure"
  | builtin => "Builtin"
  | function => "Function"
  | error => "Error"

end Kind

/-- A value.  `ref` is a place in the store. -/
inductive Value where
  | integer (n : Int64)
  | float (x : Double)
  | boolean (b : Bool)
  | nil
  | string (s : String)
  | array (ref : Nat)
  | hash (ref : Nat)
  /-- A function of the constant pool that is not yet a closure; `id` tells it apart from its
  equals. -/
  | compiled (id : Nat) (fn : CompiledFunction)
  /-- A function of the machine. -/
  | closure (ref : Nat)
  | builtin (b : Builtin)
  /-- A function of the evaluator. -/
  | function (ref : Nat)
  /-- What a builtin answers when it is misused.  It is a value like others. -/
  | error (message : String)
deriving DecidableEq, Repr, Inhabited

/-- What can be a key of a hash.  Floats are told apart by their bits. -/
inductive HashKey where
  | integer (n : Int64)
  | float (x : Double)
  | boolean (b : Bool)
  | nil
  | string (s : String)
deriving DecidableEq, Repr, Inhabited

namespace HashKey

/-- The value that is the key. -/
def toValue : HashKey → Value
  | integer n => .integer n
  | float x => .float x
  | boolean b => .boolean b
  | nil => .nil
  | string s => .string s

end HashKey

namespace Value

def kind : Value → Kind
  | integer _ => .integer
  | float _ => .float
  | boolean _ => .boolean
  | nil => .nil
  | string _ => .string
  | array _ => .array
  | hash _ => .hash
  | compiled _ _ => .compiled
  | closure _ => .closure
  | builtin _ => .builtin
  | function _ => .function
  | error _ => .error

/-- Only `false` and nil count as false. -/
def truthy : Value → Bool
  | boolean b => b
  | nil => false
  | _ => true

/-- The key that the value is, if it can be one. -/
def hashKey? : Value → Option HashKey
  | integer n => some (.integer n)
  | float x => some (.float x)
  | boolean b => some (.boolean b)
  | nil => some .nil
  | string s => some (.string s)
  | _ => none

/-- Equality of values that are not both numbers: what has no place of its own is compared by
content, and everything else by place.  A float is not even identical to itself. -/
def identical : Value → Value → Bool
  | boolean a, boolean b => a == b
  | nil, nil => true
  | string a, string b => a == b
  | integer a, integer b => a == b
  | array a, array b => a == b
  | hash a, hash b => a == b
  | compiled a _, compiled b _ => a == b
  | closure a, closure b => a == b
  | builtin a, builtin b => a == b
  | function a, function b => a == b
  | error a, error b => a == b
  | _, _ => false

/-- A number as a double. -/
def asDouble? : Value → Option Double
  | integer n => some (.ofInt n.toInt)
  | float x => some x
  | _ => none

def isFloat : Value → Bool
  | float _ => true
  | _ => false

end Value

end Marmoset
