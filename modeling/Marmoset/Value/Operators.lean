import Marmoset.Fault
import Marmoset.Store

/-!
# Operators

What the operators of the language do.  They are known by the instructions that carry them out, and
both engines use these definitions, so that an operator means the same in both.
-/

namespace Marmoset

namespace Value

/-- Addition and its like on doubles. -/
def floatArithmetic? (op : Opcode) (x y : Double) : Option Double :=
  match op with
  | .add => some (x.add y)
  | .sub => some (x.sub y)
  | .mul => some (x.mul y)
  | .div => some (x.div y)
  | _ => none

/-- Addition and its like on integers, which wrap around.  There is no division of integers. -/
def integerArithmetic? (op : Opcode) (m n : Int64) : Option Int64 :=
  match op with
  | .add => some (m + n)
  | .sub => some (m - n)
  | .mul => some (m * n)
  | _ => none

/-- `+ - * /`.  Division, or a float on either side, is done on doubles; strings can be added. -/
def arithmetic (op : Opcode) (left right : Value) : Except Fault Value :=
  let unsupported : Except Fault Value :=
    .error (.unsupportedBinary op left.kind right.kind)
  if op = .div || left.isFloat || right.isFloat then
    match left.asDouble?, right.asDouble? with
    | some x, some y =>
      match floatArithmetic? op x y with
      | some z => .ok (.float z)
      | none => unsupported
    | _, _ => unsupported
  else
    match left, right with
    | .integer m, .integer n =>
      match integerArithmetic? op m n with
      | some k => .ok (.integer k)
      | none => unsupported
    | .string s, .string t => if op = .add then .ok (.string (s ++ t)) else unsupported
    | _, _ => unsupported

/-- A comparison of two things that can be ordered, given what is asked of them. -/
def comparison? (op : Opcode) (equal greater greaterEqual : Bool) : Option Bool :=
  match op with
  | .equal => some equal
  | .notEqual => some (!equal)
  | .greater => some greater
  | .greaterEqual => some greaterEqual
  | _ => none

/-- The comparison of two values, or nothing if there is none.  Numbers are compared as numbers, a
float with nothing else; other values can only be equal or not. -/
def compare? (op : Opcode) (left right : Value) : Option Bool :=
  match left, right with
  | .integer m, .integer n => comparison? op (m == n) (m > n) (m ≥ n)
  | _, _ =>
    match left.asDouble?, right.asDouble? with
    | some x, some y => comparison? op (x.same y) (y.lt x) (y.le x)
    | _, _ =>
      if left.isFloat || right.isFloat then none
      else
        match op with
        | .equal => some (left.identical right)
        | .notEqual => some (!left.identical right)
        | _ => none

/-- `== != > >=`. -/
def compare (op : Opcode) (left right : Value) : Except Fault Value :=
  match compare? op left right with
  | some b => .ok (.boolean b)
  | none => .error (.unknownComparison op left.kind right.kind)

/-- `&&` and `||` of two values, one of which is the result. -/
def logical (op : Opcode) (left right : Value) : Value :=
  let takesLeft := if op = .or then left.truthy else !left.truthy
  if takesLeft then left else right

/-- The binary operator of an instruction. -/
def binary (op : Opcode) (left right : Value) : Except Fault Value :=
  match op with
  | .equal | .notEqual | .greater | .greaterEqual => compare op left right
  | .and | .or => .ok (logical op left right)
  | _ => arithmetic op left right

/-- `-`. -/
def negate : Value → Except Fault Value
  | .integer n => .ok (.integer (-n))
  | .float x => .ok (.float x.neg)
  | v => .error (.unsupportedNegation v.kind)

/-- `!`. -/
def not (v : Value) : Value :=
  .boolean (!v.truthy)

/-- The unary operator of an instruction. -/
def unary (op : Opcode) (v : Value) : Except Fault Value :=
  match op with
  | .bang => .ok v.not
  | _ => v.negate

end Value

namespace Store

/-- An integer as the position of an element. -/
def position? (i : Int64) : Option Nat :=
  if 0 ≤ i.toInt then some i.toInt.toNat else none

/-- `left[index]`.  What is not there is nil. -/
def getIndex (s : Store) (left index : Value) : Except Fault Value :=
  match left, index with
  | .array ref, .integer i =>
    match position? i with
    | some n => .ok ((s.array ref).getD n .nil)
    | none => .ok .nil
  | .hash ref, key =>
    match key.hashKey? with
    | some k => .ok (((s.hash ref).find? k).getD .nil)
    | none => .error (.unusableHashKey key.kind)
  | _, _ => .error (.indexNotSupported left.kind)

/-- `left[index] = value`.  An array does not grow. -/
def setIndex (s : Store) (left index value : Value) : Except Fault Store :=
  match left, index with
  | .array ref, .integer i =>
    match position? i with
    | some n =>
      if n < (s.array ref).size then .ok (s.setElement ref n value)
      else .error (.arrayIndexOutOfRange i)
    | none => .error (.arrayIndexOutOfRange i)
  | .hash ref, key =>
    match key.hashKey? with
    | some k => .ok (s.setEntry ref k value)
    | none => .error (.unusableHashKey key.kind)
  | _, _ => .error (.indexNotSupported left.kind)

/-- The entries of a hash from keys and values by turns; the last value of a key wins, and a key
without a value is left out. -/
def pairUp (acc : Bindings HashKey Value) : List Value → Except Fault (Bindings HashKey Value)
  | key :: value :: rest =>
    match key.hashKey? with
    | some k => pairUp (acc.insert k value) rest
    | none => .error (.unusableHashKey key.kind)
  | _ => .ok acc

/-- A new hash from keys and values by turns. -/
def buildHash (s : Store) (items : List Value) : Except Fault (Value × Store) :=
  match pairUp .empty items with
  | .ok pairs => .ok (s.newHash pairs)
  | .error e => .error e

end Store

end Marmoset
