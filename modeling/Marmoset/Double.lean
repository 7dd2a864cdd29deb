import Marmoset.Decimal.Shortest

/-!
# Floating-point numbers

A `Double` is a 64-bit binary floating-point number, given by its bit pattern.  Two patterns that
compare equal as numbers can still be different keys of a hash (`0.0` and `-0.0`), and a number that
is not a number equals no number but is the same pattern wherever it is kept; so the pattern is the
type.

The arithmetic is that of `Float`.  `Float` has a single not-a-number, so `Double.result` says which
pattern an operation gives: an operand's, the left one's first, made quiet, and otherwise the
pattern the hardware makes for an invalid operation.
-/

namespace Marmoset

/-- A 64-bit binary floating-point number by its bit pattern. -/
structure Double where
  bits : UInt64
deriving DecidableEq, Repr, Inhabited

namespace Double

def toFloat (x : Double) : Float :=
  Float.ofBits x.bits

def ofFloat (x : Float) : Double :=
  ⟨x.toBits⟩

def signBit : UInt64 := 0x8000000000000000

def quietBit : UInt64 := 0x0008000000000000

/-- What an invalid operation such as zero by zero gives. -/
def invalid : Double := ⟨0xfff8000000000000⟩

/-- The bits without the sign. -/
def magnitude (x : Double) : UInt64 :=
  x.bits &&& 0x7fffffffffffffff

def isNaN (x : Double) : Bool :=
  x.magnitude > 0x7ff0000000000000

def isNegative (x : Double) : Bool :=
  x.bits &&& signBit != 0

/-- The outcome of an operation on `x` and `y` whose numeric result is `r`. -/
def result (x y : Double) (r : Float) : Double :=
  if x.isNaN then ⟨x.bits ||| quietBit⟩
  else if y.isNaN then ⟨y.bits ||| quietBit⟩
  else if r.isNaN then invalid
  else ofFloat r

def add (x y : Double) : Double := result x y (x.toFloat + y.toFloat)

def sub (x y : Double) : Double := result x y (x.toFloat - y.toFloat)

def mul (x y : Double) : Double := result x y (x.toFloat * y.toFloat)

def div (x y : Double) : Double := result x y (x.toFloat / y.toFloat)

def neg (x : Double) : Double := ⟨x.bits ^^^ signBit⟩

/-- Equality of numbers: the zeros are equal, and not-a-number is equal to nothing. -/
def same (x y : Double) : Bool := x.toFloat == y.toFloat

def lt (x y : Double) : Bool := x.toFloat < y.toFloat

def le (x y : Double) : Bool := x.toFloat ≤ y.toFloat

/-- The nearest double; a tie goes to the even neighbour. -/
def ofInt (n : Int) : Double := ofFloat (Float.ofInt n)

/-- The double nearest to `mantissa / 10 ^ places`. -/
def ofDecimal (mantissa places : Nat) : Double := ofFloat (Float.ofScientific mantissa true places)

/-- The mantissa and the binary exponent of the magnitude of a finite number. -/
def parts (x : Double) : Nat × Int :=
  let field := (x.magnitude >>> 52).toNat
  let fraction := (x.magnitude &&& 0x000fffffffffffff).toNat
  if field = 0 then (fraction, -1074) else (fraction + 0x10000000000000, (field : Int) - 1075)

/-- The shortest decimal of the magnitude of a finite number. -/
def decimal (x : Double) : Decimal :=
  let (m, q) := x.parts
  if m = 0 then ⟨0, 0⟩ else Decimal.shortest m q

end Double

end Marmoset
