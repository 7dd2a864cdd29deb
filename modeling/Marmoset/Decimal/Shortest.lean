/-!
# The shortest decimal of a binary fraction

A finite double is `m · 2 ^ q`, and every real number nearer to it than to its neighbours reads back
as the same double.  `shortest m q` is the decimal with the fewest digits among those numbers and,
of the decimals with that many digits, the nearest to `m · 2 ^ q`; a tie goes upwards.

All comparisons are made on natural numbers: a number `x · 2 ^ q` is compared with `d · 10 ^ e`
after both are multiplied by the powers that clear the negative exponents.
-/

namespace Marmoset

/-- The number `digits · 10 ^ exponent`. -/
structure Decimal where
  digits : Nat
  exponent : Int
deriving DecidableEq, Repr, Inhabited

namespace Decimal

/-- The number of decimal digits of `n`; zero has one. -/
def width (n : Nat) : Nat :=
  (Nat.toDigits 10 n).length

/-- Moves trailing zeros of the digits into the exponent.  `fuel` bounds the number of zeros. -/
def dropZeros : (fuel : Nat) → Decimal → Decimal
  | 0, d => d
  | fuel + 1, d =>
    if d.digits ≠ 0 ∧ d.digits % 10 = 0 then dropZeros fuel ⟨d.digits / 10, d.exponent + 1⟩ else d

/-- The exponent of the leading digit of `num / den`, both positive: the `e` with
`10 ^ e ≤ num / den < 10 ^ (e + 1)`. -/
def leading (num den : Nat) : Int :=
  if den ≤ num then (width (num / den) : Int) - 1 else -(width ((den - 1) / num) : Int)

/-- The reals that round to `m · 2 ^ q`, in quarters of a unit in the last place: they lie between
`4 * m - below` and `4 * m + 2`.  Under a power of two the neighbours below are twice as close,
unless `m · 2 ^ q` is the least number with full precision. -/
def below (m : Nat) (q : Int) : Nat :=
  if m = 0x10000000000000 ∧ q ≠ -1074 then 1 else 2

/-- The decimals with step `10 ^ e` next to `m · 2 ^ q`, one not above and one above it, as far as
they round to it; of two, the nearer one and in a tie the upper one. -/
def candidate (m : Nat) (q e : Int) : Option Nat :=
  let left := Nat.pow 2 (q - 2).toNat * Nat.pow 10 (-e).toNat
  let right := Nat.pow 2 (2 - q).toNat * Nat.pow 10 e.toNat
  let value := 4 * m * left
  let low := (4 * m - below m q) * left
  let high := (4 * m + 2) * left
  let d := value / right
  let under := d * right
  let above := (d + 1) * right
  let lowFits := if m % 2 = 0 then decide (low ≤ under) else decide (low < under)
  let highFits := if m % 2 = 0 then decide (above ≤ high) else decide (above < high)
  if lowFits && highFits then some (if value - under < above - value then d else d + 1)
  else if lowFits then some d
  else if highFits then some (d + 1)
  else none

/-- Tries one digit, then two, and so on; the leading digit has exponent `lead`. -/
def search (m : Nat) (q lead : Int) : (fuel : Nat) → (step : Int) → Decimal
  | 0, step => ⟨(candidate m q step).getD 0, step⟩
  | fuel + 1, step =>
    match candidate m q step with
    | some d => ⟨d, step⟩
    | none => search m q lead fuel (step - 1)

/-- The shortest decimal that rounds to `m · 2 ^ q`.  Seventeen digits tell all doubles apart. -/
def shortest (m : Nat) (q : Int) : Decimal :=
  let lead := leading (m * Nat.pow 2 q.toNat) (Nat.pow 2 (-q).toNat)
  dropZeros 20 (search m q lead 17 lead)

end Decimal

end Marmoset
