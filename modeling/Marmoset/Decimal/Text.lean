import Marmoset.Double

/-!
# The text of a number

Numbers are written with the fewest digits that read back.  A `Decimal.Style` fixes the rest:
whether a whole number keeps a point, and from which magnitudes on an exponent is used.  The
language itself prints plain numbers, never with an exponent; outlines of trees and token listings
write literals.
-/

namespace Marmoset

namespace Decimal

/-- How a number is laid out. -/
structure Style where
  /-- A whole number ends in `.0`. -/
  keepsPoint : Bool
  /-- Whether a number whose leading digit has this exponent is written with an exponent. -/
  scientific : Int → Bool

namespace Style

/-- Digits only: `2`, `0.00001`, `100000000000000000000`. -/
def plain : Style where
  keepsPoint := false
  scientific := fun _ => false

/-- Recognisable as a fraction, and short: `2.0`, `1e-5`, `1e20`. -/
def literal : Style where
  keepsPoint := true
  scientific := fun lead => lead < -4 || 16 ≤ lead

end Style

def zeros (n : Nat) : String :=
  String.ofList (List.replicate n '0')

/-- The digits with a point where the exponent puts it. -/
def positional (style : Style) (d : Decimal) : String :=
  let ds := Nat.toDigits 10 d.digits
  let point := (ds.length : Int) + d.exponent
  if 0 ≤ d.exponent then
    String.ofList ds ++ zeros d.exponent.toNat ++ (if style.keepsPoint then ".0" else "")
  else if 0 < point then
    String.ofList (ds.take point.toNat) ++ "." ++ String.ofList (ds.drop point.toNat)
  else
    "0." ++ zeros (-point).toNat ++ String.ofList ds

/-- One digit before the point and the exponent after an `e`. -/
def withExponent (d : Decimal) : String :=
  let ds := Nat.toDigits 10 d.digits
  let lead := (ds.length : Int) - 1 + d.exponent
  let fraction := ds.drop 1
  String.ofList (ds.take 1) ++ (if fraction.isEmpty then "" else "." ++ String.ofList fraction) ++
    "e" ++ toString lead

/-- The text of a decimal in the given style. -/
def text (style : Style) (d : Decimal) : String :=
  let lead := (width d.digits : Int) - 1 + d.exponent
  if d.digits ≠ 0 ∧ style.scientific lead then d.withExponent else d.positional style

end Decimal

namespace Double

/-- The text of a double in the given style. -/
def textIn (style : Decimal.Style) (x : Double) : String :=
  if x.isNaN then "NaN"
  else
    let sign := if x.isNegative then "-" else ""
    if x.magnitude = 0x7ff0000000000000 then sign ++ "inf" else sign ++ x.decimal.text style

/-- The text that the language prints. -/
def text (x : Double) : String :=
  x.textIn .plain

/-- The text in listings and outlines. -/
def literal (x : Double) : String :=
  x.textIn .literal

end Double

end Marmoset
