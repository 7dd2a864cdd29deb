import Marmoset.Store

/-!
# Equality by content

The language compares arrays and hashes by place.  Equality by content looks into them: arrays are
equal if their elements are, hashes if they have the same keys with equal values, in any order.
Compiled functions are equal if their code is; all else that has a place is equal to itself only.
-/

namespace Marmoset

namespace Store

/-- Equality by content, looking at most `fuel` deep. -/
def equalWithin (s : Store) : (fuel : Nat) → Value → Value → Bool
  | 0, a, b => a.identical b
  | fuel + 1, a, b =>
    match a, b with
    | .float x, .float y => x.same y
    | .array i, .array j =>
      let xs := (s.array i).toList
      let ys := (s.array j).toList
      i == j ||
        (xs.length == ys.length && (xs.zip ys).all fun (x, y) => equalWithin s fuel x y)
    | .hash i, .hash j =>
      i == j ||
        ((s.hash i).size == (s.hash j).size &&
          (s.hash i).entries.all fun (k, x) =>
            match (s.hash j).find? k with
            | some y => equalWithin s fuel k.toValue k.toValue && equalWithin s fuel x y
            | none => false)
    | .compiled _ f, .compiled _ g => f == g
    | a, b => a.identical b

/-- Equality by content.  Values that do not contain themselves are no deeper than the store is
large. -/
def equal (s : Store) (a b : Value) : Bool :=
  s.equalWithin (s.arrays.size + s.hashes.size + 2) a b

end Store

end Marmoset
