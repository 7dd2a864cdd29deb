/-!
# Variable-length numbers

A number is written seven bits a byte, the low ones first; every byte but the last has its high bit
set.  A reader gives what it takes from the front of the bytes, and the bytes after it.  It has a
budget of bytes and a bound for the last byte it may take, which together keep the number within a
machine word; zero bits that pad a number are accepted.
-/

namespace Marmoset

/-- What stops bytes from being bytecode. -/
inductive FileError where
  | unexpectedEnd
  | badVarint
  | badText
  | unknownTag
deriving DecidableEq, Repr, Inhabited

namespace FileError

def message : FileError → String
  | unexpectedEnd => "Hit the end of buffer, expected more data"
  | badVarint =>
    "Found a varint that didn't terminate. Is the usize too big for this platform?"
  | badText => "Tried to parse invalid utf-8"
  | unknownTag => "Serde Deserialization Error"

end FileError

namespace Varint

/-- The bytes of `n`. -/
def write (n : Nat) : List UInt8 :=
  if n < 128 then [n.toUInt8] else (n % 128 + 128).toUInt8 :: write (n / 128)

/-- Reads at most `budget` bytes; the last of them is at most `last`. -/
def readWithin (last : Nat) : (budget : Nat) → List UInt8 → Except FileError (Nat × List UInt8)
  | 0, _ => .error .badVarint
  | _ + 1, [] => .error .unexpectedEnd
  | budget + 1, b :: bytes =>
    if b.toNat < 128 then
      if budget = 0 ∧ last < b.toNat then .error .badVarint else .ok (b.toNat, bytes)
    else
      match readWithin last budget bytes with
      | .ok (n, rest) => .ok (b.toNat - 128 + 128 * n, rest)
      | .error e => .error e

/-- A number below `2 ^ 64`: ten bytes, the last of which holds one bit. -/
def read64 (bytes : List UInt8) : Except FileError (Nat × List UInt8) :=
  readWithin 1 10 bytes

/-- A number below `2 ^ 32`: five bytes, the last of which holds four bits. -/
def read32 (bytes : List UInt8) : Except FileError (Nat × List UInt8) :=
  readWithin 15 5 bytes

/-- Signed numbers are folded so that those near zero are short: 0, -1, 1, -2, 2, … -/
def fold (n : Int) : Nat :=
  if 0 ≤ n then 2 * n.toNat else 2 * (-n).toNat - 1

def unfold (n : Nat) : Int :=
  if n % 2 = 0 then (n / 2 : Nat) else -((n / 2 : Nat) : Int) - 1

end Varint

end Marmoset
