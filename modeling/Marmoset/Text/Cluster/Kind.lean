import Marmoset.Text.Marks

/-!
# How characters attach to each other

What a reader takes for one character can consist of several.  Whether two neighbours belong
together is decided by the kinds of characters, which are told apart here.
-/

namespace Marmoset.Text.Cluster

/-- The kinds of characters that have rules of their own. -/
inductive Kind where
  | other
  /-- Nothing attaches to a control, and it attaches to nothing. -/
  | control
  /-- Attaches to the character before it. -/
  | extender
  /-- An extender that binds two consonants. -/
  | linker
  /-- The extender that keeps two consonants apart. -/
  | nonjoiner
  /-- Attaches to the character before it and binds two pictographs. -/
  | joiner
  | spacing
  /-- The character after it attaches to it. -/
  | prepender
  | consonant
  | pictograph
  /-- Half of a flag. -/
  | regional
  /-- The consonant that a Korean syllable starts with. -/
  | lead
  | vowel
  /-- The consonant that a Korean syllable ends with. -/
  | tail
  /-- A Korean syllable that ends with its vowel. -/
  | openSyllable
  /-- A Korean syllable with a consonant at its end. -/
  | closedSyllable
deriving DecidableEq, Repr, Inhabited

namespace Kind

/-- The controls above ASCII. -/
def controls : List (Nat × Nat) :=
  [(0x80, 0x9f), (0xad, 0xad), (0x61c, 0x61c), (0x180e, 0x180e), (0x200b, 0x200b),
   (0x200e, 0x200f), (0x2028, 0x202e), (0x2060, 0x206f), (0xfeff, 0xfeff), (0xfff0, 0xfffb),
   (0x13430, 0x1343f), (0x1bca0, 0x1bca3), (0x1d173, 0x1d17a), (0xe0000, 0xe001f),
   (0xe0080, 0xe00ff), (0xe01f0, 0xe0fff)]

/-- Number signs and the like, which stand in front of what they belong to. -/
def prependers : List (Nat × Nat) :=
  [(0x600, 0x605), (0x6dd, 0x6dd), (0x70f, 0x70f), (0x890, 0x891), (0x8e2, 0x8e2), (0xd4e, 0xd4e),
   (0x110bd, 0x110bd), (0x110cd, 0x110cd), (0x111c2, 0x111c3), (0x113d1, 0x113d1),
   (0x1193f, 0x1193f), (0x11941, 0x11941), (0x11a84, 0x11a89), (0x11d46, 0x11d46),
   (0x11f02, 0x11f02)]

def leads : List (Nat × Nat) :=
  [(0x1100, 0x115f), (0xa960, 0xa97c)]

/-- The vowels of Korean syllables, and those of Kirat Rai, which follow the same rules. -/
def vowels : List (Nat × Nat) :=
  [(0x1160, 0x11a7), (0xd7b0, 0xd7c6), (0x16d63, 0x16d63), (0x16d67, 0x16d6a)]

def tails : List (Nat × Nat) :=
  [(0x11a8, 0x11ff), (0xd7cb, 0xd7fb)]

/-- The part that a character has in a syllable.  Whole Korean syllables come in groups of 28, of
which the first is open. -/
def ofSyllable (n : Nat) : Kind :=
  if inRanges leads n then .lead
  else if inRanges vowels n then .vowel
  else if inRanges tails n then .tail
  else if 0xac00 ≤ n && n ≤ 0xd7a3 then
    if (n - 0xac00) % 28 = 0 then .openSyllable else .closedSyllable
  else .other

/-- The kind of a character above ASCII.  The signs that change the colour of a pictograph are
extenders. -/
def ofWide (c : Char) : Kind :=
  let n := c.toNat
  if inRanges controls n then .control
  else if n = 0x200c then .nonjoiner
  else if n = 0x200d then .joiner
  else if Conjunct.isLinker c then .linker
  else if Extender.contains c || (0x1f3fb ≤ n && n ≤ 0x1f3ff) then .extender
  else if Spacing.contains c then .spacing
  else if inRanges prependers n then .prepender
  else if Conjunct.isConsonant c then .consonant
  else if Pictograph.contains c then .pictograph
  else if 0x1f1e6 ≤ n && n ≤ 0x1f1ff then .regional
  else ofSyllable n

/-- The kind of a character. -/
def of (c : Char) : Kind :=
  if c.toNat < 128 then
    if c.toNat < 32 || c.toNat == 127 then .control else .other
  else ofWide c

/-- Whether a character of this kind attaches to the one before, whatever that is. -/
def attaches : Kind → Bool
  | extender | linker | nonjoiner | joiner | spacing => true
  | _ => false

/-- Whether a character of this kind may stand between a pictograph and its joiner. -/
def isMark : Kind → Bool
  | extender | linker | nonjoiner => true
  | _ => false

end Kind

end Marmoset.Text.Cluster
