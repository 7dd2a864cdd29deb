import Marmoset.Text.Cluster.Kind

/-!
# Clusters

A cluster is what a reader takes for one character: a letter with its marks, a Korean syllable, a
flag, or several pictographs that are joined to one.  `clusters` cuts a line into them, by the rules
of Unicode for *extended grapheme clusters*.  A line holds no line feed, so the rule for the two
characters that end a line is not needed.
-/

namespace Marmoset.Text

namespace Cluster

/-- How far a pattern has come that makes the next character attach. -/
inductive Progress where
  | idle
  | begun
  | ready
deriving DecidableEq, Repr, Inhabited

/-- What has to be known of the text so far to tell whether the next character attaches to it. -/
structure Before where
  /-- The kind of the last character. -/
  last : Kind
  /-- Begun by a consonant, and ready when a linker follows it. -/
  conjunct : Progress
  /-- Begun by a pictograph, and ready when a joiner follows it. -/
  picture : Progress
  /-- Whether the text ends in an odd number of halves of flags. -/
  odd : Bool
deriving DecidableEq, Repr, Inhabited

namespace Before

/-- Nothing attaches to the start of the text, as nothing attaches to a control. -/
def start : Before := ⟨.control, .idle, .idle, false⟩

/-- Marks may stand between two consonants and their linker. -/
def conjunctAfter (b : Before) : Kind → Progress
  | .consonant => .begun
  | .linker => if b.conjunct = .idle then .idle else .ready
  | .extender | .joiner => b.conjunct
  | _ => .idle

/-- Marks may stand between a pictograph and its joiner, but nothing after the joiner. -/
def pictureAfter (b : Before) (k : Kind) : Progress :=
  if k = .pictograph then .begun
  else if b.picture = .begun && k.isMark then .begun
  else if b.picture = .begun && k = .joiner then .ready
  else .idle

/-- What is known after one more character. -/
def after (b : Before) (k : Kind) : Before :=
  ⟨k, b.conjunctAfter k, b.pictureAfter k, k = .regional && !b.odd⟩

/-- Whether a Korean syllable that ends in the first goes on with the second. -/
def syllableGoesOn : Kind → Kind → Bool
  | .lead, .lead | .lead, .vowel | .lead, .openSyllable | .lead, .closedSyllable => true
  | .openSyllable, .vowel | .openSyllable, .tail | .vowel, .vowel | .vowel, .tail => true
  | .closedSyllable, .tail | .tail, .tail => true
  | _, _ => false

/-- Whether a character of kind `k` attaches to the text before it. -/
def joins (b : Before) (k : Kind) : Bool :=
  if b.last = .control || k = .control then false
  else if k.attaches || b.last = .prepender then true
  else if k = .consonant then b.conjunct = .ready
  else if k = .pictograph then b.picture = .ready
  else if k = .regional then b.odd
  else syllableGoesOn b.last k

end Before

end Cluster

open Cluster in
/-- Goes on cutting.  `current` is the last cluster so far, from its end, and `done` holds those
before it, the last one first. -/
def clustersFrom (b : Before) (current : List Char) (done : List (List Char)) :
    List Char → List (List Char)
  | [] => (current.reverse :: done).reverse
  | c :: cs =>
    let k := Kind.of c
    if b.joins k then clustersFrom (b.after k) (c :: current) done cs
    else clustersFrom (b.after k) [c] (current.reverse :: done) cs

open Cluster in
/-- The clusters of a line. -/
def clusters : List Char → List (List Char)
  | [] => []
  | c :: cs => clustersFrom (Before.start.after (Kind.of c)) [c] [] cs

theorem flatten_clustersFrom (b : Cluster.Before) (current : List Char) (done : List (List Char))
    (cs : List Char) :
    (clustersFrom b current done cs).flatten = done.reverse.flatten ++ current.reverse ++ cs := by
  induction cs generalizing b current done with
  | nil => simp [clustersFrom]
  | cons c cs ih =>
    simp only [clustersFrom]
    split <;> simp [ih]

/-- Cutting loses nothing. -/
@[simp]
theorem flatten_clusters (cs : List Char) : (clusters cs).flatten = cs := by
  cases cs with
  | nil => rfl
  | cons c cs => simp [clusters, flatten_clustersFrom]

/-! ## Backspaces

A backspace in a line takes back the cluster before it.  How much that is gets counted in bytes, in
a counter of one byte: of a cluster of 256 bytes or more, whole multiples of 256 are left behind. -/

/-- The number of bytes that characters take up. -/
def byteCount : List Char → Nat
  | [] => 0
  | c :: cs => c.utf8Size + byteCount cs

/-- Takes `n` bytes off a text that is held from its end.  A character cannot be cut in two. -/
def dropBytes : Nat → List Char → Option (List Char)
  | 0, cs => some cs
  | _ + 1, [] => none
  | n + 1, c :: cs => if c.utf8Size ≤ n + 1 then dropBytes (n + 1 - c.utf8Size) cs else none

/-- As many bytes as some characters take up are just these characters. -/
theorem dropBytes_byteCount (cs text : List Char) :
    dropBytes (byteCount cs) (cs ++ text) = some text := by
  induction cs with
  | nil => simp [byteCount, dropBytes]
  | cons c cs ih =>
    obtain ⟨n, hn⟩ := Nat.exists_eq_succ_of_ne_zero (Nat.ne_of_gt c.utf8Size_pos)
    have h : byteCount (c :: cs) = (n + byteCount cs) + 1 := by simp only [byteCount]; omega
    rw [h, List.cons_append, dropBytes, if_pos (by omega)]
    rw [show n + byteCount cs + 1 - c.utf8Size = byteCount cs by omega]
    exact ih

/-- Goes through the clusters of a line.  `text` is what stands so far, from its end, and `sizes`
are the counts for the clusters that it was typed in, the last one first. -/
def eraseFrom (text : List Char) (sizes : List Nat) : List (List Char) → Option (List Char)
  | [] => some text
  | g :: gs =>
    if g = ['\x08'] then
      match sizes with
      | [] => eraseFrom text [] gs
      | n :: sizes =>
        match dropBytes n text with
        | some text => eraseFrom text sizes gs
        | none => none
    else eraseFrom (g.reverse ++ text) (byteCount g % 256 :: sizes) gs

/-- A line with its backspaces carried out, unless one of them ends inside a character. -/
def erase (line : String) : Option String :=
  (eraseFrom [] [] (clusters line.toList)).map fun cs => String.ofList cs.reverse

end Marmoset.Text
