import Marmoset.Bytecode.File
import Mathlib.Tactic.Common

/-!
# Bytecode files are read back

A file is written piece by piece, and each piece is read back by a reader of its own.  `File.Takes`
says of a reader that it takes exactly the bytes of a piece: whatever follows is left alone, and
where the piece is cut off, at any place, the end is found missing and nothing else.  Readers that
run one after the other take the pieces one after the other (`File.Takes.andThen`), so there is one
lemma for each kind of piece.

`Bytecode.ofBytes_toBytes` is the statement for whole files.  The counts in a file are machine
words, so it asks that the lengths of the program are (`Bytecode.Sized`), as they are of everything
that fits in memory.
-/

namespace Marmoset

namespace File

/-- What takes something from the front of the bytes and leaves the rest. -/
abbrev Reader (α : Type) := List UInt8 → Except FileError (α × List UInt8)

/-- The reader takes exactly these bytes and makes `a` of them; of a part of them it misses the
end. -/
structure Takes {α : Type} (read : Reader α) (bytes : List UInt8) (a : α) : Prop where
  whole : ∀ rest, read (bytes ++ rest) = .ok (a, rest)
  cut : ∀ part, part <+: bytes → part ≠ bytes → read part = .error .unexpectedEnd

namespace Takes

variable {α β : Type} {read : Reader α} {f : α → Reader β} {xs ys : List UInt8} {a : α} {b : β}

/-- One reader after the other. -/
lemma andThen (h : Takes read xs a) (h' : Takes (f a) ys b) :
    Takes (fun bytes => read bytes >>= fun r => f r.1 r.2) (xs ++ ys) b where
  whole rest := by
    show (read (xs ++ ys ++ rest) >>= fun r => f r.1 r.2) = _
    rw [List.append_assoc, h.whole]
    exact h'.whole rest
  cut part hp hne := by
    show (read part >>= fun r => f r.1 r.2) = _
    -- the cut is either in the first piece or behind it
    rcases List.prefix_or_prefix_of_prefix hp (List.prefix_append xs ys) with hx | ⟨zs, rfl⟩
    · by_cases he : part = xs
      · subst he
        have hy : ([] : List UInt8) ≠ ys := by
          rintro rfl
          exact hne (List.append_nil _).symm
        have hr := h.whole []
        rw [List.append_nil] at hr
        rw [hr]
        exact h'.cut [] List.nil_prefix hy
      · rw [h.cut part hx he]
        rfl
    · rw [h.whole zs]
      exact h'.cut zs ((List.prefix_append_right_inj xs).mp hp) (fun he => hne (by rw [he]))

/-- A last step that takes nothing. -/
lemma finish (h : Takes read xs a) (hf : ∀ rest, f a rest = .ok (b, rest)) :
    Takes (fun bytes => read bytes >>= fun r => f r.1 r.2) xs b := by
  have hnil : Takes (f a) [] b := ⟨hf, fun part hp hne => absurd (List.prefix_nil.mp hp) hne⟩
  have hboth := h.andThen hnil
  rwa [List.append_nil] at hboth

end Takes

end File

namespace Varint

open File

/-- A number of seven bits is one byte. -/
lemma write_of_lt {n : Nat} (h : n < 128) : write n = [n.toUInt8] := by
  rw [write, if_pos h]

/-- Another one starts with a byte that says that more follow. -/
lemma write_of_le {n : Nat} (h : 128 ≤ n) :
    write n = (n % 128 + 128).toUInt8 :: write (n / 128) := by
  rw [write, if_neg (Nat.not_lt.mpr h)]

/-- A number is read back if the budget of `k + 1` bytes is enough for it. -/
lemma takes_readWithin {last : Nat} (hlast : last < 128) (k n : Nat)
    (hn : n < Nat.pow 128 k * (last + 1)) :
    Takes (readWithin last (k + 1)) (write n) n := by
  -- a number below 128 is one byte, with any budget
  have hshort : ∀ k m, m < 128 → (k = 0 → m ≤ last) →
      Takes (readWithin last (k + 1)) (write m) m := by
    intro k m hm hk
    rw [write_of_lt hm]
    have hb : m.toUInt8.toNat = m := by simp; omega
    refine ⟨fun rest => ?_, fun part hp hne => ?_⟩
    · show readWithin last (k + 1) (m.toUInt8 :: rest) = _
      rw [readWithin, hb, if_pos hm, if_neg]
      rintro ⟨h0, hlt⟩
      exact absurd (hk h0) (Nat.not_le.mpr hlt)
    · rcases List.prefix_cons_iff.mp hp with rfl | ⟨t, rfl, ht⟩
      · rfl
      · rw [List.prefix_nil.mp ht] at hne
        exact absurd rfl hne
  induction k generalizing n with
  | zero =>
      have hn : n ≤ last := by simpa [Nat.lt_succ_iff] using hn
      exact hshort 0 n (Nat.lt_of_le_of_lt hn hlast) (fun _ => hn)
  | succ k ih =>
      rcases Nat.lt_or_ge n 128 with hlt | hge
      · exact hshort (k + 1) n hlt (fun h0 => absurd h0 (Nat.succ_ne_zero k))
      · have hdiv : n / 128 < Nat.pow 128 k * (last + 1) := by
          rw [Nat.div_lt_iff_lt_mul (by decide)]
          calc n < Nat.pow 128 (k + 1) * (last + 1) := hn
            _ = Nat.pow 128 k * (last + 1) * 128 := Nat.mul_right_comm ..
        have hb : (n % 128 + 128).toUInt8.toNat = n % 128 + 128 := by simp; omega
        have ih := ih (n / 128) hdiv
        rw [write_of_le hge]
        refine ⟨fun rest => ?_, fun part hp hne => ?_⟩
        · show readWithin last (k + 1 + 1)
            ((n % 128 + 128).toUInt8 :: (write (n / 128) ++ rest)) = _
          rw [readWithin, hb, if_neg (by omega), ih.whole]
          simp only [Except.ok.injEq, Prod.mk.injEq, and_true]
          omega
        · rcases List.prefix_cons_iff.mp hp with rfl | ⟨t, rfl, ht⟩
          · rfl
          · rw [readWithin, hb, if_neg (by omega), ih.cut t ht (fun he => hne (by rw [he]))]

/-- Ten bytes are enough for every machine word. -/
lemma takes_read64 {n : Nat} (h : n < UInt64.size) : Takes read64 (write n) n :=
  takes_readWithin (by decide) 9 n h

/-- Signs are folded in without loss. -/
lemma unfold_fold (n : Int) : unfold (fold n) = n := by
  simp only [fold, unfold]
  split_ifs <;> omega

/-- A folded machine word is a machine word. -/
lemma fold_lt (n : Int64) : fold n.toInt < UInt64.size := by
  have hlow := n.le_toInt
  have hhigh := n.toInt_lt
  simp only [fold, UInt64.size]
  split_ifs <;> omega

end Varint

namespace File

open Varint

/-! ## Pieces -/

lemma takes_readBytes (xs : List UInt8) : Takes (readBytes xs.length) xs xs where
  whole rest := by
    simp only [readBytes, List.take_left, List.drop_left, if_neg (Nat.lt_irrefl _)]
  cut part hp hne := by
    have hlt : part.length < xs.length :=
      Nat.lt_of_le_of_ne hp.length_le (fun he => hne (hp.eq_of_length he))
    have htake : (part.take xs.length).length < xs.length := by
      rw [List.length_take]
      omega
    simp only [readBytes, if_pos htake]

/-- Code stands behind its length. -/
lemma takes_readCode {code : Code} (h : code.size < UInt64.size) :
    Takes readCode (writeCode code) code :=
  (takes_read64 h).andThen
    (f := fun n bytes => readBytes n bytes >>= fun r => .ok (r.1.toArray, r.2))
    ((takes_readBytes code.toList).finish (f := fun taken rest => .ok (taken.toArray, rest))
      fun _ => rfl)

/-- Bytes from the lowest on make up the number. -/
lemma bitsOf_lowBytes (k n : Nat) : bitsOf (lowBytes k n) = n % Nat.pow 256 k := by
  induction k generalizing n with
  | zero => simp [lowBytes, bitsOf, Nat.mod_one]
  | succ k ih =>
      have hb : n.toUInt8.toNat = n % 256 := by simp
      calc bitsOf (lowBytes (k + 1) n) = n.toUInt8.toNat + 256 *
        bitsOf (lowBytes k (n / 256)) := rfl
        _ = n % 256 + 256 * (n / 256 % Nat.pow 256 k) := by rw [hb, ih]
        _ = n % (256 * Nat.pow 256 k) := (Nat.mod_mul ..).symm
        _ = n % Nat.pow 256 (k + 1) := by rw [Nat.mul_comm]; rfl

lemma length_lowBytes (k n : Nat) : (lowBytes k n).length = k := by
  induction k generalizing n with
  | zero => rfl
  | succ k ih => rw [lowBytes, List.length_cons, ih]

/-- A float stands in eight bytes. -/
lemma takes_readBits (bits : UInt64) : Takes readBits (writeBits bits) bits := by
  have hbits : (bitsOf (writeBits bits)).toUInt64 = bits := by
    rw [writeBits, bitsOf_lowBytes, Nat.mod_eq_of_lt bits.toNat_lt]
    exact UInt64.ofNat_toNat
  have h := takes_readBytes (writeBits bits)
  rw [writeBits, length_lowBytes, ← writeBits] at h
  exact h.finish (f := fun taken rest => .ok ((bitsOf taken).toUInt64, rest)) fun rest =>
    by rw [hbits]

/-- A text is read back from its bytes. -/
lemma fromUTF8?_toUTF8 (s : String) : String.fromUTF8? s.toUTF8 = some s :=
  dif_pos s.isValidUTF8

/-- The text whose bytes were taken. -/
def textOf (taken : List UInt8) : Reader String := fun rest =>
  match String.fromUTF8? ⟨taken.toArray⟩ with
  | some s => .ok (s, rest)
  | none => .error .badText

lemma textOf_toUTF8 (s : String) (rest : List UInt8) :
    textOf s.toUTF8.data.toList rest = .ok (s, rest) := by
  have hs : String.fromUTF8? ⟨s.toUTF8.data.toList.toArray⟩ = some s := fromUTF8?_toUTF8 s
  simp only [textOf, hs]

/-- A text stands behind the number of its bytes. -/
lemma takes_readString {s : String} (h : s.utf8ByteSize < UInt64.size) :
    Takes readString (writeString s) s := by
  refine (takes_read64 h).andThen
    (f := fun n bytes => readBytes n bytes >>= fun r => textOf r.1 r.2) ?_
  exact (takes_readBytes s.toUTF8.data.toList).finish (f := textOf) (textOf_toUTF8 s)

/-- A function is its code and its two counts. -/
lemma takes_readFunction {fn : CompiledFunction} (h : fn.code.size < UInt64.size) :
    Takes readFunction (writeFunction fn) fn := by
  rw [writeFunction, List.append_assoc]
  refine (takes_readCode h).andThen
    (f := fun code bytes => read64 bytes >>= fun l => read64 l.2 >>= fun p =>
      .ok (CompiledFunction.mk code l.1.toUInt64 p.1.toUInt64, p.2)) ?_
  refine (takes_read64 fn.locals.toNat_lt).andThen
    (f := fun locals bytes => read64 bytes >>= fun p =>
      .ok (CompiledFunction.mk fn.code locals.toUInt64 p.1.toUInt64, p.2)) ?_
  refine (takes_read64 fn.params.toNat_lt).finish
    (f := fun params rest =>
      .ok (CompiledFunction.mk fn.code fn.locals.toNat.toUInt64 params.toUInt64, rest)) fun rest =>
        ?_
  simp

/-! ## Constants -/

/-- A constant is read by the reader that its tag stands for. -/
lemma Takes.tagged {tag : UInt8} {read : Reader Constant} {xs : List UInt8} {c : Constant}
    (h : Takes read xs c) (htag : ∀ bytes, readConstant (tag :: bytes) = read bytes) :
    Takes readConstant (tag :: xs) c where
  whole rest := by rw [List.cons_append, htag, h.whole]
  cut part hp hne := by
    rcases List.prefix_cons_iff.mp hp with rfl | ⟨t, rfl, ht⟩
    · rfl
    · rw [htag, h.cut t ht (fun he => hne (by rw [he]))]

end File

/-- The lengths in a constant are machine words. -/
def Constant.Sized : Constant → Prop
  | .integer _ | .float _ => True
  | .string s => s.utf8ByteSize < UInt64.size
  | .function f => f.code.size < UInt64.size

/-- All lengths of a program are machine words. -/
structure Bytecode.Sized (b : Bytecode) : Prop where
  code : b.code.size < UInt64.size
  count : b.constants.size < UInt64.size
  constants : ∀ c ∈ b.constants, c.Sized

namespace File

open Varint

/-- Every kind of constant is read back, by its tag. -/
lemma takes_readConstant {c : Constant} (h : c.Sized) : Takes readConstant (writeConstant c) c := by
  cases c with
  | integer n =>
      refine ((takes_read64 (fold_lt n)).finish
        (f := fun m rest => .ok (.integer (Int64.ofInt (unfold m)), rest)) fun rest =>
          ?_).tagged fun _ => rfl
      rw [unfold_fold, Int64.ofInt_toInt]
  | float x =>
      exact ((takes_readBits x.bits).finish (f := fun bits rest => .ok (.float ⟨bits⟩, rest))
        fun _ => rfl).tagged fun _ => rfl
  | string s =>
      exact ((takes_readString h).finish (f := fun s rest => .ok (.string s, rest))
        fun _ => rfl).tagged fun _ => rfl
  | function fn =>
      exact ((takes_readFunction h).finish (f := fun fn rest => .ok (.function fn, rest))
        fun _ => rfl).tagged fun _ => rfl

/-- One constant after the other. -/
lemma readConstants_succ (acc : Array Constant) (n : Nat) (bytes : List UInt8) :
    readConstants acc (n + 1) bytes =
      readConstant bytes >>= fun r => readConstants (acc.push r.1) n r.2 := by
  rw [readConstants]
  cases readConstant bytes <;> rfl

/-- The induction is on the constants that are still to be written. -/
lemma takes_readConstants {cs : List Constant} (h : ∀ c ∈ cs, c.Sized) (acc : Array Constant) :
    Takes (readConstants acc cs.length) (cs.flatMap writeConstant) (acc ++ cs) := by
  induction cs generalizing acc with
  | nil =>
      exact ⟨fun rest => by simp [readConstants],
        fun part hp hne => absurd (List.prefix_nil.mp hp) hne⟩
  | cons c cs ih =>
      have hc := takes_readConstant (h c (by simp))
      have hcs := ih (fun d hd => h d (List.mem_cons_of_mem _ hd)) (acc.push c)
      have hboth := hc.andThen (f := fun c => readConstants (acc.push c) cs.length) hcs
      simp only [← readConstants_succ] at hboth
      simpa using hboth

/-! ## Whole files -/

/-- The constants after their number. -/
def readPool : Reader (Array Constant) := fun bytes => do
  let (n, bytes) ← read64 bytes
  readConstants #[] n bytes

/-- A program and what follows it in the file. -/
def readProgram : Reader Bytecode := fun bytes => do
  let (code, bytes) ← readCode bytes
  let (constants, rest) ← readPool bytes
  return (⟨code, constants⟩, rest)

/-- A file is a program, and what follows is dropped. -/
lemma ofBytes_eq (bytes : List UInt8) :
    Bytecode.ofBytes bytes = (readProgram bytes).map Prod.fst := by
  simp only [Bytecode.ofBytes, readProgram, readPool]
  cases readCode bytes with
  | error e => rfl
  | ok r =>
      obtain ⟨code, bytes⟩ := r
      show (read64 bytes >>= _) = ((read64 bytes >>= _) >>= _ : Except FileError _).map _
      cases read64 bytes with
      | error e => rfl
      | ok r =>
          obtain ⟨n, bytes⟩ := r
          show (readConstants #[] n bytes >>= _) = (readConstants #[] n bytes >>= _).map _
          cases readConstants #[] n bytes <;> rfl

/-- A program is its code, the number of its constants and the constants. -/
lemma takes_readProgram {b : Bytecode} (h : b.Sized) : Takes readProgram b.toBytes b := by
  have hsized : ∀ c ∈ b.constants.toList, c.Sized := by simpa using h.constants
  have hconstants : Takes (readConstants #[] b.constants.size)
      (b.constants.toList.flatMap writeConstant)
      b.constants := by
    simpa using takes_readConstants hsized #[]
  have hpool : Takes readPool _ b.constants :=
    (takes_read64 h.count).andThen (f := fun n => readConstants #[] n) hconstants
  rw [Bytecode.toBytes, List.append_assoc]
  refine (takes_readCode h.code).andThen
    (f := fun code bytes => do
      let (constants, rest) ← readPool bytes
      return (Bytecode.mk code constants, rest)) ?_
  exact hpool.finish (f := fun constants rest => .ok (Bytecode.mk b.code constants, rest)) fun _ =>
    rfl

end File

namespace Bytecode

open File

/-- **A file is read back.**  What follows the program in the file does not matter, and from every
part of the file that lacks its end nothing is read but that the end is missing. -/
theorem ofBytes_toBytes {b : Bytecode} (h : b.Sized) :
    (∀ rest, ofBytes (b.toBytes ++ rest) = .ok b) ∧
      ∀ part, part <+: b.toBytes → part ≠ b.toBytes → ofBytes part = .error .unexpectedEnd := by
  have hb := takes_readProgram h
  refine ⟨fun rest => ?_, fun part hp hne => ?_⟩
  · rw [ofBytes_eq, hb.whole rest]
    rfl
  · rw [ofBytes_eq, hb.cut part hp hne]
    rfl

/-- A program with a constant of each kind, and a count of locals that takes two bytes. -/
def assorted : Bytecode :=
  ⟨#[0, 0, 0, 1],
    #[.integer (-5), .float ⟨0x7ff8000000000001⟩, .string "né", .function ⟨#[29, 0, 26], 300, 1⟩]⟩

/-- The file is read with a byte too many, and cut in the middle of that count. -/
theorem assorted_read_back :
    assorted.Sized ∧ ofBytes (assorted.toBytes ++ [7]) = .ok assorted ∧
      assorted.toBytes.take 28 ≠ assorted.toBytes ∧
      ofBytes (assorted.toBytes.take 28) = .error .unexpectedEnd := by
  have h : assorted.Sized := by
    refine ⟨by decide, by decide, fun c hc => ?_⟩
    simp only [assorted, List.mem_toArray, List.mem_cons, List.not_mem_nil, or_false] at hc
    rcases hc with rfl | rfl | rfl | rfl <;> simp only [Constant.Sized] <;> decide
  have hne : assorted.toBytes.take 28 ≠ assorted.toBytes := by decide +kernel
  exact ⟨h, (ofBytes_toBytes h).1 [7], hne, (ofBytes_toBytes h).2 _ (List.take_prefix ..) hne⟩

end Bytecode

end Marmoset
