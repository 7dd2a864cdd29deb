import Marmoset.Compiler.Buffer
import Marmoset.Machine.Step
import Mathlib.Data.List.Forall2
import Mathlib.Tactic.Common

/-!
# Code as a list of instructions

The machine and the compiler work on bytes.  Everything that is said about compiled code is said
about a list of instructions instead, and this file connects the two.

* `Instr` — an opcode with its operands; `Instr.Fits` says that the operands can be written without
  loss.
* `bytesOf`, `extent` — the bytes of a list of instructions, and how many they are.
* **`decode_bytesOf`** — reading the bytes of fitting instructions gives back these instructions,
  each at the offset where it was written.
* **`Machine.step_instr`** — where the bytes of an instruction stand at the instruction pointer, the
  machine carries out this instruction with these operands.
-/

namespace Marmoset

/-- An instruction with its operands. -/
structure Instr where
  op : Opcode
  operands : List Nat
deriving DecidableEq, Repr, Inhabited

namespace Instr

def bytes (i : Instr) : List UInt8 :=
  Instruction.encode i.op i.operands

/-- The number of bytes. -/
def size (i : Instr) : Nat :=
  1 + i.op.operandBytes

/-- There is an operand for each place, and each can be written without loss. -/
def Fits (i : Instr) : Prop :=
  List.Forall₂ (fun w n => n < Width.bound w) i.op.widths i.operands

/-- The first operand, as the machine reads it. -/
def first (i : Instr) : Nat :=
  i.operands.getD 0 0

/-- The second operand, as the machine reads it. -/
def second (i : Instr) : Nat :=
  i.operands.getD 1 0

lemma size_pos (i : Instr) : 0 < i.size := by
  simp only [size]; omega

end Instr

/-- The bytes of instructions one after the other. -/
def bytesOf (is : List Instr) : List UInt8 :=
  is.flatMap Instr.bytes

/-- The number of bytes that instructions take. -/
def extent : List Instr → Nat
  | [] => 0
  | i :: is => i.size + extent is

@[simp] lemma bytesOf_nil : bytesOf [] = [] := rfl

@[simp] lemma bytesOf_cons (i : Instr) (is : List Instr) :
    bytesOf (i :: is) = i.bytes ++ bytesOf is := rfl

@[simp] lemma bytesOf_append (xs ys : List Instr) :
    bytesOf (xs ++ ys) = bytesOf xs ++ bytesOf ys := by
  simp [bytesOf]

@[simp] lemma extent_nil : extent [] = 0 := rfl

@[simp] lemma extent_cons (i : Instr) (is : List Instr) :
    extent (i :: is) = i.size + extent is := rfl

@[simp] lemma extent_append (xs ys : List Instr) : extent (xs ++ ys) = extent xs + extent ys := by
  induction xs with
  | nil => simp
  | cons i is ih => simp [ih, Nat.add_assoc]

/-- Two prefixes of the same list of instructions that take as many bytes are the same. -/
lemma append_inj_of_extent {xs ys xs' ys' : List Instr} (h : xs ++ ys = xs' ++ ys')
    (hs : extent xs = extent xs') : xs = xs' := by
  induction xs generalizing xs' with
  | nil =>
      cases xs' with
      | nil => rfl
      | cons i is =>
          have := i.size_pos
          simp only [extent_nil, extent_cons] at hs
          omega
  | cons i is ih =>
      cases xs' with
      | nil =>
          have := i.size_pos
          simp only [extent_nil, extent_cons] at hs
          omega
      | cons j js =>
          simp only [List.cons_append, List.cons.injEq] at h
          obtain ⟨rfl, h⟩ := h
          simp only [extent_cons, Nat.add_left_cancel_iff] at hs
          rw [ih h hs]

/-! ## Bytes of one instruction -/

/-- There are four forms of instructions. -/
lemma Opcode.widths_cases (op : Opcode) :
    (op.widths = [] ∧ op.operandBytes = 0) ∨ (op.widths = [.byte] ∧ op.operandBytes = 1) ∨
      (op.widths = [.word] ∧ op.operandBytes = 2) ∨
      (op.widths = [.word, .byte] ∧ op.operandBytes = 3) := by
  cases op <;> simp [Opcode.widths, Opcode.operandBytes]

lemma toNat_toUInt8_of_lt {n : Nat} (h : n < 256) : n.toUInt8.toNat = n := by
  simp [Nat.mod_eq_of_lt h]

/-- The high and the low byte of a word make up the word, less what does not fit. -/
lemma word_of_bytes_mod (n : Nat) :
    (n / 256).toUInt8.toNat * 256 + n.toUInt8.toNat = n % 65536 := by
  simp only [Nat.toUInt8_eq, UInt8.toNat_ofNat', Nat.reducePow]
  omega

/-- A word is read back from its two bytes. -/
lemma word_of_bytes {n : Nat} (h : n < 65536) :
    (n / 256).toUInt8.toNat * 256 + n.toUInt8.toNat = n := by
  rw [word_of_bytes_mod, Nat.mod_eq_of_lt h]

namespace Instr

/-- An instruction that fits has one of four forms. -/
lemma Fits.cases {i : Instr} (h : i.Fits) :
    (i.op.widths = [] ∧ i.op.operandBytes = 0 ∧ i.operands = []) ∨
      (∃ a < 256, i.op.widths = [.byte] ∧ i.op.operandBytes = 1 ∧ i.operands = [a]) ∨
      (∃ a < 65536, i.op.widths = [.word] ∧ i.op.operandBytes = 2 ∧ i.operands = [a]) ∨
      (∃ a < 65536, ∃ b < 256, i.op.widths = [.word, .byte] ∧ i.op.operandBytes = 3 ∧
        i.operands = [a, b]) := by
  unfold Fits at h
  rcases i.op.widths_cases with ⟨hw, hn⟩ | ⟨hw, hn⟩ | ⟨hw, hn⟩ | ⟨hw, hn⟩
  · rw [hw] at h
    exact .inl ⟨hw, hn, List.forall₂_nil_left_iff.mp h⟩
  · rw [hw] at h
    obtain ⟨a, as, ha, h, has⟩ := List.forall₂_cons_left_iff.mp h
    rw [List.forall₂_nil_left_iff] at h
    subst h
    exact .inr (.inl ⟨a, ha, hw, hn, has⟩)
  · rw [hw] at h
    obtain ⟨a, as, ha, h, has⟩ := List.forall₂_cons_left_iff.mp h
    rw [List.forall₂_nil_left_iff] at h
    subst h
    exact .inr (.inr (.inl ⟨a, ha, hw, hn, has⟩))
  · rw [hw] at h
    obtain ⟨a, as, ha, h, has⟩ := List.forall₂_cons_left_iff.mp h
    obtain ⟨b, bs, hb, h, hbs⟩ := List.forall₂_cons_left_iff.mp h
    rw [List.forall₂_nil_left_iff] at h
    subst h; subst hbs
    exact .inr (.inr (.inr ⟨a, ha, b, hb, hw, hn, has⟩))

/-- An instruction that fits has as many bytes as its size says. -/
lemma Fits.length_bytes {i : Instr} (h : i.Fits) : i.bytes.length = i.size := by
  rcases h.cases with ⟨hw, hn, ho⟩ | ⟨a, -, hw, hn, ho⟩ | ⟨a, -, hw, hn, ho⟩
    | ⟨a, -, b, -, hw, hn, ho⟩ <;>
    simp [bytes, size, Instruction.encode, Instruction.encodeOperand, hw, hn, ho]

/-- Reading operands gives back what fits of each. -/
lemma readOperands_encode_mod {ws : List Width} {ns : List Nat} (rest : List UInt8)
    (h : ws.length ≤ ns.length) :
    Instruction.readOperands ws ((List.zipWith Instruction.encodeOperand ws ns).flatten ++ rest) =
      some (List.zipWith (fun w n => n % Width.bound w) ws ns) := by
  induction ws generalizing ns with
  | nil => rfl
  | cons w ws ih =>
      cases ns with
      | nil => simp at h
      | cons n ns =>
          have ih := @ih ns (Nat.le_of_succ_le_succ h)
          cases w with
          | byte =>
              simp only [List.zipWith_cons_cons, Instruction.encodeOperand, List.flatten_cons,
                List.cons_append,
                List.nil_append, Instruction.readOperands, ih, Option.map_some, Width.bound,
                Nat.toUInt8_eq,
                UInt8.toNat_ofNat', Nat.reducePow]
          | word =>
              simp only [List.zipWith_cons_cons, Instruction.encodeOperand, List.flatten_cons,
                List.cons_append,
                List.nil_append, Instruction.readOperands, ih, Option.map_some, Width.bound,
                word_of_bytes_mod]

/-- Reading operands that were written without loss gives them back. -/
lemma readOperands_encode {ws : List Width} {ns : List Nat} (rest : List UInt8)
    (h : List.Forall₂ (fun w n => n < Width.bound w) ws ns) :
    Instruction.readOperands ws ((List.zipWith Instruction.encodeOperand ws ns).flatten ++ rest) =
      some ns := by
  rw [readOperands_encode_mod rest (Nat.le_of_eq h.length_eq)]
  congr 1
  induction h with
  | nil => rfl
  | cons hn _ ih => rw [List.zipWith_cons_cons, Nat.mod_eq_of_lt hn, ih]

end Instr

/-! ## Reading a stream -/

/-- The walk passes over the bytes that are still owed. -/
lemma decodeFrom_owed (xs rest : List UInt8) (offset : Nat) :
    Instruction.decodeFrom offset xs.length (xs ++ rest) =
      Instruction.decodeFrom (offset + xs.length) 0 rest := by
  induction xs generalizing offset with
  | nil => rfl
  | cons x xs ih =>
      simp only [List.length_cons, List.cons_append, Instruction.decodeFrom]
      rw [ih, Nat.add_assoc, Nat.add_comm 1]

/-- One instruction at the front of a stream. -/
lemma decodeFrom_instr {i : Instr} (h : i.Fits) (rest : List UInt8) (offset : Nat) :
    Instruction.decodeFrom offset 0 (i.bytes ++ rest) =
      .instruction offset i.op i.operands :: Instruction.decodeFrom (offset + i.size) 0 rest := by
  have hlen := h.length_bytes
  simp only [Instr.bytes, Instruction.encode, List.length_cons, Instr.size] at hlen
  set operands := (List.zipWith Instruction.encodeOperand i.op.widths i.operands).flatten with ho
  have hn : operands.length = i.op.operandBytes := by omega
  simp only [Instr.bytes, Instruction.encode, ← ho, List.cons_append, Instruction.decodeFrom,
    Opcode.ofByte?_toByte]
  rw [ho, Instr.readOperands_encode rest h, ← ho]
  simp only [← hn, decodeFrom_owed, Instr.size, Nat.add_assoc]

/-- What a reader sees of instructions that stand from `pos` on. -/
def linesFrom (pos : Nat) : List Instr → List Instruction.Line
  | [] => []
  | i :: is => .instruction pos i.op i.operands :: linesFrom (pos + i.size) is

/-- The induction is on the instructions; each is read from the front of the stream. -/
lemma decodeFrom_bytesOf {is : List Instr} (h : ∀ i ∈ is, i.Fits) (offset : Nat) :
    Instruction.decodeFrom offset 0 (bytesOf is) = linesFrom offset is := by
  induction is generalizing offset with
  | nil => rfl
  | cons i is ih =>
      rw [bytesOf_cons, decodeFrom_instr (h i (by simp)), linesFrom,
        ih (fun j hj => h j (List.mem_cons_of_mem _ hj))]

/-- **Reading undoes writing.**  The bytes of instructions that fit are read as these
instructions. -/
theorem decode_bytesOf {is : List Instr} (h : ∀ i ∈ is, i.Fits) :
    Instruction.decode (bytesOf is) = linesFrom 0 is :=
  decodeFrom_bytesOf h 0

/-! ## Carrying out an instruction -/

/-- The instructions `is` stand in the code from `pos` on. -/
def Code.Holds (code : Code) (pos : Nat) (is : List Instr) : Prop :=
  bytesOf is <+: code.toList.drop pos

namespace Code.Holds

variable {code : Code} {pos : Nat} {is xs ys : List Instr}

/-- The first instructions stand where all do. -/
lemma left (h : code.Holds pos (xs ++ ys)) : code.Holds pos xs := by
  rw [Code.Holds, bytesOf_append] at h
  exact (List.prefix_append _ _).trans h

end Code.Holds

lemma length_bytesOf {is : List Instr} (h : ∀ i ∈ is, i.Fits) :
    (bytesOf is).length = extent is := by
  induction is with
  | nil => rfl
  | cons i is ih =>
      rw [bytesOf_cons, List.length_append, extent_cons, (h i (by simp)).length_bytes,
        ih (fun j hj => h j (List.mem_cons_of_mem _ hj))]

namespace Code.Holds

variable {code : Code} {pos : Nat} {is xs ys : List Instr}

/-- The others stand behind them. -/
lemma right (h : code.Holds pos (xs ++ ys)) (hx : ∀ i ∈ xs, i.Fits) :
    code.Holds (pos + extent xs) ys := by
  rw [Code.Holds, bytesOf_append] at h
  obtain ⟨rest, hrest⟩ := h
  refine ⟨rest, ?_⟩
  rw [← List.drop_drop, ← hrest, ← length_bytesOf hx, List.append_assoc, List.drop_left]

/-- The whole code stands at its start. -/
lemma of_eq (h : code.toList = bytesOf is) : code.Holds 0 is :=
  ⟨[], by rw [List.append_nil]; exact h.symm⟩

end Code.Holds

namespace Machine

/-- The byte at an offset, when it is known what stands there. -/
lemma byteAt_of_drop {code : Code} {pos : Nat} {xs : List UInt8} {b : UInt8} {ys : List UInt8}
    (h : code.toList.drop pos = xs ++ b :: ys) : byteAt code (pos + xs.length) = b.toNat := by
  have hb : code.toList[pos + xs.length]? = some b := by
    rw [← List.getElem?_drop, h, List.getElem?_append_right (Nat.le_refl _)]
    simp
  simp only [byteAt, Array.getD_eq_getD_getElem?, ← Array.getElem?_toList, hb, Option.getD_some]

/-- **One step at an instruction.**  Where the bytes of an instruction stand at the instruction
pointer, the machine carries it out; an operand that the opcode does not have is not looked at. -/
theorem step_instr {m : Machine} {i : Instr} (hi : i.Fits)
    (h : m.frame.fn.code.Holds m.frame.ip [i]) :
    ∃ a b, m.step = (m.jump (m.frame.ip + i.size)).execute i.op a b ∧
      (i.operands ≠ [] → a = i.first) ∧ (1 < i.operands.length → b = i.second) := by
  obtain ⟨rest, hrest⟩ := h
  simp only [bytesOf_cons, bytesOf_nil, List.append_nil] at hrest
  set code := m.frame.fn.code with hcode
  set ip := m.frame.ip with hip
  have hget : code[ip]? = some i.op.toByte := by
    rw [← Array.getElem?_toList, ← Nat.add_zero ip, ← List.getElem?_drop, ← hrest]
    simp [Instr.bytes, Instruction.encode]
  have hsize : ¬ code.size < ip + 1 + i.op.operandBytes := by
    have hlen := congrArg List.length hrest
    have hne : i.bytes.length = 1 + i.op.operandBytes := hi.length_bytes
    simp only [List.length_append, List.length_drop, Array.length_toList] at hlen
    omega
  refine ⟨firstOperand code i.op ip, byteAt code (ip + 3), ?_, ?_⟩
  · simp only [step, ← hcode, ← hip, hget, Opcode.ofByte?_toByte, if_neg hsize, Instr.size]
    rw [Nat.add_assoc]
  · rcases hi.cases with ⟨hw, hn, ho⟩ | ⟨a, ha, hw, hn, ho⟩ | ⟨a, ha, hw, hn, ho⟩ |
      ⟨a, ha, b, hb, hw, hn, ho⟩
    · simp [ho]
    · have h1 : code.toList.drop ip = [i.op.toByte] ++ a.toUInt8 :: rest := by
        rw [← hrest]; simp [Instr.bytes, Instruction.encode, Instruction.encodeOperand, hw, ho]
      have e1 : byteAt code (ip + 1) = _ := byteAt_of_drop h1
      refine ⟨fun _ => ?_, by simp [ho]⟩
      rw [firstOperand, if_pos hn, e1, toNat_toUInt8_of_lt ha]
      simp [Instr.first, ho]
    · have h1 : code.toList.drop ip = [i.op.toByte] ++ (a / 256).toUInt8 ::
          (a.toUInt8 :: rest) := by
        rw [← hrest]; simp [Instr.bytes, Instruction.encode, Instruction.encodeOperand, hw, ho]
      have h2 : code.toList.drop ip = [i.op.toByte, (a / 256).toUInt8] ++ a.toUInt8 :: rest := by
        rw [h1]; simp
      have e1 : byteAt code (ip + 1) = _ := byteAt_of_drop h1
      have e2 : byteAt code (ip + 2) = _ := byteAt_of_drop h2
      refine ⟨fun _ => ?_, by simp [ho]⟩
      rw [firstOperand, if_neg (by omega), wordAt, e1, e2, word_of_bytes ha]
      simp [Instr.first, ho]
    · have h1 : code.toList.drop ip =
          [i.op.toByte] ++ (a / 256).toUInt8 :: (a.toUInt8 :: b.toUInt8 :: rest) := by
        rw [← hrest]; simp [Instr.bytes, Instruction.encode, Instruction.encodeOperand, hw, ho]
      have h2 : code.toList.drop ip =
          [i.op.toByte, (a / 256).toUInt8] ++ a.toUInt8 :: (b.toUInt8 :: rest) := by
        rw [h1]; simp
      have h3 : code.toList.drop ip =
          [i.op.toByte, (a / 256).toUInt8, a.toUInt8] ++ b.toUInt8 :: rest := by
        rw [h1]; simp
      have e1 : byteAt code (ip + 1) = _ := byteAt_of_drop h1
      have e2 : byteAt code (ip + 2) = _ := byteAt_of_drop h2
      have e3 : byteAt code (ip + 3) = _ := byteAt_of_drop h3
      refine ⟨fun _ => ?_, fun _ => ?_⟩
      · rw [firstOperand, if_neg (by omega), wordAt, e1, e2, word_of_bytes ha]
        simp [Instr.first, ho]
      · rw [e3, toNat_toUInt8_of_lt hb]
        simp [Instr.second, ho]

end Machine

end Marmoset
