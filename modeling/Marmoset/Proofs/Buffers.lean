import Marmoset.Proofs.Assembly

/-!
# What a buffer holds

A buffer is a stream of bytes and a note of its last two instructions.  `Buffer.Tracks` says that it
is the writing of a list of instructions, and that the note is right as far as it is used: the last
but one instruction is only asked for when a `pop` at the end is taken back.

* `Buffer.Tracks.emit` — writing an instruction appends it to the list.
* `Buffer.Tracks.patch` — writing over a jump changes this one instruction of the list.
* `Buffer.Tracks.dropLast`, `Buffer.Tracks.returnLast` — a `pop` at the end is taken back, or gives
  way to `returnValue`.
-/

namespace Marmoset

namespace Code

@[simp] lemma toList_append (code : Code) (bytes : List UInt8) :
    (code.append bytes).toList = code.toList ++ bytes := by
  induction bytes generalizing code with
  | nil => simp [append]
  | cons b bytes ih =>
      show (append (code.push b) bytes).toList = _
      rw [ih]
      simp

/-- Bytes are put in the place of as many others. -/
lemma toList_overwrite {code : Code} {position : Nat} {xs old ys bytes : List UInt8}
    (h : code.toList = xs ++ old ++ ys) (hp : position = xs.length)
    (hl : old.length = bytes.length) :
    (code.overwrite position bytes).toList = xs ++ bytes ++ ys := by
  induction bytes generalizing code position xs old with
  | nil =>
      cases old with
      | nil => exact h
      | cons _ _ => cases hl
  | cons b bytes ih =>
      cases old with
      | nil => cases hl
      | cons o old =>
          have hset : (code.setIfInBounds position b).toList = (xs ++ [b]) ++ old ++ ys := by
            rw [Array.toList_setIfInBounds, h, hp]
            simp
          rw [overwrite, ih hset (by simp [hp]) (Nat.succ.inj hl)]
          simp

lemma toList_truncate {code : Code} {length : Nat} {xs ys : List UInt8} (h : code.toList = xs ++ ys)
    (hl : length = xs.length) : (code.truncate length).toList = xs := by
  rw [truncate, Array.toList_shrink, h, hl, List.take_left]

end Code

/-! ## The last instruction -/

/-- The opcode at the end. -/
def lastOp (is : List Instr) : Option Opcode :=
  is.getLast?.map Instr.op

/-- What a buffer notes of the last instruction. -/
def lastOf (is : List Instr) : Option Emitted :=
  is.getLast?.map fun i => ⟨i.op, extent is.dropLast⟩

@[simp] lemma lastOp_nil : lastOp [] = none := rfl

@[simp] lemma lastOp_append_singleton (is : List Instr) (i : Instr) :
    lastOp (is ++ [i]) = some i.op := by
  simp [lastOp]

/-- The end of code that is not empty decides. -/
lemma lastOp_append (xs : List Instr) {ys : List Instr} (h : ys ≠ []) :
    lastOp (xs ++ ys) = lastOp ys := by
  rw [lastOp, lastOp, List.getLast?_append_of_ne_nil xs h]

lemma lastOp_cons (i : Instr) {ys : List Instr} (h : ys ≠ []) : lastOp (i :: ys) = lastOp ys :=
  lastOp_append [i] h

lemma op_of_lastOf {is : List Instr} : (lastOf is).map Emitted.op = lastOp is := by
  simp [lastOf, lastOp, Function.comp_def]

@[simp] lemma lastOf_append_singleton (is : List Instr) (i : Instr) :
    lastOf (is ++ [i]) = some ⟨i.op, extent is⟩ := by
  simp [lastOf]

/-- How long code is depends on its opcodes only. -/
lemma extent_congr {xs ys : List Instr} (h : xs.map Instr.op = ys.map Instr.op) :
    extent xs = extent ys := by
  induction xs generalizing ys with
  | nil =>
      rw [List.map_nil, eq_comm, List.map_eq_nil_iff] at h
      rw [h]
  | cons x xs ih =>
      cases ys with
      | nil => cases h
      | cons y ys =>
          simp only [List.map_cons, List.cons.injEq] at h
          rw [extent_cons, extent_cons, ih h.2, Instr.size, Instr.size, h.1]

/-- What a buffer notes depends on the opcodes only. -/
lemma lastOf_congr {xs ys : List Instr} (h : xs.map Instr.op = ys.map Instr.op) :
    lastOf xs = lastOf ys := by
  have key (is : List Instr) :
      lastOf is = (is.map Instr.op).getLast?.map fun op => ⟨op, extent is.dropLast⟩ := by
    simp [lastOf, Function.comp_def]
  have hdrop : xs.dropLast.map Instr.op = ys.dropLast.map Instr.op := by
    rw [List.map_dropLast, List.map_dropLast, h]
  rw [key, key, h, extent_congr hdrop]

/-- Code with an instruction at its end. -/
lemma exists_of_lastOp {is : List Instr} {op : Opcode} (h : lastOp is = some op) :
    ∃ init operands, is = init ++ [⟨op, operands⟩] := by
  rcases List.eq_nil_or_concat' is with rfl | ⟨init, i, rfl⟩
  · cases h
  · rw [lastOp_append_singleton, Option.some.injEq] at h
    subst h
    exact ⟨init, i.operands, rfl⟩

/-- The `pop` instruction. -/
abbrev Instr.pop : Instr := ⟨.pop, []⟩

/-- An instruction without operands. -/
abbrev Instr.plain (op : Opcode) : Instr := ⟨op, []⟩

/-- Fitting code that ends in `pop`. -/
lemma exists_of_lastOp_pop {is : List Instr} (hf : ∀ i ∈ is, i.Fits) (h : lastOp is = some .pop) :
    ∃ init, is = init ++ [.pop] := by
  obtain ⟨init, operands, rfl⟩ := exists_of_lastOp h
  have hfit : List.Forall₂ _ Opcode.pop.widths operands := hf ⟨.pop, operands⟩ (by simp)
  rw [List.forall₂_nil_left_iff.mp hfit]
  exact ⟨init, rfl⟩

namespace Buffer

/-- The buffer holds the instructions `is`. -/
structure Tracks (b : Buffer) (is : List Instr) : Prop where
  fits : ∀ i ∈ is, i.Fits
  code : b.code.toList = bytesOf is
  last : b.last = lastOf is
  previous : lastOp is = some .pop → b.previous = lastOf is.dropLast

namespace Tracks

variable {b : Buffer} {is : List Instr}

lemma empty : Buffer.empty.Tracks [] :=
  ⟨by simp, rfl, rfl, by simp⟩

lemma size (h : b.Tracks is) : b.code.size = extent is := by
  rw [← Array.length_toList, h.code, length_bytesOf h.fits]

lemma emit (h : b.Tracks is) {i : Instr} (hi : i.Fits) :
    (b.emit i.op i.operands).Tracks (is ++ [i]) where
  fits := by
    intro j hj
    rcases List.mem_append.mp hj with hj | hj
    · exact h.fits j hj
    · rw [List.mem_singleton.mp hj]
      exact hi
  code := by
    show (Code.append _ _).toList = _
    rw [Code.toList_append, h.code, bytesOf_append, bytesOf_cons, bytesOf_nil, List.append_nil]
    rfl
  last := by
    rw [lastOf_append_singleton, ← h.size]
    rfl
  previous := by
    intro _
    rw [List.dropLast_concat]
    exact h.last

/-- The buffer knows its last opcode. -/
lemma endsWith (h : b.Tracks is) (op : Opcode) : b.endsWith op = true ↔ lastOp is = some op := by
  rw [← op_of_lastOf, Buffer.endsWith, h.last]
  cases lastOf is with
  | none => simp
  | some e => simp

/-- Writing over an instruction with other operands changes this instruction and nothing else. -/
lemma patch {xs ys : List Instr} {op : Opcode} {old operands : List Nat}
    (h : b.Tracks (xs ++ ⟨op, old⟩ :: ys)) (hi : Instr.Fits ⟨op, operands⟩) :
    (b.patch (extent xs) op operands).Tracks (xs ++ ⟨op, operands⟩ :: ys) := by
  have hold : Instr.Fits ⟨op, old⟩ := h.fits _ (by simp)
  have hxs : ∀ i ∈ xs, i.Fits := fun i hi => h.fits i (by simp [hi])
  have hops : (xs ++ ⟨op, operands⟩ :: ys).map Instr.op = (xs ++ ⟨op, old⟩ :: ys).map Instr.op := by
    simp
  have hlast : lastOf (xs ++ ⟨op, operands⟩ :: ys) = lastOf (xs ++ ⟨op, old⟩ :: ys) :=
    lastOf_congr hops
  refine ⟨?_, ?_, h.last.trans hlast.symm, ?_⟩
  · intro i hmem
    rcases List.mem_append.mp hmem with hmem | hmem
    · exact hxs i hmem
    · rcases List.mem_cons.mp hmem with rfl | hmem
      · exact hi
      · exact h.fits i (by simp [hmem])
  · have hcode : b.code.toList = bytesOf xs ++ Instr.bytes ⟨op, old⟩ ++ bytesOf ys := by
      rw [h.code]; simp
    have hlen : (Instr.bytes ⟨op, old⟩).length = (Instr.bytes ⟨op, operands⟩).length := by
      rw [hold.length_bytes, hi.length_bytes]; rfl
    show (b.code.overwrite (extent xs) (Instr.bytes ⟨op, operands⟩)).toList = _
    rw [Code.toList_overwrite hcode (length_bytesOf hxs).symm hlen]
    simp
  · intro hpop
    rw [← op_of_lastOf, hlast, op_of_lastOf] at hpop
    refine (h.previous hpop).trans (lastOf_congr ?_)
    rw [List.map_dropLast, List.map_dropLast, hops]

/-- A `pop` at the end is taken back.  There is no other one before it, so nothing has to be known
of what stands further back. -/
lemma dropLast (h : b.Tracks (is ++ [.pop])) (hp : lastOp is ≠ some .pop) :
    b.dropLast.Tracks is := by
  have hlast : b.last = some ⟨.pop, extent is⟩ := by
    rw [h.last, lastOf_append_singleton]
  have hprev : b.previous = lastOf is := by
    rw [h.previous (lastOp_append_singleton _ _), List.dropLast_concat]
  have hfits : ∀ i ∈ is, i.Fits := fun i hi => h.fits i (by simp [hi])
  have hcode : b.code.toList = bytesOf is ++ bytesOf [.pop] := by
    rw [h.code, bytesOf_append]
  simp only [Buffer.dropLast, hlast, hprev]
  exact ⟨hfits, Code.toList_truncate hcode (length_bytesOf hfits).symm, rfl,
    fun hpop => absurd hpop hp⟩

/-- A `pop` at the end gives way to `returnValue`. -/
lemma returnLast (h : b.Tracks (is ++ [.pop])) :
    b.returnLast.Tracks (is ++ [.plain .returnValue]) := by
  have hlast : b.last = some ⟨.pop, extent is⟩ := by
    rw [h.last, lastOf_append_singleton]
  have hfits : ∀ i ∈ is, i.Fits := fun i hi => h.fits i (by simp [hi])
  have hret : Instr.Fits (.plain .returnValue) := .nil
  have hcode : b.code.toList = bytesOf is ++ Instr.bytes .pop ++ [] := by
    rw [h.code]; simp
  simp only [Buffer.returnLast, hlast]
  refine ⟨?_, ?_, by simp, by simp⟩
  · intro i hi
    rcases List.mem_append.mp hi with hi | hi
    · exact hfits i hi
    · rw [List.mem_singleton.mp hi]
      exact hret
  · have hlen : (Instr.bytes .pop).length = (Instr.bytes (.plain .returnValue)).length := rfl
    show (b.code.overwrite (extent is) (Instr.bytes (.plain .returnValue))).toList = _
    rw [Code.toList_overwrite hcode (length_bytesOf hfits).symm hlen]
    simp

end Tracks

end Buffer

end Marmoset
