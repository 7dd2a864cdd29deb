import Marmoset.Proofs.Operands

/-!
# Slots that are written before they are read

The locals of a call that are no parameters hold whatever lay on the stack before, until the call
writes them. `Walk` are the ways through code, from its start to some instruction, with the slots
that are written on the way; `CompiledFunction.WritesFirst` says that on no way a slot is read that
was not written.

A reader can find out about all ways in one pass over the text, because jumps go forward: behind
each instruction it knows the slots written on the ways through the text and what was written before
each jump (`Trail`).

* **`CompiledFunction.writesFirst_of_isSettled`** — a function that passes this test writes its
  slots first.
-/

namespace Marmoset

/-- The slots of the call that an instruction writes. -/
def Instr.writes (i : Instr) : List Nat :=
  if i.op = .setLocal then [i.first] else []

/-- The ways through code: they lead from the start to the end of `before`, and the slots of the
last argument are written on the way. -/
inductive Walk (is : List Instr) : (before after : List Instr) → List Nat → Prop where
  | start : Walk is [] is []
  | next {before after : List Instr} {i : Instr} {w : List Nat} (h : Walk is before (i :: after) w)
      (hj : i.op ≠ .jump) (hr : i.returns = false) : Walk is (before ++ [i]) after (i.writes ++ w)
  | jump {before mid after : List Instr} {i : Instr} {w : List Nat}
      (h : Walk is before (i :: (mid ++ after)) w)
      (hj : i.jumps = true) (target : i.first = extent (before ++ i :: mid)) :
      Walk is (before ++ i :: mid) after w

lemma Walk.split {is before after : List Instr} {w : List Nat} (h : Walk is before after w) :
    is = before ++ after := by
  induction h with
  | start => rfl
  | next _ _ _ ih => simpa using ih
  | jump _ _ _ ih => simpa using ih

/-- Whichever way a call takes through its code, the slots that it reads are parameters or were
written before. -/
def CompiledFunction.WritesFirst (fn : CompiledFunction) : Prop :=
  ∀ is, fn.code.Reads is → ∀ before i after w, Walk is before (i :: after) w → i.op = .getLocal →
    i.first < fn.params.toNat ∨ i.first ∈ w

/-! ## A test in one pass -/

/-- What is known behind some instructions: the slots written on all ways that lead on through the
text, if there are such ways, and the jumps so far, each with the slots written before it. -/
structure Trail where
  through : Option (List Nat)
  jumps : List (Nat × List Nat)

/-- The slots written both on the ways through the text and before each jump to byte `pos`. -/
def meet (pos : Nat) (through : Option (List Nat)) : List (Nat × List Nat) → Option (List Nat)
  | [] => through
  | (target, v) :: jumps =>
    if target = pos then
      match meet pos through jumps with
      | none => some v
      | some u => some (u.filter (· ∈ v))
    else meet pos through jumps

lemma meet_through (pos : Nat) (w : List Nat) (jumps : List (Nat × List Nat)) :
    ∃ u, meet pos (some w) jumps = some u ∧ u ⊆ w := by
  induction jumps with
  | nil => exact ⟨w, rfl, List.Subset.refl w⟩
  | cons j jumps ih =>
      obtain ⟨u, hu, hsub⟩ := ih
      rw [meet]
      split
      · rw [hu]
        exact ⟨_, rfl, fun x hx => hsub (List.mem_of_mem_filter hx)⟩
      · exact ⟨u, hu, hsub⟩

lemma meet_jump {pos : Nat} (through : Option (List Nat)) {v : List Nat}
    {jumps : List (Nat × List Nat)} (h : (pos, v) ∈ jumps) :
    ∃ u, meet pos through jumps = some u ∧ u ⊆ v := by
  induction jumps with
  | nil => cases h
  | cons j jumps ih =>
      rw [meet]
      rcases List.mem_cons.mp h with rfl | h
      · rw [if_pos rfl]
        cases meet pos through jumps with
        | none => exact ⟨v, rfl, List.Subset.refl v⟩
        | some u => exact ⟨_, rfl, fun x hx => by simpa using (List.mem_filter.mp hx).2⟩
      · obtain ⟨u, hu, hsub⟩ := ih h
        split
        · rw [hu]
          exact ⟨_, rfl, fun x hx => hsub (List.mem_of_mem_filter hx)⟩
        · exact ⟨u, hu, hsub⟩

namespace Trail

/-- The slots written on all ways to byte `pos`, if there are any. -/
def slots (t : Trail) (pos : Nat) : Option (List Nat) :=
  meet pos t.through t.jumps

/-- What is known behind one more instruction. -/
def pass (t : Trail) (pos : Nat) (i : Instr) : Trail :=
  match t.slots pos with
  | none => ⟨none, t.jumps⟩
  | some w =>
    ⟨if i.op = .jump ∨ i.returns = true then none else some (i.writes ++ w),
      if i.jumps = true then (i.first, w) :: t.jumps else t.jumps⟩

/-- What is known behind instructions that stand from `pos` on. -/
def passAll (t : Trail) (pos : Nat) : List Instr → Trail
  | [] => t
  | i :: is => (t.pass pos i).passAll (pos + i.size) is

/-- Whether an instruction reads what was written on all ways to it, or a parameter. -/
def allows (t : Trail) (params pos : Nat) (i : Instr) : Bool :=
  match t.slots pos with
  | none => true
  | some w => i.op != .getLocal || i.first < params || w.contains i.first

/-- Whether all instructions do. -/
def allowsAll (params : Nat) (t : Trail) (pos : Nat) : List Instr → Bool
  | [] => true
  | i :: is => t.allows params pos i && (t.pass pos i).allowsAll params (pos + i.size) is

lemma passAll_append (t : Trail) (pos : Nat) (xs ys : List Instr) :
    t.passAll pos (xs ++ ys) = (t.passAll pos xs).passAll (pos + extent xs) ys := by
  induction xs generalizing t pos with
  | nil => rfl
  | cons i is ih =>
      rw [List.cons_append, passAll, passAll, ih, extent_cons, Nat.add_assoc]

/-- Jumps are not forgotten. -/
lemma mem_jumps_pass {t : Trail} {j : Nat × List Nat} (h : j ∈ t.jumps) (pos : Nat) (i : Instr) :
    j ∈ (t.pass pos i).jumps := by
  unfold pass
  split
  · exact h
  · dsimp only
    split
    · exact List.mem_cons_of_mem _ h
    · exact h

lemma mem_jumps_passAll {t : Trail} {j : Nat × List Nat} (h : j ∈ t.jumps) (pos : Nat)
    (is : List Instr) :
    j ∈ (t.passAll pos is).jumps := by
  induction is generalizing t pos with
  | nil => exact h
  | cons i is ih => exact ih (mem_jumps_pass h pos i) _

lemma allows_of_allowsAll {params pos : Nat} {t : Trail} {before after : List Instr} {i : Instr}
    (h : t.allowsAll params pos (before ++ i :: after) = true) :
    (t.passAll pos before).allows params (pos + extent before) i = true := by
  induction before generalizing t pos with
  | nil => exact (Bool.and_eq_true_iff.mp h).1
  | cons j js ih =>
      have hrest := ih (Bool.and_eq_true_iff.mp h).2
      rwa [extent_cons, ← Nat.add_assoc]

end Trail

/-- At the start nothing is written. -/
def Trail.start : Trail :=
  ⟨some [], []⟩

/-- What is known at an instruction was written on every way to it. -/
lemma Walk.slots {is before after : List Instr} {w : List Nat} (h : Walk is before after w) :
    ∃ u, (Trail.start.passAll 0 before).slots (extent before) = some u ∧ u ⊆ w := by
  induction h with
  | start => exact ⟨[], rfl, List.Subset.refl _⟩
  | @next before after i w _ hj hr ih =>
      obtain ⟨u, hu, hsub⟩ := ih
      have hpass : (Trail.start.passAll 0 (before ++ [i])).through = some (i.writes ++ u) := by
        rw [Trail.passAll_append, Nat.zero_add]
        simp [Trail.passAll, Trail.pass, hu, hj, hr]
      rw [Trail.slots, hpass]
      obtain ⟨v, hv, hsub'⟩ := meet_through (extent (before ++ [i])) (i.writes ++ u)
        (Trail.start.passAll 0 (before ++ [i])).jumps
      exact ⟨v, hv, List.Subset.trans hsub' (List.append_subset.mpr
        ⟨List.subset_append_left _ _, List.Subset.trans hsub (List.subset_append_right _ _)⟩)⟩
  | @jump before mid after i w _ hj target ih =>
      obtain ⟨u, hu, hsub⟩ := ih
      have hmem : (i.first, u) ∈ (Trail.start.passAll 0 (before ++ i :: mid)).jumps := by
        rw [Trail.passAll_append, Nat.zero_add]
        refine Trail.mem_jumps_passAll ?_ _ mid
        simp [Trail.pass, hu, hj]
      rw [target] at hmem
      obtain ⟨v, hv, hsub'⟩ := meet_jump (Trail.start.passAll 0 (before ++ i :: mid)).through hmem
      exact ⟨v, hv, List.Subset.trans hsub' hsub⟩

/-- The instructions that a stream is the writing of. -/
def Code.instrs (code : Code) : List Instr :=
  (Instruction.decode code.toList).filterMap fun
    | .instruction _ op operands => some ⟨op, operands⟩
    | _ => none

lemma Code.Reads.instrs {code : Code} {is : List Instr} (h : code.Reads is) : code.instrs = is := by
  have hlines (pos : Nat) (is : List Instr) : (linesFrom pos is).filterMap (fun
      | .instruction _ op operands => some (⟨op, operands⟩ : Instr)
      | _ => none) = is := by
    induction is generalizing pos with
    | nil => rfl
    | cons i is ih => simp [linesFrom, ih]
  rw [Code.instrs, h.bytes, decode_bytesOf h.fits]
  exact hlines 0 is

/-- The test. -/
def CompiledFunction.isSettled (fn : CompiledFunction) : Bool :=
  Trail.start.allowsAll fn.params.toNat 0 fn.code.instrs

/-- **A function that passes the test writes its slots first.** -/
theorem CompiledFunction.writesFirst_of_isSettled {fn : CompiledFunction}
    (h : fn.isSettled = true) :
    fn.WritesFirst := by
  intro is hreads before i after w hwalk hop
  rw [isSettled, hreads.instrs, hwalk.split] at h
  have hallows := Trail.allows_of_allowsAll h
  obtain ⟨u, hu, hsub⟩ := hwalk.slots
  rw [Nat.zero_add, Trail.allows, hu] at hallows
  simp only [hop, bne_self_eq_false, Bool.false_or, Bool.or_eq_true, decide_eq_true_eq,
    List.contains_iff_mem] at hallows
  exact hallows.imp id fun hmem => hsub hmem

end Marmoset
