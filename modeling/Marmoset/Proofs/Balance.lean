import Marmoset.Proofs.Emission

/-!
# Stack heights

How many values the code of a part takes off the stack and leaves there, and where its jumps go.

A height is followed through the text of the code, from one instruction to the one behind it.
Behind a `jump` stands the other branch of a conditional, which starts without the value that the
first branch left; so in the text a `jump` counts as taking a value.  `Balanced` says that every
instruction finds what it takes, and that a jump goes forward to an instruction that stands at the
height with which the jump arrives.

* **`Emits.balanced`** — the code of every part is balanced and leaves the values that the part is
  to leave.
* `Emits.balanced_asBody` — so is the code of a function, which moreover ends in a return.
* `Emits.drops` — the code of statements ends by taking values from the stack.
-/

namespace Marmoset

namespace Instr

/-- How many values an instruction takes off the stack. -/
def takes (i : Instr) : Nat :=
  match i.op with
  | .pop | .minus | .bang | .jumpNotTruthy | .setGlobal | .setLocal | .returnValue => 1
  | .add | .sub | .mul | .div | .equal | .notEqual | .greater | .greaterEqual | .and | .or
  | .getIndex => 2
  | .setIndex => 3
  | .array | .hash => i.first
  | .call => i.first + 1
  | .closure => i.second
  | _ => 0

/-- How many values an instruction leaves. -/
def gives (i : Instr) : Nat :=
  match i.op with
  | .pop | .jumpNotTruthy | .jump | .setGlobal | .setLocal | .setIndex | .returnValue
  | .returnNil => 0
  | _ => 1

/-- Whether an instruction may go somewhere else. -/
def jumps (i : Instr) : Bool :=
  i.op == .jump || i.op == .jumpNotTruthy

/-- Whether an instruction leaves the function. -/
def returns (i : Instr) : Bool :=
  i.op == .returnValue || i.op == .returnNil

/-- The instruction takes values and gives none, as the last one of a statement does. -/
def Drops (i : Instr) : Prop :=
  i.gives = 0 ∧ 0 < i.takes

/-- The height at the instruction that stands behind. -/
def next (i : Instr) (height : Nat) : Nat :=
  if i.op = .jump then height - 1 else height - i.takes + i.gives

end Instr

/-- The height behind the code. -/
def height (h : Nat) : List Instr → Nat
  | [] => h
  | i :: is => height (i.next h) is

@[simp] lemma height_nil (h : Nat) : height h [] = h := rfl

@[simp] lemma height_cons (h : Nat) (i : Instr) (is : List Instr) :
    height h (i :: is) = height (i.next h) is := rfl

@[simp] lemma height_append (h : Nat) (xs ys : List Instr) :
    height h (xs ++ ys) = height (height h xs) ys := by
  induction xs generalizing h with
  | nil => rfl
  | cons i is ih => exact ih (i.next h)

/-- The code from byte `pos` on, entered at height `h`, finds what it takes, and its jumps go to
where their height is expected: not behind the last instruction, if the code is all there is. -/
def Balanced (whole : Bool) : Nat → Nat → List Instr → Prop
  | _, _, [] => True
  | pos, h, i :: is =>
      i.takes ≤ h ∧
      (i.jumps = true → ∃ mid rest, is = mid ++ rest ∧ (whole = true → rest ≠ []) ∧
        i.first = pos + i.size + extent mid ∧ height (i.next h) mid = h - i.takes) ∧
      Balanced whole (pos + i.size) (i.next h) is

namespace Balanced

variable {w w' : Bool} {pos h : Nat} {xs ys : List Instr} {i : Instr}

/-- Code behind code.  A jump to the end of the first goes to the start of the second. -/
lemma append (hx : Balanced w pos h xs) (hy : Balanced w' (pos + extent xs) (height h xs) ys)
    (hw : w' = true → w = true ∨ ys ≠ []) : Balanced w' pos h (xs ++ ys) := by
  induction xs generalizing pos h with
  | nil => exact hy
  | cons i is ih =>
      obtain ⟨htakes, hjump, hrest⟩ := hx
      refine ⟨htakes, fun hj => ?_, ih hrest ?_⟩
      · obtain ⟨mid, rest, rfl, hne, htarget, hheight⟩ := hjump hj
        refine ⟨mid, rest ++ ys, by simp, fun h' => ?_, htarget, hheight⟩
        rcases hw h' with hw | hys
        · simp [hne hw]
        · simp [hys]
      · rwa [extent_cons, ← Nat.add_assoc] at hy

/-- The code from any instruction on. -/
lemma right (hxy : Balanced w pos h (xs ++ ys)) :
    Balanced w (pos + extent xs) (height h xs) ys := by
  induction xs generalizing pos h with
  | nil => exact hxy
  | cons i is ih =>
      have h' := ih hxy.2.2
      rwa [extent_cons, ← Nat.add_assoc]

/-- An instruction that does not jump. -/
lemma single (w : Bool) (pos : Nat) (ht : i.takes ≤ h) (hj : i.jumps = false) :
    Balanced w pos h [i] :=
  ⟨ht, fun h' => absurd (hj.symm.trans h') (by simp), trivial⟩

/-- One more instruction, which does not jump, at the end. -/
lemma concat (hx : Balanced w pos h xs) (ht : i.takes ≤ height h xs) (hj : i.jumps = false)
    (w' : Bool) :
    Balanced w' pos h (xs ++ [i]) :=
  hx.append (single w' _ ht hj) fun _ => .inr (by simp)

/-- Without the last instruction, jumps may go to the end. -/
lemma dropLast (hx : Balanced true pos h (xs ++ [i])) : Balanced false pos h xs := by
  induction xs generalizing pos h with
  | nil => trivial
  | cons j is ih =>
      obtain ⟨htakes, hjump, hrest⟩ := hx
      refine ⟨htakes, fun hj => ?_, ih hrest⟩
      obtain ⟨mid, rest, heq, hne, htarget, hheight⟩ := hjump hj
      obtain ⟨rest, k, rfl⟩ := (List.eq_nil_or_concat' rest).resolve_left (hne rfl)
      rw [← List.append_assoc] at heq
      exact ⟨mid, rest, (List.append_inj' heq rfl).1, by simp, htarget, hheight⟩

end Balanced

/-! ## The code of the parts -/

/-- How many values a part leaves. -/
def Part.pushes : Part → Nat
  | .expr _ | .branch _ => 1
  | .exprs es => es.length
  | .pairs ps => ps.length * 2
  | .stmt _ | .stmts _ => 0

/-- Whether the end of a part is out of reach of its own jumps. -/
def Part.whole : Part → Bool
  | .stmt _ | .stmts _ => true
  | _ => false

lemma Instr.next_of_not_jump {i : Instr} (h : i.jumps = false) (n : Nat) :
    i.next n = n - i.takes + i.gives := by
  rw [next, if_neg]
  intro hj
  rw [jumps, hj] at h
  cases h

lemma Symbol.loadInstr_effect (x : Symbol) :
    x.loadInstr.takes = 0 ∧ x.loadInstr.gives = 1 ∧ x.loadInstr.jumps = false := by
  unfold loadInstr
  cases x.kind <;> exact ⟨rfl, rfl, rfl⟩

lemma Symbol.storeInstr_effect (x : Symbol) :
    x.storeInstr.takes = 1 ∧ x.storeInstr.gives = 0 ∧ x.storeInstr.jumps = false := by
  unfold storeInstr
  cases x.kind <;> exact ⟨rfl, rfl, rfl⟩

lemma Opcode.effect_of_isUnary {op : Opcode} (h : op.isUnary = true) :
    (Instr.plain op).takes = 1 ∧ (Instr.plain op).gives = 1 ∧ (Instr.plain op).jumps = false := by
  cases op <;> first | exact ⟨rfl, rfl, rfl⟩ | cases h

lemma Opcode.effect_of_isBinary {op : Opcode} (h : op.isBinary = true) :
    (Instr.plain op).takes = 2 ∧ (Instr.plain op).gives = 1 ∧ (Instr.plain op).jumps = false := by
  cases op <;> first | exact ⟨rfl, rfl, rfl⟩ | cases h

lemma Expr.effect_of_immediate? {e : Expr} {op : Opcode} (h : e.immediate? = some op) :
    (Instr.plain op).takes = 0 ∧ (Instr.plain op).gives = 1 ∧ (Instr.plain op).jumps = false := by
  unfold immediate? at h
  split at h <;> first | (cases h; exact ⟨rfl, rfl, rfl⟩) | cases h

/-- The code leaves `n` values on top of what was there, at whatever height it is entered. -/
def Leaves (w : Bool) (pos : Nat) (is : List Instr) (n : Nat) : Prop :=
  ∀ h, height h is = h + n ∧ Balanced w pos h is

namespace Leaves

variable {w w' : Bool} {pos n m : Nat} {xs ys : List Instr} {i : Instr}

lemma nil (w : Bool) (pos : Nat) : Leaves w pos [] 0 :=
  fun _ => ⟨rfl, trivial⟩

lemma append (hx : Leaves w pos xs n) (hy : Leaves w' (pos + extent xs) ys m)
    (hw : w' = true → w = true ∨ ys ≠ []) :
    Leaves w' pos (xs ++ ys) (n + m) := by
  intro h
  obtain ⟨hxh, hxb⟩ := hx h
  obtain ⟨hyh, hyb⟩ := hy (h + n)
  refine ⟨by rw [height_append, hxh, hyh, Nat.add_assoc], hxb.append ?_ hw⟩
  rwa [hxh]

/-- An instruction at the end that takes all these values. -/
lemma concat (hx : Leaves w pos xs n) (ht : i.takes = n) (hg : i.gives = m) (hj : i.jumps = false)
    (w' : Bool) :
    Leaves w' pos (xs ++ [i]) m := by
  intro h
  obtain ⟨hxh, hxb⟩ := hx h
  refine ⟨?_, hxb.concat (by omega) hj w'⟩
  rw [height_append, hxh, height_cons, height_nil, i.next_of_not_jump hj, ht, hg,
    Nat.add_sub_cancel]

/-- An instruction by itself that takes nothing and gives a value leaves one value. -/
lemma single (ht : i.takes = 0) (hg : i.gives = 1) (hj : i.jumps = false) (w : Bool) (pos : Nat) :
    Leaves w pos [i] 1 :=
  (nil w pos).concat ht hg hj w

/-- Statements that end in `pop` leave the value if the `pop` is taken back. -/
lemma dropPop (hx : Leaves true pos (xs ++ [.pop]) 0) : Leaves false pos xs 1 := by
  intro h
  obtain ⟨hxh, hxb⟩ := hx h
  have htakes : 1 ≤ height h xs := hxb.right.1
  refine ⟨?_, hxb.dropLast⟩
  rw [height_append] at hxh
  have hnext : height h xs - 1 + 0 = h + 0 := hxh
  omega

end Leaves

lemma leaves_loads (xs : List Symbol) (w : Bool) (pos : Nat) :
    Leaves w pos (xs.map Symbol.loadInstr) xs.length := by
  induction xs generalizing pos with
  | nil => exact .nil w pos
  | cons x xs ih =>
      obtain ⟨ht, hg, hj⟩ := x.loadInstr_effect
      have h := (Leaves.single ht hg hj w pos).append (ih _) fun hw => .inl hw
      rwa [Nat.add_comm] at h

/-- A branch leaves a value. -/
lemma leaves_asBranch {ss : List Stmt} {pos : Nat} {is : List Instr}
    (hend : Part.EndsIn (.stmts ss) is) (h : Leaves true pos is 0) :
    Leaves false pos (asBranch is) 1 := by
  rcases asBranch_cases hend with ⟨init, rfl, -, -, heq⟩ | ⟨-, heq⟩ <;> rw [heq]
  · exact h.dropPop
  · exact h.append (.single rfl rfl rfl false _) (by simp)

/-- The two jumps of a conditional. -/
lemma leaves_cond {pos : Nat} {is ys ns : List Instr} (hc : Leaves false pos is 1)
    (hy : Leaves false (pos + extent is + 3) ys 1)
    (hn : Leaves false (pos + extent is + 3 + extent ys + 3) ns 1) :
    Leaves false pos
      (is ++ ⟨.jumpNotTruthy, [pos + extent is + 3 + extent ys + 3]⟩ ::
        (ys ++ ⟨.jump, [pos + extent is + 3 + extent ys + 3 + extent ns]⟩ :: ns)) 1 := by
  intro h
  obtain ⟨hch, hcb⟩ := hc h
  obtain ⟨hyh, hyb⟩ := hy h
  obtain ⟨hnh, hnb⟩ := hn h
  refine ⟨?_, hcb.append ?_ (by simp)⟩
  · simp only [height_append, height_cons, hch]
    show height (height h ys - 1) ns = h + 1
    rw [hyh, Nat.add_sub_cancel, hnh]
  · rw [hch]
    refine ⟨by simp [Instr.takes], fun _ => ?_, ?_⟩
    · refine ⟨ys ++ [⟨.jump, [pos + extent is + 3 + extent ys + 3 + extent ns]⟩], ns, by simp,
        by simp, ?_, ?_⟩
      · simp [Instr.first, Instr.size, Opcode.operandBytes]
        omega
      · rw [height_append]
        show height h ys - 1 = h
        rw [hyh, Nat.add_sub_cancel]
    · refine hyb.append ⟨?_, fun _ => ⟨ns, [], by simp, by simp, ?_, ?_⟩, ?_⟩ (by simp)
      · exact Nat.zero_le _
      · simp [Instr.first, Instr.size, Opcode.operandBytes]
      · show height (height h ys - 1) ns = height h ys
        rw [hyh, Nat.add_sub_cancel, hnh]
      · show Balanced false (pos + extent is + 3 + extent ys + 3) (height h ys - 1) ns
        rw [hyh, Nat.add_sub_cancel]
        exact hnb

/-- **Compiled code is balanced.** -/
theorem Emits.balanced {part : Part} {d d' : Draft} {pos : Nat} {is : List Instr}
    (h : Emits part d pos is d') :
    Leaves part.whole pos is part.pushes := by
  induction h with
  | ident _ =>
      obtain ⟨ht, hg, hj⟩ := Symbol.loadInstr_effect _
      exact .single ht hg hj _ _
  | constant _ => exact .single rfl rfl rfl _ _
  | immediate literal =>
      obtain ⟨ht, hg, hj⟩ := Expr.effect_of_immediate? literal
      exact .single ht hg hj _ _
  | array _ ih => exact ih.concat rfl rfl rfl _
  | hash _ ih => exact ih.concat (by rw [Part.pushes, length_sortedPairs]; rfl) rfl rfl _
  | function => exact (leaves_loads _ false _).concat rfl rfl rfl _
  | unary known _ ih =>
      obtain ⟨ht, hg, hj⟩ := Opcode.effect_of_isUnary (Operator.isUnary_of_unary? known)
      exact ih.concat ht hg hj _
  | binary known _ _ ih ih' | swapped known _ _ ih ih' =>
      obtain ⟨ht, hg, hj⟩ := Opcode.effect_of_isBinary (Operator.isBinary_of_binary? known)
      exact (ih.append ih' (by simp [Part.whole])).concat ht hg hj _
  | index _ _ ih ih' => exact (ih.append ih' (by simp [Part.whole])).concat rfl rfl rfl _
  | call _ _ ih ih' =>
      exact (ih.append ih' (by simp [Part.whole])).concat (Nat.add_comm _ _) rfl rfl _
  | cond _ _ _ ih ih' ih'' => exact leaves_cond ih ih' ih''
  | noExprs | noPairs | noStmts => exact .nil _ _
  | exprs _ _ ih ih' =>
      have h := ih.append ih' (by simp [Part.whole])
      rwa [Nat.add_comm] at h
  | pairs _ _ _ ih ih' ih'' =>
      rw [Nat.add_assoc, ← extent_append] at ih''
      have h := (ih.append ih' (by simp [Part.whole])).append ih'' (by simp [Part.whole])
      rw [Nat.add_comm] at h
      simpa [Part.pushes, Part.whole, Nat.succ_mul] using h
  | define _ ih | assign _ ih =>
      obtain ⟨ht, hg, hj⟩ := Symbol.storeInstr_effect _
      exact ih.concat ht hg hj _
  | setIndex _ _ _ ih ih' ih'' =>
      rw [Nat.add_assoc, ← extent_append] at ih''
      exact ((ih.append ih' (by simp [Part.whole])).append ih'' (by simp [Part.whole])).concat
        rfl rfl rfl _
  | ret _ ih | expr _ ih => exact ih.concat rfl rfl rfl _
  | block _ ih => exact ih
  | stmts _ _ ih ih' => exact ih.append ih' fun h => .inl h
  | branch hbody ih => exact leaves_asBranch hbody.endsIn ih

/-- The code of a function starts with nothing on the stack and ends in a return. -/
lemma Emits.balanced_asBody {ss : List Stmt} {d d' : Draft} {is : List Instr}
    (h : Emits (.stmts ss) d 0 is d') :
    Balanced true 0 0 (asBody is) ∧ ∃ init i, asBody is = init ++ [i] ∧ i.returns = true := by
  have hb := h.balanced
  unfold asBody
  by_cases hp : lastOp is = some .pop
  · obtain ⟨init, rfl, -⟩ := h.endsIn hp
    rw [if_pos hp, List.dropLast_concat]
    have hinit := hb.dropPop.concat (i := .plain .returnValue) rfl rfl rfl true
    exact ⟨(hinit 0).2, init, _, rfl, rfl⟩
  · rw [if_neg hp]
    by_cases hr : lastOp is = some .returnValue
    · rw [if_pos hr]
      obtain ⟨init, operands, rfl⟩ := exists_of_lastOp hr
      exact ⟨(hb 0).2, init, _, rfl, rfl⟩
    · rw [if_neg hr]
      have hinit := hb.concat (i := .plain .returnNil) rfl rfl rfl true
      exact ⟨(hinit 0).2, is, _, rfl, rfl⟩

/-! ## The last instruction of statements -/

/-- The code ends in an instruction that drops values. -/
def EndsInDrop (is : List Instr) : Prop :=
  ∃ init i, is = init ++ [i] ∧ i.Drops

/-- How the code of a part ends, if the part is made of statements and there is any code. -/
def Part.Drops : Part → List Instr → Prop
  | .stmt _, is | .stmts _, is => is = [] ∨ EndsInDrop is
  | _, _ => True

/-- Whatever the last statement is, the last instruction stores, pops or returns a value. -/
lemma Emits.drops {part : Part} {d d' : Draft} {pos : Nat} {is : List Instr}
    (h : Emits part d pos is d') :
    part.Drops is := by
  induction h with
  | define _ _ | assign _ _ =>
      obtain ⟨htakes, hgives, -⟩ := Symbol.storeInstr_effect _
      exact .inr ⟨_, _, rfl, hgives, htakes.symm ▸ Nat.one_pos⟩
  | setIndex | ret | expr => exact .inr ⟨_, _, rfl, rfl, by decide⟩
  | block _ ih => exact ih
  | noStmts => exact .inl rfl
  | @stmts _ _ _ _ is _ _ _ _ _ ih ih' =>
      rcases ih' with rfl | ⟨init, i, rfl, hi⟩
      · rw [List.append_nil]
        exact ih
      · exact .inr ⟨is ++ init, i, (List.append_assoc _ _ _).symm, hi⟩
  | _ => trivial

end Marmoset
