import Marmoset.Proofs.Simulation

/-!
# The statements of a scope

A function and the top level of a program are lists of statements.  Their code is run one statement
after the other, and ends in a return: that of a function in an instruction, that of the program
behind its last byte.

What the engines agree in may depend on the statements that are still to be done.  `Site.Performs`
says that each statement leads from what they agree in before it to what they agree in behind it.

* **`Site.Performs.body`** — then the code of a function returns what the evaluator has for its
  statements.
* **`Site.Performs.top`** — and so does a program that ends in an expression.
* **`Site.Tracks.top`** — the same for a program as one part, where its names are kept track of.
-/

namespace Marmoset

open Joint (Arrived)

/-! ## How code ends -/

lemma asBody_append (is : List Instr) {js : List Instr} (h : js ≠ []) :
    asBody (is ++ js) = is ++ asBody js := by
  rw [asBody, asBody, lastOp_append is h]
  split_ifs
  · rw [List.dropLast_append_of_ne_nil h, List.append_assoc]
  · rfl
  · rw [List.append_assoc]

@[simp] lemma asBody_pop (is : List Instr) :
    asBody (is ++ [.pop]) = is ++ [.plain .returnValue] := by
  rw [asBody, lastOp_append_singleton, if_pos rfl, List.dropLast_concat]

@[simp] lemma asBody_returnValue (is : List Instr) :
    asBody (is ++ [.plain .returnValue]) = is ++ [.plain .returnValue] := by
  rw [asBody, lastOp_append_singleton, if_neg (by simp), if_pos rfl]

lemma asBody_of_op (is : List Instr) {i : Instr} (hp : i.op ≠ .pop) (hr : i.op ≠ .returnValue) :
    asBody (is ++ [i]) = is ++ [i] ++ [.plain .returnNil] := by
  rw [asBody, lastOp_append_singleton, if_neg fun h => hp (Option.some.inj h),
    if_neg fun h => hr (Option.some.inj h)]

lemma Symbol.storeInstr_ne_returnValue (x : Symbol) : x.storeInstr.op ≠ .returnValue := by
  unfold Symbol.storeInstr
  cases x.kind <;> simp

namespace Site.Stage

variable {c : Site} {A : Joint → Prop} {d d' : Draft} {pos h : Nat} {is : List Instr}
  {b : Joint} {v : Value}
  {Q : Value → Joint → Prop}

/-- The function returns without a value. -/
lemma retNil (hst : c.Stage A d pos [.plain .returnNil] d' b) :
    b.Follows c b.machine.sp (.next b.machine) (throw (.returned .nil)) Q := by
  have hcode := hst.code
  rw [← hst.ip] at hcode
  obtain ⟨before, rest, hs⟩ := hst.safe.stands (hst.fits _ List.mem_cons_self) hcode
  have hinside : (!b.machine.callers.isEmpty) = true := hs.instr_inRange
  refine hst.instr (.of_returned rfl ?_)
  refine Joint.leads_leave (pos + 1) b.machine.sp hst.core hst.safe (.plain rfl) fun hnil => ?_
  rw [hnil] at hinside
  cases hinside

/-- The program is at its end, and the value popped last is its outcome. -/
lemma finish (hst : c.Stage A d pos [] d' b) (hend : b.machine.frame.fn.code.size = pos)
    (hcallers : b.machine.callers = []) (hv : b.machine.lastPopped.Like b.store.functions.size v) :
    b.Follows c h (.next b.machine) (throw (.returned v)) Q := by
  have hstep : b.machine.step = .done b.machine := by
    have hnone : b.machine.frame.fn.code[b.machine.frame.ip]? = none := by
      rw [hst.ip, ← hend]
      exact Array.getElem?_size
    simp only [Machine.step, hnone, Machine.leave, hcallers]
  refine .of_returned rfl (.of_step ?_)
  rw [hstep]
  refine .here ?_
  rw [Joint.Returns, hcallers]
  exact ⟨b.machine, rfl, hv, hst.core.like⟩

/-- The last value of the program is popped, and is its outcome. -/
lemma finishPop (hst : c.Stage A d pos [.pop] d' b) (hat : b.At pos h [v])
    (hend : b.machine.frame.fn.code.size = pos + extent [.pop]) (hcallers : b.machine.callers = [])
    (hh : b.machine.frame.base ≤ h) : b.Follows c h (.next b.machine) (throw (.returned v)) Q := by
  rw [← pure_bind v fun w => (throw (.returned w) : Eval Value)]
  refine (hst.pop hat).bind hst.safe hh hst.callers ?_
  rintro w b₁ hk hs ⟨⟨ha, hat'⟩, hv⟩
  have hst' : c.Stage A d pos ([.pop] ++ []) d' b := hst
  have hst₁ := hst'.next hst.stable ha hst.good hk hs hat'.ip
  refine hst₁.finish ?_ ?_ ?_
  · rw [hk.frame.fn, hend]
  · rw [hk.callers, hcallers]
  · have hsp : b₁.machine.sp = h := hat'.sp
    rw [Machine.lastPopped, hsp]
    exact hv

end Site.Stage

/-! ## One statement after the other -/

namespace Site

/-- The engines agree as `I` says, where the statements of a list are still to be done. -/
structure Performs (c : Site) (I : SymbolTable → List Stmt → Joint → Prop) : Prop where
  stable : ∀ t ss, Joint.Stable (I t ss)
  plain : ∀ {t ss b}, I t ss b → ∀ s ∈ ss, s.isPlain = true
  /-- What is done for its value. -/
  value : ∀ {d d' : Draft} {s e ss pos is b}, s = .expr e ∨ s = .ret e →
    Emits (.expr e) d pos is d' →
    c.Stage (I d.symbols (s :: ss)) d pos is d' b →
    (Part.expr e).Follows c (I d'.symbols ss) (pos + extent is) b
  stmt : ∀ {d d' : Draft} {s ss pos is b}, Emits (.stmt s) d pos is d' →
    c.Stage (I d.symbols (s :: ss)) d pos is d' b →
    (Part.stmt s).Follows c (I d'.symbols ss) (pos + extent is) b

namespace Performs

variable {c : Site} {I : SymbolTable → List Stmt → Joint → Prop} (hI : c.Performs I)
  {d d₁ d' : Draft} {pos : Nat}
  {is rest : List Instr} {b : Joint} {s : Stmt} {ss : List Stmt} {Q : Value → Joint → Prop}

include hI

/-- The value of an expression is returned. -/
lemma returns {e : Expr} (hs : s = .expr e ∨ s = .ret e) (he : Emits (.expr e) d pos is d')
    (hst : c.Stage (I d.symbols (s :: ss)) d pos (is ++ [.plain .returnValue]) d' b) :
    b.Follows c b.machine.sp (.next b.machine)
      (e.eval c.call c.env >>= fun v => throw (.returned v)) Q := by
  refine hst.bind (g := fun v => [v]) he hst.ground_le (Nat.le_refl _) (hI.stable _ _)
    (hI.value hs he (hst.first (.refl _))) (fun _ _ h => h) ?_
  rintro v b₁ - hst₁ ⟨-, hat₁⟩
  exact hst₁.ret hat₁

/-- A statement without a value is the last one. -/
lemma returnsNil (hem : Emits (.stmt s) d pos is d') (hne : ∀ e, s ≠ .expr e)
    (hst : c.Stage (I d.symbols [s]) d pos (is ++ [.plain .returnNil]) d' b) :
    b.Follows c b.machine.sp (.next b.machine)
      (s.eval c.call c.env >>= fun v => throw (.returned v)) Q := by
  rw [← Stmt.eval_bind_nil _ _ (hI.plain hst.agrees s List.mem_cons_self) hne, bind_assoc]
  simp only [pure_bind]
  refine hst.bind (g := fun _ => []) hem hst.ground_le (Nat.le_refl _) (hI.stable _ _)
    (hI.stmt hem (hst.first (.refl _))) (fun _ _ h => h) ?_
  rintro v b₁ - hst₁ ⟨-, hat₁⟩
  have hsp : b₁.machine.sp = b.machine.sp := hat₁.sp
  rw [← hsp]
  exact hst₁.retNil

/-- **The code of a function returns what the evaluator has for its statements.** -/
theorem body (hem : Emits (.stmts ss) d pos is d')
    (hst : c.Stage (I d.symbols ss) d pos (asBody is) d' b) :
    b.Follows c b.machine.sp (.next b.machine)
      (Stmt.evalAll c.call c.env .nil ss >>= fun v => throw (.returned v)) Q := by
  induction ss generalizing d pos is b with
  | nil =>
      cases hem
      exact hst.retNil
  | cons s ss ih =>
      cases hem with
      | stmts hhead htail =>
          cases ss with
          | nil =>
              cases htail
              rw [List.append_nil] at hst
              rw [Stmt.evalAll_single]
              cases hhead with
              | expr he =>
                  rw [asBody_pop] at hst
                  exact hI.returns (.inl rfl) he hst
              | ret he =>
                  rw [asBody_returnValue] at hst
                  rw [Stmt.eval, bind_assoc]
                  exact hI.returns (.inr rfl) he hst
              | define he =>
                  rw [asBody_of_op _ (Symbol.storeInstr_ne_pop _)
                    (Symbol.storeInstr_ne_returnValue _)] at hst
                  exact hI.returnsNil (.define he) (by simp) hst
              | assign he =>
                  rw [asBody_of_op _ (Symbol.storeInstr_ne_pop _)
                    (Symbol.storeInstr_ne_returnValue _)] at hst
                  exact hI.returnsNil (.assign he) (by simp) hst
              | setIndex he he' he'' =>
                  rw [asBody_of_op _ (by simp) (by simp)] at hst
                  exact hI.returnsNil (.setIndex he he' he'') (by simp) hst
              | block _ => cases hI.plain hst.agrees _ List.mem_cons_self
          | cons s' ss =>
              have hne := htail.ne_nil_of_stmts (hI.plain hst.agrees s' (by simp))
              rw [asBody_append _ hne] at hst
              rw [Stmt.evalAll, bind_assoc]
              refine hst.bind (g := fun _ => []) hhead hst.ground_le (Nat.le_refl _) (hI.stable _ _)
                (hI.stmt hhead (hst.first htail.grows)) (fun _ _ h => h) ?_
              rintro v b₁ - hst₁ ⟨-, hat₁⟩
              have hsp : b₁.machine.sp = b.machine.sp := hat₁.sp
              rw [← hsp, Stmt.evalAll_last _ _ (List.cons_ne_nil s' ss) v .nil]
              exact ih htail hst₁

/-- **A program that ends in an expression returns what the evaluator has for its statements.** -/
theorem top {e : Expr} (last : Value) (hem : Emits (.stmts (ss ++ [.expr e])) d pos is d')
    (hst : c.Stage (I d.symbols (ss ++ [.expr e])) d pos is d' b)
    (hend : b.machine.frame.fn.code.size = pos + extent is) (hcallers : b.machine.callers = []) :
    b.Follows c b.machine.sp (.next b.machine)
      (Evaluator.evalTop c.call c.env last (ss ++ [.expr e]) >>=
        fun v => throw (.returned v)) Q := by
  induction ss generalizing d pos is b last with
  | nil =>
      cases hem with
      | stmts hhead htail =>
          cases htail
          cases hhead with
          | @expr _ _ _ is _ he =>
              rw [List.append_nil] at hst hend
              rw [List.nil_append, Evaluator.evalTop, bind_assoc]
              refine hst.bind (g := fun v => [v]) he hst.ground_le (Nat.le_refl _) (hI.stable _ _)
                (hI.value (.inl rfl) he (hst.first (.refl _))) (fun _ _ h => h) ?_
              rintro v b₁ hk₁ hst₁ ⟨-, hat₁⟩
              have hbase : b₁.machine.frame.base ≤ b.machine.sp := by
                have hg := hk₁.ground ▸ hst.ground_le
                rw [Machine.ground] at hg
                omega
              rw [Evaluator.evalTop, pure_bind]
              refine hst₁.finishPop hat₁ ?_ (hk₁.callers.trans hcallers) hbase
              rw [hk₁.frame.fn, hend, extent_append, Nat.add_assoc]
  | cons s ss ih =>
      cases hem with
      | @stmts _ _ _ _ is _ _ _ hhead htail =>
          rw [List.cons_append, Evaluator.evalTop, bind_assoc]
          refine hst.bind (g := fun _ => []) hhead hst.ground_le (Nat.le_refl _) (hI.stable _ _)
            (hI.stmt hhead (hst.first htail.grows)) (fun _ _ h => h) ?_
          rintro v b₁ hk₁ hst₁ ⟨-, hat₁⟩
          have hsp : b₁.machine.sp = b.machine.sp := hat₁.sp
          rw [← hsp]
          refine ih _ htail hst₁ ?_ ?_
          · rw [hk₁.frame.fn, hend, extent_append, Nat.add_assoc]
          · rw [hk₁.callers, hcallers]

end Performs

end Site

/-! ## Where names are kept track of -/

/-- The value of the last expression is that of the program. -/
lemma Evaluator.evalTop_eq (call : Nat → List Value → Eval Value) (env : Nat) (last last' : Value)
    (ss : List Stmt) (e : Expr) :
    evalTop call env last (ss ++ [.expr e]) = Stmt.evalAll call env last' (ss ++ [.expr e]) := by
  induction ss generalizing last last' with
  | nil => rfl
  | cons s ss ih =>
      rw [List.cons_append, evalTop, Stmt.evalAll]
      congr 1
      funext v
      exact ih _ v

/-- **A program that ends in an expression runs as it is evaluated**, if what is known of its names
changes as it should. -/
theorem Site.Tracks.top {K : Type} {c : Site} {T : Tracking K} {A : SymbolTable → K → Joint → Prop}
    (hT : c.Tracks T A) (hcalls : c.CallsAgree) {d d' : Draft} {pos : Nat} {is : List Instr}
    {b : Joint} {ss : List Stmt} {e : Expr} {k k' : K} {Q : Value → Joint → Prop} (last : Value)
    (hp : T.Passes c (.branch (ss ++ [.expr e])) k b.store k')
    (hem : Emits (.stmts (ss ++ [.expr e])) d pos is d')
    (hst : c.Stage (A d.symbols k) d pos is d' b)
    (hend : b.machine.frame.fn.code.size = pos + extent is) (hcallers : b.machine.callers = []) :
    b.Follows c b.machine.sp (.next b.machine)
      (Evaluator.evalTop c.call c.env last (ss ++ [.expr e]) >>=
        fun v => throw (.returned v)) Q := by
  have hbranch : Emits (.branch (ss ++ [.expr e])) d pos (asBranch is) d' := .branch hem
  have hr := hbranch.simulates hT hcalls
  obtain ⟨js, rfl⟩ := hem.ends_in_pop
  rw [asBranch_pop] at hbranch hr
  rw [Evaluator.evalTop_eq _ _ last .nil]
  refine hst.bind (g := fun v => [v]) hbranch hst.ground_le (Nat.le_refl _) (hT.stable _ _)
    (hr hp (hst.first (.refl _))) (fun _ _ h => h) ?_
  rintro v b₁ hk₁ hst₁ ⟨-, hat₁⟩
  have hbase : b₁.machine.frame.base ≤ b.machine.sp := by
    have hg := hk₁.ground ▸ hst.ground_le
    rw [Machine.ground] at hg
    omega
  refine hst₁.finishPop hat₁ ?_ (hk₁.callers.trans hcallers) hbase
  rw [hk₁.frame.fn, hend, extent_append, Nat.add_assoc]

end Marmoset
