import Marmoset.Proofs.CodePassages
import Marmoset.Proofs.FreshPrograms
import Marmoset.Proofs.Relocation

/-!
# The value of a block

The evaluator takes the value of the last statement, and if that is a block, of the last one in it.
The compiler looks at the last instruction instead: a `pop` there drops the value of an expression,
and if it is left out the value stays.  An empty block has no code, so the instruction may belong to
a statement before it.

* `Stmt.valuedAll?` — the expression that has the value of the block for the evaluator
  (`Stmt.evalAll_eq_valueOf`).
* `Stmt.written?` — the expression whose `pop` is the last instruction (`Emits.lastOp_eq_pop_iff`).
* `Stmt.valuedAll?_eq` — these are the same, unless the block ends in an empty block.
* **`Stmt.block_value`** — what the code of a block leaves in the machine, as a branch and as a
  function.
* `Stmt.hushed_differs` — a block of which the engines do not have the same value.
-/

namespace Marmoset

/-! ## Statements without the blocks around them -/

/-- The expression that the statement is. -/
def Stmt.expr? : Stmt → Option Expr
  | .expr e => some e
  | _ => none

mutual

/-- The statement, or those in it if it is a block. -/
def Stmt.flat : Stmt → List Stmt
  | .block body => Stmt.flatAll body
  | .define name value => [.define name value]
  | .assign target value => [.assign target value]
  | .ret value => [.ret value]
  | .expr e => [.expr e]
termination_by structural s => s

/-- The statements one after the other, with those of blocks in place of the blocks. -/
def Stmt.flatAll : List Stmt → List Stmt
  | [] => []
  | s :: ss => s.flat ++ Stmt.flatAll ss
termination_by structural ss => ss

end

mutual

/-- Whether the statement is a block that is empty, or ends in one that is. -/
def Stmt.endsEmpty : Stmt → Bool
  | .block body => body.isEmpty || Stmt.endsEmptyAll body
  | .define _ _ | .assign _ _ | .ret _ | .expr _ => false
termination_by structural s => s

/-- Whether the statements end in an empty block. -/
def Stmt.endsEmptyAll : List Stmt → Bool
  | [] => false
  | s :: ss => if ss.isEmpty then s.endsEmpty else Stmt.endsEmptyAll ss
termination_by structural ss => ss

end

mutual

/-- The expression that has the value of the statement. -/
def Stmt.valued? : Stmt → Option Expr
  | .expr e => some e
  | .block body => Stmt.valuedAll? body
  | .define _ _ | .assign _ _ | .ret _ => none
termination_by structural s => s

/-- The expression that has the value of a block: its last statement, or the one with the value of
its last statement. -/
def Stmt.valuedAll? : List Stmt → Option Expr
  | [] => none
  | s :: ss => if ss.isEmpty then s.valued? else Stmt.valuedAll? ss
termination_by structural ss => ss

end

/-- The expression that is done last, if the last thing that is done is an expression. -/
def Stmt.written? (ss : List Stmt) : Option Expr :=
  (Stmt.flatAll ss).getLast?.bind Stmt.expr?

/-- What is done before the last thing. -/
def Stmt.before (ss : List Stmt) : List Stmt :=
  (Stmt.flatAll ss).dropLast

namespace Stmt

/-- Induction over statements and the blocks among them. -/
lemma forall_blocks {P : List Stmt → Prop} (nil : P [])
    (plain : ∀ s ss, s.isPlain = true → P ss → P (s :: ss))
    (block : ∀ body ss, P body → P ss → P (.block body :: ss)) (ss : List Stmt) : P ss := by
  have key (ss : List Stmt) (h : ∀ s ∈ ss, ∀ ss, P ss → P (s :: ss)) : P ss := by
    induction ss with
    | nil => exact nil
    | cons s ss ih =>
        exact h s List.mem_cons_self ss (ih fun s hs => h s (List.mem_cons_of_mem _ hs))
  have hclosed : Tree.Closed (fun _ => True) fun s => ∀ ss, P ss → P (s :: ss) :=
    { ident := fun _ => trivial
      integer := fun _ => trivial
      float := fun _ => trivial
      string := fun _ => trivial
      boolean := fun _ => trivial
      nil := trivial
      array := fun _ _ => trivial
      hash := fun _ _ => trivial
      function := fun _ _ _ _ => trivial
      unary := fun _ _ _ => trivial
      binary := fun _ _ _ _ _ => trivial
      index := fun _ _ _ _ => trivial
      cond := fun _ _ _ _ _ _ => trivial
      call := fun _ _ _ _ => trivial
      define := fun _ _ _ ss => plain _ ss rfl
      assign := fun _ _ _ _ ss => plain _ ss rfl
      ret := fun _ _ ss => plain _ ss rfl
      expr := fun _ _ ss => plain _ ss rfl
      block := fun body h ss => block body ss (key body h) }
  exact key ss fun s _ => hclosed.forall_stmt s

variable {s : Stmt} {ss : List Stmt}

/-- A statement that is no block stays as it is. -/
lemma flatAll_of_plain (hs : s.isPlain = true) (ss : List Stmt) :
    flatAll (s :: ss) = s :: flatAll ss := by
  cases s with
  | block _ => cases hs
  | _ => rfl

/-- A statement that is no block does not end in an empty one. -/
lemma endsEmptyAll_of_plain (hs : s.isPlain = true) (ss : List Stmt) :
    endsEmptyAll (s :: ss) = endsEmptyAll ss := by
  cases ss with
  | nil =>
      cases s with
      | block _ => cases hs
      | _ => rfl
  | cons _ _ => rfl

/-- The value of a statement that is no block is that of the expression that it is. -/
lemma valued?_of_plain (hs : s.isPlain = true) : s.valued? = s.expr? := by
  cases s with
  | block _ => cases hs
  | _ => rfl

lemma flatAll_block (body ss : List Stmt) :
    flatAll (.block body :: ss) = flatAll body ++ flatAll ss := rfl

lemma endsEmptyAll_block (body : List Stmt) :
    endsEmptyAll [.block body] = (body.isEmpty || endsEmptyAll body) := rfl

/-- Only the last statement matters for how a block ends. -/
lemma endsEmptyAll_cons (s : Stmt) (h : ss ≠ []) : endsEmptyAll (s :: ss) = endsEmptyAll ss := by
  cases ss with
  | nil => exact absurd rfl h
  | cons _ _ => rfl

/-- Only the last statement matters for the value. -/
lemma valuedAll?_cons (s : Stmt) (h : ss ≠ []) : valuedAll? (s :: ss) = valuedAll? ss := by
  cases ss with
  | nil => exact absurd rfl h
  | cons _ _ => rfl

/-- No block is left. -/
lemma isPlain_of_mem_flatAll (ss : List Stmt) : ∀ s ∈ flatAll ss, s.isPlain = true := by
  induction ss using forall_blocks with
  | nil => exact fun _ hs => absurd hs List.not_mem_nil
  | plain s ss hs ih =>
      rw [flatAll_of_plain hs]
      exact List.forall_mem_cons.mpr ⟨hs, ih⟩
  | block body ss ih ih' =>
      intro s hs
      rw [flatAll_block, List.mem_append] at hs
      exact hs.elim (ih s) (ih' s)

/-- Statements by which nothing is done end in an empty block. -/
lemma flatAll_ne_nil (h : ss ≠ []) (hend : endsEmptyAll ss = false) : flatAll ss ≠ [] := by
  induction ss using forall_blocks with
  | nil => exact absurd rfl h
  | plain s ss hs ih =>
      rw [flatAll_of_plain hs]
      exact List.cons_ne_nil _ _
  | block body ss ih ih' =>
      rw [flatAll_block]
      by_cases hss : ss = []
      · subst hss
        rw [endsEmptyAll_block, Bool.or_eq_false_iff, List.isEmpty_eq_false_iff] at hend
        exact List.append_ne_nil_of_left_ne_nil (ih hend.1 hend.2) _
      · rw [endsEmptyAll_cons _ hss] at hend
        exact List.append_ne_nil_of_right_ne_nil _ (ih' hss hend)

/-- Only the end of what is done matters for what is done last. -/
lemma written?_of_append {xs ys zs : List Stmt} (h : flatAll xs = zs ++ flatAll ys)
    (hne : flatAll ys ≠ []) :
    written? xs = written? ys := by
  rw [written?, written?, h, List.getLast?_append_of_ne_nil _ hne]

/-- A block does last what is done last in it. -/
lemma written?_block (body : List Stmt) : written? [.block body] = written? body := by
  rw [written?, written?, flatAll_block, show flatAll [] = [] from rfl, List.append_nil]

/-- What is done is the last expression after all that comes before. -/
lemma flatAll_of_written? {e : Expr} (h : written? ss = some e) :
    flatAll ss = before ss ++ [.expr e] := by
  obtain ⟨s, hs, he⟩ := Option.bind_eq_some_iff.mp h
  have heq : s = .expr e := by
    cases s with
    | expr e' => rw [Option.some.inj he]
    | _ => cases he
  obtain ⟨init, hinit⟩ := List.getLast?_eq_some_iff.mp hs
  rw [before, hinit, List.dropLast_concat, heq]

/-- **The two expressions are the same, unless the block ends in an empty block.** -/
theorem valuedAll?_eq (ss : List Stmt) :
    valuedAll? ss = if endsEmptyAll ss then none else written? ss := by
  induction ss using forall_blocks with
  | nil => rfl
  | plain s ss hs ih =>
      rw [endsEmptyAll_of_plain hs]
      by_cases hss : ss = []
      · subst hss
        show s.valued? = written? [s]
        rw [valued?_of_plain hs, written?, flatAll_of_plain hs]
        rfl
      · rw [valuedAll?_cons _ hss, ih]
        refine if_ctx_congr Iff.rfl (fun _ => rfl) fun hend => ?_
        have hflat : flatAll (s :: ss) = [s] ++ flatAll ss := flatAll_of_plain hs ss
        exact (written?_of_append hflat (flatAll_ne_nil hss (by simpa using hend))).symm
  | block body ss ih ih' =>
      by_cases hss : ss = []
      · subst hss
        show valuedAll? body = _
        rw [ih, endsEmptyAll_block, written?_block]
        cases body with
        | nil => rfl
        | cons _ _ => rw [List.isEmpty_cons, Bool.false_or]
      · rw [valuedAll?_cons _ hss, endsEmptyAll_cons _ hss, ih']
        refine if_ctx_congr Iff.rfl (fun _ => rfl) fun hend => ?_
        exact (written?_of_append (flatAll_block body ss)
          (flatAll_ne_nil hss (by simpa using hend))).symm

/-! ## What the evaluator does -/

section

variable (call : Nat → List Value → Eval Value) (env : Nat)

/-- What a block comes to: what an expression comes to after all that is done before, or nil. -/
def valueOf (ss : List Stmt) : Option Expr → Eval Value
  | some e => do
    let _ ← evalAll call env .nil (before ss)
    e.eval call env
  | none => do
    let _ ← evalAll call env .nil (flatAll ss)
    return .nil

/-- Statements in two goes; the second one starts from the value of the first. -/
lemma evalAll_append (last : Value) (xs ys : List Stmt) :
    evalAll call env last (xs ++ ys) = evalAll call env last xs >>= fun v =>
      evalAll call env v ys := by
  induction xs generalizing last with
  | nil => exact (pure_bind _ _).symm
  | cons s ss ih =>
      rw [List.cons_append, evalAll, evalAll, bind_assoc]
      exact bind_congr fun v => ih v

/-- The value from before is only that of no statements. -/
lemma evalAll_ignored {α : Type} (x : Eval α) (last last' : Value) (ss : List Stmt) :
    (evalAll call env last ss >>= fun _ => x) = evalAll call env last' ss >>= fun _ => x := by
  cases ss with
  | nil =>
      show (pure last >>= fun _ => x) = (pure last' >>= fun _ => x)
      rw [pure_bind, pure_bind]
  | cons _ _ => rfl

/-- Blocks are done by doing what is in them; only an empty block at the end makes a difference. -/
lemma evalAll_flatAll (last : Value) (ss : List Stmt) : evalAll call env last ss =
    evalAll call env last (flatAll ss) >>= fun v => pure (if endsEmptyAll ss then .nil else v) := by
  induction ss using forall_blocks generalizing last with
  | nil => exact (pure_bind _ _).symm
  | plain s ss hs ih =>
      rw [flatAll_of_plain hs, endsEmptyAll_of_plain hs, evalAll, evalAll, bind_assoc]
      exact bind_congr fun v => ih v
  | block body ss ih ih' =>
      rw [flatAll_block, evalAll_append, bind_assoc]
      show (evalAll call env .nil body >>= fun v => evalAll call env v ss) = _
      by_cases hss : ss = []
      · subst hss
        have hnone (v : Value) : evalAll call env v [] = pure v := rfl
        simp only [hnone, bind_pure, pure_bind, show flatAll [] = [] from rfl]
        cases body with
        | nil => exact (pure_bind _ _).symm
        | cons s body =>
            rw [ih, show endsEmptyAll [.block (s :: body)] = endsEmptyAll (s :: body) from rfl]
            cases hend : endsEmptyAll (s :: body) with
            | true => exact evalAll_ignored call env (pure Value.nil) .nil last _
            | false =>
                rw [evalAll_last call env (flatAll_ne_nil (List.cons_ne_nil s body) hend) .nil last]
      · -- the value of the block is forgotten, since another statement follows
        rw [endsEmptyAll_cons _ hss]
        simp only [← ih', fun v => evalAll_last call env hss v .nil]
        rw [ih, bind_assoc]
        simp only [pure_bind]
        exact evalAll_ignored call env _ _ _ _

/-- **The evaluator gives a block the value of the expression that ends it, or nil.** -/
theorem evalAll_eq_valueOf (ss : List Stmt) :
    evalAll call env .nil ss = valueOf call env ss (valuedAll? ss) := by
  rw [evalAll_flatAll, valuedAll?_eq]
  cases hend : endsEmptyAll ss with
  | true => rfl
  | false =>
      simp only [Bool.false_eq_true, if_false, bind_pure]
      cases hw : written? ss with
      | some e =>
          rw [flatAll_of_written? hw, evalAll_append]
          refine bind_congr fun v => ?_
          rw [evalAll_last call env (List.cons_ne_nil _ _) v .nil, evalAll_single]
          rfl
      | none =>
          show evalAll call env .nil (flatAll ss) =
            (evalAll call env .nil (flatAll ss) >>= fun _ => pure Value.nil)
          rcases List.eq_nil_or_concat' (flatAll ss) with hflat | ⟨init, s, hflat⟩
          · rw [hflat]
            exact (pure_bind _ _).symm
          · have hs : s.isPlain = true := isPlain_of_mem_flatAll ss s (by rw [hflat]; simp)
            have hne (e : Expr) : s ≠ .expr e := by
              rintro rfl
              rw [written?, hflat, List.getLast?_concat] at hw
              cases hw
            rw [hflat, evalAll_append, bind_assoc]
            refine bind_congr fun v => ?_
            rw [evalAll_last call env (List.cons_ne_nil _ _) v .nil, evalAll_single,
              eval_bind_nil call env hs hne]

end

end Stmt

/-! ## What the compiler writes -/

namespace Emits

variable {ss : List Stmt} {d d₁ d' : Draft} {pos : Nat} {is js : List Instr}

/-- The code of statements behind the code of others. -/
lemma append {xs ys : List Stmt} (hx : Emits (.stmts xs) d pos is d₁)
    (hy : Emits (.stmts ys) d₁ (pos + extent is) js d') :
    Emits (.stmts (xs ++ ys)) d pos (is ++ js) d' := by
  induction xs generalizing d pos is with
  | nil =>
      cases hx
      exact hy
  | cons s ss ih =>
      cases hx with
      | stmts hs hss =>
          rw [extent_append, ← Nat.add_assoc] at hy
          rw [List.append_assoc]
          exact .stmts hs (ih hss hy)

/-- Blocks have the code of what is in them. -/
lemma flatAll (h : Emits (.stmts ss) d pos is d') :
    Emits (.stmts (Stmt.flatAll ss)) d pos is d' := by
  induction ss using Stmt.forall_blocks generalizing d pos is d' with
  | nil => exact h
  | plain s ss hs ih =>
      rw [Stmt.flatAll_of_plain hs]
      cases h with
      | stmts hhead htail => exact .stmts hhead (ih htail)
  | block body ss ih ih' =>
      cases h with
      | stmts hhead htail =>
          cases hhead with
          | block hbody => exact (ih hbody).append (ih' htail)

/-- The code of a block that ends in an expression, apart from empty blocks. -/
lemma of_written? {e : Expr} (h : Emits (.stmts ss) d pos is d') (hw : Stmt.written? ss = some e) :
    ∃ js d₁ ks, is = js ++ ks ++ [.pop] ∧ Emits (.stmts (Stmt.before ss)) d pos js d₁ ∧
      Emits (.expr e) d₁ (pos + extent js) ks d' := by
  have hflat := h.flatAll
  rw [Stmt.flatAll_of_written? hw] at hflat
  obtain ⟨js, d₁, ks, rfl, hjs, hks⟩ := hflat.stmts_append
  cases hks with
  | stmts hhead htail =>
      cases htail
      cases hhead with
      | expr he => exact ⟨js, d₁, _, by simp, hjs, he⟩

/-- The last instruction is a `pop` if the last thing that is done is an expression, and only
then. -/
lemma lastOp_eq_pop_iff (h : Emits (.stmts ss) d pos is d') :
    lastOp is = some .pop ↔ (Stmt.written? ss).isSome = true := by
  constructor
  · intro hpop
    have hflat := h.flatAll
    rcases List.eq_nil_or_concat' (Stmt.flatAll ss) with hss | ⟨init, s, hss⟩
    · rw [hss] at hflat
      cases hflat
      cases hpop
    · rw [hss] at hflat
      rw [Stmt.written?, hss, List.getLast?_concat]
      obtain ⟨js, d₁, ks, rfl, -, hks⟩ := hflat.stmts_append
      have hs : s.isPlain = true := Stmt.isPlain_of_mem_flatAll ss s (by rw [hss]; simp)
      rw [lastOp_append js (hks.ne_nil_of_stmts hs)] at hpop
      cases hks with
      | stmts hhead htail =>
          cases htail
          rw [List.append_nil] at hpop
          cases hhead with
          | expr _ => rfl
          | block _ => cases hs
          | define _ | assign _ =>
              rw [lastOp_append_singleton, Option.some.injEq] at hpop
              exact absurd hpop (Symbol.storeInstr_ne_pop _)
          | setIndex _ _ _ | ret _ =>
              rw [lastOp_append_singleton] at hpop
              cases hpop
  · intro hw
    obtain ⟨e, he⟩ := Option.isSome_iff_exists.mp hw
    obtain ⟨js, d₁, ks, rfl, -, -⟩ := h.of_written? he
    exact lastOp_append_singleton _ _

/-- Where no expression is done last, no `pop` is at the end. -/
lemma lastOp_ne_pop (h : Emits (.stmts ss) d pos is d') (hw : Stmt.written? ss = none) :
    lastOp is ≠ some .pop := by
  rw [Ne, h.lastOp_eq_pop_iff, hw]
  exact Bool.false_ne_true

end Emits

/-- The code of statements, without the `pop` at its end. -/
def unpopped (is : List Instr) : List Instr :=
  if lastOp is = some .pop then is.dropLast else is

@[simp] lemma unpopped_pop (is : List Instr) : unpopped (is ++ [.pop]) = is := by
  rw [unpopped, lastOp_append_singleton, if_pos rfl, List.dropLast_concat]

/-- Without a `pop` at its end code stays as it is. -/
lemma unpopped_of_ne {is : List Instr} (h : lastOp is ≠ some .pop) : unpopped is = is :=
  if_neg h

/-! ## What the machine does -/

namespace Machine

variable {ss : List Stmt} {d d' : Draft} {is : List Instr} {m m' : Machine}
  {main : Code} {k g : Nat}

/-- Where a value comes from that `m` gets on its way to `m'` over the code of a block.  It is left
by the code of an expression, before which the code of all that is done before has been passed; or
there is no expression, all the code has been passed, and the value is nil. -/
inductive Brings (ss : List Stmt) (d d' : Draft) (m m' : Machine) : Option Expr → Value → Prop where
  | expr {e : Expr} {js is : List Instr} {d₁ : Draft} {m₁ : Machine}
      (before : Emits (.stmts (Stmt.before ss)) d m.frame.ip js d₁) (passed : m.Crosses js m₁)
      (level : m₁.sp = m.sp)
      (value : Emits (.expr e) d₁ m₁.frame.ip is d') (left : m₁.Crosses is m') :
      Brings ss d d' m m' (some e) (m'.stack.getD m.sp .nil)
  | nil {is : List Instr} {m₁ : Machine} (all : Emits (.stmts (Stmt.flatAll ss)) d m.frame.ip is d')
      (passed : m.Crosses is m₁) : Brings ss d d' m m' none .nil

namespace Crosses

/-- Without the last `pop` the code leaves the value of the expression to which the `pop`
belongs. -/
lemma brings_expr {e : Expr} (h : m.Crosses (unpopped is) m') (hm : m.Safe main k g)
    (hem : Emits (.stmts ss) d m.frame.ip is d') (hw : Stmt.written? ss = some e) :
    m'.sp = m.sp + 1 ∧ m.Brings ss d d' m' (some e) (m'.stack.getD m.sp .nil) := by
  obtain ⟨js, d₁, ks, rfl, hjs, hks⟩ := hem.of_written? hw
  rw [unpopped_pop] at h
  -- no jump goes over the place where the expression begins
  obtain ⟨m₁, h₁, h₂⟩ := h.split (hjs.balanced 0).2
  have hip : m₁.frame.ip = m.frame.ip + extent js := congrArg Frame.ip h₁.behind.1
  have hlevel : m₁.sp = m.sp := h₁.sp_eq hm hjs.balanced
  have hsp : m'.sp = m₁.sp + 1 := h₂.sp_eq (h₁.run.safe hm) hks.balanced
  rw [← hip] at hks
  exact ⟨by rw [hsp, hlevel], .expr hjs h₁ hlevel hks h₂⟩

/-- What the code of a branch leaves. -/
lemma branch_value (h : m.Crosses (asBranch is) m') (hm : m.Safe main k g)
    (hem : Emits (.stmts ss) d m.frame.ip is d') :
    m'.sp = m.sp + 1 ∧ m.Brings ss d d' m' (Stmt.written? ss) (m'.stack.getD m.sp .nil) := by
  cases hw : Stmt.written? ss with
  | some e =>
      have hpop : lastOp is = some .pop := hem.lastOp_eq_pop_iff.mpr (by rw [hw]; rfl)
      refine brings_expr ?_ hm hem hw
      rwa [unpopped, if_pos hpop, ← show asBranch is = is.dropLast from if_pos hpop]
  | none =>
      have hpop := hem.lastOp_ne_pop hw
      have hsp : m'.sp = m.sp + 1 := h.sp_eq hm (Emits.branch hem).balanced
      rw [asBranch, if_neg hpop] at h
      obtain ⟨m₁, h₁, h₂⟩ := h.split (hem.balanced 0).2
      have hlevel : m₁.sp = m.sp := h₁.sp_eq hm hem.balanced
      refine ⟨hsp, ?_⟩
      rw [← hlevel, h₂.top_of_pushNil]
      exact .nil hem.flatAll h₁

/-- What the code of a function returns at its end. -/
lemma body_value (h : m.Crosses (unpopped is) m') (hm : m.Safe main k g) (hc : m.callers ≠ [])
    (hcode : m.frame.fn.code.Reads (asBody is)) (hip : m.frame.ip = 0)
    (hem : Emits (.stmts ss) d 0 is d') :
    ∃ v, m'.Yields v ∧ m.Brings ss d d' m' (Stmt.written? ss) v := by
  have hholds : m.frame.fn.code.Holds m.frame.ip (asBody is) := by
    rw [hip]
    exact .of_eq hcode.bytes
  have hem' := hem
  rw [← hip] at hem'
  cases hw : Stmt.written? ss with
  | some e =>
      obtain ⟨hsp, hbrings⟩ := h.brings_expr hm hem' hw
      obtain ⟨js, d₁, ks, rfl, -, -⟩ := hem.of_written? hw
      rw [unpopped_pop] at h
      rw [asBody_pop] at hholds hcode
      have hyields : m'.Yields _ := .value (h.standsAt (hcode.fits _ (by simp)) hholds)
      rw [hsp, Nat.add_sub_cancel] at hyields
      exact ⟨_, hyields, hbrings⟩
  | none =>
      have hpop := hem.lastOp_ne_pop hw
      rw [unpopped_of_ne hpop] at h
      rw [asBody, if_neg hpop] at hholds hcode
      by_cases hret : lastOp is = some .returnValue
      · -- behind a return there is nothing more
        rw [if_pos hret] at hcode
        have hlt := h.extent_lt_size hm hc
        rw [hcode.size, hip] at hlt
        omega
      · rw [if_neg hret] at hholds hcode
        exact ⟨.nil, .nil (h.standsAt (hcode.fits _ (by simp)) hholds), .nil hem'.flatAll h⟩

end Crosses

end Machine

/-! ## Both engines -/

namespace Compile.Ends

/-- What is known of a run that ended without an error. -/
lemma of_run {α : Type} {x : Compile α} {c c' : Compiler} {Q : α → Compiler → Prop}
    {E : Draft → Prop} {a : α} (h : Ends x c Q E) (hx : x c = .ok a c') : Q a c' := by
  unfold Ends at h
  rwa [hx] at h

end Compile.Ends

namespace Compiler

/-- How a branch ends is never an error. -/
lemma exists_endBranch (c : Compiler) : ∃ c', endBranch c = .ok () c' := by
  unfold endBranch
  split <;> exact ⟨_, rfl⟩

/-- Nor is how a function ends. -/
lemma exists_endFunction (c : Compiler) : ∃ c', endFunction c = .ok () c' := by
  unfold endFunction
  dsimp only
  split <;> split <;> exact ⟨_, rfl⟩

/-- The statements of a program that is compiled without an error are. -/
lemma compileAll_of_compile {c : Compiler} {p : Program} (hok : (c.compile p).1 = .ok ()) :
    Stmt.compileAll p c = .ok () (c.compile p).2 := by
  unfold compile at hok ⊢
  cases hrun : Stmt.compileAll p c with
  | ok u c' => rfl
  | error e c' =>
      rw [hrun] at hok
      cases hok

end Compiler

/-- What is written behind `base` can be read off the code. -/
lemma Buffer.Tracks.eq_of_code {b : Buffer} {base is js : List Instr} (h : b.Tracks (base ++ is))
    (hfits : ∀ i ∈ base ++ js, i.Fits) (hcode : b.code.toList = bytesOf (base ++ js)) :
    is = js := by
  have hreads : b.code.Reads (base ++ is) := ⟨h.code, h.fits⟩
  exact List.append_cancel_left (hreads.unique ⟨hcode, hfits⟩)

namespace Stmt

/-- **The value of a block in both engines.**  The code of the block ends in a `pop` if the last
thing that is done in it is an expression, and only then.  As a branch it leaves the value of this
expression and otherwise nil, and as a function it returns that.  The evaluator gives the block the
value of the same expression, or nil, unless it ends in an empty block: then it gives nil in any
case. -/
theorem block_value {c c₁ : Compiler} {base : List Instr} {d : Draft} {o : List Buffer}
    {ss : List Stmt} (hc : c.At base d o) (hbase : lastOp base ≠ some .pop)
    (hcompiles : compileAll ss c = .ok () c₁) :
    ∃ is d', c₁.At (base ++ is) d' o ∧
      (c₁.buffer.endsWith .pop = true ↔ (written? ss).isSome = true) ∧
      (∃ c₂, Compiler.endBranch c₁ = .ok () c₂ ∧ c₂.At (base ++ asBranch is) d' o) ∧
      (∀ (main : Code) (k g : Nat) (m m' : Machine), m.Safe main k g → m.frame.ip = extent base →
        m.Crosses (asBranch is) m' →
        m'.sp = m.sp + 1 ∧ m.Brings ss d d' m' (written? ss) (m'.stack.getD m.sp .nil)) ∧
      (base = [] → ∃ c₂, Compiler.endFunction c₁ = .ok () c₂ ∧ c₂.At (asBody is) d' o ∧
        ∀ (main : Code) (k g : Nat) (m m' : Machine), m.Safe main k g → m.callers ≠ [] →
          m.frame.fn.code = c₂.buffer.code → m.frame.ip = 0 → m.Crosses (unpopped is) m' →
          ∃ v, m'.Yields v ∧ m.Brings ss d d' m' (written? ss) v) ∧
      (∀ call env, evalAll call env .nil ss = valueOf call env ss (valuedAll? ss)) ∧
      valuedAll? ss = if endsEmptyAll ss then none else written? ss := by
  obtain ⟨is, d', hem, hc₁⟩ := (lays_compileAll ss hc).of_run hcompiles
  refine ⟨is, d', hc₁, ?_, ?_, ?_, ?_, fun call env => evalAll_eq_valueOf call env ss,
    valuedAll?_eq ss⟩
  · rw [hc₁.tracks.endsWith .pop, ← hem.lastOp_eq_pop_iff]
    rcases eq_or_ne is [] with rfl | hne
    · rw [List.append_nil]
      exact iff_of_false hbase (by simp)
    · rw [lastOp_append base hne]
  · obtain ⟨c₂, hc₂⟩ := c₁.exists_endBranch
    exact ⟨c₂, hc₂, (hc₁.endBranch (E := fun _ => True) hbase hem.endsIn trivial).of_run hc₂⟩
  · intro main k g m m' hm hip hcross
    rw [← hip] at hem
    exact hcross.branch_value hm hem
  · rintro rfl
    obtain ⟨c₂, hc₂⟩ := c₁.exists_endFunction
    have hat : c₂.At (asBody is) d' o := (hc₁.endFunction (E := fun _ => True) trivial).of_run hc₂
    refine ⟨c₂, hc₂, hat, fun main k g m m' hm hcallers hcode hip hcross => ?_⟩
    exact hcross.body_value hm hcallers
      (by rw [hcode]; exact ⟨hat.tracks.code, hat.tracks.fits⟩) hip hem

/-- The program in which the block is a branch that is taken. -/
def taken (ss : List Stmt) : Program :=
  [.expr (.cond (.boolean true) ss none)]

/-- The program in which the block is a function that is called. -/
def called (ss : List Stmt) : Program :=
  [.expr (.call (.function none [] ss) [])]

/-- A block in a block that ends in an expression, with an empty block before it. -/
def nested : List Stmt :=
  [.define "x" (.integer 5),
    .block [.expr (.ident "x"), .block [.block [], .expr (.binary "+" (.ident "x") (.integer 2))]]]

/-- The code of the block, if its name has this symbol. -/
def nestedCode (x : Symbol) : List Instr :=
  [⟨.constant, [0]⟩, x.storeInstr, x.loadInstr, .pop, x.loadInstr, ⟨.constant, [1]⟩,
    .plain .add, .pop]

/-- The compiler where a branch starts. -/
def branching : Compiler :=
  { Compiler.fresh with
    buffer := (Buffer.empty.emit .pushTrue []).emit .jumpNotTruthy [Compiler.placeholder] }

/-- The compiler where a function starts. -/
def entering : Compiler :=
  { Compiler.fresh with symbols := Compiler.fresh.symbols.enter, outer := [.empty] }

/-- The machine where the block starts. -/
def started (p : Program) : Machine :=
  ((p.machine ⟨64, 16, 1000⟩).run 2).machine

/-- The machine comes to the block without a fault. -/
lemma safe_started {p : Program} (hok : (Compiler.fresh.compile p).1 = .ok ())
    (hrun : ((p.machine ⟨64, 16, 1000⟩).run 2).goesOn (fun _ => true) = true) :
    (started p).Safe (p.site ⟨64, 16, 1000⟩).main Builtin.table.length
      (p.site ⟨64, 16, 1000⟩).globals := by
  have hl : Limits.areFeasible ⟨64, 16, 1000⟩ = true := by decide
  have hin : (Session.start ⟨64, 16, 1000⟩).InOrder ⟨64, 16, 1000⟩ :=
    Session.Reached.start.inOrder hl
  have hload : (p.machine ⟨64, 16, 1000⟩).Safe (p.site ⟨64, 16, 1000⟩).main Builtin.table.length
      (p.site ⟨64, 16, 1000⟩).globals := hin.safe_load hl hok
  have hsafe := hload.run 2
  rw [(Step.eq_next_of_goesOn hrun).1] at hsafe
  exact hsafe

set_option maxRecDepth 100000 in
/-- The block has the value 7 as a branch and as the body of a function. -/
theorem nested_block_value :
    (∃ d d', ((started (taken nested)).run 7).machine.sp = (started (taken nested)).sp + 1 ∧
      (started (taken nested)).Brings nested d d' ((started (taken nested)).run 7).machine
        (valuedAll? nested) (.integer 7)) ∧
    ∃ d d', ((started (called nested)).run 7).machine.Yields (.integer 7) ∧
      (started (called nested)).Brings nested d d' ((started (called nested)).run 7).machine
        (valuedAll? nested) (.integer 7) := by
  constructor
  · have hat : branching.At [.plain .pushTrue, ⟨.jumpNotTruthy, [Compiler.placeholder]⟩]
        branching.draft [] := by
      have hjump : Instr.Fits ⟨.jumpNotTruthy, [Compiler.placeholder]⟩ := .cons (by decide) .nil
      exact ⟨(Buffer.Tracks.empty.emit (i := .plain .pushTrue) .nil).emit hjump, rfl, rfl,
        rfl, by simp⟩
    have hok : (branching.compile nested).1 = .ok () := by decide +kernel
    obtain ⟨is, d', hc, -, -, hbranch, -, -, hvalued⟩ :=
      block_value hat (by decide) (Compiler.compileAll_of_compile hok)
    obtain rfl : is = nestedCode ⟨"x", .global, 0⟩ :=
      hc.tracks.eq_of_code (by unfold Instr.Fits; decide) (by decide +kernel)
    have hcross : (started (taken nested)).Crosses (asBranch (nestedCode ⟨"x", .global, 0⟩))
        ((started (taken nested)).run 7).machine :=
          .of_comesBehind (by unfold Instr.Fits; decide) (by decide +kernel)
    have hvalue : ((started (taken nested)).run 7).machine.stack.getD (started (taken nested)).sp
        .nil = .integer 7 := by
      decide +kernel
    have hsafe := safe_started (p := taken nested) (by decide +kernel) (by decide +kernel)
    obtain ⟨hsp, hbrings⟩ := hbranch _ _ _ _ _ hsafe (by decide +kernel) hcross
    rw [hvalue] at hbrings
    exact ⟨_, d', hsp, by rw [hvalued]; exact hbrings⟩
  · have hat : entering.At [] entering.draft [.empty] :=
      ⟨.empty, rfl, rfl, rfl, by simpa using ⟨[], .empty⟩⟩
    have hok : (entering.compile nested).1 = .ok () := by decide +kernel
    obtain ⟨is, d', hc, -, -, -, hbody, -, hvalued⟩ :=
      block_value hat (by decide) (Compiler.compileAll_of_compile hok)
    obtain rfl : is = nestedCode ⟨"x", .local, 0⟩ :=
      hc.tracks.eq_of_code (by unfold Instr.Fits; decide) (by decide +kernel)
    obtain ⟨c₂, -, hc₂, hbody⟩ := hbody rfl
    have hcode : (started (called nested)).frame.fn.code = c₂.buffer.code := by
      rw [← Array.toList_inj, hc₂.tracks.code]
      decide +kernel
    have hcross : (started (called nested)).Crosses (unpopped (nestedCode ⟨"x", .local, 0⟩))
        ((started (called nested)).run 7).machine :=
          .of_comesBehind (by unfold Instr.Fits; decide) (by decide +kernel)
    have hvalue : ((started (called nested)).run 7).machine.stack.getD (started (called nested)).sp
        .nil = .integer 7 := by
      decide +kernel
    have hsafe := safe_started (p := called nested) (by decide +kernel) (by decide +kernel)
    obtain ⟨v, hv, hbrings⟩ :=
      hbody _ _ _ _ _ hsafe (by decide +kernel) hcode (by decide +kernel) hcross
    have hv7 : v = .integer 7 := by
      have hsome : written? nested = some (.binary "+" (.ident "x") (.integer 2)) := rfl
      rw [hsome] at hbrings
      cases hbrings
      exact hvalue
    rw [hv7] at hv hbrings
    exact ⟨_, d', hv, by rw [hvalued]; exact hbrings⟩

/-- An expression with an empty block behind it. -/
def hushed : List Stmt :=
  [.expr (.integer 1), .block []]

set_option maxRecDepth 100000 in
/-- The evaluator gives nil for the block, and the code of it has the value of the expression. -/
theorem hushed_differs :
    endsEmptyAll hushed = true ∧ valuedAll? hushed = none ∧ written? hushed = some (.integer 1) ∧
      ∀ p ∈ [taken hushed, called hushed], (Compiler.fresh.compile p).1 = .ok () ∧
        (p.evaluate ⟨64, 16, 1000⟩).1 = .ok .nil ∧
        ((p.machine ⟨64, 16, 1000⟩).run 1000).value? = some (.integer 1) := by
  refine ⟨rfl, rfl, rfl, ?_⟩
  decide +kernel

end Stmt

end Marmoset
