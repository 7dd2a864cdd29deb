import Marmoset.Proofs.EvaluationEnds
import Marmoset.Proofs.EvaluationSteps

/-!
# Where errors come from

Some errors are about the tree of a program: an operator that there is not, something that nothing
can be assigned to, a name that is not known.  The first two come from a place in the tree where
such an operator or target stands.

The compiler works on the tree it is given.  The evaluator also runs the functions that it finds in
the store, so that for it the trees count that were evaluated before (`Store.Bodies`).

* **`Compile.Fails.stmts`** — where an error of the compiler comes from.
* **`Evaluator.arises_run`** — where a fault of the evaluator comes from.
-/

namespace Marmoset

variable {p : Expr → Bool} {q : Stmt → Bool}

/-! ## Errors of the compiler -/

/-- Where an error comes from, if all expressions pass `p` and all statements pass `q`. -/
inductive CompileError.Arises (p : Expr → Bool) (q : Stmt → Bool) : CompileError → Prop where
  | name (n : String) : Arises p q (.undefinedVariable n)
  | unary {op : String} {right : Expr} : p (.unary op right) = true → Operator.unary? op = none →
      Arises p q (.unknownUnary op)
  | binary {op : String} {left right : Expr} : p (.binary op left right) = true →
      Operator.binary? op = none → Arises p q (.unknownBinary op)
  | target {target value : Expr} : q (.assign target value) = true → target.isAssignable = false →
      Arises p q (.invalidTarget target.text)
  | overflow (op : Opcode) (n : Nat) : Arises p q (.operandOverflow op n)

/-- An error of the step comes from somewhere. -/
def Compile.Fails (p : Expr → Bool) (q : Stmt → Bool) {α : Type} (x : Compile α) : Prop :=
  ∀ c e c', x c = .error e c' → e.Arises p q

namespace Compile.Fails

open Compiler

variable {α β : Type}

lemma pure (a : α) : Fails p q (Pure.pure a : Compile α) := by
  intro c e c' h
  cases h

/-- An error that is raised must come from somewhere. -/
lemma throw {e : CompileError} (h : e.Arises p q) :
    Fails p q (MonadExcept.throw e : Compile α) := by
  intro c e' c' he
  cases he
  exact h

/-- Of two steps one after the other, either may fail. -/
lemma bind {x : Compile α} {f : α → Compile β} (hx : Fails p q x) (hf : ∀ a, Fails p q (f a)) :
    Fails p q (x >>= f) := by
  intro c e c' h
  change EStateM.bind x f c = _ at h
  unfold EStateM.bind at h
  cases hc : x c with
  | ok a c₁ =>
      rw [hc] at h
      exact hf a c₁ e c' h
  | error e₁ c₁ =>
      rw [hc] at h
      cases h
      exact hx c e c' hc

/-- Only an operand that is too large keeps an instruction from being written. -/
lemma emit (op : Opcode) (operands : List Nat) : Fails p q (emit op operands) := by
  intro c e c' h
  unfold Compiler.emit at h
  split at h
  · cases h
    exact .overflow _ _
  · cases h

lemma emit_ (op : Opcode) (operands : List Nat) : Fails p q (emit_ op operands) :=
  (emit op operands).bind fun _ => .pure ()

/-- Only a target that is too far keeps a jump from being patched. -/
lemma land (position : Nat) (op : Opcode) : Fails p q (land position op) := by
  intro c e c' h
  unfold Compiler.land at h
  dsimp only at h
  split at h
  · cases h
    exact .overflow _ _
  · cases h

/-- Adding a constant does not fail. -/
lemma addConstant (k : Constant) : Fails p q (addConstant k) := by
  intro c e c' h
  cases h

lemma define (name : String) : Fails p q (define name) := by
  intro c e c' h
  cases h

lemma assignable (name : String) : Fails p q (assignable name) := by
  intro c e c' h
  unfold Compiler.assignable at h
  split at h
  · split_ifs at h
    exact define name c e c' h
  · exact define name c e c' h

/-- Looking up a name fails only because it is not known. -/
lemma resolve (name : String) : Fails p q (resolve name) := by
  intro c e c' h
  unfold Compiler.resolve at h
  split at h
  · cases h
  · cases h
    exact .name name

/-- A load may have an operand that is too large. -/
lemma load (s : Symbol) : Fails p q (load s) := by
  unfold Compiler.load
  split <;> exact emit_ _ _

lemma loadAll (ss : List Symbol) : Fails p q (loadAll ss) := by
  induction ss with
  | nil => exact .pure ()
  | cons s ss ih => exact (load s).bind fun _ => ih

/-- A store may have an operand that is too large. -/
lemma store (s : Symbol) : Fails p q (store s) := by
  unfold Compiler.store
  split <;> exact emit_ _ _

/-- A literal may be one more constant than an operand can count. -/
lemma literal (k : Constant) : Fails p q (literal k) :=
  (addConstant k).bind fun _ => emit_ _ _

lemma endBranch : Fails p q endBranch := by
  intro c e c' h
  unfold Compiler.endBranch at h
  split_ifs at h
  exact emit_ _ _ c e c' h

lemma endFunction : Fails p q endFunction := by
  intro c e c' h
  unfold Compiler.endFunction at h
  dsimp only at h
  split_ifs at h <;> exact emit_ _ _ _ e c' h

lemma enterFunction (name : Option String) (params : List String) :
    Fails p q (enterFunction name params) := by
  intro c e c' h
  cases h

/-- Leaving a function does not fail. -/
lemma leaveFunction : Fails p q leaveFunction := by
  intro c e c' h
  unfold Compiler.leaveFunction at h
  dsimp only at h
  split at h <;> cases h

/-- A function fails where its body does. -/
lemma function (name : Option String) (params : List String) {body : Compile Unit}
    (h : Fails p q body) :
    Fails p q (function name params body) :=
  (enterFunction name params).bind fun _ => h.bind fun _ => endFunction.bind fun _ =>
    leaveFunction.bind fun _ => .pure _

/-- Expressions fail where one of them does. -/
lemma exprs {es : List Expr} (h : ∀ e ∈ es, Fails p q e.compile) :
    Fails p q (Expr.compileAll es) := by
  induction es with
  | nil => exact .pure ()
  | cons e es ih =>
      obtain ⟨he, hes⟩ := List.forall_mem_cons.mp h
      exact he.bind fun _ => ih hes

/-- Steps one after the other fail where one of them does. -/
lemma sequence {xs : List (String × Compile Unit)} (h : ∀ x ∈ xs, Fails p q x.2) :
    Fails p q (sequence xs) := by
  induction xs with
  | nil => exact .pure ()
  | cons x xs ih =>
      obtain ⟨hx, hxs⟩ := List.forall_mem_cons.mp h
      exact hx.bind fun _ => ih hxs

/-- Statements fail where one of them does. -/
lemma stmts_of {ss : List Stmt} (h : ∀ s ∈ ss, Fails p q s.compile) :
    Fails p q (Stmt.compileAll ss) := by
  induction ss with
  | nil => exact .pure ()
  | cons s ss ih =>
      obtain ⟨hs, hss⟩ := List.forall_mem_cons.mp h
      exact hs.bind fun _ => ih hss

/-- Every kind of tree fails for one of these reasons, if its parts do. -/
lemma closed : Tree.Closed (Expr.WithParts fun e => e.every p q = true → Fails p q e.compile)
    (fun s => s.every p q = true → Fails p q s.compile) where
  ident name := ⟨fun _ => (resolve name).bind fun s => load s, by simp⟩
  integer n := ⟨fun _ => literal _, by simp⟩
  float x := ⟨fun _ => literal _, by simp⟩
  string s := ⟨fun _ => literal _, by simp⟩
  boolean b := by
    cases b with
    | true => exact ⟨fun _ => emit_ _ _, by simp⟩
    | false => exact ⟨fun _ => emit_ _ _, by simp⟩
  nil := ⟨fun _ => emit_ _ _, by simp⟩
  array items ih := by
    refine ⟨fun he => ?_, by simp⟩
    have hitems := Expr.everyOf_iff.mp (Bool.and_eq_true_iff.mp he).2
    exact (exprs fun e hmem => (ih e hmem).1 (hitems e hmem)).bind fun _ => emit_ _ _
  hash ps ih := by
    refine ⟨fun he => ?_, by simp⟩
    have hpairs := Expr.everyPair_iff.mp (Bool.and_eq_true_iff.mp he).2
    rw [Expr.compile, compilePairs_eq]
    refine (sequence fun x hx => ?_).bind fun _ => emit_ _ _
    obtain ⟨y, hy, rfl⟩ := List.mem_map.mp (List.mem_mergeSort.mp hx)
    obtain ⟨hk, hv⟩ := ih y hy
    obtain ⟨hk', hv'⟩ := hpairs y hy
    exact (hk.1 hk').bind fun _ => hv.1 hv'
  function name params body ih := by
    refine ⟨fun he => ?_, by simp⟩
    have hbody := Stmt.everyOf_iff.mp (Bool.and_eq_true_iff.mp he).2
    exact (function name params (stmts_of fun s hs => ih s hs (hbody s hs))).bind fun x =>
      (loadAll x.2).bind fun _ => (addConstant _).bind fun _ => emit_ _ _
  unary op right ih := by
    refine ⟨fun he => ?_, by simp⟩
    obtain ⟨hp, hr⟩ := Bool.and_eq_true_iff.mp he
    refine (ih.1 hr).bind fun _ => ?_
    cases hop : Operator.unary? op with
    | some code => exact emit_ _ _
    | none => exact .throw (.unary hp hop)
  binary op left right ih ih' := by
    refine ⟨fun he => ?_, by simp⟩
    obtain ⟨⟨hp, hl⟩, hr⟩ := (Bool.and_eq_true_iff.mp he).imp_left Bool.and_eq_true_iff.mp
    rw [Expr.compile]
    split
    · next hop => exact .throw (.binary hp hop)
    · exact (ih.1 hl).bind fun _ => (ih'.1 hr).bind fun _ => emit_ _ _
    · exact (ih'.1 hr).bind fun _ => (ih.1 hl).bind fun _ => emit_ _ _
  index left index ih ih' := by
    refine ⟨fun he => ?_, fun l i heq => ?_⟩
    · obtain ⟨⟨-, hl⟩, hi⟩ := (Bool.and_eq_true_iff.mp he).imp_left Bool.and_eq_true_iff.mp
      exact (ih.1 hl).bind fun _ => (ih'.1 hi).bind fun _ => emit_ _ _
    · cases heq
      exact ⟨ih.1, ih'.1⟩
  cond condition yes no ih ihyes ihno := by
    refine ⟨fun he => ?_, by simp⟩
    obtain ⟨hc, hyes, hno⟩ := Expr.every_cond he
    have hyes := stmts_of fun s hs => ihyes s hs (Stmt.everyOf_iff.mp hyes s hs)
    have hno := stmts_of fun s hs => ihno s hs (Stmt.everyOf_iff.mp hno s hs)
    cases no with
    | none =>
        exact (ih.1 hc).bind fun _ => (emit _ _).bind fun _ => hyes.bind fun _ =>
          endBranch.bind fun _ =>
          (emit _ _).bind fun _ => (land _ _).bind fun _ => (emit_ _ _).bind fun _ => land _ _
    | some no =>
        exact (ih.1 hc).bind fun _ => (emit _ _).bind fun _ => hyes.bind fun _ =>
          endBranch.bind fun _ =>
          (emit _ _).bind fun _ => (land _ _).bind fun _ => hno.bind fun _ =>
            endBranch.bind fun _ => land _ _
  call callee args ih ihargs := by
    refine ⟨fun he => ?_, by simp⟩
    obtain ⟨⟨-, hf⟩, hargs⟩ := (Bool.and_eq_true_iff.mp he).imp_left Bool.and_eq_true_iff.mp
    have hvalues := exprs fun e hmem => (ihargs e hmem).1 (Expr.everyOf_iff.mp hargs e hmem)
    exact (ih.1 hf).bind fun _ => hvalues.bind fun _ => emit_ _ _
  define name value ih hs :=
    (define name).bind fun s => (ih.1 (Bool.and_eq_true_iff.mp hs).2).bind fun _ => store s
  assign target value ih ih' hs := by
    obtain ⟨⟨hq, ht⟩, hv⟩ := (Bool.and_eq_true_iff.mp hs).imp_left Bool.and_eq_true_iff.mp
    cases target with
    | ident name => exact (assignable name).bind fun s => (ih'.1 hv).bind fun _ => store s
    | index left index =>
        obtain ⟨hl, hi⟩ := ih.2 left index rfl
        obtain ⟨⟨-, hl'⟩, hi'⟩ := (Bool.and_eq_true_iff.mp ht).imp_left Bool.and_eq_true_iff.mp
        exact (hl hl').bind fun _ => (hi hi').bind fun _ => (ih'.1 hv).bind fun _ => emit_ _ _
    | _ => exact .throw (.target hq rfl)
  ret value ih hs := (ih.1 (Bool.and_eq_true_iff.mp hs).2).bind fun _ => emit_ _ _
  expr e ih hs := (ih.1 (Bool.and_eq_true_iff.mp hs).2).bind fun _ => emit_ _ _
  block body ih hs :=
    stmts_of fun s hmem => ih s hmem (Stmt.everyOf_iff.mp (Bool.and_eq_true_iff.mp hs).2 s hmem)

/-- **Where an error of the compiler comes from.** -/
theorem stmts {ss : List Stmt} (h : Stmt.everyOf p q ss = true) : Fails p q (Stmt.compileAll ss) :=
  stmts_of fun s hs => closed.forall_stmt s (Stmt.everyOf_iff.mp h s hs)

end Compile.Fails

/-- So an error of a whole program comes from one of its nodes. -/
lemma Compiler.arises_compile {ss : Program} (h : Stmt.everyOf p q ss = true) {c : Compiler}
    {e : CompileError} (he : (c.compile ss).1 = .error e) : e.Arises p q := by
  unfold Compiler.compile at he
  split at he
  · cases he
  · next hc =>
      cases he
      exact Compile.Fails.stmts h c _ _ hc

/-! ## Faults of the evaluator -/

/-- Where a fault comes from, if all expressions pass `p` and all statements pass `q`. -/
inductive Fault.Arises (p : Expr → Bool) (q : Stmt → Bool) : Fault → Prop where
  | name (n : String) : Arises p q (.undefinedVariable n)
  | unary {op : String} {right : Expr} : p (.unary op right) = true → Operator.unary? op = none →
      Arises p q (.unknownOperator op)
  | binary {op : String} {left right : Expr} : p (.binary op left right) = true →
      Operator.binary? op = none → Arises p q (.unknownOperator op)
  | target {target value : Expr} : q (.assign target value) = true → target.isAssignable = false →
      Arises p q (.invalidTarget target.text)
  | value {f : Fault} : f.isOfTree = false → Arises p q f

/-- Whether the operator of an expression is one of the language. -/
def Expr.isKnown : Expr → Bool
  | .unary op _ => (Operator.unary? op).isSome
  | .binary op _ _ => (Operator.binary? op).isSome
  | _ => true

/-- Whether a statement assigns to nothing that nothing can be assigned to. -/
def Stmt.isAssignable : Stmt → Bool
  | .assign target _ => target.isAssignable
  | _ => true

/-- Where all operators are known none is found to be unknown. -/
lemma Fault.Arises.ne_unknownOperator {f : Fault} (h : f.Arises Expr.isKnown q) (op : String) :
    f ≠ .unknownOperator op := by
  rintro rfl
  cases h with
  | unary hp hop =>
      rw [Expr.isKnown, hop] at hp
      cases hp
  | binary hp hop =>
      rw [Expr.isKnown, hop] at hp
      cases hp
  | value hf => cases hf

/-- Where all targets can be assigned to, none is found to be invalid. -/
lemma Fault.Arises.ne_invalidTarget {f : Fault} (h : f.Arises p Stmt.isAssignable) (text : String) :
    f ≠ .invalidTarget text := by
  rintro rfl
  cases h with
  | target hq ht =>
      rw [Stmt.isAssignable, ht] at hq
      cases hq
  | value hf => cases hf

/-- The bodies of all functions consist of expressions that pass `p` and statements that pass
`q`. -/
def Store.Bodies (p : Expr → Bool) (q : Stmt → Bool) (σ : Store) : Prop :=
  ∀ f ∈ σ.functions, Stmt.everyOf p q f.body = true

namespace Eval

/-- A fault of the step comes from somewhere, and the functions are as before, or as they should
be. -/
def Faults (p : Expr → Bool) (q : Stmt → Bool) {α : Type} (x : Eval α) : Prop :=
  ∀ σ : Store, σ.Bodies p q → (x.after σ).Bodies p q ∧ ∀ f σ', x σ = .error (.fault f) σ' →
    f.Arises p q

namespace Faults

variable {α β : Type} {x : Eval α}

/-- A step about values makes no function, and its faults are about values. -/
lemma neutral (h : x.Neutral) : x.Faults p q :=
  fun σ hσ =>
    ⟨fun f hf => hσ f ((h.beside σ).functions ▸ hf), fun f σ' hf => .value (h.fault σ f σ' hf)⟩

/-- A fault that is raised must come from somewhere. -/
lemma fail {f : Fault} (h : f.Arises p q) : Faults p q (Eval.fail f : Eval α) :=
  fun σ hσ => ⟨hσ, fun g σ' hg => by
    cases hg
    exact h⟩

/-- Of two steps one after the other, either may fail. -/
lemma bind {f : α → Eval β} (hx : x.Faults p q) (hf : ∀ a, (f a).Faults p q) :
    (x >>= f).Faults p q := by
  intro σ h
  obtain ⟨hσ, hfault⟩ := hx σ h
  rw [after] at hσ ⊢
  rw [run_bind]
  cases hr : x σ with
  | ok a σ' =>
      rw [hr] at hσ
      exact hf a σ' hσ
  | error e σ' =>
      rw [hr] at hσ
      refine ⟨hσ, fun g σ'' hg => ?_⟩
      cases hg
      exact hfault _ _ hr

/-- Looking up a name fails only because it is not bound. -/
lemma lookup (env : Nat) (n : String) : (Eval.lookup env n).Faults p q := by
  refine fun σ hσ => ⟨fun f hf => hσ f ((Beside.lookup env n σ).functions ▸ hf), fun f σ' h => ?_⟩
  unfold Eval.lookup at h
  split at h
  · cases h
  · split at h
    · cases h
    · cases h
      exact .name n

/-- A function is made with the body that stands in the tree. -/
lemma newFunction (name : Option String) (params : List String) {body : List Stmt} (env : Nat)
    (h : Stmt.everyOf p q body = true) :
    (Eval.alloc fun s => s.newFunction ⟨name, params, body, env⟩).Faults p q := by
  refine fun σ hσ => ⟨fun f hf => ?_, fun f σ' hf => by cases hf⟩
  obtain hf | rfl := Array.mem_push.mp hf
  · exact hσ f hf
  · exact h

end Faults

/-- Code of one environment, where the calls are like this. -/
lemma Steps.faults {call : Nat → List Value → Eval Value}
    (hcall : ∀ ref args, (call ref args).Faults p q) (env : Nat) :
    Steps call env p q (fun x => x.Faults p q) where
  neutral := .neutral
  bind hx hf := hx.bind hf
  lookup name := .lookup env name
  bindName name v σ hσ := ⟨hσ, fun _ _ h => by cases h⟩
  newFunction name params _ h := .newFunction name params env h
  unknownUnary _ _ h hop := .fail (.unary h hop)
  unknownBinary _ _ _ h hop := .fail (.binary h hop)
  invalidTarget _ _ h ht := .fail (.target h ht)
  call := hcall

end Eval

namespace Evaluator

/-- **Where a fault of a call comes from.**  The induction is on the number of calls that may be
nested. -/
theorem faults_call (maxFrames left ref : Nat) (args : List Value) :
    (callFunction maxFrames left ref args).Faults p q := by
  induction left using Nat.strongRecOn generalizing ref args with
  | ind left ih =>
      intro σ hσ
      rw [Eval.after]
      obtain ⟨f, hf, hr⟩ | ⟨f, n, hf, -, rfl, hr⟩ := callFunction_cases maxFrames left ref args σ
      · rw [hr]
        refine ⟨hσ, fun g σ' hg => ?_⟩
        cases hg
        exact .value hf
      · have hbody := (Eval.Steps.faults (ih n (Nat.lt_succ_self n)) (enter σ ref f args).1).stmts
          (hσ f (Array.mem_of_getElem? hf)) .nil
        have henter : (enter σ ref f args).2.Bodies p q := by
          obtain ⟨es, heq, -⟩ := enter_eq σ ref f args
          rw [heq]
          exact hσ
        obtain ⟨hbodies, hfault⟩ := hbody (enter σ ref f args).2 henter
        rw [← settle_after] at hbodies
        rw [hr]
        exact ⟨hbodies, fun g σ' hg => hfault g σ' (settle_eq_fault hg)⟩

/-- **Where a fault of the evaluator comes from**, and the functions of which bodies there are
afterwards. -/
theorem arises_run {e : Evaluator} (he : e.store.Bodies p q) {ss : Program}
    (h : Stmt.everyOf p q ss = true) :
    (e.run ss).2.store.Bodies p q ∧ ∀ f, (e.run ss).1 = .error f → f.Arises p q := by
  have htop := (Eval.Steps.faults (faults_call e.maxFrames (e.maxFrames - 1)) e.environment).top h
    .nil e.store he
  obtain ⟨hbodies, hfault⟩ := htop
  rw [Eval.after] at hbodies
  rw [run]
  split
  · next hr =>
      rw [hr] at hbodies
      exact ⟨hbodies, fun f hf => by cases hf⟩
  · next hr =>
      rw [hr] at hbodies
      exact ⟨hbodies, fun f hf => by cases hf⟩
  · next hr =>
      rw [hr] at hbodies
      refine ⟨hbodies, fun f hf => ?_⟩
      cases hf
      exact hfault _ _ hr

/-- The functions that there are after programs have their bodies from them. -/
lemma bodies_afterAll (maxFrames : Nat) {ps : List Program}
    (h : ∀ ss ∈ ps, Stmt.everyOf p q ss = true) :
    (afterAll maxFrames ps).store.Bodies p q := by
  have hruns (e : Evaluator) (he : e.store.Bodies p q) :
      (ps.foldl (fun e ss => (e.run ss).2) e).store.Bodies p q := by
    induction ps generalizing e with
    | nil => exact he
    | cons ss ps ih =>
        obtain ⟨hss, hps⟩ := List.forall_mem_cons.mp h
        exact ih hps _ (arises_run he hss).1
  refine hruns _ fun f hf => ?_
  change f ∈ (#[] : Array FunctionObject) at hf
  simp at hf

end Evaluator

end Marmoset
