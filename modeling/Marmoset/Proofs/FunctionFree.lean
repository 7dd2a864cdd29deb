import Marmoset.Proofs.FreshPrograms

/-!
# Programs without functions

What is alike in the two engines differs at most in functions.  A program without function literals
makes none, so that where the outcomes of the engines match, they are equal (`Step.Equals`).

* **`Program.functions_evaluate`** — no function is made.
* **`Step.Matches.equals`** — the outcomes are equal.
-/

namespace Marmoset

/-- Whether the expression is no function literal. -/
def Expr.isNoFunction : Expr → Bool
  | .function _ _ _ => false
  | _ => true

/-- All expressions of a list pass if each does. -/
lemma Expr.everyOf_iff {p : Expr → Bool} {q : Stmt → Bool} {es : List Expr} :
    Expr.everyOf p q es = true ↔ ∀ e ∈ es, e.every p q = true := by
  induction es with
  | nil => simp [Expr.everyOf]
  | cons e es ih => simp only [Expr.everyOf, Bool.and_eq_true, ih, List.forall_mem_cons]

/-! ## No function is made -/

namespace Eval

/-- The store after a step, whether it came to a value or not. -/
def after {α : Type} (x : Eval α) (σ : Store) : Store :=
  match x σ with
  | .ok _ σ' => σ'
  | .error _ σ' => σ'

/-- A step that leaves functions and names as they are. -/
def Beside {α : Type} (x : Eval α) : Prop :=
  ∀ σ : Store, σ.Beside (x.after σ)

namespace Beside

variable {α : Type}

lemma pure (a : α) : Beside (Pure.pure a : Eval α) := Store.Beside.refl

lemma throw (e : Exit) : Beside (MonadExcept.throw e : Eval α) := Store.Beside.refl

/-- What is allocated is neither a function nor a name. -/
lemma alloc {f : Store → α × Store} (hf : ∀ s : Store, s.Beside (f s).2) :
    (Eval.alloc f).Beside := hf

lemma ofExcept (r : Except Fault α) : (Eval.ofExcept r).Beside := by
  cases r with
  | ok a => exact pure a
  | error f => exact throw (.fault f)

/-- Looking up a name changes nothing. -/
lemma lookup (env : Nat) (n : String) : (Eval.lookup env n).Beside := by
  intro σ
  rw [after, Eval.lookup]
  cases σ.lookup env n with
  | some v => exact .refl σ
  | none =>
      cases Builtin.ofName? n with
      | some b => exact .refl σ
      | none => exact .refl σ

lemma getIndex (v w : Value) : (Eval.getIndex v w).Beside := by
  intro σ
  rw [after, Eval.getIndex]
  cases σ.getIndex v w with
  | ok _ => exact .refl σ
  | error _ => exact .refl σ

/-- Writing to an index changes an array or a hash. -/
lemma setIndex (v w u : Value) : (Eval.setIndex v w u).Beside := by
  intro σ
  rw [after, Eval.setIndex]
  cases hs : σ.setIndex v w u with
  | error _ => exact .refl σ
  | ok σ' =>
      unfold Store.setIndex at hs
      split at hs
      · split at hs
        · split_ifs at hs
          cases hs
          exact ⟨rfl, rfl, rfl⟩
        · cases hs
      · split at hs
        · cases hs
          exact ⟨rfl, rfl, rfl⟩
        · cases hs
      · cases hs

lemma buildHash (vs : List Value) : (Eval.buildHash vs).Beside := by
  intro σ
  rw [after, Eval.buildHash, Store.buildHash]
  cases Store.pairUp .empty vs with
  | ok _ => exact ⟨rfl, rfl, rfl⟩
  | error _ => exact .refl σ

end Beside

/-- A step that makes no function where there is none. -/
def MakesNone {α : Type} (x : Eval α) : Prop :=
  ∀ σ : Store, σ.functions = #[] → (x.after σ).functions = #[]

namespace MakesNone

variable {α β : Type} {x : Eval α}

/-- Where functions stay as they are none is made. -/
lemma of_beside (h : x.Beside) : x.MakesNone := fun σ hσ => (h σ).functions.trans hσ

lemma pure (a : α) : MakesNone (Pure.pure a : Eval α) := of_beside (.pure a)

lemma throw (e : Exit) : MakesNone (MonadExcept.throw e : Eval α) := of_beside (.throw e)

/-- One step after the other. -/
lemma bind {f : α → Eval β} (hx : x.MakesNone) (hf : ∀ a, (f a).MakesNone) :
    (x >>= f).MakesNone := by
  intro σ h
  have hσ := hx σ h
  rw [after] at hσ ⊢
  rw [run_bind]
  cases hr : x σ with
  | ok a σ' =>
      rw [hr] at hσ
      exact hf a σ' hσ
  | error e σ' =>
      rw [hr] at hσ
      exact hσ

/-- Pairs are evaluated one after the other. -/
lemma sequence {xs : List (String × Eval (Value × Value))} (h : ∀ x ∈ xs, x.2.MakesNone) :
    (Eval.sequence xs).MakesNone := by
  induction xs with
  | nil => exact pure []
  | cons x xs ih =>
      obtain ⟨hx, hxs⟩ := List.forall_mem_cons.mp h
      exact hx.bind fun p => (ih hxs).bind fun vs => pure _

end MakesNone

end Eval

/-- Builtins leave functions and names as they are. -/
lemma Builtin.beside_call (b : Builtin) (s : Store) (args : List Value) :
    s.Beside (b.call s args).2 := by
  have hprint (vs : List Value) (s : Store) : s.Beside (printAll s vs) := by
    induction vs generalizing s with
    | nil => exact .refl s
    | cons v vs ih => exact ⟨(ih _).closures, (ih _).functions, (ih _).environments⟩
  unfold Builtin.call
  split
  · exact hprint _ s
  · exact .refl s
  · exact .refl s
  · exact .refl s
  · exact .refl s
  · exact .refl s
  · unfold Builtin.callRest
    split
    · dsimp only
      split_ifs <;> exact ⟨rfl, rfl, rfl⟩
    · exact .refl s
  · unfold Builtin.callPush
    split <;> exact ⟨rfl, rfl, rfl⟩
  · exact .refl s
  · exact .refl s

open Eval (MakesNone)

/-- Where there are no functions none can be called. -/
lemma Evaluator.makesNone_call (maxFrames left ref : Nat) (args : List Value) :
    MakesNone (callFunction maxFrames left ref args) := by
  intro σ h
  have hnone : σ.functions[ref]? = none := by
    rw [h]
    simp
  rw [Eval.after, callFunction]
  simp only [hnone]
  exact h

section

variable {call : Nat → List Value → Eval Value} {env : Nat}

/-- Only a function could be called that makes one. -/
lemma Eval.makesNone_apply (hcall : ∀ ref args, MakesNone (call ref args)) (f : Value)
    (args : List Value) :
    MakesNone (Eval.apply call f args) := by
  cases f with
  | function ref => exact hcall ref args
  | builtin b => exact .of_beside (.alloc fun s => b.beside_call s args)
  | _ => exact .throw _

/-- Expressions one after the other. -/
lemma Expr.makesNone_evalAll {es : List Expr} (h : ∀ e ∈ es, MakesNone (e.eval call env)) :
    MakesNone (Expr.evalAll call env es) := by
  induction es with
  | nil => exact .pure []
  | cons e es ih =>
      obtain ⟨he, hes⟩ := List.forall_mem_cons.mp h
      exact he.bind fun v => (ih hes).bind fun vs => .pure _

/-- Statements one after the other. -/
lemma Stmt.makesNone_evalAll {ss : List Stmt} (h : ∀ s ∈ ss, MakesNone (s.eval call env))
    (last : Value) :
    MakesNone (Stmt.evalAll call env last ss) := by
  induction ss generalizing last with
  | nil => exact .pure last
  | cons s ss ih =>
      obtain ⟨hs, hss⟩ := List.forall_mem_cons.mp h
      exact hs.bind fun v => ih hss v

/-- Neither the expression nor, if it is an index expression, one of its two parts makes a function:
an assignment to one evaluates its parts without it. -/
def Expr.MakesNone (call : Nat → List Value → Eval Value) (env : Nat) (e : Expr) : Prop :=
  Eval.MakesNone (e.eval call env) ∧ ∀ left index, e = .index left index →
    Eval.MakesNone (left.eval call env) ∧ Eval.MakesNone (index.eval call env)

/-- Only function literals make functions. -/
lemma Tree.closed_makesNone (hcall : ∀ ref args, MakesNone (call ref args)) (env : Nat)
    (q : Stmt → Bool) :
    Tree.Closed (fun e => e.every Expr.isNoFunction q = true → e.MakesNone call env)
      (fun s => s.every Expr.isNoFunction q = true → MakesNone (s.eval call env)) where
  ident n _ := ⟨.of_beside (.lookup env n), by simp⟩
  integer n _ := ⟨.pure _, by simp⟩
  float x _ := ⟨.pure _, by simp⟩
  string s _ := ⟨.pure _, by simp⟩
  boolean b _ := ⟨.pure _, by simp⟩
  nil _ := ⟨.pure _, by simp⟩
  array items ih h := by
    have hitems := Expr.everyOf_iff.mp (Bool.and_eq_true_iff.mp h).2
    exact ⟨(Expr.makesNone_evalAll fun e he => (ih e he (hitems e he)).1).bind fun vs =>
      .of_beside (.alloc fun s => ⟨rfl, rfl, rfl⟩), by simp⟩
  hash pairs ih h := by
    have hpairs := Expr.everyPair_iff.mp (Bool.and_eq_true_iff.mp h).2
    refine ⟨?_, by simp⟩
    rw [Expr.eval, Expr.evalPairs_sorted, Expr.evalPairs_eq]
    refine MakesNone.bind (.sequence fun x hx => ?_) fun vs => .of_beside (.buildHash vs)
    obtain ⟨p, hp, rfl⟩ := List.mem_map.mp hx
    obtain ⟨hk, hv⟩ := ih p (mem_sortedPairs.mp hp)
    obtain ⟨hk', hv'⟩ := hpairs p (mem_sortedPairs.mp hp)
    exact (hk hk').1.bind fun k => (hv hv').1.bind fun v => .pure _
  function name params body _ h := by
    cases h
  unary op right ih h := by
    refine ⟨(ih (Bool.and_eq_true_iff.mp h).2).1.bind fun v => ?_, by simp⟩
    cases Operator.unary? op with
    | some code => exact .of_beside (.ofExcept _)
    | none => exact .throw _
  binary op left right ih ih' h := by
    obtain ⟨⟨-, hl⟩, hr⟩ := (Bool.and_eq_true_iff.mp h).imp_left Bool.and_eq_true_iff.mp
    refine ⟨?_, by simp⟩
    rw [Expr.eval]
    split
    · exact (ih' hr).1.bind fun r => (ih hl).1.bind fun l => .of_beside (.ofExcept _)
    · exact (ih hl).1.bind fun l => (ih' hr).1.bind fun r => .of_beside (.ofExcept _)
    · exact (ih hl).1.bind fun l => (ih' hr).1.bind fun r => .throw _
  index left index ih ih' h := by
    obtain ⟨⟨-, hl⟩, hi⟩ := (Bool.and_eq_true_iff.mp h).imp_left Bool.and_eq_true_iff.mp
    refine ⟨(ih hl).1.bind fun l => (ih' hi).1.bind fun i => .of_beside (.getIndex l i),
      fun l i heq => ?_⟩
    cases heq
    exact ⟨(ih hl).1, (ih' hi).1⟩
  cond condition yes no ih ihyes ihno h := by
    obtain ⟨hc, hyes, hno⟩ := Expr.every_cond h
    refine ⟨?_, by simp⟩
    rw [Expr.eval_cond]
    refine (ih hc).1.bind fun v => ?_
    split_ifs
    · exact Stmt.makesNone_evalAll (fun s hs => ihyes s hs (Stmt.everyOf_iff.mp hyes s hs)) _
    · exact Stmt.makesNone_evalAll (fun s hs => ihno s hs (Stmt.everyOf_iff.mp hno s hs)) _
  call callee args ih ihargs h := by
    obtain ⟨⟨-, hf⟩, hargs⟩ := (Bool.and_eq_true_iff.mp h).imp_left Bool.and_eq_true_iff.mp
    have hvalues := Expr.makesNone_evalAll fun e he =>
      (ihargs e he (Expr.everyOf_iff.mp hargs e he)).1
    exact ⟨(ih hf).1.bind fun f => hvalues.bind fun vs => Eval.makesNone_apply hcall f vs, by simp⟩
  define name value ih h :=
    (ih (Bool.and_eq_true_iff.mp h).2).1.bind fun v =>
      MakesNone.bind (fun _ h => h) fun _ => .pure _
  assign target value ih ih' h := by
    obtain ⟨⟨-, ht⟩, hv⟩ := (Bool.and_eq_true_iff.mp h).imp_left Bool.and_eq_true_iff.mp
    cases target with
    | ident name => exact (ih' hv).1.bind fun v => MakesNone.bind (fun _ h => h) fun _ => .pure _
    | index left index =>
        obtain ⟨hl, hi⟩ := (ih ht).2 left index rfl
        exact hl.bind fun l => hi.bind fun i => (ih' hv).1.bind fun v =>
          (MakesNone.of_beside (.setIndex l i v)).bind fun _ => .pure _
    | _ => exact .throw _
  ret value ih h := (ih (Bool.and_eq_true_iff.mp h).2).1.bind fun v => .throw _
  expr e ih h := (ih (Bool.and_eq_true_iff.mp h).2).1
  block body ih h :=
    Stmt.makesNone_evalAll
      (fun s hs => ih s hs (Stmt.everyOf_iff.mp (Bool.and_eq_true_iff.mp h).2 s hs)) _

end

/-- **A program without function literals makes no function.** -/
theorem Program.functions_evaluate {p : Program} {q : Stmt → Bool}
    (h : Stmt.everyOf Expr.isNoFunction q p = true) (limits : Limits) :
    (p.evaluate limits).2.store.functions = #[] := by
  have htop (ss : List Stmt) (h : Stmt.everyOf Expr.isNoFunction q ss = true) (last : Value) :
      MakesNone (Evaluator.evalTop (p.site limits).call 0 last ss) := by
    induction ss generalizing last with
    | nil => exact .pure last
    | cons s ss ih =>
        obtain ⟨hs, hss⟩ := Bool.and_eq_true_iff.mp h
        have hcall (ref : Nat) (args : List Value) : MakesNone ((p.site limits).call ref args) :=
          Evaluator.makesNone_call limits.maxFrames (limits.maxFrames - 1) ref args
        exact ((Tree.closed_makesNone hcall 0 q).forall_stmt s hs).bind fun v => ih hss _
  have hstore := htop p h .nil (Evaluator.ofStore .empty limits.maxFrames).store rfl
  rw [Eval.after] at hstore
  rw [evaluate_eq]
  cases hr : Evaluator.evalTop (p.site limits).call 0 .nil p
    (Evaluator.ofStore .empty limits.maxFrames).store with
  | ok v σ =>
      rw [hr] at hstore
      exact hstore
  | error e σ =>
      rw [hr] at hstore
      cases e with
      | returned v => exact hstore
      | fault f => exact hstore

/-! ## Equal outcomes -/

/-- The stores hold the same arrays and hashes in the same places, and the same was printed. -/
structure Store.Same (s σ : Store) : Prop where
  arrays : s.arrays = σ.arrays
  hashes : s.hashes = σ.hashes
  printed : s.printed = σ.printed

/-- The machine is done with the value that the evaluator has, or has stopped with its fault. -/
inductive Step.Equals : Step → Except Fault Value × Evaluator → Prop where
  | value {m : Machine} {e : Evaluator}
      (text : m.store.textOf m.lastPopped = e.store.textOf m.lastPopped)
      (store : m.store.Same e.store) : Equals (.done m) (.ok m.lastPopped, e)
  | fault {f : Fault} {m : Machine} {e : Evaluator} (store : m.store.Same e.store) :
      Equals (.fault f m) (.error f, e)

/-- If the evaluator has a value, the machine is done with it. -/
lemma Step.Equals.value?_eq {r : Step} {out : Except Fault Value × Evaluator} (h : r.Equals out)
    {v : Value} (hv : out.1 = .ok v) : r.value? = some v := by
  cases h with
  | value _ _ =>
      cases hv
      rfl
  | fault _ => cases hv

/-- Arrays that are equal at each place are equal. -/
lemma Pointwise.eq {α : Type} {xs ys : Array α} (h : Pointwise Eq xs ys) : xs = ys := by
  rw [← Array.toList_inj, ← List.forall₂_eq_eq_eq]
  exact h.forall₂

/-- Without functions hashes that are alike are equal. -/
lemma Bindings.Like.eq_of_zero {b b' : Bindings HashKey Value} (h : b.Like 0 b') : b = b' := by
  obtain ⟨es⟩ := b
  obtain ⟨es'⟩ := b'
  have hes : List.Forall₂ Eq es es' :=
    List.Forall₂.imp (fun p q hpq => Prod.ext hpq.1 hpq.2.eq_of_zero) h
  rw [List.forall₂_eq_eq_eq] at hes
  rw [hes]

/-- Stores that are alike without functions are the same. -/
lemma Store.Like.same {s σ : Store} (h : s.Like σ) (hf : σ.functions = #[]) : s.Same σ := by
  obtain ⟨arrays, hashes, -, -, printed⟩ := h
  rw [hf] at arrays hashes printed
  exact ⟨(arrays.mono fun _ _ hxs => (hxs.mono fun _ _ hv => hv.eq_of_zero).eq).eq,
    (hashes.mono fun _ _ hb => hb.eq_of_zero).eq, printed.eq_of_empty⟩

/-- **Without functions, outcomes that match are equal.** -/
theorem Step.Matches.equals {r : Step} {out : Except Fault Value × Evaluator} (h : r.Matches out)
    (hf : out.2.store.functions = #[]) : r.Equals out := by
  cases h with
  | value hv hs =>
      have hsame := hs.same hf
      have htext := hs.textOf hv
      rw [hf] at htext hv
      cases hv.eq_of_zero
      exact .value htext.eq_of_empty hsame
  | fault hfault hs =>
      have hsame := hs.same hf
      rw [hf] at hfault
      cases hfault.eq_of_zero
      exact .fault hsame

end Marmoset
