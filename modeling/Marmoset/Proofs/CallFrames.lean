import Marmoset.Proofs.EvaluationEnds
import Marmoset.Proofs.EvaluationSteps

/-!
# Calls bind nothing outside themselves

Code binds names in the environment it runs in and in no other one.  The environment of a call is
new, so that the environments that there were before the call are the same afterwards, however it
ends.

While code of an environment runs, the store goes from `σ` to `σ'` with `σ.RunsIn env σ'`; over a
whole call it goes with `σ.Framed σ'`.  A call inside the code is such a step, and a whole call is
made of the steps of its body.

* **`Evaluator.framed_call`** — a call of the evaluator, in any store.
* **`Evaluator.call_rebinds_nothing`** — a call at any moment of any evaluation, with the counter of
  nested calls.
-/

namespace Marmoset

namespace Store

variable {σ σ' σ'' : Store} {env : Nat}

/-- The environments that there are stay as they are, with the names that they bind and the
environments around them. -/
structure Framed (σ σ' : Store) : Prop extends Adds σ σ' where
  environments : ∀ e < σ.environments.size, σ'.environments[e]? = σ.environments[e]?

/-- The same, but in one environment names may have been bound. -/
structure RunsIn (env : Nat) (σ σ' : Store) : Prop extends Adds σ σ' where
  others : ∀ e < σ.environments.size, e ≠ env → σ'.environments[e]? = σ.environments[e]?
  own : ∀ E, σ.environments[env]? = some E →
    ∃ new, σ'.environments[env]? = some ⟨new ++ E.names, E.outer⟩

/-! ## What one change does -/

lemma Framed.refl (σ : Store) : σ.Framed σ := ⟨.refl σ, fun _ _ => rfl⟩

namespace RunsIn

lemma of_beside (hb : σ.Beside σ') (ha : σ.Adds σ') : σ.RunsIn env σ' :=
  ⟨ha, fun _ _ _ => by rw [hb.environments], fun E hE => ⟨[], by rw [hb.environments, hE]; rfl⟩⟩

lemma refl (σ : Store) : σ.RunsIn env σ := of_beside (.refl σ) (.refl σ)

/-- There are at least as many environments. -/
lemma size_le (h : σ.RunsIn env σ') : σ.environments.size ≤ σ'.environments.size := by
  refine Nat.le_of_not_lt fun hlt => ?_
  have hlast := Array.getElem?_eq_getElem hlt
  have hnone : σ'.environments[σ'.environments.size]? = none :=
    Array.getElem?_eq_none (Nat.le_refl _)
  by_cases he : σ'.environments.size = env
  · subst he
    obtain ⟨new, hnew⟩ := h.own _ hlast
    rw [hnone] at hnew
    cases hnew
  · rw [h.others _ hlt he, hlast] at hnone
    cases hnone

lemma trans (h : σ.RunsIn env σ') (h' : σ'.RunsIn env σ'') : σ.RunsIn env σ'' where
  toAdds := h.toAdds.trans h'.toAdds
  others e he hne := (h'.others e (Nat.lt_of_lt_of_le he h.size_le) hne).trans (h.others e he hne)
  own E hE := by
    obtain ⟨new, hnew⟩ := h.own E hE
    obtain ⟨new', hnew'⟩ := h'.own _ hnew
    exact ⟨new' ++ new, by rw [hnew', List.append_assoc]⟩

/-- A call is a step of the code that makes it. -/
lemma of_framed (h : σ.Framed σ') : σ.RunsIn env σ' where
  toAdds := h.toAdds
  others e he _ := h.environments e he
  own E hE := by
    obtain ⟨he, -⟩ := Array.getElem?_eq_some_iff.mp hE
    exact ⟨[], by rw [h.environments env he, hE]; rfl⟩

/-- Where the code runs in an environment that was not there, all that were there stay as they
are. -/
lemma framed (h : σ.RunsIn env σ') (henv : σ.environments.size ≤ env) : σ.Framed σ' :=
  ⟨h.toAdds, fun e he => h.others e he (by omega)⟩

lemma bind (σ : Store) (env : Nat) (name : String) (v : Value) :
    σ.RunsIn env (σ.bind env name v) where
  toAdds := .environments σ _
  others e _ hne := by rw [Store.bind, Array.getElem?_modify, if_neg hne.symm]
  own E hE := ⟨[(name, v)], by rw [Store.bind, Array.getElem?_modify, if_pos rfl, hE]; rfl⟩

lemma newEnvironment (σ : Store) (outer : Option Nat) : σ.RunsIn env (σ.newEnvironment outer).2 :=
  .of_framed ⟨.environments σ _, fun e he => by
    rw [Store.newEnvironment, Array.getElem?_push_lt he, Array.getElem?_eq_getElem he]⟩

lemma newFunction (σ : Store) (f : FunctionObject) : σ.RunsIn env (σ.newFunction f).2 :=
  .of_framed ⟨.newFunction σ f, fun _ _ => rfl⟩

/-- The environment of a call is new. -/
lemma enter (σ : Store) (ref : Nat) (f : FunctionObject) (args : List Value) :
    σ.RunsIn σ.environments.size (Evaluator.enter σ ref f args).2 := by
  have hparams (ps : List (String × Value)) (env : Nat) (σ : Store) :
      σ.RunsIn env (ps.foldl (fun s p => s.bind env p.1 p.2) σ) := by
    induction ps generalizing σ with
    | nil => exact .refl σ
    | cons p ps ih => exact (bind σ env p.1 p.2).trans (ih _)
  have hnew : σ.RunsIn σ.environments.size (σ.newEnvironment (some f.environment)).2 :=
    newEnvironment σ _
  rw [Evaluator.enter]
  cases f.name with
  | none => exact hnew.trans (hparams _ _ _)
  | some n => exact (hnew.trans (bind _ _ n _)).trans (hparams _ _ _)

end RunsIn

end Store

/-! ## Code of one environment -/

namespace Eval

/-- The step binds names in no other environment. -/
def RunsIn (env : Nat) {α : Type} (x : Eval α) : Prop :=
  ∀ σ : Store, σ.RunsIn env (x.after σ)

namespace RunsIn

variable {α β : Type} {env : Nat} {x : Eval α}

lemma bind {f : α → Eval β} (hx : x.RunsIn env) (hf : ∀ a, (f a).RunsIn env) :
    (x >>= f).RunsIn env := by
  intro σ
  have hσ := hx σ
  rw [after] at hσ ⊢
  rw [run_bind]
  cases hr : x σ with
  | ok a σ' =>
      rw [hr] at hσ
      exact hσ.trans (hf a σ')
  | error e σ' =>
      rw [hr] at hσ
      exact hσ

lemma neutral (h : x.Neutral) : x.RunsIn env := fun σ => .of_beside (h.beside σ) (h.adds σ)

/-- A fault leaves all as it is. -/
lemma fail (f : Fault) : (Eval.fail f : Eval α).RunsIn env := fun σ => .refl σ

lemma lookup (n : String) : (Eval.lookup env n).RunsIn env := by
  intro σ
  rw [after, Eval.lookup]
  cases σ.lookup env n with
  | some v => exact .refl σ
  | none =>
      cases Builtin.ofName? n with
      | some b => exact .refl σ
      | none => exact .refl σ

end RunsIn

/-- **Code binds names in its own environment**, where calls leave all environments as they are. -/
theorem Steps.runsIn {call : Nat → List Value → Eval Value}
    (hcall : ∀ ref args (σ : Store), σ.Framed ((call ref args).after σ)) (env : Nat)
    (p : Expr → Bool) (q : Stmt → Bool) : Steps call env p q (fun x => x.RunsIn env) where
  neutral := .neutral
  bind hx hf := hx.bind hf
  lookup := .lookup
  bindName name v σ := .bind σ env name v
  newFunction _ _ _ _ σ := .newFunction σ _
  unknownUnary _ _ _ _ := .fail _
  unknownBinary _ _ _ _ _ := .fail _
  invalidTarget _ _ _ _ := .fail _
  call ref args σ := .of_framed (hcall ref args σ)

end Eval

/-! ## Calls -/

namespace Evaluator

/-- **A call leaves all environments as they are.**  The induction is on the number of calls that
may be nested. -/
theorem framed_call (maxFrames left ref : Nat) (args : List Value) (σ : Store) :
    σ.Framed ((callFunction maxFrames left ref args).after σ) := by
  induction left using Nat.strongRecOn generalizing ref args σ with
  | ind left ih =>
      rw [Eval.after]
      obtain ⟨f, -, hr⟩ | ⟨f, n, -, -, rfl, hr⟩ := callFunction_cases maxFrames left ref args σ
      · rw [hr]
        exact .refl σ
      · -- The body runs in the environment `σ.environments.size`, which is not there before.
        have henter := Store.RunsIn.enter σ ref f args
        have hall := Stmt.everyOf_of_forall (p := fun _ => true) (q := fun _ => true) (fun _ => rfl)
          (fun _ => rfl) f.body
        have hbody :=
          (Eval.Steps.runsIn (ih n (Nat.lt_succ_self n)) σ.environments.size _ _).stmts hall .nil
        have hruns := hbody (enter σ ref f args).2
        rw [← settle_after] at hruns
        rw [hr]
        exact (henter.trans hruns).framed (Nat.le_refl _)

/-! ## Moments of an evaluation -/

/-- The evaluator at some moment while it evaluates a program after others, with calls nested so
deep: a part of the program, or of a function that is called, is begun or has ended. -/
inductive Working (maxFrames : Nat) : Evaluator → Nat → Prop where
  | begun {ps : List Program} {p : Program} {a : Activation} :
      Relation.ReflTransGen (Activation.Calls maxFrames) ((afterAll maxFrames ps).start p) a →
      Working maxFrames { afterAll maxFrames ps with store := a.store } a.depth
  | ended {ps : List Program} {p : Program} {a : Activation} {r : Except Exit a.part.Result}
      {depth : Nat} {σ : Store} :
      Relation.ReflTransGen (Activation.Calls maxFrames) ((afterAll maxFrames ps).start p) a →
      Unbounded.Ends (Unbounded.part maxFrames a.env a.part) (a.depth, a.store) (r, depth, σ) →
      Working maxFrames { afterAll maxFrames ps with store := σ } depth

/-- Calls a function without a bound, with calls nested so deep. -/
def callUnbounded (limit : Nat) (e : Evaluator) (depth ref : Nat) (args : List Value) :
    Option (Except Exit Value × Nat × Evaluator) :=
  (Unbounded.call e.maxFrames limit ref args (depth, e.store)).map fun (r, depth, s) =>
    (r, depth, { e with store := s })

namespace Working

variable {maxFrames depth : Nat} {e : Evaluator}

lemma maxFrames_eq (h : Working maxFrames e depth) : e.maxFrames = maxFrames := by
  cases h with
  | begun _ => exact maxFrames_afterAll maxFrames _
  | ended _ _ => exact maxFrames_afterAll maxFrames _

/-- At every moment the store is grounded. -/
lemma exists_hosts (h : Working maxFrames e depth) : ∃ env, e.store.Hosts env := by
  have hreached {ps : List Program} {p : Program} {a : Activation}
      (ha : Relation.ReflTransGen (Activation.Calls maxFrames)
        ((afterAll maxFrames ps).start p) a) :
      a.store.Hosts a.env := by
    induction ha with
    | refl => exact hosts_afterAll maxFrames ps
    | tail _ hcall ih => exact (hcall.descends ih).1
  cases h with
  | begun ha => exact ⟨_, hreached ha⟩
  | ended ha hends =>
      obtain ⟨x, hx⟩ := Unbounded.exists_mirrors_part maxFrames _ _ _
      exact ⟨_, (hx.of_ends (hreached ha) hends).2⟩

end Working

/-- A call comes to a value or to a fault, but to no return. -/
lemma exists_outcome_call (maxFrames left ref : Nat) (args : List Value) (depth : Nat) (σ : Store) :
    ∃ r : Except Fault Value, Unbounded.outcome (callFunction maxFrames left ref args) depth σ =
      (r.mapError .fault, depth, (callFunction maxFrames left ref args).after σ) := by
  rw [Unbounded.outcome, Eval.after]
  obtain ⟨f, -, hr⟩ | ⟨f, n, -, -, rfl, hr⟩ := callFunction_cases maxFrames left ref args σ
  · rw [hr]
    exact ⟨.error f, rfl⟩
  · rw [hr]
    cases Stmt.evalAll (callFunction maxFrames n) (enter σ ref f args).1 .nil f.body
      (enter σ ref f args).2 with
    | ok v σ' => exact ⟨.ok v, rfl⟩
    | error x σ' =>
        cases x with
        | returned v => exact ⟨.ok v, rfl⟩
        | fault g => exact ⟨.error g, rfl⟩

/-- **A call never rebinds anything outside itself.**  At any moment of any evaluation the call of
any function with any arguments ends, with a value or with a fault, and this is the one that the
evaluator gives.  Afterwards the environments that there were are the same, calls are nested as deep
as before and the evaluator has the same top-level environment: the only things that were there and
may be different are the contents of arrays and hashes. -/
theorem call_rebinds_nothing {maxFrames depth : Nat} {e : Evaluator} (h : Working maxFrames e depth)
    (ref : Nat) (args : List Value) :
    ∃ (r : Except Fault Value) (σ : Store),
      Unbounded.outcome (callFunction maxFrames (maxFrames - 1 - depth) ref args) depth e.store =
        (r.mapError .fault, depth, σ) ∧
      (∃ n, ∀ limit ≥ n, e.callUnbounded limit depth ref args =
        some (r.mapError .fault, depth, { e with store := σ })) ∧
      e.store.Framed σ := by
  obtain ⟨env, hhosts⟩ := h.exists_hosts
  obtain ⟨⟨n, hn⟩, -⟩ := Unbounded.mirrors_call maxFrames depth env ref args e.store hhosts
  dsimp only at hn
  obtain ⟨r, hr⟩ := exists_outcome_call maxFrames (maxFrames - 1 - depth) ref args depth e.store
  refine ⟨r, _, hr, ⟨n, fun limit hlimit => ?_⟩, framed_call maxFrames _ ref args e.store⟩
  rw [callUnbounded, h.maxFrames_eq, hn limit hlimit, hr]
  rfl

/-- A function that changes an array of the top level, binds the array's name inside itself and
fails. -/
def meddling : Program :=
  [.define "a" (.array [.integer 1]),
    .define "f" (.function (some "f") ["n"]
      [.assign (.index (.ident "a") (.integer 0)) (.ident "n"), .assign (.ident "a") (.ident "n"),
        .expr (.call (.ident "n") [])])]

set_option maxRecDepth 100000 in
theorem meddling_rebinds_nothing :
    Working 8 (afterAll 8 [meddling]) 0 ∧
      ((callFunction 8 7 0 [.integer 5]).after (afterAll 8 [meddling]).store).array 0 =
        #[.integer 5] ∧
      ∃ (r : Except Fault Value) (σ : Store),
        Unbounded.outcome (callFunction 8 7 0 [.integer 5]) 0 (afterAll 8 [meddling]).store =
          (r.mapError .fault, 0, σ) ∧
        (∃ n, ∀ limit ≥ n, (afterAll 8 [meddling]).callUnbounded limit 0 0 [.integer 5] =
          some (r.mapError .fault, 0, { afterAll 8 [meddling] with store := σ })) ∧
        (afterAll 8 [meddling]).store.Framed σ := by
  have hworking : Working 8 (afterAll 8 [meddling]) 0 := @Working.begun 8 [meddling] [] _ .refl
  exact ⟨hworking, by decide +kernel, call_rebinds_nothing hworking 0 [.integer 5]⟩

end Evaluator

end Marmoset
