import Marmoset.Proofs.EvaluatorRecursion
import Mathlib.Data.Prod.Lex

/-!
# Evaluation ends

What the evaluator turns to has fewer calls left to nest, or as many and a smaller tree.  The
counter of nested calls is the same before and after everything that is evaluated, so that this
holds for one part after the other.

* **`Activation.Calls.descends`** — the recursion descends.
* **`Evaluator.evaluation_ends`** — everything that is evaluated for a program ends, after any
  programs before it.
-/

namespace Marmoset

namespace Part

/-- The size of the tree. -/
noncomputable def size : Part → Nat
  | expr e => sizeOf e
  | exprs es => sizeOf es
  | pairs ps => sizeOf ps
  | stmt s => sizeOf s
  | stmts ss => sizeOf ss
  | branch ss => sizeOf ss

lemma size_lt_of_mem_steps (p : Part) : ∀ q ∈ p.steps, q.size < p.size := by
  fun_cases steps p with
  | case2 ps =>
      have hsize := (perm_sortedPairs ps).sizeOf_eq_sizeOf
      simp [size, hsize]
  | _ => simp [size] <;> omega

lemma size_branch_lt (condition : Expr) (yes : List Stmt) (no : Option (List Stmt)) (b : Bool) :
    (stmts (if b then yes else no.getD [])).size < (expr (.cond condition yes no)).size := by
  cases b with
  | true =>
      simp only [size, if_true, Expr.cond.sizeOf_spec]
      omega
  | false =>
      cases no with
      | none =>
          simp only [size, Bool.false_eq_true, if_false, Option.getD_none, List.nil.sizeOf_spec,
            Option.none.sizeOf_spec, Expr.cond.sizeOf_spec]
          omega
      | some no =>
          simp only [size, Bool.false_eq_true, if_false, Option.getD_some, Option.some.sizeOf_spec,
            Expr.cond.sizeOf_spec]
          omega

end Part

/-! ## Outcomes -/

namespace Unbounded

section

variable {α : Type} {depth env : Nat} {X : Nat → Unbounded α} {x : Eval α} {σ : Store}

/-- What is mirrored ends. -/
lemma Mirrors.exists_ends (h : Mirrors depth env X x) (hσ : σ.Hosts env) :
    ∃ r σ', Ends X (depth, σ) (r, depth, σ') ∧ σ.Grows σ' := by
  obtain ⟨hends, hgrows⟩ := h σ hσ
  rw [outcome] at hends
  rw [Eval.after] at hgrows
  cases hr : x σ with
  | ok a σ' =>
      rw [hr] at hends hgrows
      exact ⟨.ok a, σ', hends, hgrows⟩
  | error e σ' =>
      rw [hr] at hends hgrows
      exact ⟨.error e, σ', hends, hgrows⟩

/-- Where it ends, the counter is as before and the environment is still there. -/
lemma Mirrors.of_ends (h : Mirrors depth env X x) (hσ : σ.Hosts env) {r : Except Exit α}
    {depth' : Nat} {σ' : Store} (hends : Ends X (depth, σ) (r, depth', σ')) :
    depth' = depth ∧ σ'.Hosts env := by
  obtain ⟨r', σ'', hends', hgrows⟩ := h.exists_ends hσ
  cases hends.unique hends'
  exact ⟨rfl, hσ.grows hgrows⟩

end

lemma exists_mirrors_part (maxFrames depth env : Nat) (p : Part) :
    ∃ x, Mirrors depth env (part maxFrames env p) x := by
  have hexpr := mirrors_expr maxFrames depth env
  have hstmt := mirrors_stmt maxFrames depth env
  cases p with
  | expr e => exact ⟨_, hexpr e⟩
  | exprs es => exact ⟨_, mirrors_exprs fun e _ => hexpr e⟩
  | pairs ps => exact ⟨_, mirrors_pairItems fun p _ => ⟨hexpr p.1, hexpr p.2⟩⟩
  | stmt s => exact ⟨_, hstmt s⟩
  | stmts ss => exact ⟨_, mirrors_stmts (fun s _ => hstmt s) .nil⟩
  | branch ss => exact ⟨_, mirrors_stmts (fun s _ => hstmt s) .nil⟩

/-- The counter is the same for parts that are evaluated one after the other. -/
lemma Comes.hosts {maxFrames env depth : Nat} {σ : Store} {ps : List Part} {q : Part}
    {st st' : Nat × Store} (h : Comes maxFrames env ps st q st') (hst : st = (depth, σ))
    (hσ : σ.Hosts env) :
    q ∈ ps ∧ st'.1 = depth ∧ st'.2.Hosts env := by
  induction h generalizing σ with
  | here =>
      subst hst
      exact ⟨List.mem_cons_self, rfl, hσ⟩
  | later hends _ ih =>
      subst hst
      obtain ⟨x, hx⟩ := exists_mirrors_part maxFrames depth env _
      obtain ⟨rfl, hσ'⟩ := hx.of_ends hσ hends
      obtain ⟨hq, hrest⟩ := ih rfl hσ'
      exact ⟨List.mem_cons_of_mem _ hq, hrest⟩

end Unbounded

/-! ## The descent -/

namespace Activation

/-- How many calls may still be nested, and the size of the tree. -/
noncomputable def measure (maxFrames : Nat) (a : Activation) : Nat × Nat :=
  (maxFrames - a.depth, a.part.size)

/-- **The recursion descends**: inside one call to smaller trees, and else to fewer calls that may
be nested. -/
theorem Calls.descends {maxFrames : Nat} {a b : Activation} (h : a.Calls maxFrames b)
    (ha : a.store.Hosts a.env) :
    b.store.Hosts b.env ∧ Prod.Lex (· < ·) (· < ·) (b.measure maxFrames) (a.measure maxFrames) := by
  cases h with
  | step hcomes =>
      obtain ⟨hq, rfl, hb⟩ := hcomes.hosts rfl ha
      exact ⟨hb, .right _ (Part.size_lt_of_mem_steps _ _ hq)⟩
  | branch hcondition =>
      obtain ⟨rfl, hb⟩ := (Unbounded.mirrors_expr maxFrames _ _ _).of_ends ha hcondition
      exact ⟨hb, .right _ (Part.size_branch_lt _ _ _ _)⟩
  | body hcallee hargs hf hlen hdepth =>
      obtain ⟨rfl, hb⟩ := (Unbounded.mirrors_expr maxFrames _ _ _).of_ends ha hcallee
      obtain ⟨rfl, hb⟩ :=
        (Unbounded.mirrors_exprs fun e _ => Unbounded.mirrors_expr maxFrames _ _ e).of_ends hb hargs
      refine ⟨(hb.grounded.enter hf _).1, .left _ _ ?_⟩
      dsimp only [measure]
      omega

/-- **There is no endless descent.** -/
theorem accessible (maxFrames : Nat) {a : Activation} (ha : a.store.Hosts a.env) :
    Acc (fun b a => Calls maxFrames a b) a := by
  have hwf := InvImage.wf (measure maxFrames) (WellFounded.prod_lex Nat.lt_wfRel.wf Nat.lt_wfRel.wf)
  induction a using hwf.induction with
  | _ a ih =>
      refine Acc.intro a fun b hb => ?_
      obtain ⟨hhosts, hlt⟩ := hb.descends ha
      exact ih b hlt hhosts

/-- What holds of a part when the evaluator turns to it: its environment is there, names can be
looked for, before and after, it ends with calls nested as deep as before, and what it turns to in
its turn is less. -/
structure Ends (maxFrames : Nat) (a : Activation) : Prop where
  inside : a.env < a.store.environments.size
  chained : a.store.Chained
  ends : ∃ r σ, Unbounded.Ends (Unbounded.part maxFrames a.env a.part) (a.depth, a.store)
    (r, a.depth, σ) ∧ σ.Chained
  descends : ∀ b, a.Calls maxFrames b →
    Prod.Lex (· < ·) (· < ·) (b.measure maxFrames) (a.measure maxFrames)

lemma ends_of_hosts (maxFrames : Nat) {a : Activation} (ha : a.store.Hosts a.env) :
    a.Ends maxFrames where
  inside := ha.inside
  chained := ha.grounded.chained
  ends := by
    obtain ⟨x, hx⟩ := Unbounded.exists_mirrors_part maxFrames a.depth a.env a.part
    obtain ⟨r, σ, hends, hgrows⟩ := hx.exists_ends ha
    exact ⟨r, σ, hends, hgrows.grounded.chained⟩
  descends _ hb := (hb.descends ha).2

end Activation

/-! ## Programs -/

namespace Evaluator

/-- The evaluator after programs. -/
def afterAll (maxFrames : Nat) (ps : List Program) : Evaluator :=
  ps.foldl (fun e p => (e.run p).2) (ofStore .empty maxFrames)

/-- Evaluates a program without a bound. -/
def runUnbounded (limit : Nat) (e : Evaluator) (p : Program) :
    Option (Except Fault Value × Evaluator) :=
  (Unbounded.top e.maxFrames limit e.environment .nil p (0, e.store)).map fun (r, _, s) =>
    match r with
    | .ok v => (.ok v, { e with store := s })
    | .error (.returned v) => (.ok v, { e with store := s })
    | .error (.fault f) => (.error f, { e with store := s })

/-- A program as the first part that is evaluated. -/
def start (e : Evaluator) (p : Program) : Activation :=
  ⟨.stmts p, e.environment, 0, e.store⟩

/-- A program is evaluated to the end, and the store is grounded afterwards. -/
lemma run_of_hosts {e : Evaluator} (he : e.store.Hosts e.environment) (p : Program) :
    (∃ n, ∀ limit ≥ n, e.runUnbounded limit p = some (e.run p)) ∧
      (e.run p).2.store.Hosts (e.run p).2.environment := by
  obtain ⟨⟨n, hn⟩, hgrows⟩ := Unbounded.mirrors_top e.maxFrames 0 e.environment .nil p e.store he
  rw [Unbounded.outcome] at hn
  rw [Eval.after] at hgrows
  rw [Nat.sub_zero] at hn hgrows
  dsimp only at hn
  simp only [runUnbounded]
  rw [run]
  cases hr : evalTop (callFunction e.maxFrames (e.maxFrames - 1)) e.environment .nil p e.store with
  | ok v σ =>
      simp only [hr] at hn hgrows
      exact ⟨⟨n, fun limit hlimit => by rw [hn limit hlimit]; rfl⟩, he.grows hgrows⟩
  | error x σ =>
      simp only [hr] at hn hgrows
      cases x with
      | returned v => exact ⟨⟨n, fun limit hlimit => by rw [hn limit hlimit]; rfl⟩, he.grows hgrows⟩
      | fault f => exact ⟨⟨n, fun limit hlimit => by rw [hn limit hlimit]; rfl⟩, he.grows hgrows⟩

lemma maxFrames_run (e : Evaluator) (p : Program) : (e.run p).2.maxFrames = e.maxFrames := by
  rw [run]
  split <;> rfl

lemma maxFrames_afterAll (maxFrames : Nat) (ps : List Program) :
    (afterAll maxFrames ps).maxFrames = maxFrames := by
  have hruns (e : Evaluator) : (ps.foldl (fun e p => (e.run p).2) e).maxFrames = e.maxFrames := by
    induction ps generalizing e with
    | nil => rfl
    | cons p ps ih => exact (ih _).trans (maxFrames_run e p)
  exact hruns _

/-- At first there is one environment and no function. -/
lemma hosts_ofStore (maxFrames : Nat) :
    (ofStore .empty maxFrames).store.Hosts (ofStore .empty maxFrames).environment := by
  refine ⟨⟨fun e o ho => ?_, fun f hf => ?_⟩, Nat.zero_lt_one⟩
  · cases (Program.outerOf_start ⟨0, maxFrames, 0⟩ e).symm.trans ho
  · change f ∈ (#[] : Array FunctionObject) at hf
    simp at hf

lemma hosts_afterAll (maxFrames : Nat) (ps : List Program) :
    (afterAll maxFrames ps).store.Hosts (afterAll maxFrames ps).environment := by
  have hruns (e : Evaluator) (he : e.store.Hosts e.environment) :
      (ps.foldl (fun e p => (e.run p).2) e).store.Hosts
        (ps.foldl (fun e p => (e.run p).2) e).environment := by
    induction ps generalizing e with
    | nil => exact he
    | cons p ps ih => exact ih _ (run_of_hosts he p).2
  exact hruns _ (hosts_ofStore maxFrames)

/-- **Every evaluation ends.**  After any programs, the evaluation of a program without a bound
comes to the outcome that the evaluator gives.  A part ends if all that the evaluator turns to for
it ends.  What it turns to descends in the lexicographic order of the calls that may still be nested
and the size of the tree, so that there is no endless descent.  From every environment that there is
on the way finitely many different ones lead outwards. -/
theorem evaluation_ends (maxFrames : Nat) (ps : List Program) (p : Program) :
    (afterAll maxFrames ps).maxFrames = maxFrames ∧
      (∃ n, ∀ limit ≥ n, (afterAll maxFrames ps).runUnbounded limit p =
        some ((afterAll maxFrames ps).run p)) ∧
      (∀ a : Activation, (∀ name, ∃ found, a.store.Finds a.env name found) →
        (∀ b, a.Calls maxFrames b → b.Stops maxFrames) → a.Stops maxFrames) ∧
      Acc (fun b a => Activation.Calls maxFrames a b) ((afterAll maxFrames ps).start p) ∧
      ∀ a, Relation.ReflTransGen (Activation.Calls maxFrames) ((afterAll maxFrames ps).start p) a →
        a.Ends maxFrames := by
  have hhosts := hosts_afterAll maxFrames ps
  refine ⟨maxFrames_afterAll maxFrames ps, (run_of_hosts hhosts p).1, Activation.stops_of_calls,
    Activation.accessible maxFrames hhosts, fun a ha => ?_⟩
  have hreached : a.store.Hosts a.env := by
    induction ha with
    | refl => exact hhosts
    | tail _ hcall ih => exact (hcall.descends ih).1
  exact Activation.ends_of_hosts maxFrames hreached

end Evaluator

end Marmoset
