import Marmoset.Proofs.Calls
import Marmoset.Proofs.FunctionFree

/-!
# Chains of environments

A name is looked for in an environment, then in the one around it, and so on outwards
(`Store.search`).  Nothing in the way a store is built keeps this from going round in a circle:
environments hold functions and functions hold environments.  It ends because a store stays
*grounded* while programs are evaluated: the environment around another one is older, and no
function is kept in an environment that is not there yet.

* **`Store.Grounded.exists_chain`** — the environments from one outwards are finitely many different
  ones.
* **`Store.Grounded.search_eq`** — the search ends, with what `Store.lookup` finds.
* `Store.Grows` — what evaluation makes of a grounded store, with a lemma for each change of
  environments and functions.
-/

namespace Marmoset

namespace Store

/-- The environments from one outwards. -/
inductive Chain (σ : Store) : Nat → List Nat → Prop where
  | top {e : Nat} : e < σ.environments.size → outerOf σ.environments e = none → Chain σ e [e]
  | inside {e o : Nat} {es : List Nat} : outerOf σ.environments e = some o → Chain σ o es →
      Chain σ e (e :: es)

/-- Looks for a name in an environment and then further out, as long as there is one around.  There
is no result if this takes more than `limit` environments. -/
def search (σ : Store) (name : String) : (limit : Nat) → (env : Nat) → Option (Option Value)
  | 0, _ => none
  | limit + 1, env =>
    match σ.environments[env]? with
    | none => some none
    | some e =>
      match e.names.lookup name with
      | some v => some (some v)
      | none =>
        match e.outer with
        | none => some none
        | some outer => search σ name limit outer

/-- The search for a name in an environment and further out ends, with this found. -/
def Finds (σ : Store) (env : Nat) (name : String) (found : Option Value) : Prop :=
  ∃ n, ∀ limit ≥ n, σ.search name limit env = some found

/-- Environments lie in older ones, and functions in those that there are. -/
structure Grounded (σ : Store) : Prop where
  nested : ∀ e o, outerOf σ.environments e = some o → o < e
  placed : ∀ f ∈ σ.functions, f.environment < σ.environments.size

namespace Grounded

variable {σ : Store} {e : Nat}

/-- Outwards the environments get older. -/
lemma decreasing (h : σ.Grounded) {es : List Nat} (hc : σ.Chain e es) :
    es.Pairwise (· > ·) ∧ ∀ i ∈ es, i ≤ e := by
  induction hc with
  | top => simp
  | inside ho _ ih =>
      have hlt := h.nested _ _ ho
      have hold (i : Nat) (hi : i ∈ _) := Nat.lt_of_le_of_lt (ih.2 i hi) hlt
      exact ⟨List.pairwise_cons.mpr ⟨hold, ih.1⟩,
        List.forall_mem_cons.mpr ⟨Nat.le_refl _, fun i hi => Nat.le_of_lt (hold i hi)⟩⟩

/-- **From every environment finitely many different ones lead outwards.** -/
theorem exists_chain (h : σ.Grounded) (he : e < σ.environments.size) :
    ∃ es, σ.Chain e es ∧ es.Nodup := by
  have hchain : ∃ es, σ.Chain e es := by
    induction e using Nat.strongRecOn with
    | ind e ih =>
        cases ho : outerOf σ.environments e with
        | none => exact ⟨[e], .top he ho⟩
        | some o =>
            have hlt := h.nested e o ho
            obtain ⟨es, hes⟩ := ih o hlt (Nat.lt_trans hlt he)
            exact ⟨e :: es, .inside ho hes⟩
  obtain ⟨es, hes⟩ := hchain
  exact ⟨es, hes, (h.decreasing hes).1.imp Nat.ne_of_gt⟩

/-- **The search for a name ends.** -/
theorem search_eq (h : σ.Grounded) (name : String) {limit env : Nat} (hlimit : env < limit) :
    σ.search name limit env = some (σ.lookup env name) := by
  induction limit generalizing env with
  | zero => cases hlimit
  | succ limit ih =>
      have hout (o : Nat) (ho : outerOf σ.environments env = some o) :
          σ.search name limit o = some (σ.lookupWithin name env o) := by
        have hlt := h.nested env o ho
        rw [ih (by omega), lookupWithin_eq h.nested hlt]
      rw [outerOf] at hout
      rw [search, lookup, lookupWithin]
      cases he : σ.environments[env]? with
      | none => rfl
      | some E =>
          dsimp only
          cases E.names.lookup name with
          | some v => rfl
          | none =>
              cases ho : E.outer with
              | none => rfl
              | some o => exact hout o (by rw [he]; exact ho)

end Grounded

/-- From every environment finitely many different ones lead outwards, and the search for a name in
them ends. -/
def Chained (σ : Store) : Prop :=
  ∀ env < σ.environments.size, (∃ es, σ.Chain env es ∧ es.Nodup) ∧
    ∀ name, σ.Finds env name (σ.lookup env name)

lemma Grounded.chained {σ : Store} (h : σ.Grounded) : σ.Chained :=
  fun env henv =>
    ⟨h.exists_chain henv, fun name => ⟨env + 1, fun _ hlimit => h.search_eq name hlimit⟩⟩

/-- A store that is grounded and in which there is an environment. -/
structure Hosts (σ : Store) (env : Nat) : Prop where
  grounded : σ.Grounded
  inside : env < σ.environments.size

/-- A later store is grounded and has at least the environments that there were. -/
structure Grows (σ σ' : Store) : Prop where
  grounded : σ'.Grounded
  size : σ.environments.size ≤ σ'.environments.size

variable {σ σ' σ'' : Store} {env : Nat}

lemma Grounded.grows (h : σ.Grounded) : σ.Grows σ := ⟨h, Nat.le_refl _⟩

lemma Grows.trans (h : σ.Grows σ') (h' : σ'.Grows σ'') :
    σ.Grows σ'' := ⟨h'.grounded, Nat.le_trans h.size h'.size⟩

lemma Hosts.grows (h : σ.Hosts env) (hg : σ.Grows σ') : σ'.Hosts env :=
  ⟨hg.grounded, Nat.lt_of_lt_of_le h.inside hg.size⟩

/-- Only functions and environments matter. -/
lemma Grounded.beside (h : σ.Grounded) (hb : σ.Beside σ') : σ.Grows σ' := by
  obtain ⟨-, hf, he⟩ := hb
  refine ⟨⟨?_, ?_⟩, Nat.le_of_eq (congrArg Array.size he).symm⟩
  · rw [he]
    exact h.nested
  · rw [hf, he]
    exact h.placed

/-- A function literal is placed in the environment that it is evaluated in. -/
lemma Hosts.newFunction (h : σ.Hosts env) (name : Option String) (params : List String)
    (body : List Stmt) :
    σ.Grows (σ.newFunction ⟨name, params, body, env⟩).2 := by
  refine ⟨⟨h.grounded.nested, fun f hf => ?_⟩, Nat.le_refl _⟩
  obtain hf | rfl := Array.mem_push.mp hf
  · exact h.grounded.placed f hf
  · exact h.inside

lemma Grounded.bind (h : σ.Grounded) (env : Nat) (n : String) (v : Value) :
    σ.Grows (σ.bind env n v) := by
  refine ⟨⟨fun e o ho => ?_, fun f hf => ?_⟩, Nat.le_of_eq (σ.size_bind env n v).symm⟩
  · rw [outerOf_bind] at ho
    exact h.nested e o ho
  · rw [size_bind]
    exact h.placed f hf

/-- A call takes place in a new environment around which there is that of the function. -/
lemma Grounded.enter (h : σ.Grounded) {ref : Nat} {f : FunctionObject}
    (hf : σ.functions[ref]? = some f) (args : List Value) :
    (Evaluator.enter σ ref f args).2.Hosts (Evaluator.enter σ ref f args).1 ∧
      σ.Grows (Evaluator.enter σ ref f args).2 := by
  obtain ⟨es₁, h₁, hsize₁, houter₁, -⟩ := boundTo_own σ ref f
  obtain ⟨es, heq, hsize, houter⟩ :=
    beside_bindAll { σ with environments := es₁ } σ.environments.size f.params args
  have henter : Evaluator.enter σ ref f args =
      (σ.environments.size, { σ with environments := es }) := by
    rw [← heq, ← h₁]
    rfl
  have hplaced := h.placed f (Array.mem_of_getElem? hf)
  have hnew : es.size = σ.environments.size + 1 := hsize.trans hsize₁
  have hgrounded : Grounded { σ with environments := es } := by
    refine ⟨fun e o ho => ?_, fun g hg => ?_⟩
    · rw [houter, houter₁] at ho
      split_ifs at ho with he
      · cases ho
        rwa [he]
      · exact h.nested e o ho
    · exact Nat.lt_of_lt_of_le (h.placed g hg) (by simp only [hnew]; omega)
  rw [henter]
  exact ⟨⟨hgrounded, by simp only [hnew]; omega⟩, hgrounded, by simp only [hnew]; omega⟩

end Store

end Marmoset
