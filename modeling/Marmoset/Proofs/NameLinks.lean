import Marmoset.Evaluator
import Marmoset.Proofs.Operands

/-!
# Where the two engines find a name

The compiler looks for a name in its scopes, and the evaluator in its environments.  There is a
scope for each environment that can be reached, and in a disciplined program both searches end at
the same level.  `Link` says so for a name: at which level it is found, and what it is found to be
(`Found`).

What has to be known of an environment besides its contents is kept in a `World`: the names that its
scope binds, those that functions capture from it, and those that it takes from outside.  `Later`
says what can happen to environments while a program runs.

* **`Link.lookup`** — what the evaluator finds.
* **`Link.resolveIn`** — what the compiler finds.
* `Link.later`, `Link.captures` — a link stays what it is.
-/

namespace Marmoset

/-! ## Environments -/

section

variable (es : Array Environment)

/-- What a name is bound to in an environment itself. -/
def boundTo (e : Nat) (n : String) : Option Value :=
  (es[e]?).bind fun E => E.names.lookup n

/-- The environment around another one. -/
def outerOf (e : Nat) : Option Nat :=
  (es[e]?).bind Environment.outer

end

section

variable {es : Array Environment} {e o : Nat} {n : String} {v : Value}

lemma lt_size_of_boundTo (h : boundTo es e n = some v) : e < es.size := by
  obtain ⟨E, hE, -⟩ := Option.bind_eq_some_iff.mp h
  exact (Array.getElem?_eq_some_iff.mp hE).1

lemma lt_size_of_outerOf (h : outerOf es e = some o) : e < es.size := by
  obtain ⟨E, hE, -⟩ := Option.bind_eq_some_iff.mp h
  exact (Array.getElem?_eq_some_iff.mp hE).1

/-- A new environment binds nothing, and the others stay as they are. -/
lemma boundTo_push (es : Array Environment) (outer : Option Nat) (e : Nat) (n : String) :
    boundTo (es.push ⟨[], outer⟩) e n = boundTo es e n := by
  rw [boundTo, boundTo, Array.getElem?_push]
  split_ifs with h
  · rw [h, Array.getElem?_eq_none (Nat.le_refl _)]
    rfl
  · rfl

lemma outerOf_push (es : Array Environment) (outer : Option Nat) (e : Nat) :
    outerOf (es.push ⟨[], outer⟩) e = if e = es.size then outer else outerOf es e := by
  rw [outerOf, outerOf, Array.getElem?_push]
  split_ifs with h
  · rfl
  · rfl

end

namespace Store

/-- Binding a name binds this name in this environment. -/
lemma boundTo_bind {σ : Store} {env : Nat} (h : env < σ.environments.size) (m : String) (v : Value)
    (e : Nat) (n : String) :
    boundTo (σ.bind env m v).environments e n = if e = env ∧
      n = m then some v else boundTo σ.environments e n := by
  rw [boundTo, boundTo, Store.bind, Array.getElem?_modify]
  by_cases he : env = e
  · subst he
    rw [if_pos rfl, Array.getElem?_eq_getElem h]
    simp only [Option.map_some, Option.bind_some, List.lookup_cons, true_and]
    by_cases hn : n = m
    · simp [hn]
    · rw [if_neg hn, beq_false_of_ne hn]
  · rw [if_neg he, if_neg fun h => he h.1.symm]

@[simp] lemma outerOf_bind (σ : Store) (env : Nat) (m : String) (v : Value) (e : Nat) :
    outerOf (σ.bind env m v).environments e = outerOf σ.environments e := by
  rw [outerOf, outerOf, Store.bind, Array.getElem?_modify]
  split_ifs
  · cases σ.environments[e]? with
    | none => rfl
    | some E => rfl
  · rfl

@[simp] lemma size_bind (σ : Store) (env : Nat) (m : String) (v : Value) :
    (σ.bind env m v).environments.size = σ.environments.size := by
  simp [Store.bind]

end Store

/-! ## Worlds -/

/-- The names of the scope of an environment. -/
structure ScopeNames where
  /-- Those that it binds at some time. -/
  bound : List String
  /-- Those that functions inside it capture, which do not change once they are bound. -/
  frozen : List String
  /-- Those that it takes from outside. -/
  free : List String
deriving Inhabited

/-- What is known of environments and globals. -/
structure World where
  scopes : Nat → ScopeNames
  /-- The slots of the globals that are bound so far. -/
  slots : String → Option Nat

/-- The environments of a store in a world: each lies in an older one or is the first one, and none
binds a name that its scope does not bind. -/
structure World.Fits (W : World) (es : Array Environment) : Prop where
  nested : ∀ e o, outerOf es e = some o → o < e
  top : outerOf es 0 = none
  bound : ∀ e n v, boundTo es e n = some v → n ∈ (W.scopes e).bound

/-- What can happen to environments while code of the environment `env` runs: new ones are made, and
names are bound in this one and in the new ones. -/
structure Later (env : Nat) (W W' : World) (es es' : Array Environment) : Prop where
  size : es.size ≤ es'.size
  scopes : ∀ e < es.size, W'.scopes e = W.scopes e
  slots : ∀ n g, W.slots n = some g → W'.slots n = some g
  kept : env ≠ 0 → W'.slots = W.slots
  outer : ∀ e < es.size, outerOf es' e = outerOf es e
  frozen : ∀ e n v, n ∈ (W.scopes e).frozen → boundTo es e n = some v → boundTo es' e n = some v
  others : ∀ e < es.size, e ≠ env → ∀ n, boundTo es' e n = boundTo es e n

namespace Later

variable {env : Nat} {W W' W'' : World} {es es' es'' : Array Environment}

lemma refl (env : Nat) (W : World) (es : Array Environment) : Later env W W es es :=
  ⟨Nat.le_refl _, fun _ _ => rfl, fun _ _ h => h, fun _ => rfl, fun _ _ => rfl, fun _ _ _ _ h => h,
    fun _ _ _ _ => rfl⟩

lemma trans (h : Later env W W' es es') (h' : Later env W' W'' es' es'') :
    Later env W W'' es es'' where
  size := Nat.le_trans h.size h'.size
  scopes e he := (h'.scopes e (Nat.lt_of_lt_of_le he h.size)).trans (h.scopes e he)
  slots n g hg := h'.slots n g (h.slots n g hg)
  kept hne := (h'.kept hne).trans (h.kept hne)
  outer e he := (h'.outer e (Nat.lt_of_lt_of_le he h.size)).trans (h.outer e he)
  frozen e n v hn hv := by
    refine h'.frozen e n v ?_ (h.frozen e n v hn hv)
    rwa [h.scopes e (lt_size_of_boundTo hv)]
  others e he hne n :=
    (h'.others e (Nat.lt_of_lt_of_le he h.size) hne n).trans (h.others e he hne n)

/-- Code of an environment that is not there yet changes none of those that are. -/
lemma of_new (h : Later env W W' es es') (hnew : es.size ≤ env) (hpos : env ≠ 0) (env' : Nat) :
    Later env' W W' es es' where
  size := h.size
  scopes := h.scopes
  slots := h.slots
  kept _ := h.kept hpos
  outer := h.outer
  frozen := h.frozen
  others e he _ := h.others e he (fun heq => absurd he (by omega))

end Later

/-! ## Links -/

/-- What a name is found to be. -/
inductive Found where
  /-- A name of an enclosing function, with the value that it has. -/
  | captured (v : Value)
  | global (slot : Nat)
  | builtin

/-- The scopes and the environments, from the inside out, at which a name is found. -/
inductive Link (W : World) (es : Array Environment) :
    Scope → List Scope → Nat → String → Found → Prop where
  | captured {s o : Scope} {os : List Scope} {e : Nat} {n : String} {v : Value} {x : Symbol}
      (hv : boundTo es e n = some v) (hn : n ∈ (W.scopes e).frozen) (hx : s.find? n = some x)
      (hk : x.kind ≠ .free) : Link W es s (o :: os) e n (.captured v)
  | global {s : Scope} {n : String} {x : Symbol} (hg : W.slots n = some x.index)
      (hx : s.find? n = some x)
      (hk : x.kind = .global) : Link W es s [] 0 n (.global x.index)
  | builtin {s : Scope} {n : String} (he : 0 < es.size) (hn : n ∉ (W.scopes 0).bound)
      (hx : ∀ x, s.find? n = some x → x.kind = .builtin ∧
        Builtin.table[x.index]?.map Builtin.name = some n) :
      Link W es s [] 0 n .builtin
  | outer {s o : Scope} {os : List Scope} {e e' : Nat} {n : String} {p : Found}
      (ho : outerOf es e = some e')
      (hn : n ∉ (W.scopes e).bound) (hx : ∀ x, s.find? n = some x → x.kind = .free)
      (h : Link W es o os e' n p) : Link W es s (o :: os) e n p

namespace Link

variable {W W' : World} {es es' : Array Environment} {env e : Nat} {n : String} {p : Found}
  {s s' : Scope}
  {os os' : List Scope}

/-- A link is a link later on. -/
lemma later (h : Link W es s os e n p) (hl : Later env W W' es es') : Link W' es' s os e n p := by
  induction h with
  | captured hv hn hx hk =>
      refine .captured (hl.frozen _ _ _ hn hv) ?_ hx hk
      rwa [hl.scopes _ (lt_size_of_boundTo hv)]
  | global hg hx hk => exact .global (hl.slots _ _ hg) hx hk
  | builtin he hn hx =>
      refine .builtin (Nat.lt_of_lt_of_le he hl.size) ?_ hx
      rwa [hl.scopes 0 he]
  | outer ho hn hx _ ih =>
      have he := lt_size_of_outerOf ho
      refine .outer ((hl.outer _ he).trans ho) ?_ hx ih
      rwa [hl.scopes _ he]

/-- A link stays when scopes capture more. -/
lemma captures (h : Link W es s os e n p) (hs : s.Captures s')
    (hos : List.Forall₂ Scope.Captures os os') (hsound : SymbolTable.SoundChain s' os') :
    Link W es s' os' e n p := by
  induction h generalizing s' os' with
  | captured hv hn hx hk =>
      cases hos with
      | cons _ _ => exact .captured hv hn (hs.keeps hx) hk
  | global hg hx hk =>
      cases hos
      exact .global hg (hs.keeps hx) hk
  | builtin he hn hx =>
      cases hos
      refine .builtin he hn fun x hx' => ?_
      rcases hs.adds hx' with h | ⟨-, hfree⟩
      · exact hx x h
      · -- the outermost scope captures nothing
        obtain ⟨y, hy, -⟩ := hsound.1.captured hx' hfree
        rw [hsound.2] at hy
        cases hy
  | outer ho hn hx _ ih =>
      cases hos with
      | cons hoc hos =>
          refine .outer ho hn (fun x hx' => ?_) (ih hoc hos hsound.2.2)
          rcases hs.adds hx' with h | ⟨-, hfree⟩
          · exact hx x h
          · exact hfree

/-- A link does not depend on what the innermost scope knows of other names. -/
lemma congr (h : Link W es s os e n p) (hs : s'.find? n = s.find? n) : Link W es s' os e n p := by
  cases h with
  | captured hv hn hx hk => exact .captured hv hn (hs.trans hx) hk
  | global hg hx hk => exact .global hg (hs.trans hx) hk
  | builtin he hn hx => exact .builtin he hn fun x hx' => hx x (hs.symm.trans hx')
  | outer ho hn hx h => exact .outer ho hn (fun x hx' => hx x (hs.symm.trans hx')) h

end Link

/-! ### What the evaluator finds -/

namespace Store

variable {σ : Store} {W : World} {e o : Nat} {n : String} {v : Value}

lemma lookupWithin_succ (σ : Store) (n : String) (fuel e : Nat) :
    σ.lookupWithin n (fuel + 1) e = (boundTo σ.environments e n).or
      ((outerOf σ.environments e).bind fun o => σ.lookupWithin n fuel o) := by
  rw [lookupWithin, boundTo, outerOf]
  cases σ.environments[e]? with
  | none => rfl
  | some E =>
      cases hn : E.names.lookup n with
      | some v => simp [hn]
      | none =>
          cases ho : E.outer with
          | none => simp [hn, ho]
          | some o => simp [hn, ho]

/-- It does not matter how many environments may be looked at, if there are enough. -/
lemma lookupWithin_eq (h : ∀ e o, outerOf σ.environments e = some o → o < e) {fuel : Nat}
    (hf : e < fuel) :
    σ.lookupWithin n fuel e = σ.lookup e n := by
  induction e using Nat.strongRecOn generalizing fuel with
  | ind e ih =>
      obtain ⟨f, rfl⟩ := Nat.exists_eq_add_of_lt (Nat.zero_lt_of_lt hf)
      rw [lookup, lookupWithin_succ, lookupWithin_succ]
      cases ho : outerOf σ.environments e with
      | none => rfl
      | some o =>
          have hlt := h e o ho
          simp only [Option.bind_some]
          rw [ih o hlt (by omega), ih o hlt hlt]

lemma lookup_of_boundTo (h : boundTo σ.environments e n = some v) : σ.lookup e n = some v := by
  rw [lookup, lookupWithin_succ, h]
  rfl

lemma lookup_outer (hW : W.Fits σ.environments) (h : boundTo σ.environments e n = none)
    (ho : outerOf σ.environments e = some o) : σ.lookup e n = σ.lookup o n := by
  rw [lookup, lookupWithin_succ, h, ho]
  exact lookupWithin_eq hW.nested (hW.nested e o ho)

lemma lookup_top (hW : W.Fits σ.environments) (n : String) :
    σ.lookup 0 n = boundTo σ.environments 0 n := by
  rw [lookup, lookupWithin_succ, hW.top]
  exact Option.or_none

end Store

/-- The value that the evaluator has for what was found. -/
def Found.value? (es : Array Environment) (n : String) : Found → Option Value
  | .captured v => some v
  | .global _ => boundTo es 0 n
  | .builtin => none

lemma World.Fits.boundTo_eq_none {W : World} {es : Array Environment} (hW : W.Fits es) {e : Nat}
    {n : String} (hn : n ∉ (W.scopes e).bound) : boundTo es e n = none := by
  cases h : boundTo es e n with
  | none => rfl
  | some v => exact absurd (hW.bound e n v h) hn

/-- **What the evaluator finds** for a linked name. -/
theorem Link.lookup {W : World} {σ : Store} {s : Scope} {os : List Scope} {e : Nat} {n : String}
    {p : Found} (h : Link W σ.environments s os e n p) (hW : W.Fits σ.environments) :
    σ.lookup e n = p.value? σ.environments n := by
  induction h with
  | captured hv _ _ _ => exact Store.lookup_of_boundTo hv
  | global _ _ _ => exact Store.lookup_top hW _
  | builtin _ hn _ => exact (Store.lookup_top hW _).trans (hW.boundTo_eq_none hn)
  | outer ho hn _ _ ih => exact (Store.lookup_outer hW (hW.boundTo_eq_none hn) ho).trans ih

/-! ### What the compiler finds -/

/-- The symbol that the compiler has for what was found. -/
def Found.Is (n : String) (x : Symbol) : Found → Prop
  | .captured _ => x.kind.reachable = false
  | .global g => x.kind = .global ∧ x.index = g
  | .builtin => x.kind = .builtin ∧ Builtin.table[x.index]?.map Builtin.name = some n

namespace Link

variable {W : World} {es : Array Environment} {e k : Nat} {n : String} {p : Found} {s s' : Scope}
  {os os' : List Scope} {x : Symbol}

/-- The symbol that the innermost scope has for a linked name, if it has one. -/
lemma is_of_find? (h : Link W es s os e n p) (hs : SymbolTable.SoundChain s os)
    (hp : SymbolTable.ProperChain k s os) (hx : s.find? n = some x) : p.Is n x := by
  induction h generalizing x with
  | captured _ _ _ _ => exact hp.1 _ x hx
  | global _ hx' hk =>
      rw [hx] at hx'
      cases hx'
      exact ⟨hk, rfl⟩
  | builtin _ _ h => exact h x hx
  | @outer s o os e e' n p _ _ hfree _ ih =>
      obtain ⟨y, hy, hname⟩ := hs.1.captured hx (hfree x hx)
      obtain ⟨hfind, hreach⟩ := hs.2.1 y (List.mem_of_getElem? hy)
      rw [hname] at hfind
      have hy := ih hs.2.2 hp.2 hfind
      cases p with
      | captured v => exact hp.1 n x hx
      | global g =>
          rw [hy.1] at hreach
          cases hreach
      | builtin =>
          rw [hy.1] at hreach
          cases hreach

/-- **What the compiler finds** for a linked name. -/
theorem resolveIn (h : Link W es s os e n p) (hs : SymbolTable.SoundChain s os)
    (hp : SymbolTable.ProperChain k s os) (hr : SymbolTable.resolveIn n s os = some (x, s', os')) :
    p.Is n x := by
  induction os generalizing s e x s' os' with
  | nil =>
      rcases SymbolTable.resolveIn_cases hr with ⟨hx, -, -⟩ | ⟨_, _, _, _, _, ho, -⟩
      · exact h.is_of_find? hs hp hx
      · cases ho
  | cons o os ih =>
      rcases SymbolTable.resolveIn_cases hr with ⟨hx, -, -⟩
        | ⟨_, _, _, _, y, ho, -, hnone, hro, hcases⟩
      · exact h.is_of_find? hs hp hx
      · cases ho
        cases h with
        | captured _ _ hx _ =>
            rw [hx] at hnone
            cases hnone
        | outer _ _ _ h =>
            have hy := ih h hs.2.2 hp.2 hro
            rcases hcases with ⟨-, rfl, -⟩ | ⟨hreach, rfl, -⟩
            · exact hy
            · -- what is captured on the way is not reachable, so it was captured further out
              cases p with
              | captured v => rfl
              | global g =>
                  rw [hy.1] at hreach
                  cases hreach
              | builtin =>
                  rw [hy.1] at hreach
                  cases hreach

end Link

end Marmoset
