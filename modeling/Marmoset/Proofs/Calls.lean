import Marmoset.Proofs.DisciplinedScopes

/-!
# Calls of functions

A call of a disciplined function starts with its own name and its parameters: the machine has them
in its frame and in the first slots of the call, and the evaluator in a new environment.  The
engines agree in these names (`Joint.agrees_entered`), so the statements of the function run as they
are evaluated, and the caller goes on as before.

* **`Site.callsAgree`** — the machine calls functions as the evaluator does, by induction on the
  number of calls that may still be nested.
-/

namespace Marmoset

/-! ## The environment of a call -/

section

variable {σ : Store} {env : Nat} {ps : List String} {vs : List Value}

/-- Binding names to values changes no other store than the environments. -/
lemma Store.beside_bindAll (σ : Store) (env : Nat) (ps : List String) (vs : List Value) :
    ∃ es, (ps.zip vs).foldl (fun s (p, v) => s.bind env p v) σ = { σ with environments := es } ∧
      es.size = σ.environments.size ∧ ∀ e, outerOf es e = outerOf σ.environments e := by
  induction ps generalizing vs σ with
  | nil => exact ⟨σ.environments, rfl, rfl, fun _ => rfl⟩
  | cons p ps ih =>
      cases vs with
      | nil => exact ⟨σ.environments, rfl, rfl, fun _ => rfl⟩
      | cons v vs =>
          obtain ⟨es, heq, hsize, houter⟩ := ih (σ.bind env p v) vs
          refine ⟨es, heq, hsize.trans (σ.size_bind env p v), fun e => ?_⟩
          exact (houter e).trans (σ.outerOf_bind env p v e)

lemma Store.boundTo_bindAll_of_notMem (henv : env < σ.environments.size) {e : Nat} {n : String}
    (h : e ≠ env ∨ n ∉ ps) (vs : List Value) :
    boundTo ((ps.zip vs).foldl (fun s (p, v) => s.bind env p v) σ).environments e n =
      boundTo σ.environments e n := by
  induction ps generalizing vs σ with
  | nil => rfl
  | cons p ps ih =>
      cases vs with
      | nil => rfl
      | cons v vs =>
          have hne : ¬ (e = env ∧ n = p) := by
            rintro ⟨rfl, rfl⟩
            exact h.elim (fun hne => hne rfl) fun hn => hn List.mem_cons_self
          have hrest := ih (σ := σ.bind env p v) (by rwa [Store.size_bind])
            (h.imp_right fun hn hm => hn (List.mem_cons_of_mem _ hm)) vs
          exact hrest.trans ((Store.boundTo_bind henv p v e n).trans (if_neg hne))

/-- Each of distinct names is bound to its own value. -/
lemma Store.boundTo_bindAll (henv : env < σ.environments.size) (hd : ps.Nodup) {j : Nat}
    {p : String} {v : Value} (hp : ps[j]? = some p) (hv : vs[j]? = some v) :
    boundTo ((ps.zip vs).foldl (fun s (p, v) => s.bind env p v) σ).environments env p = some v := by
  induction ps generalizing vs σ j with
  | nil => simp at hp
  | cons q ps ih =>
      obtain ⟨hq, hd⟩ := List.nodup_cons.mp hd
      cases vs with
      | nil => simp at hv
      | cons w vs =>
          have henv' : env < (σ.bind env q w).environments.size := by rwa [Store.size_bind]
          cases j with
          | zero =>
              obtain rfl : q = p := Option.some.inj hp
              obtain rfl : w = v := Option.some.inj hv
              refine (Store.boundTo_bindAll_of_notMem henv' (.inr hq) vs).trans ?_
              exact (Store.boundTo_bind henv q w env q).trans (if_pos ⟨rfl, rfl⟩)
          | succ j => exact ih henv' hd hp hv

end

/-- What a call finds in its own environment, and what it leaves alone. -/
structure Entered (σ : Store) (i : Nat) (f : FunctionObject) (vs : List Value)
    (es : Array Environment) : Prop where
  store : Evaluator.enter σ i f vs = (σ.environments.size, { σ with environments := es })
  size : es.size = σ.environments.size + 1
  outer : ∀ e, outerOf es e = if e = σ.environments.size then some f.environment
    else outerOf σ.environments e
  old : ∀ e n, e ≠ σ.environments.size → boundTo es e n = boundTo σ.environments e n
  param : ∀ {j : Nat} {p v}, f.params[j]? = some p → vs[j]? = some v →
    boundTo es σ.environments.size p = some v
  own : ∀ {n}, f.name = some n → n ∉ f.params →
    boundTo es σ.environments.size n = some (.function i)
  others : ∀ {n}, n ∉ f.name.toList ++ f.params → boundTo es σ.environments.size n = none

/-- The function's own name is bound before its parameters. -/
lemma boundTo_own (σ : Store) (i : Nat) (f : FunctionObject) :
    ∃ es, (match f.name with
        | some n =>
          (σ.newEnvironment (some f.environment)).2.bind σ.environments.size n (.function i)
        | none => (σ.newEnvironment (some f.environment)).2) = { σ with environments := es } ∧
      es.size = σ.environments.size + 1 ∧
      (∀ e, outerOf es e = if e = σ.environments.size then some f.environment
        else outerOf σ.environments e) ∧
      ∀ e n, boundTo es e n =
        if e = σ.environments.size ∧ f.name = some n then some (.function i)
          else boundTo σ.environments e n := by
  have hsize : σ.environments.size < (σ.environments.push ⟨[], some f.environment⟩).size := by simp
  cases f.name with
  | none =>
      refine ⟨_, rfl, Array.size_push _, outerOf_push _ _, fun e n => ?_⟩
      rw [if_neg (by simp)]
      exact boundTo_push _ _ e n
  | some m =>
      refine ⟨_, rfl, by simp [Store.newEnvironment], fun e => ?_, fun e n => ?_⟩
      · exact (Store.outerOf_bind _ _ _ _ e).trans (outerOf_push _ _ e)
      · refine (Store.boundTo_bind hsize m (.function i) e n).trans ?_
        have hpush : boundTo (σ.newEnvironment (some f.environment)).2.environments e n =
            boundTo σ.environments e n := boundTo_push _ _ e n
        rw [hpush]
        exact if_congr (and_congr_right fun _ => by rw [Option.some.injEq, eq_comm]) rfl rfl

/-- **A call enters a new environment.** -/
theorem entered (σ : Store) (i : Nat) {f : FunctionObject} (vs : List Value) (hd : f.params.Nodup) :
    ∃ es, Entered σ i f vs es := by
  obtain ⟨es₁, h₁, hsize₁, houter₁, hbound₁⟩ := boundTo_own σ i f
  have hnew : σ.environments.size < ({ σ with environments := es₁ } : Store).environments.size := by
    rw [hsize₁]
    exact Nat.lt_succ_self _
  have hnone (n : String) : boundTo σ.environments σ.environments.size n = none := by
    rw [boundTo, Array.getElem?_eq_none (Nat.le_refl _)]
    rfl
  obtain ⟨es, heq, hsize, houter⟩ :=
    Store.beside_bindAll { σ with environments := es₁ } σ.environments.size f.params vs
  have hes := congrArg Store.environments heq
  dsimp only at hes
  refine ⟨es, ?_, hsize.trans hsize₁, fun e => (houter e).trans (houter₁ e), ?_, ?_, ?_, ?_⟩
  · rw [← heq, ← h₁]
    rfl
  · intro e n hne
    rw [← hes, Store.boundTo_bindAll_of_notMem hnew (.inl hne), hbound₁, if_neg fun h => hne h.1]
  · intro j p v hp hv
    rw [← hes]
    exact Store.boundTo_bindAll hnew hd hp hv
  · intro n hn hp
    rw [← hes, Store.boundTo_bindAll_of_notMem hnew (.inr hp), hbound₁, if_pos ⟨rfl, hn⟩]
  · intro n hn
    have hname : f.name ≠ some n := fun h => hn (List.mem_append_left _ (by simp [h]))
    have hp : n ∉ f.params := fun h => hn (List.mem_append_right _ h)
    rw [← hes, Store.boundTo_bindAll_of_notMem hnew (.inr hp), hbound₁,
      if_neg fun h => hname h.2, hnone]

/-! ## The names at the start of a function -/

namespace SymbolTable

/-- The table at the start of a function, before its parameters. -/
lemma entry_eq (t : SymbolTable) (name : Option String) (params : List String) :
    ∃ u, t.entry name params = params.foldl (fun t p => (t.define p).2) u ∧
      u.outer = t.current :: t.outer ∧ u.current.definitions = 0 ∧ u.current.free = [] ∧
      ∀ n, u.current.find? n = if name = some n then some ⟨n, .function, 0⟩ else none := by
  cases name with
  | none => exact ⟨t.enter, rfl, rfl, rfl, rfl, fun n => rfl⟩
  | some m =>
      refine ⟨(t.enter.defineFunctionName m).2, rfl, rfl, rfl, rfl, fun n => ?_⟩
      refine (Scope.find?_bind _ _ n).trans ?_
      by_cases h : m = n
      · subst h
        rw [if_pos rfl, if_pos rfl]
      · rw [if_neg h, if_neg fun hs => h (Option.some.inj hs)]
        rfl

variable {u : SymbolTable} {ps : List String}

lemma find?_defineAll_of_notMem {n : String} (h : n ∉ ps) :
    (ps.foldl (fun t p => (t.define p).2) u).current.find? n = u.current.find? n := by
  induction ps generalizing u with
  | nil => rfl
  | cons p ps ih =>
      obtain ⟨hp, hps⟩ := not_or.mp (mt List.mem_cons.mpr h)
      rw [List.foldl_cons, ih hps, find?_define, if_neg (Ne.symm hp)]

/-- Distinct parameters have the first slots. -/
lemma find?_defineAll (hd : ps.Nodup) (ho : u.outer ≠ []) {j : Nat} {p : String}
    (hp : ps[j]? = some p) :
    (ps.foldl (fun t p => (t.define p).2) u).current.find? p =
      some ⟨p, .local, u.current.definitions + j⟩ := by
  induction ps generalizing u j with
  | nil => simp at hp
  | cons q ps ih =>
      obtain ⟨hq, hd⟩ := List.nodup_cons.mp hd
      rw [List.foldl_cons]
      cases j with
      | zero =>
          obtain rfl : q = p := Option.some.inj hp
          rw [find?_defineAll_of_notMem hq, find?_define, if_pos rfl, define,
            if_neg (by simpa using ho)]
          rfl
      | succ j =>
          rw [ih hd (by simpa using ho) hp, definitions_define, Nat.add_assoc, Nat.add_comm 1 j]

variable {t : SymbolTable} {name : Option String} {params : List String}

lemma find?_entry_param (hd : params.Nodup) {j : Nat} {p : String} (hp : params[j]? = some p) :
    (t.entry name params).current.find? p = some ⟨p, .local, j⟩ := by
  obtain ⟨u, heq, ho, hdefs, -, -⟩ := t.entry_eq name params
  rw [heq, find?_defineAll hd (by rw [ho]; exact List.cons_ne_nil _ _) hp, hdefs, Nat.zero_add]

lemma find?_entry_of_notMem {n : String} (hn : n ∉ params) :
    (t.entry name params).current.find? n = if name = some n then some ⟨n, .function, 0⟩
      else none := by
  obtain ⟨u, heq, -, -, -, hfind⟩ := t.entry_eq name params
  rw [heq, find?_defineAll_of_notMem hn, hfind]

/-- At the start of a function its scope has its own name and its parameters. -/
lemma mem_of_find?_entry {n : String} {x : Symbol}
    (hx : (t.entry name params).current.find? n = some x) :
    n ∈ name.toList ++ params := by
  by_cases hn : n ∈ params
  · exact List.mem_append_right _ hn
  · rw [find?_entry_of_notMem hn] at hx
    split_ifs at hx with h
    exact List.mem_append_left _ (by simp [h])

end SymbolTable

/-- **The statements of a disciplined function are due** at its start. -/
lemma Disciplined.due {f : FunctionObject} (h : Disciplined f.name f.params f.body)
    (t : SymbolTable) :
    Due f.names (t.entry f.name f.params) (f.name.toList ++ f.params) f.body where
  order := h.order
  uses n hn := by
    by_cases hb : n ∈ f.names.bound
    · exact .inl hb
    · refine .inr (List.mem_filter.mpr ⟨hn, ?_⟩)
      simpa [FunctionObject.names, boundNames] using hb
  captured _ := fun _ hn => hn
  binds _ hn := List.mem_append_right _ hn
  once n hn := by
    have hcount := h.captured n hn
    rw [List.count_append] at hcount
    refine ⟨fun hk hb => ?_, by omega⟩
    rcases List.mem_append.mp hk with hname | hparam
    · exact h.own n hname hb
    · have h₁ := List.count_pos_iff.mpr hparam
      have h₂ := List.count_pos_iff.mpr hb
      omega
  owned n hk hb := by
    obtain ⟨j, hj⟩ :=
      List.mem_iff_getElem?.mp ((List.mem_append.mp hk).resolve_left fun hname => h.own n hname hb)
    exact ⟨_, SymbolTable.find?_entry_param h.distinct hj, rfl⟩
  fresh n hown := by
    obtain ⟨x, hx, -⟩ := hown
    exact SymbolTable.mem_of_find?_entry hx

/-! ## The engines at the start of a function -/

/-- There is a new environment with these names. -/
def World.enter (W : World) (e : Nat) (names : ScopeNames) : World :=
  { W with scopes := fun e' => if e' = e then names else W.scopes e' }

/-- The machine has called a closure, with its slots from `base` on. -/
def Machine.entered (m : Machine) (i : Nat) (c : Closure) (base sp : Nat) : Machine :=
  { m with frame := ⟨i, c.fn, c.free, 0, base⟩, callers := m.frame :: m.callers, sp := sp }

/-- Both engines have entered a function. -/
def Joint.entered (b : Joint) (i : Nat) (f : FunctionObject) (c : Closure) (es : Array Environment)
    (base sp : Nat) :
    Joint :=
  ⟨b.world.enter b.store.environments.size f.names, b.machine.entered (i + 1) c base sp,
    { b.store with environments := es }⟩

section

variable {W : World} {σ : Store} {i : Nat} {f : FunctionObject} {vs : List Value}
  {es : Array Environment}

lemma Entered.later (h : Entered σ i f vs es) (env : Nat) :
    Later env W (W.enter σ.environments.size f.names) σ.environments es where
  size := by
    rw [h.size]
    exact Nat.le_succ _
  scopes e he := if_neg (Nat.ne_of_lt he)
  slots _ _ hg := hg
  kept _ := rfl
  outer e he := (h.outer e).trans (if_neg (Nat.ne_of_lt he))
  frozen e n v _ hv := (h.old e n (Nat.ne_of_lt (lt_size_of_boundTo hv))).trans hv
  others e he _ n := h.old e n (Nat.ne_of_lt he)

lemma Entered.fits (h : Entered σ i f vs es) (hW : W.Fits σ.environments)
    (htop : 0 < σ.environments.size) (henv : f.environment < σ.environments.size) :
    (W.enter σ.environments.size f.names).Fits es where
  nested e o ho := by
    rw [h.outer] at ho
    split_ifs at ho with he
    · cases ho
      rwa [he]
    · exact hW.nested e o ho
  top := (h.outer 0).trans ((if_neg (Nat.ne_of_lt htop)).trans hW.top)
  bound e n v hv := by
    show n ∈ (if e = σ.environments.size then f.names else W.scopes e).bound
    split_ifs with he
    · subst he
      by_contra hn
      rw [h.others fun hk => hn (List.mem_append_left _ hk)] at hv
      cases hv
    · rw [h.old e n he] at hv
      exact hW.bound e n v hv

end

namespace Joint

variable {b : Joint} {i : Nat} {f : FunctionObject} {called : Closure} {vs : List Value}
  {es : Array Environment}
  {base sp : Nat}

lemma Core.entered (hb : b.Core) (he : Entered b.store i f vs es)
    (henv : f.environment < b.store.environments.size) :
    (b.entered i f called es base sp).Core where
  like := ⟨hb.like.arrays, hb.like.hashes, hb.like.closures, hb.like.functions, hb.like.printed⟩
  functions {j g} hg := by
    obtain ⟨c, hc, hcomp⟩ := hb.functions hg
    exact ⟨c, hc, hcomp.later (he.later 0) (Nat.le_refl _)⟩
  fits := he.fits hb.fits hb.top henv
  top := by
    show 0 < es.size
    rw [he.size]
    exact Nat.succ_pos _
  globals {n g} hs := by
    obtain ⟨v, hv, hlike⟩ := hb.globals hs
    exact ⟨v, (he.old 0 n (Nat.ne_of_lt hb.top)).trans hv, hlike⟩
  builtins := hb.builtins

/-- **The engines agree in the names of a function that was called.** -/
theorem agrees_entered {c : Site} {h left : Nat} {t : SymbolTable} {free : List Symbol}
    (hc : c.Calling h i called vs b) (he : Entered b.store i f vs es) (hleft : c.left = left + 1)
    (henv : f.environment < b.store.environments.size) (hd : f.params.Nodup)
    (hlen : vs.length = f.params.length)
    (hlocals : f.params.length ≤ called.fn.locals.toNat)
    (links : ∀ n ∈ f.names.free, ∃ p,
      Link b.world b.store.environments t.current t.outer f.environment n p)
    (captured : ∀ (j : Nat) (y : Symbol), free[j]? = some y → y.name ∈ f.names.free →
      ∃ v v', Link b.world b.store.environments t.current t.outer f.environment y.name
        (.captured v) ∧ called.free[j]? = some v' ∧ v'.Like b.store.functions.size v) :
    (b.entered i f called es (h + 1) sp).Agrees left b.store.environments.size free
      (t.entry f.name f.params)
      (f.name.toList ++ f.params) := by
  have hne : b.store.environments.size ≠ 0 := Nat.ne_of_gt hc.core.top
  have hscopes : (b.entered i f called es (h + 1) sp).world.scopes b.store.environments.size =
      f.names := if_pos rfl
  -- a name from outside is found further out
  have hout {n : String} {p : Found} (hb : n ∉ f.names.bound)
      (hl : Link b.world b.store.environments t.current t.outer f.environment n p) :
      Link (b.entered i f called es (h + 1) sp).world es (t.entry f.name f.params).current
        (t.entry f.name f.params).outer b.store.environments.size n p := by
    rw [SymbolTable.outer_entry]
    refine .outer ((he.outer _).trans (if_pos rfl)) (hscopes ▸ hb) (fun x hx => ?_)
      (hl.later (he.later 0))
    exact absurd (List.mem_append_left _ (SymbolTable.mem_of_find?_entry hx)) hb
  refine ⟨hc.core.entered he henv, ?_, ?_, ?_, ?_, ?_, ?_, ?_, ?_, ?_, ?_⟩
  · have hdepth := hc.depth
    rw [hleft, Machine.frameCount] at hdepth
    show b.machine.maxFrames - ((b.machine.frame :: b.machine.callers).length + 1) = left
    rw [List.length_cons]
    omega
  · rw [SymbolTable.outer_entry]
    exact iff_of_false (List.cons_ne_nil _ _) hne
  · exact iff_of_false (List.cons_ne_nil _ _) hne
  · show b.store.environments.size < es.size
    rw [he.size]
    exact Nat.lt_succ_self _
  · intro n hn
    by_cases hp : n ∈ f.params
    · obtain ⟨j, hj⟩ := List.mem_iff_getElem?.mp hp
      have hlt := (List.getElem?_eq_some_iff.mp hj).1
      have hv : vs[j]? = some (vs.get ⟨j, by omega⟩) := List.getElem?_eq_getElem _
      refine ⟨_, _, SymbolTable.find?_entry_param hd hj, .inl rfl, by simp, fun _ => ?_,
        he.param hj hv, ?_⟩
      · exact Nat.lt_of_lt_of_le hlt hlocals
      · exact hc.values j _ hv
    · have hname : f.name = some n := by simpa [hp] using hn
      refine ⟨⟨n, .function, 0⟩, .function i, ?_, .inr rfl, by simp, by simp, he.own hname hp,
        .function hc.function⟩
      rw [SymbolTable.find?_entry_of_notMem hp, if_pos hname]
  · intro n x hx
    rw [hscopes]
    exact .inr (.inr (List.mem_append_left _ (SymbolTable.mem_of_find?_entry hx)))
  · exact fun n _ hn => he.others hn
  · exact fun h0 => absurd h0 hne
  · rw [hscopes]
    intro n hn hb
    obtain ⟨p, hp⟩ := links n hn
    exact ⟨p, hout hb hp⟩
  · rw [hscopes]
    intro j y hj hy hb
    obtain ⟨v, v', hv, hrest⟩ := captured j y hj hy
    exact ⟨v, v', hout hb hv, hrest⟩

/-- What a call has left behind it is what the caller goes on with. -/
lemma Left.back {h : Nat} {v : Value} {b' : Joint} (he : Entered b.store i f vs es) (hb : b.Core)
    (hl : (b.entered i f called es (h + 1) sp).Left b.store.environments.size b.machine.frame
      b.machine.callers v b') :
    Site.Back h b v b' := by
  have hlater : Later b.store.environments.size b.world b'.world b.store.environments
      b'.store.environments :=
    (he.later _).trans hl.later
  refine ⟨hl.core, ⟨?_, hl.callers, hl.maxFrames, hl.constants, hl.globals, hl.stack, hl.made, ?_⟩,
    hl.frame, hl.sp, hl.value⟩
  · rw [hl.frame]
    exact .refl _
  · exact hlater.of_new (Nat.le_refl _) (Nat.ne_of_gt hb.top)

end Joint

/-! ## Calls -/

lemma Evaluator.callFunction_eq (maxFrames left i : Nat) {vs : List Value} {σ : Store}
    {f : FunctionObject} {es : Array Environment} (hf : σ.functions[i]? = some f)
    (hlen : vs.length = f.params.length) (he : Entered σ i f vs es) :
    callFunction maxFrames (left + 1) i vs σ = settle (Stmt.evalAll (callFunction maxFrames left)
      σ.environments.size .nil f.body { σ with environments := es }) := by
  rw [callFunction]
  simp only [hf, hlen, he.store, ne_eq, not_true_eq_false, if_false]

/-- What a function returns, at its end or before it, is the value of the call. -/
lemma Joint.Follows.settle {c c' : Site} {h h' : Nat} {b b₁ : Joint} {start : Step} {x : Eval Value}
    {Q Q' : Value → Joint → Prop} {i : Nat} {vs : List Value}
    (hx : b₁.Follows c' h' start (x >>= fun v => throw (.returned v)) Q')
    (hcall : c.call i vs b.store = Evaluator.settle (x b₁.store))
    (hQ : ∀ v σ r, b₁.Returns c'.env v σ r → ∃ W m, r = .next m ∧ b.Keeps c.env h ⟨W, m, σ⟩ ∧
      Q v ⟨W, m, σ⟩) :
    b.Follows c h start (c.call i vs) Q := by
  rw [Follows, Eval.run_bind] at hx
  cases hr : x b₁.store with
  | ok v σ =>
      rw [hr] at hx hcall
      exact .of_ok hcall (Step.Leads.mono hx fun r => hQ v σ r)
  | error e σ =>
      rw [hr] at hx hcall
      cases e with
      | returned v => exact .of_ok hcall (Step.Leads.mono hx fun r => hQ v σ r)
      | fault f => exact .of_fault hcall hx

/-- The machine need not follow any further if its stack is too small. -/
lemma Joint.Follows.of_overflow {α : Type} {c : Site} {h : Nat} {b : Joint} {m : Machine}
    {x : Eval α} {Q : α → Joint → Prop} : b.Follows c h (.fault .stackOverflow m) x Q := by
  have hover (P : Step → Prop) : (Step.fault .stackOverflow m).Leads P := ⟨0, .inr ⟨m, rfl⟩⟩
  rw [Follows]
  cases x b.store with
  | ok a σ => exact hover _
  | error e σ =>
      cases e with
      | returned v => exact hover _
      | fault f => exact hover _

namespace Site

variable {c : Site} {h i left : Nat} {called : Closure} {vs : List Value} {b : Joint}
  {f : FunctionObject}

/-- **A function that was entered returns to its caller.** -/
theorem Calling.enter (hc : c.Calling h i called vs b) (hleft : c.left = left + 1)
    (hcalls : ∀ c' : Site, c'.left = left → c'.CallsAgree) (hf : b.store.functions[i]? = some f)
    (hcomp : Compiled b.world b.machine.constants b.store.environments
      b.store.functions.size f called)
    (hlen : vs.length = f.params.length) {sp : Nat}
    (hsafe : (b.machine.entered (i + 1) called (h + 1) sp).Safe c.main Builtin.table.length
      c.globals) :
    b.Follows c h (.next (b.machine.entered (i + 1) called (h + 1) sp)) (c.call i vs)
      (Back h b) := by
  obtain ⟨good, body, reads, arity, hpool, disciplined, scopes, environment, links, captured⟩ :=
    hcomp
  rename_i t constants is d
  obtain ⟨es, he⟩ := entered b.store i vs disciplined.distinct
  have hlocals : f.params.length ≤ called.fn.locals.toNat := by
    have hwf := (hsafe.functions _ hsafe.frames.2.1).arity
    rw [UInt64.le_iff_toNat_le] at hwf
    change called.fn.params.toNat ≤ called.fn.locals.toNat at hwf
    have hfew := hc.few
    rw [arity, toNat_wordCount] at hwf
    omega
  have ha : (b.entered i f called es (h + 1) sp).Agrees left b.store.environments.size
      d.symbols.current.free
      (t.entry f.name f.params) (f.name.toList ++ f.params) :=
    Joint.agrees_entered hc he hleft environment disciplined.distinct hlen hlocals links captured
  have hscopes : (b.entered i f called es (h + 1) sp).world.scopes b.store.environments.size =
      f.names := if_pos rfl
  let c' : Site :=
    { c with left := left, env := b.store.environments.size, free := d.symbols.current.free }
  have hst : c'.Stage (Joint.Awaits c'.left c'.env c'.free (t.entry f.name f.params) f.body)
      ⟨t.entry f.name f.params, constants⟩ 0 (asBody is) d (b.entered i f called es (h + 1) sp) :=
    { stable := Joint.stable_awaits
      agrees := ⟨_, ha, hscopes ▸ disciplined.due t, scopes⟩
      safe := hsafe
      frames := hc.maxFrames
      depth := ha.depth
      callers := fun _ => Nat.ne_of_gt hc.core.top
      good := good.entry f.name f.params
      ip := rfl
      code := .of_eq reads.bytes
      fits := reads.fits
      pool := hpool
      free := List.prefix_rfl }
  have hbody := (performs_awaits (hcalls c' rfl)).body (Q := fun _ _ => True) body hst
  refine hbody.settle ?_ ?_
  · rw [Site.call, hleft]
    exact Evaluator.callFunction_eq c.maxFrames left i hf hlen he
  · rintro v σ r ⟨W, m, rfl, hl⟩
    have hback := hl.back he hc.core
    exact ⟨W, m, rfl, hback.undisturbed.keeps c.env, hback⟩

/-- A call comes to the same in both engines, if the calls inside it do. -/
lemma Calling.follows (hc : c.Calling h i called vs b)
    (hcalls : ∀ left, c.left = left + 1 → ∀ c' : Site, c'.left = left → c'.CallsAgree) :
    b.Follows c h (b.machine.callClosure (i + 1) called vs.length) (c.call i vs) (Back h b) := by
  obtain ⟨f, hf⟩ : ∃ f, b.store.functions[i]? = some f := ⟨_, Array.getElem?_eq_getElem hc.function⟩
  obtain ⟨called', hcalled, hcomp⟩ := hc.core.functions hf
  obtain rfl : called' = called := Option.some.inj (hcalled.symm.trans hc.closure)
  have harity : called'.fn.params = wordCount f.params.length := by
    obtain ⟨-, -, -, harity, -⟩ := hcomp
    exact harity
  have hcount : called'.fn.params.toNat = vs.length ↔ vs.length = f.params.length := by
    have hfew := hc.few
    rw [harity, toNat_wordCount]
    omega
  have hbase : b.machine.sp - vs.length = h + 1 := by
    rw [hc.sp, Nat.add_sub_cancel]
  have hsafe := hc.safe
  rw [Machine.callClosure] at hsafe ⊢
  dsimp only at hsafe ⊢
  split_ifs at hsafe ⊢ with hparams hword hroom hdeep
  · refine .of_fault ?_ (.here ⟨_, _, rfl, .same _, hc.core.like⟩)
    rw [Site.call, Evaluator.callFunction]
    simp only [hf, harity, ne_eq, mt hcount.mpr hparams, not_false_eq_true, if_true]
  · exact hsafe.elim
  · exact .of_overflow
  · have hleft : c.left = 0 := by
      rw [← hc.depth]
      omega
    have hlen := hcount.mp (not_not.mp hparams)
    rw [hc.maxFrames]
    refine .of_fault ?_ (.here ⟨_, _, rfl, .same _, hc.core.like⟩)
    rw [Site.call, hleft, Evaluator.callFunction]
    simp only [hf, hlen, ne_eq, not_true_eq_false, if_false]
  · have hdepth := hc.depth
    obtain ⟨left, hleft⟩ : ∃ left, c.left = left + 1 := ⟨c.left - 1, by omega⟩
    rw [hbase] at hsafe ⊢
    exact hc.enter hleft (hcalls left hleft) hf hcomp (hcount.mp (not_not.mp hparams)) hsafe

/-- **The machine calls functions as the evaluator does.** -/
theorem callsAgree (c : Site) : c.CallsAgree := by
  -- the calls inside a call have one level less
  induction hn : c.left generalizing c with
  | zero =>
      intro b h i called vs hc
      refine hc.follows fun left hleft => ?_
      rw [hn] at hleft
      cases hleft
  | succ left ih =>
      intro b h i called vs hc
      refine hc.follows fun left' hleft c' hc' => ih c' ?_
      omega

end Site

end Marmoset
