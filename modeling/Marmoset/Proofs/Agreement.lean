import Marmoset.Proofs.Leads
import Marmoset.Proofs.ScopeRules
import Marmoset.Proofs.SharedStores

/-!
# When the two engines agree

The machine and the evaluator are set side by side (`Joint`).  Between two steps of a program they
agree in what has a place (`Joint.Core`): the stores are alike, every closure of the machine is the
compiled form of the function that the evaluator has in its place (`Compiled`), and the globals have
the values that the evaluator has for them.

Inside a function, or at the top level, they moreover agree in the names of the innermost scope
(`Joint.Agrees`): each name that is bound so far has a symbol, and the slot of this symbol holds the
value that the environment has for the name; and each name from outside is linked.

* `Joint.Agrees.undisturbed` — what leaves the names of a scope alone leaves this agreement alone.
* `Joint.Agrees.captures`, `Joint.Agrees.define` — so does compiling on.
* **`Joint.Agrees.store`** — a value that is stored under a name.
-/

namespace Marmoset

/-! ## Functions -/

/-- The names of the scope of a function. -/
def FunctionObject.names (f : FunctionObject) : ScopeNames where
  bound := boundNames f.name f.params f.body
  frozen := (Stmt.mentionsAll f.body).captured
  free := ((Stmt.mentionsAll f.body).ofFunction f.name f.params).uses

/-- The closure is the compiled form of the function: its code is that of the statements of the
function, and it captured the values that the function finds in the environments around it. -/
inductive Compiled (W : World) (pool : Array Constant) (es : Array Environment) (made : Nat)
    (f : FunctionObject) (c : Closure) : Prop where
  | mk {t : SymbolTable} {constants : Array Constant} {is : List Instr} {d : Draft}
      (good : Draft.Good Builtin.table.length ⟨t, constants⟩)
      (body : Emits (.stmts f.body) ⟨t.entry f.name f.params, constants⟩ 0 is d)
      (reads : c.fn.code.Reads (asBody is))
      (arity : c.fn.params = wordCount f.params.length)
      (pool : d.constants.toList <+: pool.toList)
      (disciplined : Disciplined f.name f.params f.body)
      (scopes : Stmt.scopesInOrder f.body = true)
      (environment : f.environment < es.size)
      (links : ∀ n ∈ f.names.free, ∃ p, Link W es t.current t.outer f.environment n p)
      (captured : ∀ (j : Nat) (y : Symbol), d.symbols.current.free[j]? = some y →
        y.name ∈ f.names.free →
        ∃ v v', Link W es t.current t.outer f.environment y.name (.captured v) ∧
          c.free[j]? = some v' ∧ v'.Like made v)

lemma Compiled.later {W W' : World} {pool : Array Constant} {es es' : Array Environment}
    {made made' env : Nat} {f : FunctionObject} {c : Closure} (h : Compiled W pool es made f c)
    (hl : Later env W W' es es') (hm : made ≤ made') : Compiled W' pool es' made' f c := by
  obtain ⟨good, body, reads, arity, hpool, disciplined, scopes, environment, links, captured⟩ := h
  refine ⟨good, body, reads, arity, hpool, disciplined, scopes,
    Nat.lt_of_lt_of_le environment hl.size, ?_, ?_⟩
  · intro n hn
    obtain ⟨p, hp⟩ := links n hn
    exact ⟨p, hp.later hl⟩
  · intro j y hj hy
    obtain ⟨v, v', hv, hv', hlike⟩ := captured j y hj hy
    exact ⟨v, v', hv.later hl, hv', hlike.mono hm⟩

/-! ## The engines side by side -/

/-- The machine, the store of the evaluator, and what is known of environments and globals. -/
structure Joint where
  world : World
  machine : Machine
  store : Store

namespace Joint

/-- What has a place is the same in both engines. -/
structure Core (b : Joint) : Prop where
  like : b.machine.store.Like b.store
  functions : ∀ {i : Nat} {f}, b.store.functions[i]? = some f →
    ∃ c, b.machine.store.closures[i + 1]? = some c ∧
    Compiled b.world b.machine.constants b.store.environments b.store.functions.size f c
  fits : b.world.Fits b.store.environments
  top : 0 < b.store.environments.size
  globals : ∀ {n g}, b.world.slots n = some g →
    ∃ v, boundTo b.store.environments 0 n = some v ∧
    (b.machine.getGlobal g).Like b.store.functions.size v
  builtins : b.machine.builtins = Builtin.table

/-- Arrays, hashes and what is printed may change in both. -/
lemma Core.beside {b : Joint} (h : b.Core) {m : Machine} {σ : Store} (hlike : m.store.Like σ)
    (hm : b.machine.store.Beside m.store) (hσ : b.store.Beside σ)
    (hc : m.constants = b.machine.constants)
    (hg : m.globals = b.machine.globals) (hb : m.builtins = b.machine.builtins) :
    Core ⟨b.world, m, σ⟩ where
  like := hlike
  functions {i f} hf := by
    simp only [hσ.functions] at hf
    simp only [hm.closures, hc, hσ.environments, hσ.functions]
    exact h.functions hf
  fits := by
    simp only [hσ.environments]
    exact h.fits
  top := by
    simp only [hσ.environments]
    exact h.top
  globals {n g} hs := by
    obtain ⟨v, hv, hl⟩ := h.globals hs
    simp only [hσ.environments, hσ.functions, Machine.getGlobal, hg]
    exact ⟨v, hv, hl⟩
  builtins := hb.trans h.builtins

end Joint

/-- The same call, wherever it stands in its code. -/
structure Frame.Same (f f' : Frame) : Prop where
  closure : f'.closure = f.closure
  fn : f'.fn = f.fn
  free : f'.free = f.free
  base : f'.base = f.base

lemma Frame.Same.refl (f : Frame) : f.Same f := ⟨rfl, rfl, rfl, rfl⟩

lemma Frame.Same.trans {f f' f'' : Frame} (h : f.Same f') (h' : f'.Same f'') : f.Same f'' :=
  ⟨h'.closure.trans h.closure, h'.fn.trans h.fn, h'.free.trans h.free, h'.base.trans h.base⟩

namespace Joint

/-- What a run leaves alone that does not touch the names of the innermost scope, at height `h`. -/
structure Undisturbed (h : Nat) (b b' : Joint) : Prop where
  frame : b.machine.frame.Same b'.machine.frame
  callers : b'.machine.callers = b.machine.callers
  maxFrames : b'.machine.maxFrames = b.machine.maxFrames
  constants : b'.machine.constants = b.machine.constants
  globals : b'.machine.globals = b.machine.globals
  stack : ∀ i < h, b'.machine.stack.getD i .nil = b.machine.stack.getD i .nil
  made : b.store.functions.size ≤ b'.store.functions.size
  later : ∀ env, Later env b.world b'.world b.store.environments b'.store.environments

/-- What code of the environment `env`, run at height `h`, leaves alone: all but the names of
`env`. -/
structure Keeps (env h : Nat) (b b' : Joint) : Prop where
  frame : b.machine.frame.Same b'.machine.frame
  callers : b'.machine.callers = b.machine.callers
  maxFrames : b'.machine.maxFrames = b.machine.maxFrames
  constants : b'.machine.constants = b.machine.constants
  globals : env ≠ 0 → b'.machine.globals = b.machine.globals
  stack : ∀ i < h, i < b.machine.frame.base ∨ b.machine.ground ≤ i →
    b'.machine.stack.getD i .nil = b.machine.stack.getD i .nil
  made : b.store.functions.size ≤ b'.store.functions.size
  later : Later env b.world b'.world b.store.environments b'.store.environments

variable {env h h' : Nat} {b b' b'' : Joint}

lemma Undisturbed.keeps (hu : b.Undisturbed h b') (env : Nat) : b.Keeps env h b' :=
  ⟨hu.frame, hu.callers, hu.maxFrames, hu.constants, fun _ => hu.globals,
    fun i hi _ => hu.stack i hi, hu.made, hu.later env⟩

lemma Keeps.ground (hk : b.Keeps env h b') : b'.machine.ground = b.machine.ground := by
  rw [Machine.ground, Machine.ground, hk.frame.base, hk.frame.fn]

lemma Keeps.refl (env h : Nat) (b : Joint) : b.Keeps env h b :=
  ⟨.refl _, rfl, rfl, rfl, fun _ => rfl, fun _ _ _ => rfl, Nat.le_refl _, .refl _ _ _⟩

lemma Keeps.trans (hk : b.Keeps env h b') (hk' : b'.Keeps env h b'') : b.Keeps env h b'' where
  frame := hk.frame.trans hk'.frame
  callers := hk'.callers.trans hk.callers
  maxFrames := hk'.maxFrames.trans hk.maxFrames
  constants := hk'.constants.trans hk.constants
  globals hne := (hk'.globals hne).trans (hk.globals hne)
  stack i hi hout := by
    refine (hk'.stack i hi ?_).trans (hk.stack i hi hout)
    rwa [hk.frame.base, hk.ground]
  made := Nat.le_trans hk.made hk'.made
  later := hk.later.trans hk'.later

/-- Code that runs at a greater height leaves more alone. -/
lemma Keeps.weaken (hk : b.Keeps env h' b') (hle : h ≤ h') : b.Keeps env h b' :=
  { hk with stack := fun i hi => hk.stack i (Nat.lt_of_lt_of_le hi hle) }

/-! ## Names -/

/-- The engines agree in the names of a scope: `t` is the table where the compiler stood, `known`
are the names that are bound so far, and `free` is what the function captures in the end.  So many
more calls may be nested as the evaluator has left. -/
structure Agrees (left env : Nat) (free : List Symbol) (t : SymbolTable) (known : List String)
    (b : Joint) :
    Prop where
  core : b.Core
  depth : b.machine.maxFrames - b.machine.frameCount = left
  level : t.outer = [] ↔ env = 0
  callers : b.machine.callers = [] ↔ env = 0
  present : env < b.store.environments.size
  owns : ∀ n ∈ known, ∃ x v, t.current.find? n = some x ∧
    (x.kind.owned = true ∨ x.kind = .function) ∧
    (x.kind = .global → b.world.slots n = some x.index) ∧
    (x.kind = .local → x.index < b.machine.frame.fn.locals.toNat) ∧
    boundTo b.store.environments env n = some v ∧
    (b.machine.denotes x).Like b.store.functions.size v
  named : ∀ n x, t.current.find? n = some x → x.kind = .free ∨
    (x.kind = .builtin ∧ Builtin.table[x.index]?.map Builtin.name = some n) ∨
    n ∈ (b.world.scopes env).bound
  fresh : ∀ n ∈ (b.world.scopes env).frozen, n ∉ known → boundTo b.store.environments env n = none
  slots : env = 0 → ∀ n g, b.world.slots n = some g →
    ∃ x, t.current.find? n = some x ∧ x.kind = .global ∧ x.index = g
  links : ∀ n ∈ (b.world.scopes env).free, n ∉ (b.world.scopes env).bound →
    ∃ p, Link b.world b.store.environments t.current t.outer env n p
  frees : ∀ (j : Nat) y, free[j]? = some y → y.name ∈ (b.world.scopes env).free →
    y.name ∉ (b.world.scopes env).bound →
    ∃ v v', Link b.world b.store.environments t.current t.outer env y.name (.captured v) ∧
      b.machine.frame.free[j]? = some v' ∧ v'.Like b.store.functions.size v

namespace Agrees

variable {left : Nat} {free : List Symbol} {t t' : SymbolTable} {known : List String}

/-- What a symbol with a slot denotes does not depend on what lies above the locals. -/
lemma denotes_eq (hu : b.Undisturbed h b') (hh : b.machine.ground ≤ h) {x : Symbol}
    (ho : x.kind.owned = true ∨ x.kind = .function)
    (hi : x.kind = .local → x.index < b.machine.frame.fn.locals.toNat) :
    b'.machine.denotes x = b.machine.denotes x := by
  cases hk : x.kind with
  | global => simp only [Machine.denotes, hk, Machine.getGlobal, hu.globals]
  | «local» =>
      have hlt := hi hk
      rw [Machine.ground] at hh
      simp only [Machine.denotes, hk, hu.frame.base]
      exact hu.stack _ (by omega)
  | function => simp only [Machine.denotes, hk, hu.frame.closure]
  | builtin | free => simp [hk, SymbolKind.owned] at ho

/-- **What leaves the names alone leaves the agreement alone.** -/
theorem undisturbed (ha : b.Agrees left env free t known) (hu : b.Undisturbed h b')
    (hh : b.machine.ground ≤ h) (hcore : b'.Core) : b'.Agrees left env free t known := by
  have hscopes := (hu.later env).scopes env ha.present
  have hslots : b'.world.slots = b.world.slots := (hu.later 1).kept Nat.one_ne_zero
  have hnames (n : String) : boundTo b'.store.environments env n =
      boundTo b.store.environments env n :=
    (hu.later (env + 1)).others env ha.present (Nat.ne_of_lt (Nat.lt_succ_self env)) n
  refine ⟨hcore, ?_, ha.level, ?_, Nat.lt_of_lt_of_le ha.present (hu.later env).size, ?_, ?_,
    ?_, ?_, ?_, ?_⟩
  · rw [hu.maxFrames, Machine.frameCount, hu.callers]
    exact ha.depth
  · rw [hu.callers]
    exact ha.callers
  · intro n hn
    obtain ⟨x, v, hx, ho, hg, hi, hv, hlike⟩ := ha.owns n hn
    refine ⟨x, v, hx, ho, ?_, ?_, (hnames n).trans hv, ?_⟩
    · rwa [hslots]
    · rwa [hu.frame.fn]
    · rw [denotes_eq hu hh ho hi]
      exact hlike.mono hu.made
  · rw [hscopes]
    exact ha.named
  · rw [hscopes]
    exact fun n hn hk => (hnames n).trans (ha.fresh n hn hk)
  · rw [hslots]
    exact ha.slots
  · rw [hscopes]
    intro n hn hb
    obtain ⟨p, hp⟩ := ha.links n hn hb
    exact ⟨p, hp.later (hu.later env)⟩
  · rw [hscopes, hu.frame.free]
    intro j y hj hy hb
    obtain ⟨v, v', hv, hv', hlike⟩ := ha.frees j y hj hy hb
    exact ⟨v, v', hv.later (hu.later env), hv', hlike.mono hu.made⟩

/-- Behind code that only captures, the engines agree for the table there. -/
lemma captures (ha : b.Agrees left env free t known) (hc : t.current.Captures t'.current)
    (ho : List.Forall₂ Scope.Captures t.outer t'.outer) (hs : t'.Sound) :
    b.Agrees left env free t' known where
  core := ha.core
  depth := ha.depth
  level := by
    rw [← ha.level, ← List.length_eq_zero_iff, ← List.length_eq_zero_iff, ho.length_eq]
  callers := ha.callers
  present := ha.present
  owns n hn := by
    obtain ⟨x, v, hx, hrest⟩ := ha.owns n hn
    exact ⟨x, v, hc.keeps hx, hrest⟩
  named n x hx := by
    rcases hc.adds hx with h | ⟨-, hfree⟩
    · exact ha.named n x h
    · exact .inl hfree
  fresh := ha.fresh
  slots h0 n g hg := by
    obtain ⟨x, hx, hrest⟩ := ha.slots h0 n g hg
    exact ⟨x, hc.keeps hx, hrest⟩
  links n hn hb := by
    obtain ⟨p, hp⟩ := ha.links n hn hb
    exact ⟨p, hp.captures hc ho hs⟩
  frees j y hj hy hb := by
    obtain ⟨v, v', hv, hrest⟩ := ha.frees j y hj hy hb
    exact ⟨v, v', hv.captures hc ho hs, hrest⟩

/-- A new name of the scope gets a slot, in which there is nothing of interest yet. -/
lemma define (ha : b.Agrees left env free t known) {n : String} (hk : n ∉ known) (ho : ¬ t.Owns n)
    (hb : n ∈ (b.world.scopes env).bound) : b.Agrees left env free (t.define n).2 known := by
  have hfind {m : String} (hne : m ≠ n) : (t.define n).2.current.find? m = t.current.find? m := by
    rw [SymbolTable.find?_define, if_neg hne.symm]
  refine ⟨ha.core, ha.depth, ha.level, ha.callers, ha.present, ?_, ?_, ha.fresh, ?_, ?_, ?_⟩
  · intro m hm
    obtain ⟨x, v, hx, hrest⟩ := ha.owns m hm
    exact ⟨x, v, (hfind fun heq => hk (heq ▸ hm)).trans hx, hrest⟩
  · intro m x hx
    rcases eq_or_ne m n with rfl | hne
    · exact .inr (.inr hb)
    · exact ha.named m x ((hfind hne).symm.trans hx)
  · intro h0 m g hg
    obtain ⟨x, hx, hkind, hidx⟩ := ha.slots h0 m g hg
    refine ⟨x, (hfind ?_).trans hx, hkind, hidx⟩
    rintro rfl
    exact ho ⟨x, hx, by rw [hkind]; rfl⟩
  · intro m hm hmb
    obtain ⟨p, hp⟩ := ha.links m hm hmb
    exact ⟨p, hp.congr (hfind fun heq => hmb (heq ▸ hb))⟩
  · intro j y hj hy hyb
    obtain ⟨v, v', hv, hrest⟩ := ha.frees j y hj hy hyb
    exact ⟨v, v', hv.congr (hfind fun heq => hyb (heq ▸ hb)), hrest⟩

/-- A name that is not captured may be forgotten. -/
lemma forget {n : String} (ha : b.Agrees left env free t (n :: known))
    (hn : n ∉ (b.world.scopes env).frozen) : b.Agrees left env free t known :=
  { ha with
    owns := fun m hm => ha.owns m (List.mem_cons_of_mem _ hm)
    fresh := fun m hm hk => ha.fresh m hm fun h =>
      (List.mem_cons.mp h).elim (fun heq => hn (heq ▸ hm)) hk }

end Agrees

end Joint

/-! ## Stores to names -/

/-- The slots of the top level are globals, those of functions are locals. -/
lemma SymbolTable.Proper.kind_of_owned {k : Nat} {t : SymbolTable} {n : String} {x : Symbol}
    (hp : t.Proper k) (hx : t.current.find? n = some x) (ho : x.kind.owned = true) :
    x.kind = .global ↔ t.outer = [] := by
  obtain ⟨s, os⟩ := t
  cases os with
  | nil =>
      rcases hp n x hx with hk | ⟨hk, -⟩
      · exact iff_of_true hk rfl
      · rw [hk] at ho
        cases ho
  | cons o os =>
      refine iff_of_false (fun hk => ?_) (List.cons_ne_nil o os)
      have hreach := hp.1 n x hx
      rw [hk] at hreach
      cases hreach

/-- A name is bound that is not captured, or is not bound yet. -/
lemma Later.bind {W W' : World} {σ : Store} {env : Nat} {n : String} (v : Value)
    (hscopes : W'.scopes = W.scopes) (hslots : ∀ m i, W.slots m = some i → W'.slots m = some i)
    (hkept : env ≠ 0 → W'.slots = W.slots) (henv : env < σ.environments.size)
    (hn : n ∈ (W.scopes env).frozen → boundTo σ.environments env n = none) :
    Later env W W' σ.environments (σ.bind env n v).environments where
  size := Nat.le_of_eq (σ.size_bind env n v).symm
  scopes e _ := congrFun hscopes e
  slots := hslots
  kept := hkept
  outer e _ := σ.outerOf_bind env n v e
  frozen e m w hm hw := by
    refine (Store.boundTo_bind henv n v e m).trans ((if_neg ?_).trans hw)
    rintro ⟨rfl, rfl⟩
    rw [hn hm] at hw
    cases hw
  others e _ hne m := (Store.boundTo_bind henv n v e m).trans (if_neg fun h => hne h.1)

/-- The engines still agree in what has a place, if they do so in the globals. -/
lemma Joint.Core.bind {b : Joint} (h : b.Core) {W : World} {m : Machine} {env : Nat} {n : String}
    {v : Value}
    (hlater : Later env b.world W b.store.environments (b.store.bind env n v).environments)
    (hscopes : W.scopes = b.world.scopes) (henv : env < b.store.environments.size)
    (hn : n ∈ (b.world.scopes env).bound) (hstore : m.store = b.machine.store)
    (hconstants : m.constants = b.machine.constants) (hbuiltins : m.builtins = b.machine.builtins)
    (hglobals : ∀ {m' g}, W.slots m' = some g → ∃ w, boundTo (b.store.bind env n v).environments 0
      m' = some w ∧ (m.getGlobal g).Like b.store.functions.size w) :
    Core ⟨W, m, b.store.bind env n v⟩ where
  like := by
    show m.store.Like _
    rw [hstore]
    exact ⟨h.like.arrays, h.like.hashes, h.like.closures, h.like.functions, h.like.printed⟩
  functions {i f} hf := by
    obtain ⟨c, hc, hcomp⟩ := h.functions hf
    simp only [hstore, hconstants]
    exact ⟨c, hc, hcomp.later hlater (Nat.le_refl _)⟩
  fits := by
    refine ⟨fun e o ho => ?_, ?_, fun e m' w hw => ?_⟩
    · exact h.fits.nested e o ((b.store.outerOf_bind env n v e).symm.trans ho)
    · exact (b.store.outerOf_bind env n v 0).trans h.fits.top
    · have hw' := (Store.boundTo_bind henv n v e m').symm.trans hw
      simp only [hscopes]
      split_ifs at hw' with heq
      · obtain ⟨rfl, rfl⟩ := heq
        exact hn
      · exact h.fits.bound e m' w hw'
  top := Nat.lt_of_lt_of_le h.top hlater.size
  globals := hglobals
  builtins := hbuiltins.trans h.builtins

/-- A global is bound from now on. -/
def World.learn (W : World) (n : String) (x : Symbol) : World :=
  { W with slots := fun m => if x.kind = .global ∧ m = n then some x.index else W.slots m }

namespace Joint

/-- A value is stored under a name by both engines. -/
def stored (b : Joint) (env : Nat) (n : String) (x : Symbol) (v v' : Value) : Joint :=
  ⟨b.world.learn n x, b.machine.stored x v', b.store.bind env n v⟩

namespace Agrees

variable {left env : Nat} {free : List Symbol} {t : SymbolTable} {known : List String} {b : Joint}
  {n : String}
  {x : Symbol} {v v' : Value}

section

variable (ha : b.Agrees left env free t known) (hs : t.Sound) (hx : t.current.find? n = some x)
  (hg : x.kind = .global ↔ env = 0)

include ha hs hx hg

/-- The slot of a global belongs to one name only. -/
lemma slot_eq (h0 : x.kind = .global) {m : String} {i : Nat} (hm : b.world.slots m = some i) :
    i = x.index ↔ m = n := by
  obtain ⟨y, hy, hky, rfl⟩ := ha.slots (hg.mp h0) m i hm
  constructor
  · exact fun hi => hs.head.apart hy hx (by rw [hky]; rfl) (by rw [h0]; rfl) hi
  · rintro rfl
    rw [hx] at hy
    cases hy
    rfl

/-- Storing changes no captured name that is bound already. -/
lemma later_stored (hn : n ∈ (b.world.scopes env).frozen → n ∉ known) :
    Later env b.world (b.stored env n x v v').world b.store.environments
      (b.stored env n x v v').store.environments := by
  refine .bind v rfl (fun m i hm => ?_) (fun hne => ?_) ha.present fun hz => ha.fresh n hz (hn hz)
  · show (if x.kind = .global ∧ m = n then some x.index else b.world.slots m) = some i
    split_ifs with h
    · rw [(ha.slot_eq hs hx hg h.1 hm).mpr h.2]
    · exact hm
  · funext m
    exact if_neg fun h => hne (hg.mp h.1)

lemma core_stored (hb : n ∈ (b.world.scopes env).bound) (hv : v'.Like b.store.functions.size v)
    (hn : n ∈ (b.world.scopes env).frozen → n ∉ known) : (b.stored env n x v v').Core := by
  have hlater : Later env b.world (b.stored env n x v v').world b.store.environments
      (b.store.bind env n v).environments := ha.later_stored hs hx hg hn
  refine ha.core.bind hlater rfl ha.present hb rfl rfl rfl fun {m i} hm => ?_
  have hbound (e : Nat) (m : String) := Store.boundTo_bind ha.present n v e m
  change (if x.kind = .global ∧ m = n then some x.index else b.world.slots m) = some i at hm
  by_cases hk : x.kind = .global
  · have h0 := hg.mp hk
    split_ifs at hm with h
    · cases hm
      refine ⟨v, (hbound 0 m).trans (if_pos ⟨h0.symm, h.2⟩), ?_⟩
      rw [Machine.getGlobal_stored _ _ _ hk, if_pos rfl]
      exact hv
    · have hne : m ≠ n := fun heq => h ⟨hk, heq⟩
      obtain ⟨w, hw, hlike⟩ := ha.core.globals hm
      refine ⟨w, (hbound 0 m).trans ((if_neg fun h => hne h.2).trans hw), ?_⟩
      rw [Machine.getGlobal_stored _ _ _ hk,
        if_neg fun heq => hne ((ha.slot_eq hs hx hg hk hm).mp heq.symm)]
      exact hlike
  · rw [if_neg fun h => hk h.1] at hm
    obtain ⟨w, hw, hlike⟩ := ha.core.globals hm
    refine ⟨w, (hbound 0 m).trans ((if_neg fun h => hk (hg.mpr h.1.symm)).trans hw), ?_⟩
    simp only [Machine.getGlobal, Machine.stored, if_neg hk]
    exact hlike

end

/-- **A value that is stored under a name.**  Both engines know the name from now on. -/
theorem store {k : Nat} (ha : b.Agrees left env free t known) (hs : t.Sound) (hp : t.Proper k)
    (hx : t.current.find? n = some x) (ho : x.kind.owned = true)
    (hi : x.kind = .local → x.index < b.machine.frame.fn.locals.toNat)
    (hroom : b.machine.ground ≤ b.machine.stack.size)
    (hn : n ∈ (b.world.scopes env).frozen → n ∉ known)
    (hv : v'.Like b.store.functions.size v) (h : Nat) :
    (b.stored env n x v v').Agrees left env free t (n :: known) ∧
      b.Keeps env h (b.stored env n x v v') := by
  have hg : x.kind = .global ↔ env = 0 := (hp.kind_of_owned hx ho).trans ha.level
  have hb : n ∈ (b.world.scopes env).bound := by
    rcases ha.named n x hx with hk | ⟨hk, -⟩ | hb
    · rw [hk] at ho
      cases ho
    · rw [hk] at ho
      cases ho
    · exact hb
  have hlater : Later env b.world (b.stored env n x v v').world b.store.environments
      (b.stored env n x v v').store.environments := ha.later_stored hs hx hg hn
  have hcore := ha.core_stored hs hx hg hb hv hn
  have hbound (m : String) := Store.boundTo_bind ha.present n v env m
  refine ⟨⟨hcore, ha.depth, ha.level, ha.callers, ?_, ?_, ha.named, ?_, ?_, ?_, ?_⟩, ?_⟩
  · exact Nat.lt_of_lt_of_le ha.present hlater.size
  · intro m hm
    rcases eq_or_ne m n with rfl | hne
    · refine ⟨x, v, hx, .inl ho, fun hk => if_pos ⟨hk, rfl⟩, hi,
        (hbound m).trans (if_pos ⟨rfl, rfl⟩), ?_⟩
      have hslot (hk : x.kind = .local) : b.machine.frame.base + x.index <
          b.machine.stack.size := by
        have hlt := hi hk
        rw [Machine.ground] at hroom
        omega
      show ((b.machine.stored x v').denotes x).Like _ v
      rw [Machine.denotes_stored _ _ _ ho hslot]
      exact hv
    · obtain ⟨y, w, hy, hyo, hyg, hyi, hyw, hlike⟩ :=
        ha.owns m ((List.mem_cons.mp hm).resolve_left hne)
      refine ⟨y, w, hy, hyo, fun hk => (if_neg fun h => hne h.2).trans (hyg hk), hyi,
        (hbound m).trans ((if_neg fun h => hne h.2).trans hyw), ?_⟩
      show ((b.machine.stored x v').denotes y).Like _ w
      rw [Machine.denotes_stored_of_ne _ _ _ ho fun hk hidx => hne ?_]
      · exact hlike
      · exact hs.head.apart hy hx (hk ▸ ho) ho hidx
  · intro m hm hk
    have hne : m ≠ n := fun heq => hk (heq ▸ List.mem_cons_self)
    exact (hbound m).trans ((if_neg fun h => hne h.2).trans
      (ha.fresh m hm fun hm' => hk (List.mem_cons_of_mem _ hm')))
  · intro h0 m i hm
    change (if x.kind = .global ∧ m = n then some x.index else b.world.slots m) = some i at hm
    split_ifs at hm with h
    · cases hm
      exact ⟨x, h.2 ▸ hx, h.1, rfl⟩
    · exact ha.slots h0 m i hm
  · intro m hm hmb
    obtain ⟨p, hlink⟩ := ha.links m hm hmb
    exact ⟨p, hlink.later hlater⟩
  · intro j y hj hy hyb
    obtain ⟨w, w', hlink, hw', hlike⟩ := ha.frees j y hj hy hyb
    exact ⟨w, w', hlink.later hlater, hw', hlike⟩
  · refine ⟨.refl _, rfl, rfl, rfl, fun hne => ?_, fun i _ hout => ?_, Nat.le_refl _, hlater⟩
    · exact if_neg fun hk => hne (hg.mp hk)
    · refine Machine.getD_stored _ _ _ i ?_
      by_cases hk : x.kind = .global
      · exact .inr hk
      · have hlt := hi ((SymbolKind.eq_of_owned ho).resolve_left hk)
        rw [Machine.ground] at hout
        exact .inl (by omega)

end Agrees

end Joint

end Marmoset
