import Marmoset.Proofs.BoundNames
import Marmoset.Proofs.CallEffects
import Mathlib.Data.List.Nodup

/-!
# Sessions over many inputs

What inputs of any outcome leave to those after them.  A session only gains: names get the next
slots, constants and closures are added at the end.  A slot stays with the name that it was given
to, and nothing but a store for that name writes to it; so a closure of an earlier input finds its
constants and its variables in every later machine.

The globals go from the session into the machine of an input and back, whatever the run comes to
(`Session.HandsOn`).  So a slot holds what it held before, or what an input in between has stored
there (`Session.Keeps`).

* `Session.Allots` — the name that a slot was given to.
* `Session.Later` — the sessions that come after a session.
* **`Machine.Sparing.grown_run`** — what a run adds.
* **`Machine.Sparing.getGlobal_run`** — what a run leaves in a slot.
* **`Session.Reached.carries`** — what a later session has of an earlier one.
* **`Session.Reached.keeps`** — what becomes of the globals.
* **`Session.Reached.keeps_history`** — all of this together.
-/

namespace Marmoset

/-! ## Slots are given out in turn -/

/-- The slots of the top level were given out one after the other. -/
def Scope.InTurn (s : Scope) : Prop :=
  (s.symbols.filter fun x => x.kind == .global).map Symbol.index =
    (List.range s.definitions).reverse

namespace Scope.InTurn

variable {s : Scope}

/-- More names are bound in turn. -/
lemma defineGlobals (h : s.InTurn) (names : List String) : (s.defineGlobals names).InTurn := by
  induction names generalizing s with
  | nil => exact h
  | cons n ns ih =>
      refine ih ?_
      show ((⟨n, .global, s.definitions⟩ :: s.symbols).filter _).map Symbol.index =
        (List.range (s.definitions + 1)).reverse
      rw [List.filter_cons_of_pos (by simp), List.map_cons, List.range_succ, List.reverse_append, h]
      rfl

/-- A slot that was given out is below the next one. -/
lemma lt {x : Symbol} (h : s.InTurn) (hx : x ∈ s.symbols) (hk : x.kind = .global) :
    x.index < s.definitions := by
  have hmem : x.index ∈ (s.symbols.filter fun x => x.kind == .global).map Symbol.index :=
    List.mem_map_of_mem (List.mem_filter.mpr ⟨hx, by simp [hk]⟩)
  rw [h, List.mem_reverse] at hmem
  exact List.mem_range.mp hmem

/-- No slot was given out twice. -/
lemma eq_of_index {x y : Symbol} (h : s.InTurn) (hx : x ∈ s.symbols) (hy : y ∈ s.symbols)
    (hkx : x.kind = .global) (hky : y.kind = .global) (heq : x.index = y.index) : x = y := by
  have hnodup : ((s.symbols.filter fun x => x.kind == .global).map Symbol.index).Nodup := by
    rw [h, List.nodup_reverse]
    exact List.nodup_range
  exact List.inj_on_of_nodup_map hnodup (List.mem_filter.mpr ⟨hx, by simp [hkx]⟩)
    (List.mem_filter.mpr ⟨hy, by simp [hky]⟩) heq

/-- Every slot was given to a name. -/
lemma exists_of_lt {i : Nat} (h : s.InTurn) (hi : i < s.definitions) :
    ∃ n, ⟨n, .global, i⟩ ∈ s.symbols := by
  have hmem : i ∈ (s.symbols.filter fun x => x.kind == .global).map Symbol.index := by
    rw [h, List.mem_reverse]
    exact List.mem_range.mpr hi
  obtain ⟨⟨n, kind, index⟩, hx, rfl⟩ := List.mem_map.mp hmem
  obtain ⟨hx, hk⟩ := List.mem_filter.mp hx
  simp only [beq_iff_eq] at hk
  exact ⟨n, by rwa [hk] at hx⟩

end Scope.InTurn

/-- Each name takes one slot. -/
lemma Scope.definitions_defineGlobals (s : Scope) (names : List String) :
    (s.defineGlobals names).definitions = s.definitions + names.length := by
  induction names generalizing s with
  | nil => rfl
  | cons n ns ih =>
      rw [defineGlobals_cons, ih, List.length_cons]
      show s.definitions + 1 + ns.length = _
      omega

/-! ## What a run adds -/

namespace Machine

variable {m m₁ m' : Machine} {main : Code} {k g : Nat}

/-- A store to a global stands at the top level. -/
lemma Sparing.stands_setGlobal {i : Nat} (h : m.Sparing main k g)
    (hat : m.StandsAt ⟨.setGlobal, [i]⟩) :
    m.callers = [] ∧ i < g ∧
      ∃ before rest, main.Reads (before ++ ⟨.setGlobal, [i]⟩ :: rest) ∧
      m.frame.ip = extent before := by
  obtain ⟨before, rest, hs⟩ := h.safe.stands hat.1 hat.2
  have hmain : m.callers = [] := by
    by_contra hc
    obtain ⟨hfn, -⟩ := h.safe.stands_inside hc
    exact h.functions _ hfn _ hs.reads ⟨.setGlobal, [i]⟩ (by simp) rfl
  have hframes := h.safe.frames
  rw [hmain] at hframes
  have hreads := hs.reads
  rw [hframes.1] at hreads
  exact ⟨hmain, hs.instr_inRange, before, rest, hreads, hs.ip⟩

/-- The only instruction that changes what is around the calls is a store to a global. -/
lemma Sparing.spares_or_stores (h : m.Sparing main k g) :
    m.Spares 0 m.step.machine ∨ ∃ i, m.StandsAt ⟨.setGlobal, [i]⟩ := by
  obtain ⟨before, after, hs⟩ := h.safe.frames.stands
  cases after with
  | nil =>
      have hmain : m.callers = [] := by
        by_contra hne
        exact hs.inCode (by simpa using hne) rfl
      have hend : m.frame.fn.code[m.frame.ip]? = none := by
        refine Array.getElem?_eq_none (Nat.le_of_eq ?_)
        rw [hs.ip, hs.reads.size, List.append_nil]
      refine .inl ?_
      simp only [step, hend]
      exact Spares.rfl.leave (.inr hmain) _
  | cons i rest =>
      by_cases hop : i.op = .setGlobal
      · obtain ⟨op, operands⟩ := i
        cases hop
        obtain ⟨a, as, -, hnil, rfl⟩ := List.forall₂_cons_left_iff.mp hs.fits
        cases hnil
        exact .inr ⟨a, hs.fits, hs.holds⟩
      · have htakes := hs.takes_le
        have hjump : m.Spares 0 (m.jump (m.frame.ip + i.size)) := .of_eq rfl rfl rfl
        rw [step_of_instr hs.fits hs.holds]
        refine .inl (hjump.trans
          (spares_execute (show 0 + i.takes ≤ m.sp by omega) (Nat.zero_le _) (fun _ => ?_) hop))
        by_cases hc : m.callers = []
        · exact .inr hc
        · exact .inl (h.safe.base_pos hc)

/-- A store takes the value on top of the stack. -/
lemma step_setGlobal {i : Nat} (hat : m.StandsAt ⟨.setGlobal, [i]⟩) :
    m.step = .next ({ m.jump (m.frame.ip + 3) with sp := m.sp - 1 }.setGlobal i
      (m.stack.getD (m.sp - 1) .nil)) :=
  step_of_instr hat.1 hat.2

/-- A store makes room for its slot. -/
lemma size_setGlobal (m : Machine) (i : Nat) (v : Value) :
    (m.setGlobal i v).globals.size = max m.globals.size (i + 1) := by
  simp only [setGlobal, Array.size_setIfInBounds, Array.size_append, Array.size_replicate]
  omega

/-- What may have become of a machine whose globals are the first `g`: closures are added, and
globals are set. -/
structure Grown (g : Nat) (m m' : Machine) : Prop where
  constants : m'.constants = m.constants
  globalCount : m'.globalCount = m.globalCount
  globals : m'.globals.size ≤ max m.globals.size g
  closures : m.store.closures.toList <+: m'.store.closures.toList

lemma Grown.rfl : m.Grown g m :=
  ⟨Eq.refl _, Eq.refl _, Nat.le_max_left _ _, List.prefix_rfl⟩

/-- What is added twice was added. -/
lemma Grown.trans (h : m.Grown g m₁) (h' : m₁.Grown g m') : m.Grown g m' := by
  refine ⟨h'.constants.trans h.constants, h'.globalCount.trans h.globalCount, ?_,
    h.closures.trans h'.closures⟩
  have hle := h.globals
  have hle' := h'.globals
  omega

/-- A step adds closures and sets globals. -/
lemma Sparing.grown_step (h : m.Sparing main k g) : m.Grown g m.step.machine := by
  rcases h.spares_or_stores with hs | ⟨i, hat⟩
  · have haround := hs.around
    simp only [surroundings, Prod.mk.injEq] at haround
    obtain ⟨hconst, -, -, -, hglobals, hcount⟩ := haround
    exact ⟨hconst, hcount, by rw [hglobals]; exact Nat.le_max_left _ _, hs.closures⟩
  · obtain ⟨-, hi, -⟩ := h.stands_setGlobal hat
    rw [step_setGlobal hat]
    refine ⟨Eq.refl _, Eq.refl _, ?_, List.prefix_rfl⟩
    show (setGlobal _ i _).globals.size ≤ _
    rw [size_setGlobal]
    show max m.globals.size (i + 1) ≤ _
    omega

/-- **A run adds closures and sets globals.** -/
theorem Sparing.grown_run (h : m.Sparing main k g) (n : Nat) : m.Grown g (m.run n).machine := by
  induction n generalizing m with
  | zero => exact .rfl
  | succ n ih =>
      have hstep := h.grown_step
      rw [Machine.run]
      cases hs : m.step with
      | next m' =>
          rw [hs] at hstep
          exact hstep.trans (ih (h.next hs))
      | done m' | fault f m' | crash m' =>
          rw [hs] at hstep
          exact hstep

/-- Stores are the only steps that change globals. -/
lemma Sparing.globals_step (h : m.Sparing main k g) (hno : ∀ i, ¬ m.StandsAt ⟨.setGlobal, [i]⟩) :
    m.step.machine.globals = m.globals := by
  have hspares := h.spares_or_stores.resolve_right fun ⟨i, hat⟩ => hno i hat
  have haround := hspares.around
  simp only [surroundings, Prod.mk.injEq] at haround
  exact haround.2.2.2.2.1

/-- What a store leaves in the slots. -/
lemma getGlobal_step_setGlobal {i : Nat} (hat : m.StandsAt ⟨.setGlobal, [i]⟩) (j : Nat) :
    m.step.machine.getGlobal j = if i = j then m.pop.1 else m.getGlobal j := by
  rw [step_setGlobal hat]
  exact getGlobal_setGlobal _ i j _

/-- A step leaves a slot as it is, unless it is a store to this slot. -/
lemma Sparing.getGlobal_step (h : m.Sparing main k g) (i : Nat) :
    m.step.machine.getGlobal i = m.getGlobal i ∨
      m.StandsAt ⟨.setGlobal, [i]⟩ ∧ m.step.machine.getGlobal i = m.pop.1 := by
  by_cases hat : m.StandsAt ⟨.setGlobal, [i]⟩
  · refine .inr ⟨hat, ?_⟩
    rw [getGlobal_step_setGlobal hat, if_pos rfl]
  · refine .inl ?_
    by_cases hno : ∃ j, m.StandsAt ⟨.setGlobal, [j]⟩
    · obtain ⟨j, hj⟩ := hno
      rw [getGlobal_step_setGlobal hj, if_neg]
      rintro rfl
      exact hat hj
    · rw [getGlobal, h.globals_step (not_exists.mp hno), getGlobal]

/-- **A slot holds what it held before the run, or what a store to this slot has put there.** -/
theorem Sparing.getGlobal_run (h : m.Sparing main k g) (n i : Nat) :
    (m.run n).machine.getGlobal i = m.getGlobal i ∨
      ∃ j m', j < n ∧ m.run j = .next m' ∧ m'.StandsAt ⟨.setGlobal, [i]⟩ ∧
        (m.run n).machine.getGlobal i = m'.pop.1 := by
  induction n generalizing m with
  | zero => exact .inl rfl
  | succ n ih =>
      have hfirst := h.getGlobal_step i
      rw [Machine.run]
      cases hs : m.step with
      | next m₁ =>
          rw [hs] at hfirst
          rcases ih (h.next hs) with hsame | ⟨j, m', hj, hrun, hat, hvalue⟩
          · rcases hfirst with heq | ⟨hat, heq⟩
            · exact .inl (hsame.trans heq)
            · exact .inr ⟨0, m, Nat.zero_lt_succ n, rfl, hat, hsame.trans heq⟩
          · refine .inr ⟨j + 1, m', Nat.succ_lt_succ hj, ?_, hat, hvalue⟩
            rw [Machine.run, hs]
            exact hrun
      | done m₁ | fault f m₁ | crash m₁ =>
          rw [hs] at hfirst
          rcases hfirst with heq | ⟨hat, heq⟩
          · exact .inl heq
          · exact .inr ⟨0, m, Nat.zero_lt_succ n, rfl, hat, heq⟩

end Machine

/-- The member of the other list that stands in the same place. -/
lemma getElem?_of_forall₂ {α β : Type} {R : α → β → Prop} {xs ys : List α} {zs : List β} {a : α}
    (h : List.Forall₂ R (xs ++ a :: ys) zs) : ∃ b, zs[xs.length]? = some b ∧ R a b := by
  induction xs generalizing zs with
  | nil =>
      obtain ⟨b, bs, hab, -, rfl⟩ := List.forall₂_cons_left_iff.mp h
      exact ⟨b, rfl, hab⟩
  | cons x xs ih =>
      obtain ⟨b, bs, -, hrest, rfl⟩ := List.forall₂_cons_left_iff.mp h
      exact ih hrest

/-! ## What an input leaves -/

namespace Session

/-- Slot `i` was given to the name, whatever the name stands for by now. -/
def Allots (s : Session) (i : Nat) (n : String) : Prop :=
  ⟨n, .global, i⟩ ∈ s.symbols.current.symbols

/-- The sessions after further inputs, whatever comes of them. -/
inductive Later (s : Session) : Session → Prop where
  | refl : Later s s
  | compile {s' : Session} (h : Later s s') (source : String) : Later s (s'.compile source).2
  | eval {s' : Session} (h : Later s s') (source : String) : Later s (s'.eval source).2

/-- What a later session has of an earlier one. -/
structure Carries (s s' : Session) : Prop where
  definitions : s.symbols.current.definitions ≤ s'.symbols.current.definitions
  slots : ∀ i n, s.Allots i n → s'.Allots i n
  constants : s.constants.toList <+: s'.constants.toList
  closures : s.store.closures.toList <+: s'.store.closures.toList

lemma Carries.refl (s : Session) : s.Carries s :=
  ⟨Nat.le_refl _, fun _ _ => id, List.prefix_rfl, List.prefix_rfl⟩

/-- What is carried twice is carried. -/
lemma Carries.trans {s s₁ s' : Session} (h : s.Carries s₁) (h' : s₁.Carries s') : s.Carries s' :=
  ⟨Nat.le_trans h.definitions h'.definitions, fun i n hi => h'.slots i n (h.slots i n hi),
    h.constants.trans h'.constants, h.closures.trans h'.closures⟩

/-- Names and constants that are added. -/
lemma carries_of {s s' : Session} {names : List String}
    (hnames : s'.symbols = ⟨s.symbols.current.defineGlobals names, []⟩)
    (hconstants : s.constants.toList <+: s'.constants.toList)
    (hclosures : s.store.closures.toList <+: s'.store.closures.toList) : s.Carries s' := by
  refine ⟨?_, fun i n hi => ?_, hconstants, hclosures⟩
  · rw [hnames, Scope.definitions_defineGlobals]
    exact Nat.le_add_right _ _
  · rw [Allots, hnames]
    exact (Scope.symbols_defineGlobals _ _).subset hi

/-- A session in order: at the top level, with a slot of its own for every global, and closures of
functions of the pool only. -/
structure Orderly (s : Session) : Prop where
  depth : s.symbols.depth = 0
  free : s.symbols.current.free = []
  given : ∀ {n x}, s.symbols.findHere? n = some x → x.kind = .global → s.Allots x.index n
  below : ∀ {i n}, s.Allots i n → i < s.symbols.current.definitions
  alone : ∀ {i n m}, s.Allots i n → s.Allots i m → n = m
  size : s.globals.size ≤ 65536
  globals : ∀ v ∈ s.globals, v.Sane s.constants s.store.closures
  store : s.store.All (Value.Sane s.constants s.store.closures)

/-- The machine for the program `p` stands at the store that `p` has for the name `n`, to which slot
`i` was given. -/
def StandsAtStore (s : Session) (p : Program) (b : Bytecode) (m : Machine) (i : Nat) (n : String) :
    Prop :=
  m.StandsAt ⟨.setGlobal, [i]⟩ ∧ m.callers = [] ∧
    ∃ before rest, b.code.Consists (before ++ ⟨.setGlobal, [i]⟩ :: rest) ∧
      m.frame.ip = extent before ∧
      (Stmt.storesAll p)[(before.filter Instr.stores).length]? = some n ∧ s.Allots i n

/-- Where the machine for the program `p` stands, it sets no global, or one that was given to the
name for which `p` has this store. -/
def StoresByName (s : Session) (p : Program) (b : Bytecode) (m : Machine) : Prop :=
  ((∀ i, ¬ m.StandsAt ⟨.setGlobal, [i]⟩) → m.step.machine.globals = m.globals) ∧
  ∀ i, m.StandsAt ⟨.setGlobal, [i]⟩ →
    (∀ j, m.step.machine.getGlobal j = if i = j then m.pop.1 else m.getGlobal j) ∧
    ∃ n, s.StandsAtStore p b m i n

/-- What slot `i` holds between two inputs. -/
def global (s : Session) (i : Nat) : Value :=
  s.globals.getD i .nil

lemma global_congr {s s' : Session} (h : s'.globals = s.globals) (i : Nat) :
    s'.global i = s.global i := by
  rw [global, h, global]

/-- The input is run and stores `v` to slot `i`, for the name `n`. -/
def Stores (s : Session) (source : String) (i : Nat) (n : String) (v : Value) : Prop :=
  ∃ p b s' k m, Program.ofText source = .ok p ∧ s.compile source = (.ok b, s') ∧
    k < s'.limits.steps ∧ (s'.machine b).run k = .next m ∧ s'.StandsAtStore p b m i n ∧ m.pop.1 = v

/-- Slot `i` holds in a later session what it holds now, or what an input in between has stored
there for its name. -/
def Keeps (s s' : Session) (i : Nat) : Prop :=
  s'.global i = s.global i ∨
    ∃ s₁ source n v, s.Later s₁ ∧ (s₁.eval source).2.Later s' ∧ s₁.Stores source i n v ∧
    s'.global i = v

/-- What becomes of the globals with one input: compiling it leaves them, also where it is rejected;
a machine starts with them, and however its run ends, the session goes on with the globals of the
machine. -/
structure HandsOn (s : Session) (source : String) : Prop where
  compile : (s.compile source).2.globals = s.globals
  rejected : ∀ {e s'}, s.compile source = (.error e, s') → (s.eval source).2.globals = s.globals
  starts : ∀ {b s'}, s.compile source = (.ok b, s') → (s'.machine b).globals = s.globals
  ends : ∀ {b s'}, s.compile source = (.ok b, s') →
    (s.eval source).2.globals = ((s'.machine b).run s'.limits.steps).machine.globals

/-- A closure of `s` is the same in a machine of the later session `s'`, and finds there the
constants and the variables that it refers to. -/
def Finds (s s' : Session) (m : Machine) (ref : Nat) (c : Closure) : Prop :=
  m.store.closures[ref]? = some c ∧ ∃ is, c.fn.code.Consists is ∧ ∀ i ∈ is,
    (i.op = .constant ∨ i.op = .closure → ∃ x, s.constants[i.first]? = some x ∧
      m.constants[i.first]? = some x) ∧
    (i.op = .getGlobal → ∃ n, s.Allots i.first n ∧ ∀ n', s'.Allots i.first n' ↔ n' = n)

/-- What compiling an input leaves: names and constants are added, and nothing else changes. -/
lemma InOrder.compile_adds {limits : Limits} {s : Session} (h : s.InOrder limits)
    (source : String) :
    (∃ names, (s.compile source).2.symbols = ⟨s.symbols.current.defineGlobals names, []⟩) ∧
      s.constants.toList <+: (s.compile source).2.constants.toList ∧
      (s.compile source).2.globals = s.globals ∧ (s.compile source).2.store = s.store := by
  have key (p : Program) :
      (∃ names, (s.compiler.compile p).2.symbols = ⟨s.symbols.current.defineGlobals names, []⟩) ∧
      s.constants.toList <+: (s.compiler.compile p).2.constants.toList := by
    obtain ⟨names, hnames, -⟩ := Compiler.symbols_compile (c := s.compiler) h.global p
    refine ⟨⟨names, hnames⟩, ?_⟩
    rcases h.ready.compile_cases .empty p with ⟨is, -, hem, -, -⟩ | ⟨e, -, hp, -⟩
    · exact hem.grows.pool
    · exact hp
  rcases s.compile_cases source with ⟨e, he⟩ | ⟨p, -, ⟨-, he⟩ | ⟨e, he⟩⟩ <;> rw [he]
  · refine ⟨⟨[], ?_⟩, List.prefix_rfl, rfl, rfl⟩
    rw [Scope.defineGlobals_nil, ← h.global]
  · exact ⟨(key p).1, (key p).2, rfl, rfl⟩
  · exact ⟨(key p).1, (key p).2, rfl, rfl⟩

/-- The globals of a session are nowhere lost. -/
lemma InOrder.handsOn {limits : Limits} {s : Session} (h : s.InOrder limits) (source : String) :
    s.HandsOn source := by
  have hglobals := (h.compile_adds source).2.2.1
  refine ⟨hglobals, fun hc => ?_, fun hc => ?_, fun hc => ?_⟩
  · rw [hc] at hglobals
    rw [eval_of_error hc]
    exact hglobals
  · rw [hc] at hglobals
    exact hglobals
  · rw [(eval_of_ok hc).1]

namespace Reached

variable {limits : Limits} {s s' : Session} {b : Bytecode} {source : String}

/-- A session after further inputs is one that was reached. -/
lemma later (h : Reached limits s) (hs : s.Later s') : Reached limits s' := by
  induction hs with
  | refl => exact h
  | compile _ source ih => exact ih.compile source
  | eval _ source ih => exact ih.eval source

/-- The machine for an input. -/
lemma sparing_machine (h : Reached limits s) (hl : limits.areFeasible = true)
    (hc : s.compile source = (.ok b, s')) :
    (s'.machine b).Sparing b.code Builtin.table.length s'.symbols.outermost.definitions := by
  obtain ⟨p, -, hok, rfl, rfl⟩ := exists_of_compile hc
  exact h.sparing_load hl hok

/-- Compiling an input loses nothing, also where it is rejected. -/
lemma carries_compile (h : Reached limits s) (hl : limits.areFeasible = true) (source : String) :
    s.Carries (s.compile source).2 := by
  obtain ⟨⟨names, hnames⟩, hconst, -, hstore⟩ := (h.inOrder hl).compile_adds source
  exact carries_of hnames hconst (hstore ▸ List.prefix_rfl)

/-- A run keeps all closures from before. -/
lemma carries_machine (h : Reached limits s) (hl : limits.areFeasible = true)
    (hc : s.compile source = (.ok b, s')) (n : Nat) :
    s.store.closures.toList <+: ((s'.machine b).run n).machine.store.closures.toList := by
  have hstore := ((h.inOrder hl).compile_adds source).2.2.2
  rw [hc] at hstore
  have hload : s.store.closures.toList <+: (s'.machine b).store.closures.toList := by
    show s.store.closures.toList <+: (s'.store.closures.push _).toList
    rw [hstore, Array.toList_push]
    exact List.prefix_append _ _
  exact hload.trans ((h.sparing_machine hl hc).grown_run n).closures

/-- An input loses nothing, whatever comes of it. -/
lemma carries_eval (h : Reached limits s) (hl : limits.areFeasible = true) (source : String) :
    s.Carries (s.eval source).2 := by
  have hcompile := h.carries_compile hl source
  cases hc : s.compile source with
  | mk r s' =>
      rw [hc] at hcompile
      cases r with
      | error e =>
          rw [eval_of_error hc]
          exact hcompile
      | ok b =>
          rw [(eval_of_ok hc).1]
          exact ⟨hcompile.definitions, hcompile.slots, hcompile.constants,
            h.carries_machine hl hc _⟩

/-- **A session only gains.** -/
theorem carries (h : Reached limits s) (hl : limits.areFeasible = true) (hs : s.Later s') :
    s.Carries s' := by
  induction hs with
  | refl => exact .refl s
  | compile hs source ih => exact ih.trans ((h.later hs).carries_compile hl source)
  | eval hs source ih => exact ih.trans ((h.later hs).carries_eval hl source)

/-- Slots are given out in turn, whatever comes of the inputs. -/
lemma inTurn (h : Reached limits s) (hl : limits.areFeasible = true) :
    s.symbols.current.InTurn := by
  have compile {s : Session} (h : Reached limits s) (ih : s.symbols.current.InTurn)
      (source : String) :
      (s.compile source).2.symbols.current.InTurn := by
    obtain ⟨names, hnames⟩ := ((h.inOrder hl).compile_adds source).1
    rw [hnames]
    exact ih.defineGlobals names
  induction h with
  | start => rfl
  | compile h source ih => exact compile h ih source
  | @eval s h source ih =>
      have hsymbols : (s.eval source).2.symbols = (s.compile source).2.symbols :=
        congrArg Compiler.symbols (s.compiler_eval source)
      rw [hsymbols]
      exact compile h ih source

/-- Only slots that were given to names are set. -/
lemma size_globals (h : Reached limits s) (hl : limits.areFeasible = true) :
    s.globals.size ≤ s.symbols.current.definitions ∧ s.globals.size ≤ 65536 := by
  have compile {s : Session} (h : Reached limits s)
      (ih : s.globals.size ≤ s.symbols.current.definitions ∧ s.globals.size ≤ 65536)
      (source : String) :
      (s.compile source).2.globals.size ≤ (s.compile source).2.symbols.current.definitions ∧
        (s.compile source).2.globals.size ≤ 65536 := by
    have hglobals := ((h.inOrder hl).compile_adds source).2.2.1
    rw [hglobals]
    exact ⟨Nat.le_trans ih.1 (h.carries_compile hl source).definitions, ih.2⟩
  induction h with
  | start => exact ⟨Nat.zero_le _, Nat.zero_le _⟩
  | compile h source ih => exact compile h ih source
  | @eval s h source ih =>
      have hcompile := compile h ih source
      cases hc : s.compile source with
      | mk r s' =>
          rw [hc] at hcompile
          cases r with
          | error e =>
              rw [eval_of_error hc]
              exact hcompile
          | ok b =>
              rw [(eval_of_ok hc).1]
              have hgrown := (h.sparing_machine hl hc).grown_run s'.limits.steps
              have hbounded := (Machine.bounded_load b s'.globals s'.limits Builtin.table
                s'.store).run s'.limits.steps
              have hglobal : s'.symbols.outer = [] := by
                have hs := (h.inOrder hl).compile source
                rw [hc] at hs
                exact hs.global
              have hle : ((s'.machine b).run s'.limits.steps).machine.globals.size ≤
                  max s'.globals.size s'.symbols.outermost.definitions := hgrown.globals
              have hle' : ((s'.machine b).run s'.limits.steps).machine.globals.size ≤
                  max s'.globals.size 65536 :=
                Nat.le_trans hbounded.globals (Nat.le_of_eq hgrown.globalCount)
              rw [SymbolTable.outermost_of_global hglobal] at hle
              exact ⟨by simp only at hcompile ⊢; omega, by simp only at hcompile ⊢; omega⟩

/-- The slot of a store belongs to the name for which the store was written. -/
lemma allots_of_stands (h : Reached limits s) (hl : limits.areFeasible = true)
    (hc : s.compile source = (.ok b, s')) {p : Program} (hp : Program.ofText source = .ok p)
    {before rest : List Instr} {i : Nat}
    (hreads : b.code.Reads (before ++ ⟨.setGlobal, [i]⟩ :: rest)) :
    ∃ n, (Stmt.storesAll p)[(before.filter Instr.stores).length]? = some n ∧ s'.Allots i n := by
  have hs := h.inOrder hl
  obtain ⟨p', hp', hok, rfl, rfl⟩ := exists_of_compile hc
  obtain rfl : p = p' := Except.ok.inj (hp.symm.trans hp')
  obtain ⟨is, hem, htracks, -⟩ := hs.ready.emits_of_ok .empty hok
  have heq : before ++ ⟨.setGlobal, [i]⟩ :: rest = is :=
    hreads.unique ⟨htracks.code, htracks.fits⟩
  have hserves := hem.serves hs.ready.good
  rw [← heq, List.filter_append, List.filter_cons_of_pos rfl] at hserves
  obtain ⟨n, hn, hserve⟩ := getElem?_of_forall₂ hserves
  refine ⟨n, hn, ?_⟩
  cases hserve with
  | global top given =>
      rw [SymbolTable.outermost_of_global top] at given
      exact given

/-- What the code of a closure refers to is there, and slots that it reads were given to names. -/
lemma closure_refers (h : Reached limits s) (hl : limits.areFeasible = true) {fn : CompiledFunction}
    (hfn : Constant.function fn ∈ s.constants) :
    ∃ is, fn.code.Consists is ∧ ∀ i ∈ is,
      (i.op = .constant ∨ i.op = .closure → ∃ k, s.constants[i.first]? = some k) ∧
      (i.op = .getGlobal → ∃ n, s.Allots i.first n) := by
  have hs := h.inOrder hl
  obtain ⟨-, -, is, captured, hreads, -, -, hrange⟩ := hs.good.pool fn hfn
  refine ⟨is, hreads.consists, fun i hi => ⟨fun hop => ?_, fun hop => ?_⟩⟩
  · have hr := hrange i hi
    unfold Instr.InRange at hr
    rcases hop with hop | hop <;> rw [hop] at hr
    · exact ⟨_, hr.choose_spec.1⟩
    · exact ⟨_, hr.choose_spec.1⟩
  · have hr := hrange i hi
    unfold Instr.InRange at hr
    rw [hop] at hr
    have hlt : i.first < s.symbols.outermost.definitions := hr
    rw [SymbolTable.outermost_of_global hs.global] at hlt
    exact (h.inTurn hl).exists_of_lt hlt

/-- Every session that is reached is in order. -/
lemma orderly (h : Reached limits s) (hl : limits.areFeasible = true) : s.Orderly := by
  have hs := h.inOrder hl
  have hfound {n : String} {x : Symbol} (hx : s.symbols.findHere? n = some x)
      (hk : x.kind = .global) :
      s.Allots x.index n := by
    obtain ⟨name, kind, index⟩ := x
    have hname : name = n := Scope.name_of_find? hx
    cases hk
    subst hname
    exact List.mem_of_find?_eq_some hx
  have hunique {i : Nat} {n m : String} (hn : s.Allots i n) (hm : s.Allots i m) : n = m :=
    congrArg Symbol.name ((h.inTurn hl).eq_of_index hn hm rfl rfl rfl)
  refine ⟨?_, hs.ready.free, fun hx hk => hfound hx hk, fun hi => (h.inTurn hl).lt hi rfl,
    fun hn hm => hunique hn hm, (h.size_globals hl).2, hs.globals, hs.store⟩
  rw [SymbolTable.depth, hs.global]
  rfl

/-- Where the machine stands at a store, it is one that the program has for the name of the slot. -/
lemma standsAtStore (h : Reached limits s) (hl : limits.areFeasible = true)
    (hc : s.compile source = (.ok b, s')) {p : Program} (hp : Program.ofText source = .ok p)
    {k i : Nat} {m : Machine} (hm : (s'.machine b).run k = .next m)
    (hat : m.StandsAt ⟨.setGlobal, [i]⟩) :
    ∃ n, s'.StandsAtStore p b m i n := by
  obtain ⟨hcallers, -, before, rest, hreads, hip⟩ :=
    ((h.sparing_machine hl hc).run hm).stands_setGlobal hat
  obtain ⟨n, hn, hallots⟩ := h.allots_of_stands hl hc hp hreads
  exact ⟨n, hat, hcallers, before, rest, hreads.consists, hip, hn, hallots⟩

/-- A step of the machine stores by name. -/
lemma storesByName (h : Reached limits s) (hl : limits.areFeasible = true)
    (hc : s.compile source = (.ok b, s')) {p : Program} (hp : Program.ofText source = .ok p)
    {k : Nat} {m : Machine} (hm : (s'.machine b).run k = .next m) :
    s'.StoresByName p b m :=
  ⟨((h.sparing_machine hl hc).run hm).globals_step, fun _ hat =>
    ⟨Machine.getGlobal_step_setGlobal hat, h.standsAtStore hl hc hp hm hat⟩⟩

/-- What an input leaves in a slot. -/
lemma global_eval (h : Reached limits s) (hl : limits.areFeasible = true) (source : String)
    (i : Nat) :
    (s.eval source).2.global i = s.global i ∨
      ∃ n, s.Stores source i n ((s.eval source).2.global i) := by
  have hglobals := (h.inOrder hl).handsOn source
  rcases s.compile_cases source with ⟨e, hc⟩ | ⟨p, hp, ⟨hok, hc⟩ | ⟨e, hc⟩⟩
  · exact .inl (global_congr (hglobals.rejected hc) i)
  · rw [global, global, hglobals.ends hc, ← hglobals.starts hc]
    refine ((h.sparing_machine hl hc).getGlobal_run _ i).imp_right ?_
    rintro ⟨k, m, hk, hm, hat, hvalue⟩
    obtain ⟨n, hstore⟩ := h.standsAtStore hl hc hp hm hat
    exact ⟨n, p, _, _, k, m, hp, hc, hk, hm, hstore, hvalue.symm⟩
  · exact .inl (global_congr (hglobals.rejected hc) i)

/-- **Between inputs a slot changes only by a store for its name.** -/
theorem keeps (h : Reached limits s) (hl : limits.areFeasible = true) (hs : s.Later s') (i : Nat) :
    s.Keeps s' i := by
  induction hs with
  | refl => exact .inl rfl
  | @compile s' hs source ih =>
      have hsame : (s'.compile source).2.global i = s'.global i :=
        global_congr (((h.later hs).inOrder hl).handsOn source).compile i
      rw [Keeps, hsame]
      refine ih.imp_right ?_
      rintro ⟨s₁, source', n, v, hbefore, hafter, hstores⟩
      exact ⟨s₁, source', n, v, hbefore, hafter.compile source, hstores⟩
  | @eval s' hs source ih =>
      -- the last store counts: that of this input, or else one before it
      rcases (h.later hs).global_eval hl source i with hsame | ⟨n, hstores⟩
      · rw [Keeps, hsame]
        refine ih.imp_right ?_
        rintro ⟨s₁, source', n, v, hbefore, hafter, hstores⟩
        exact ⟨s₁, source', n, v, hbefore, hafter.eval source, hstores⟩
      · exact .inr ⟨s', source, n, _, hs, .refl, hstores, rfl⟩

/-- The machine has as many globals as there can be, from its first step to its last one. -/
lemma globalCount_run (h : Reached limits s) (hl : limits.areFeasible = true)
    (hc : s.compile source = (.ok b, s')) (k : Nat) :
    ((s'.machine b).run k).machine.globalCount = 65536 ∧
      ((s'.machine b).run k).machine.globals.size ≤ 65536 := by
  have hgrown := (h.sparing_machine hl hc).grown_run k
  have hbounded := (Machine.bounded_load b s'.globals s'.limits Builtin.table s'.store).run k
  have hsize : s'.globals.size ≤ 65536 := by
    have hcompile := ((h.compile source).size_globals hl).2
    rwa [hc] at hcompile
  have hcount : ((s'.machine b).run k).machine.globalCount = 65536 :=
    hgrown.globalCount.trans (Nat.max_eq_right hsize)
  exact ⟨hcount, hcount ▸ hbounded.globals⟩

/-- A closure finds its constants and variables in later machines. -/
lemma finds (h : Reached limits s) (hl : limits.areFeasible = true) {s'' : Session}
    (hs' : s.Later s') (hc : s'.compile source = (.ok b, s'')) {k : Nat} {m : Machine}
    (hm : (s''.machine b).run k = .next m) {ref : Nat} {c : Closure}
    (href : s.store.closures[ref]? = some c) (hfn : Constant.function c.fn ∈ s.constants) :
    s.Finds s'' m ref c := by
  have h' := h.later hs'
  have hcarries : s.Carries s'' := by
    have hlast := h'.carries_compile hl source
    rw [hc] at hlast
    exact (h.carries hl hs').trans hlast
  have h'' : Reached limits s'' := by
    have hlast := h'.compile source
    rwa [hc] at hlast
  have hclosures := (h.carries hl hs').closures.trans (h'.carries_machine hl hc k)
  have hconst := Machine.constants_run (s''.machine b) k
  rw [hm] at hclosures hconst
  have hpool : m.constants = s''.constants := hconst.trans (constants_of_compile hc)
  obtain ⟨is, his, hrefers⟩ := h.closure_refers hl hfn
  refine ⟨?_, is, his, fun i hi => ⟨fun hop => ?_, fun hop => ?_⟩⟩
  · obtain ⟨rest, hrest⟩ := hclosures
    rw [← Array.getElem?_toList] at href ⊢
    rw [← show _ = m.store.closures.toList from hrest,
      List.getElem?_append_left (List.getElem?_eq_some_iff.mp href).1, href]
  · obtain ⟨x, hx⟩ := (hrefers i hi).1 hop
    rw [hpool]
    exact ⟨x, hx, getElem?_of_pool hcarries.constants hx⟩
  · obtain ⟨n, hn⟩ := (hrefers i hi).2 hop
    have hn'' := hcarries.slots _ _ hn
    exact ⟨n, hn, fun n' => ⟨fun h' => (h''.orderly hl).alone h' hn'', fun heq => heq ▸ hn''⟩⟩

/-- **What holds over whole histories.** -/
theorem keeps_history (h : Reached limits s) (hl : limits.areFeasible = true) :
    s.Orderly ∧ (∀ source, s.HandsOn source) ∧
    (∀ s', s.Later s' →
      s.Carries s' ∧ (∀ i, s.Keeps s' i) ∧ ∀ i n m, s.Allots i n → s'.Allots i m → m = n) ∧
    (∀ source p b s', Program.ofText source = .ok p → s.compile source = (.ok b, s') → ∀ k,
      ((s'.machine b).run k).machine.globalCount = 65536 ∧
      ((s'.machine b).run k).machine.globals.size ≤ 65536 ∧
      ∀ m, (s'.machine b).run k = .next m → s'.StoresByName p b m) ∧
    (∀ s' source b s'', s.Later s' → s'.compile source = (.ok b, s'') →
      ∀ k m, (s''.machine b).run k = .next m →
      ∀ ref c, s.store.closures[ref]? = some c → Constant.function c.fn ∈ s.constants →
      s.Finds s'' m ref c) := by
  refine ⟨h.orderly hl, (h.inOrder hl).handsOn, fun s' hs' => ?_,
    fun source p b s' hp hc k => ?_, ?_⟩
  · have hcarries := h.carries hl hs'
    exact ⟨hcarries, h.keeps hl hs',
      fun i n m hn hm => ((h.later hs').orderly hl).alone hm (hcarries.slots i n hn)⟩
  · obtain ⟨hcount, hsize⟩ := h.globalCount_run hl hc k
    exact ⟨hcount, hsize, fun m hm => h.storesByName hl hc hp hm⟩
  · intro s' source b s'' hs' hc k m hm ref c href hfn
    exact h.finds hl hs' hc hm href hfn

end Reached

/-- After a name was bound again by an input that could not be compiled to its end, and another one
by an input whose run met a fault. -/
def rebound : Session :=
  ((recursive.eval "let f = missing").2.eval "let g = 5; g()").2

set_option maxRecDepth 100000 in
/-- The slot that the failed run has set holds the new value, and the other one still holds the
function. -/
theorem rebound_keeps_history :
    recursive.Orderly ∧ recursive.HandsOn "let f = missing" ∧ recursive.Carries rebound ∧
    (∀ i, recursive.Keeps rebound i) ∧ rebound.global 0 = .closure 1 ∧
    rebound.global 2 = .integer 5 ∧
    recursive.Allots 0 "f" ∧ rebound.Allots 1 "f" ∧
    ∃ b s' c, rebound.compile "f(1)" = (.ok b, s') ∧ recursive.store.closures[1]? = some c ∧
      recursive.globals[0]? = some (.closure 1) ∧ recursive.Finds s' (s'.machine b) 1 c := by
  have hreached : Reached ⟨64, 16, 1000⟩ recursive := Reached.start.eval _
  have hlater : recursive.Later rebound := (Later.refl.eval _).eval _
  obtain ⟨horderly, hhands, hcarries, -, hfinds⟩ := hreached.keeps_history (by decide)
  have hvalues : rebound.global 0 = .closure 1 ∧ rebound.global 2 = .integer 5 := by decide +kernel
  have hslots : (⟨"f", .global, 0⟩ : Symbol) ∈ recursive.symbols.current.symbols ∧
      (⟨"f", .global, 1⟩ : Symbol) ∈ rebound.symbols.current.symbols := by decide +kernel
  have hclosure : recursive.globals[0]? = some (.closure 1) ∧
      (recursive.store.closures[1]?.any fun c => Constant.function c.fn ∈
        recursive.constants) = true := by
    decide +kernel
  obtain ⟨c, hc, hfn⟩ := (Option.any_eq_true _ _).mp hclosure.2
  have hok : (rebound.compile "f(1)").1.isOk = true := by decide +kernel
  obtain ⟨b, s', hcompile⟩ : ∃ b s', rebound.compile "f(1)" = (.ok b, s') := by
    rcases h : rebound.compile "f(1)" with ⟨r | b, s'⟩
    · rw [h] at hok
      cases hok
    · exact ⟨b, s', rfl⟩
  exact ⟨horderly, hhands _, (hcarries rebound hlater).1, (hcarries rebound hlater).2.1, hvalues.1,
    hvalues.2, hslots.1, hslots.2, b, s', c, hcompile, hc, hclosure.1,
    hfinds rebound "f(1)" b s' hlater hcompile 0 _ rfl 1 c hc (of_decide_eq_true hfn)⟩

end Session

end Marmoset
