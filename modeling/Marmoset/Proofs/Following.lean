import Marmoset.Proofs.Agreement

/-!
# The machine follows the evaluator

`Joint.Follows` says that the machine does what a step of the evaluator does.  If the evaluator
comes to a value, the machine comes to a state of which more is said; if the evaluator returns from
a function, the machine is back in the caller, or is done at the top level; and if the evaluator
stops with a fault, so does the machine.

* **`Joint.Follows.bind`** — one step after the other.
* `Joint.Follows.result`, `Joint.Follows.load` — single instructions that leave a value.
-/

namespace Marmoset

/-- One step of the evaluator after the other. -/
lemma Eval.run_bind {α β : Type} (x : Eval α) (f : α → Eval β) (σ : Store) :
    (x >>= f) σ = match x σ with
    | .ok a σ' => f a σ'
    | .error e σ' => .error e σ' := by
  show EStateM.bind x f σ = _
  rw [EStateM.bind]
  cases x σ with
  | ok a σ' => rfl
  | error e σ' => rfl

/-- What stays the same while the code of one call runs. -/
structure Site where
  /-- The code of the program. -/
  main : Code
  /-- The number of globals. -/
  globals : Nat
  maxFrames : Nat
  /-- The number of calls that may still be nested. -/
  left : Nat
  /-- The environment of the call. -/
  env : Nat
  /-- What the function captures. -/
  free : List Symbol

/-- What a call does in the evaluator. -/
def Site.call (c : Site) : Nat → List Value → Eval Value :=
  Evaluator.callFunction c.maxFrames c.left

namespace Joint

/-- The machine has left a call of the environment `env` with a value. -/
structure Left (env : Nat) (b : Joint) (caller : Frame) (callers : List Frame) (v : Value)
    (b' : Joint) : Prop where
  core : b'.Core
  frame : b'.machine.frame = caller
  callers : b'.machine.callers = callers
  maxFrames : b'.machine.maxFrames = b.machine.maxFrames
  constants : b'.machine.constants = b.machine.constants
  globals : b'.machine.globals = b.machine.globals
  sp : b'.machine.sp = b.machine.frame.base
  value : (b'.machine.stack.getD (b.machine.frame.base - 1) .nil).Like b'.store.functions.size v
  stack : ∀ i < b.machine.frame.base - 1, b'.machine.stack.getD i .nil = b.machine.stack.getD i .nil
  made : b.store.functions.size ≤ b'.store.functions.size
  later : Later env b.world b'.world b.store.environments b'.store.environments

/-- The machine has returned a value: to the caller, or at the top level as the outcome of the
run. -/
def Returns (env : Nat) (b : Joint) (v : Value) (σ : Store) (r : Step) : Prop :=
  match b.machine.callers with
  | [] => ∃ m, r = .done m ∧ m.lastPopped.Like σ.functions.size v ∧ m.store.Like σ
  | caller :: callers => ∃ W m, r = .next m ∧ b.Left env caller callers v ⟨W, m, σ⟩

/-- The machine has stopped with a fault. -/
def Fails (f : Fault) (σ : Store) (r : Step) : Prop :=
  ∃ f' m, r = .fault f' m ∧ Fault.Like σ.functions.size f' f ∧ m.store.Like σ

/-- The run from `start` on, at height `h` of a call, does what the evaluator does from `b` on. -/
def Follows {α : Type} (c : Site) (h : Nat) (b : Joint) (start : Step) (x : Eval α)
    (Q : α → Joint → Prop) : Prop :=
  match x b.store with
  | .ok a σ => start.Leads fun r => ∃ W m, r = .next m ∧ b.Keeps c.env h ⟨W, m, σ⟩ ∧ Q a ⟨W, m, σ⟩
  | .error (.returned v) σ => start.Leads (b.Returns c.env v σ)
  | .error (.fault f) σ => start.Leads (Fails f σ)

variable {c : Site} {env h h' : Nat} {b b' : Joint} {start : Step} {main : Code} {k g : Nat}

/-- What was returned counts for where the run was before. -/
lemma Returns.trans {v : Value} {σ : Store} {r : Step} (hr : b'.Returns env v σ r)
    (hk : b.Keeps env h b') (hh : b.machine.frame.base ≤ h)
    (hg : b.machine.callers ≠ [] → env ≠ 0) : b.Returns env v σ r := by
  rw [Returns] at hr ⊢
  rw [hk.callers] at hr
  cases hc : b.machine.callers with
  | nil =>
      rw [hc] at hr
      exact hr
  | cons caller callers =>
      rw [hc] at hr
      obtain ⟨W, m, rfl, hl⟩ := hr
      have hne := hg (by rw [hc]; exact List.cons_ne_nil _ _)
      refine ⟨W, m, rfl, hl.core, hl.frame, hl.callers, hl.maxFrames.trans hk.maxFrames,
        hl.constants.trans hk.constants, hl.globals.trans (hk.globals hne), ?_, ?_, ?_,
        Nat.le_trans hk.made hl.made, hk.later.trans hl.later⟩
      · rw [hl.sp, hk.frame.base]
      · rw [← hk.frame.base]
        exact hl.value
      · intro i hi
        refine (hl.stack i (by rwa [hk.frame.base])).trans (hk.stack i ?_ (.inl ?_))
        · omega
        · omega

namespace Follows

variable {α β : Type} {x : Eval α} {Q Q' : α → Joint → Prop}

lemma of_ok {a : α} {σ : Store} (hx : x b.store = .ok a σ)
    (hl : start.Leads fun r => ∃ W m, r = .next m ∧ b.Keeps c.env h ⟨W, m, σ⟩ ∧ Q a ⟨W, m, σ⟩) :
    b.Follows c h start x Q := by
  rw [Follows, hx]
  exact hl

lemma of_returned {v : Value} {σ : Store} (hx : x b.store = .error (.returned v) σ)
    (hl : start.Leads (b.Returns c.env v σ)) : b.Follows c h start x Q := by
  rw [Follows, hx]
  exact hl

lemma of_fault {f : Fault} {σ : Store} (hx : x b.store = .error (.fault f) σ)
    (hl : start.Leads (Fails f σ)) :
    b.Follows c h start x Q := by
  rw [Follows, hx]
  exact hl

/-- The machine need not run any further where the evaluator has a value already. -/
lemma pure {a : α} (hq : Q a b) : b.Follows c h (.next b.machine) (Pure.pure a) Q :=
  of_ok rfl (.here ⟨b.world, b.machine, rfl, .refl _ _ _, hq⟩)

/-- A value is made of the value.  What runs at a greater height leaves more alone. -/
lemma map {f : α → β} {Q' : β → Joint → Prop} (hx : b.Follows c h' start x Q) (hle : h ≤ h')
    (hQ : ∀ a b', b.Keeps c.env h' b' → Q a b' → Q' (f a) b') :
    b.Follows c h start (x >>= fun a => Pure.pure (f a)) Q' := by
  rw [Follows] at hx ⊢
  rw [Eval.run_bind]
  cases hr : x b.store with
  | ok a σ =>
      rw [hr] at hx
      refine hx.mono ?_
      rintro r ⟨W, m, rfl, hk, hq⟩
      exact ⟨W, m, rfl, hk.weaken hle, hQ _ _ hk hq⟩
  | error e σ =>
      rw [hr] at hx
      cases e with
      | returned v => exact hx
      | fault f => exact hx

/-- More may be said, and at a lower height less is left alone. -/
lemma keeping (hx : b.Follows c h' start x Q) (hle : h ≤ h')
    (hQ : ∀ a b', b.Keeps c.env h' b' → Q a b' → Q' a b') :
    b.Follows c h start x Q' := by
  have hmap := hx.map (f := id) hle hQ
  simp only [id_eq, bind_pure] at hmap
  exact hmap

lemma mono (hx : b.Follows c h start x Q) (hQ : ∀ a b', Q a b' → Q' a b') :
    b.Follows c h start x Q' :=
  hx.keeping (Nat.le_refl h) fun a b' _ => hQ a b'

/-- The value is the one that the evaluator has. -/
lemma ran (hx : b.Follows c h start x Q) :
    b.Follows c h start x fun a b' => x b.store = .ok a b'.store ∧ Q a b' := by
  rw [Follows] at hx ⊢
  cases hr : x b.store with
  | ok a σ =>
      rw [hr] at hx
      refine hx.mono ?_
      rintro r ⟨W, m, rfl, hk, hq⟩
      exact ⟨W, m, rfl, hk, rfl, hq⟩
  | error e σ =>
      rw [hr] at hx
      cases e with
      | returned v => exact hx
      | fault f => exact hx

/-- **One step after the other.** -/
theorem bind {f : α → Eval β} {Q' : β → Joint → Prop} (hx : b.Follows c h start x Q)
    (hs : start.Safe main k g) (hh : b.machine.frame.base ≤ h)
    (hg : b.machine.callers ≠ [] → c.env ≠ 0)
    (hf : ∀ a b', b.Keeps c.env h b' → b'.machine.Safe main k g → Q a b' →
      b'.Follows c h (.next b'.machine) (f a) Q') :
    b.Follows c h start (x >>= f) Q' := by
  rw [Follows] at hx
  rw [Follows, Eval.run_bind]
  cases hr : x b.store with
  | error e σ =>
      rw [hr] at hx
      cases e with
      | returned v => exact hx
      | fault f => exact hx
  | ok a σ =>
      rw [hr] at hx
      have hnext (r : Step) (hr : (∃ W m, r = .next m ∧ b.Keeps c.env h ⟨W, m, σ⟩ ∧ Q a ⟨W, m, σ⟩) ∧
          r.Safe main k g) : ∃ W m, r = .next m ∧ b.Keeps c.env h ⟨W, m, σ⟩ ∧
            Follows c h ⟨W, m, σ⟩ (.next m) (f a) Q' := by
        obtain ⟨⟨W, m, rfl, hk, hq⟩, hm⟩ := hr
        exact ⟨W, m, rfl, hk, hf a ⟨W, m, σ⟩ hk hm hq⟩
      have hx' := (hx.safe hs).mono hnext
      simp only [Follows] at hx'
      dsimp only
      cases hr' : f a σ with
      | ok c τ =>
          simp only [hr'] at hx'
          refine hx'.bind ?_
          rintro r ⟨W, m, rfl, hk, hl⟩
          refine hl.mono ?_
          rintro r' ⟨W', m', rfl, hk', hq⟩
          exact ⟨W', m', rfl, hk.trans hk', hq⟩
      | error e τ =>
          cases e with
          | returned v =>
              simp only [hr'] at hx'
              refine hx'.bind ?_
              rintro r ⟨W, m, rfl, hk, hl⟩
              exact hl.mono fun _ hret => hret.trans hk hh hg
          | fault f =>
              simp only [hr'] at hx'
              refine hx'.bind ?_
              rintro r ⟨W, m, rfl, hk, hl⟩
              exact hl

/-- The instruction at which the machine stands. -/
lemma instr {i : Instr} (hi : i.Fits) (hc : b.machine.frame.fn.code.Holds b.machine.frame.ip [i])
    (hx : b.Follows c h ((b.machine.jump (b.machine.frame.ip + i.size)).execute i.op i.first
      i.second) x Q) :
    b.Follows c h (.next b.machine) x Q := by
  rw [Follows] at hx ⊢
  cases hr : x b.store with
  | ok a σ =>
      rw [hr] at hx
      exact Machine.leads_of_instr hi hc hx
  | error e σ =>
      rw [hr] at hx
      cases e with
      | returned v => exact Machine.leads_of_instr hi hc hx
      | fault f => exact Machine.leads_of_instr hi hc hx

end Follows

/-- The machine stands somewhere else in its code, with another number of slots in use. -/
def moved (b : Joint) (ip sp : Nat) : Joint :=
  ⟨b.world, { b.machine.jump ip with sp := sp }, b.store⟩

/-- Where the machine stands in its code does not matter for what it leaves alone. -/
lemma Follows.of_moved {α : Type} {x : Eval α} {Q : α → Joint → Prop} (ip sp : Nat)
    (hx : (b.moved ip sp).Follows c h start x Q) : b.Follows c h start x Q := by
  rw [Follows] at hx ⊢
  cases hr : x b.store with
  | ok a σ =>
      rw [show x (b.moved ip sp).store = .ok a σ from hr] at hx
      refine hx.mono ?_
      rintro r ⟨W, m, rfl, hk, hq⟩
      exact ⟨W, m, rfl, ⟨⟨hk.frame.closure, hk.frame.fn, hk.frame.free, hk.frame.base⟩, hk.callers,
        hk.maxFrames, hk.constants, hk.globals, hk.stack, hk.made, hk.later⟩, hq⟩
  | error e σ =>
      rw [show x (b.moved ip sp).store = .error e σ from hr] at hx
      cases e with
      | fault f => exact hx
      | returned v =>
          refine hx.mono fun r hret => ?_
          rw [Returns] at hret ⊢
          change match b.machine.callers with | [] => _ | _ :: _ => _ at hret
          cases hc : b.machine.callers with
          | nil =>
              rw [hc] at hret
              exact hret
          | cons caller callers =>
              rw [hc] at hret
              obtain ⟨W, m, rfl, hl⟩ := hret
              exact ⟨W, m, rfl, hl.core, hl.frame, hl.callers, hl.maxFrames, hl.constants,
                hl.globals, hl.sp, hl.value, hl.stack, hl.made, hl.later⟩

/-! ## Values on the stack -/

/-- The machine stands at `pos`, with values on the stack from slot `h` on that are those of the
evaluator. -/
structure At (pos h : Nat) (vs : List Value) (b : Joint) : Prop where
  ip : b.machine.frame.ip = pos
  sp : b.machine.sp = h + vs.length
  values : ∀ (j : Nat) v, vs[j]? = some v →
    (b.machine.stack.getD (h + j) .nil).Like b.store.functions.size v

namespace At

variable {pos pos' : Nat} {vs ws : List Value} {v : Value}

lemma head (ha : b.At pos h (v :: vs)) :
    (b.machine.stack.getD h .nil).Like b.store.functions.size v :=
  ha.values 0 v rfl

lemma single (hip : b.machine.frame.ip = pos) (hsp : b.machine.sp = h + 1)
    (hv : (b.machine.stack.getD h .nil).Like b.store.functions.size v) : b.At pos h [v] where
  ip := hip
  sp := hsp
  values j w hw := by
    cases j with
    | zero =>
        cases hw
        exact hv
    | succ j => simp at hw

/-- More values on top of those that are there. -/
lemma append (ha : b.At pos h vs) (hk : b.Keeps env (h + vs.length) b') (hh : b.machine.ground ≤ h)
    (ha' : b'.At pos' (h + vs.length) ws) : b'.At pos' h (vs ++ ws) where
  ip := ha'.ip
  sp := by
    rw [ha'.sp, List.length_append, Nat.add_assoc]
  values j v hv := by
    by_cases hj : j < vs.length
    · rw [List.getElem?_append_left hj] at hv
      rw [hk.stack (h + j) (by omega) (.inr (by omega))]
      exact (ha.values j v hv).mono hk.made
    · rw [List.getElem?_append_right (Nat.le_of_not_lt hj)] at hv
      have hlike := ha'.values (j - vs.length) v hv
      rwa [show h + vs.length + (j - vs.length) = h + j by omega] at hlike

/-- The top values, the lowest first. -/
lemma top (vs : List Value) (ha : b.At pos h (vs ++ ws))
    (hroom : b.machine.sp ≤ b.machine.stack.size) :
    List.Forall₂ (Value.Like b.store.functions.size) (b.machine.top ws.length).toList ws := by
  have hsp := ha.sp
  rw [List.length_append] at hsp
  rw [List.forall₂_iff_get]
  have hlen : (b.machine.top ws.length).toList.length = ws.length := by
    simp only [Machine.top, Array.length_toList, Array.size_extract]
    omega
  refine ⟨hlen, fun i hi hi' => ?_⟩
  have hv := ha.values (vs.length + i) (ws.get ⟨i, hi'⟩) (by
    rw [List.getElem?_append_right (Nat.le_add_right _ _), Nat.add_sub_cancel_left]
    exact List.getElem?_eq_getElem hi')
  have hslot : (b.machine.top ws.length).toList.get ⟨i, hi⟩ =
      b.machine.stack.getD (h + (vs.length + i)) .nil := by
    have hlt : h + (vs.length + i) < b.machine.stack.size := by omega
    simp only [List.get_eq_getElem, Array.getElem_toList, Machine.top, Array.getElem_extract,
      Array.getD_eq_getD_getElem?, Array.getElem?_eq_getElem hlt, Option.getD_some]
    congr 1
    omega
  rw [hslot]
  exact hv

end At

/-! ## Single instructions -/

end Joint

/-- The machine behind an instruction that left a value in slot `h`. -/
def Machine.put (m : Machine) (ip h : Nat) (s : Store) (v : Value) : Machine :=
  { m with
    frame := { m.frame with ip := ip }, stack := m.stack.setIfInBounds h v, sp := h + 1,
    store := s }

namespace Joint

variable {c : Site} {h : Nat} {b : Joint} {main : Code} {k g : Nat} {A : Joint → Prop}

/-- A machine that differs in what lies from slot `h` on, and stores that differ in arrays and
hashes. -/
lemma undisturbed_of {m : Machine} {σ : Store} (hf : b.machine.frame.Same m.frame)
    (hc : m.callers = b.machine.callers) (hmax : m.maxFrames = b.machine.maxFrames)
    (hpool : m.constants = b.machine.constants) (hg : m.globals = b.machine.globals)
    (hstack : ∀ i < h, m.stack.getD i .nil = b.machine.stack.getD i .nil) (hσ : b.store.Beside σ) :
    b.Undisturbed h ⟨b.world, m, σ⟩ where
  frame := hf
  callers := hc
  maxFrames := hmax
  constants := hpool
  globals := hg
  stack := hstack
  made := by
    show b.store.functions.size ≤ σ.functions.size
    exact Nat.le_of_eq (by rw [hσ.functions])
  later env := by
    show Later env b.world b.world b.store.environments σ.environments
    rw [hσ.environments]
    exact .refl _ _ _

lemma undisturbed_put (b : Joint) (ip h : Nat) {s σ : Store} (v : Value) (hσ : b.store.Beside σ) :
    b.Undisturbed h ⟨b.world, b.machine.put ip h s v, σ⟩ :=
  undisturbed_of ⟨rfl, rfl, rfl, rfl⟩ rfl rfl rfl rfl
    (fun _ hi => getD_setIfInBounds_of_ne (Nat.ne_of_gt hi) v) hσ

/-- A statement about the engines, with the core of their agreement, that what leaves the names of
the innermost scope alone leaves alone too. -/
structure Stable (A : Joint → Prop) : Prop where
  core : ∀ {b}, A b → b.Core
  undisturbed : ∀ {b b' h}, A b → b.Undisturbed h b' → b.machine.ground ≤ h → b'.Core → A b'

namespace Stable

/-- A value that is left on the stack, with stores that differ in arrays and hashes. -/
lemma put (hA : Stable A) (ha : A b) (hh : b.machine.ground ≤ h) (ip : Nat) {s σ : Store}
    (v : Value) (hlike : s.Like σ) (hm : b.machine.store.Beside s) (hσ : b.store.Beside σ) :
    A ⟨b.world, b.machine.put ip h s v, σ⟩ :=
  hA.undisturbed ha (b.undisturbed_put ip h v hσ) hh ((hA.core ha).beside hlike hm hσ rfl rfl rfl)

/-- It does not matter where the machine stands. -/
lemma moved (hA : Stable A) (ha : A b) (ip sp : Nat) : A (b.moved ip sp) :=
  hA.undisturbed ha (undisturbed_of ⟨rfl, rfl, rfl, rfl⟩ rfl rfl rfl rfl (fun _ _ => rfl) (.refl _))
    (Nat.le_refl b.machine.ground)
      ((hA.core ha).beside (hA.core ha).like (.refl _) (.refl _) rfl rfl rfl)

end Stable

/-- The machine has come to `pos` with values on the stack, and the engines agree as `A` says. -/
abbrev Arrived (A : Joint → Prop) (pos h : Nat) (vs : List Value) (b : Joint) : Prop :=
  A b ∧ b.At pos h vs

namespace Follows

variable {x : Eval Value} {v v' : Value} {s σ : Store}

/-- An instruction that leaves a value. -/
lemma push (ip : Nat) (hA : Stable A) (ha : A b) (hh : b.machine.ground ≤ h)
    (hx : x b.store = .ok v σ) (hv : v'.Like σ.functions.size v) (hlike : s.Like σ)
    (hm : b.machine.store.Beside s) (hσ : b.store.Beside σ) :
    b.Follows c h (Machine.push { b.machine.jump ip with sp := h, store := s } v') x fun v =>
      Arrived A ip h [v] := by
  refine of_ok hx (Machine.leads_push fun hroom => .here ?_)
  refine ⟨b.world, b.machine.put ip h s v', rfl, (b.undisturbed_put ip h v' hσ).keeps c.env,
    hA.put ha hh ip v' hlike hm hσ, .single rfl rfl ?_⟩
  have hlt : h < b.machine.stack.size := hroom
  show ((b.machine.stack.setIfInBounds h v').getD h .nil).Like σ.functions.size v
  rw [getD_setIfInBounds_self hlt]
  exact hv

/-- An instruction that leaves what an operation gives, or stops with its fault. -/
lemma result {r r' : Except Fault Value} (ip : Nat) (hA : Stable A) (ha : A b)
    (hh : b.machine.ground ≤ h)
    (hr : Alike b.store.functions.size (Value.Like b.store.functions.size) r r')
    (hok : ∀ v, r' = .ok v → x b.store = .ok v b.store)
    (herror : ∀ f, r' = .error f → x b.store = .error (.fault f) b.store) :
    b.Follows c h (Machine.pushResult { b.machine.jump ip with sp := h } r) x fun v =>
      Arrived A ip h [v] := by
  rcases hr.cases with ⟨v', v, rfl, rfl, hv⟩ | ⟨f', f, rfl, rfl, hf⟩
  · exact push ip hA ha hh (hok v rfl) hv (hA.core ha).like (.refl _) (.refl _)
  · exact of_fault (herror f rfl) (.here ⟨f', _, rfl, hf, (hA.core ha).like⟩)

lemma ofExcept {r r' : Except Fault Value} (ip : Nat) (hA : Stable A) (ha : A b)
    (hh : b.machine.ground ≤ h)
    (hr : Alike b.store.functions.size (Value.Like b.store.functions.size) r r') :
    b.Follows c h (Machine.pushResult { b.machine.jump ip with sp := h } r)
      (Eval.ofExcept r') fun v =>
      Arrived A ip h [v] := by
  refine result ip hA ha hh hr ?_ ?_
  · intro v hv
    rw [hv]
    rfl
  · intro f hf
    rw [hf]
    rfl

/-- A symbol is loaded. -/
lemma load {y : Symbol} (hA : Stable A) (ha : A b) (hs : b.machine.Safe main k g)
    (hi : y.loadInstr.Fits) (hc : b.machine.frame.fn.code.Holds b.machine.frame.ip [y.loadInstr])
    (hx : x b.store = .ok v b.store) (hv : (b.machine.denotes y).Like b.store.functions.size v) :
    b.Follows c b.machine.sp (.next b.machine) x fun v =>
      Arrived A (b.machine.frame.ip + y.loadInstr.size) b.machine.sp [v] := by
  refine instr hi hc ?_
  rw [hs.execute_load hi hc]
  exact push (b.machine.frame.ip + y.loadInstr.size) hA ha hs.floor_le hx hv (hA.core ha).like
    (.refl _) (.refl _)

end Follows

/-- A return goes to the caller, which finds the value in the place of what it called; at the top
level the run is done. -/
lemma leads_leave {env : Nat} {v v' : Value} (ip sp : Nat) (hcore : b.Core)
    (hs : b.machine.Safe main k g) (hv : v'.Like b.store.functions.size v)
    (hlast : b.machine.callers = [] → b.machine.stack.getD sp .nil = v') :
    (Machine.leave { b.machine.jump ip with sp := sp } v').Leads (b.Returns env v b.store) := by
  cases hc : b.machine.callers with
  | nil =>
      have hstep : Machine.leave { b.machine.jump ip with sp := sp } v' =
          .done { b.machine.jump ip with sp := sp } := by
        simp only [Machine.leave, Machine.jump, hc]
      rw [hstep]
      refine .here ?_
      rw [Returns, hc]
      refine ⟨_, rfl, ?_, hcore.like⟩
      show (b.machine.stack.getD sp .nil).Like _ v
      rw [hlast hc]
      exact hv
  | cons caller callers =>
      have hstep : Machine.leave { b.machine.jump ip with sp := sp } v' =
        Machine.push { b.machine with
          frame := caller, callers := callers, sp := b.machine.frame.base - 1 } v' := by
        simp only [Machine.leave, Machine.jump, hc]
        rfl
      have hbase := hs.base_pos (by rw [hc]; exact List.cons_ne_nil _ _)
      have hroom := Nat.le_trans hs.floor_le hs.room
      rw [hstep]
      refine Machine.leads_push fun _ => .here ?_
      rw [Returns, hc]
      refine ⟨b.world, _, rfl, hcore.beside hcore.like (.refl _) (.refl _) rfl rfl rfl, rfl, rfl,
        rfl, rfl, rfl, ?_, ?_, ?_, Nat.le_refl _, .refl _ _ _⟩
      · show b.machine.frame.base - 1 + 1 = b.machine.frame.base
        omega
      · show ((b.machine.stack.setIfInBounds (b.machine.frame.base - 1) v').getD _ .nil).Like _ v
        rw [getD_setIfInBounds_self (by omega)]
        exact hv
      · intro i hi
        exact getD_setIfInBounds_of_ne (Nat.ne_of_gt hi) v'

end Joint

end Marmoset
