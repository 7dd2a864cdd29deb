import Marmoset.Proofs.Halting
import Marmoset.Proofs.OtherStacks
import Marmoset.Proofs.SlotNames

/-!
# What a call leaves to its caller

Between a call and its return any number of other calls may come and go on the same stack.  All of
them have their slots above what was called, and their code stores to no global; so the caller finds
what it left.

* `Machine.Spares` — what lies below a slot is as it was, and so are the globals and everything
  around the calls.
* **`Machine.Safe.spares_step`** — a step in a function spares what lies below the function.
* `Machine.Within` — a call is going on: the calls above the caller all have their slots above what
  was called.
* **`Machine.Safe.within_step`** — a step inside a call stays in it, or returns from it.
* **`Session.Reached.call_leaves_caller_intact`** — where a call returns, the caller finds the value
  in the place of what it called, and otherwise what it left.
-/

namespace Marmoset

namespace Machine

variable {m m₁ m' : Machine} {low : Nat}

/-! ## What instructions spare -/

/-- What is around the calls: constants, builtins, limits and globals. -/
def surroundings (m : Machine) : Array Constant × Nat × List Builtin × Nat × Array Value × Nat :=
  (m.constants, m.firstIdentity, m.builtins, m.maxFrames, m.globals, m.globalCount)

/-- Everything around the calls is as it was, and so are the slots below `low` and the closures that
there were. -/
structure Spares (low : Nat) (m m' : Machine) : Prop where
  around : m'.surroundings = m.surroundings
  stack : SameSlots (· < low) m.stack m'.stack
  closures : m.store.closures.toList <+: m'.store.closures.toList

namespace Spares

/-- A machine is spared where its surroundings, its stack and its closures are the same. -/
lemma of_eq (around : m'.surroundings = m.surroundings) (stack : m'.stack = m.stack)
    (closures : m'.store.closures = m.store.closures) : m.Spares low m' :=
  ⟨around, by rw [stack]; exact ⟨rfl, fun _ _ => rfl⟩, closures ▸ List.prefix_rfl⟩

protected lemma rfl : m.Spares low m :=
  .of_eq rfl rfl rfl

/-- What is spared twice is spared. -/
lemma trans (h : m.Spares low m₁) (h' : m₁.Spares low m') : m.Spares low m' :=
  ⟨h'.around.trans h.around, ⟨h'.stack.size.trans h.stack.size,
    fun i hi => (h'.stack.slots i hi).trans (h.stack.slots i hi)⟩, h.closures.trans h'.closures⟩

lemma pop (h : m.Spares low m₁) : m.Spares low m₁.pop.2 :=
  ⟨h.around, h.stack, h.closures⟩

/-- Writing to a slot further up. -/
lemma write (h : m.Spares low m₁) {slot sp : Nat} (hs : low ≤ slot) (v : Value) :
    m.Spares low { m₁ with stack := m₁.stack.setIfInBounds slot v, sp := sp } := by
  refine ⟨h.around, ⟨?_, fun i hi => ?_⟩, h.closures⟩
  · rw [Array.size_setIfInBounds]
    exact h.stack.size
  · rw [getD_setIfInBounds_of_ne (by omega)]
    exact h.stack.slots i hi

/-- A push writes further up. -/
lemma push (h : m.Spares low m₁) (hs : low ≤ m₁.sp) (v : Value) :
    m.Spares low (m₁.push v).machine := by
  unfold Machine.push
  split
  · exact h.write hs v
  · exact h

lemma pushResult (h : m.Spares low m₁) (hs : low ≤ m₁.sp) (r : Except Fault Value) :
    m.Spares low (m₁.pushResult r).machine := by
  cases r with
  | ok v => exact h.push hs v
  | error f => exact h

/-- A hash is made of slots further up. -/
lemma makeHash {n : Nat} (hs : low + n ≤ m.sp) : m.Spares low (m.makeHash n).machine := by
  have hall : m.store.All fun _ => True := ⟨by simp, by simp, by simp⟩
  have hhash := hall.gives_buildHash (by simp) (show ∀ v ∈ (m.top n).toList, True by simp)
  unfold Machine.makeHash
  split
  · exact .rfl
  · cases hb : m.store.buildHash (m.top n).toList with
    | error f => exact .rfl
    | ok r =>
        rw [hb] at hhash
        have hstore : m.Spares low { m with sp := m.sp - n, store := r.2 } :=
          .of_eq rfl rfl hhash.2.2
        exact hstore.push (show low ≤ m.sp - n by omega) _

/-- So is a closure; it comes behind those that there were. -/
lemma makeClosure {index n : Nat} (hs : low + n ≤ m.sp) :
    m.Spares low (m.makeClosure index n).machine := by
  unfold Machine.makeClosure
  split
  · exact .rfl
  · rename_i fn hfn
    split
    · exact .rfl
    · have hstore : m.Spares low
          { m with sp := m.sp - n, store := (m.store.newClosure ⟨fn, m.top n⟩).2 } := by
        refine ⟨rfl, ⟨rfl, fun _ _ => rfl⟩, ?_⟩
        simp [Store.newClosure]
      exact hstore.push (show low ≤ m.sp - n by omega) _
  · exact .rfl

/-- Writing to an index changes no slot. -/
lemma setIndex : m.Spares low m.setIndex.machine := by
  have hall : m.store.All fun _ => True := ⟨by simp, by simp, by simp⟩
  have hset := hall.gives_setIndex m.pop.2.pop.2.pop.1 m.pop.2.pop.1 (v := m.pop.1) trivial
  have hpop : m.Spares low m.pop.2.pop.2.pop.2 := Spares.rfl.pop.pop.pop
  unfold Machine.setIndex
  dsimp only
  split
  · rename_i store hs
    rw [show m.pop.2.pop.2.pop.2.store = m.store from rfl] at hs
    rw [hs] at hset
    refine ⟨hpop.around, hpop.stack, ?_⟩
    exact hset.2 ▸ List.prefix_rfl
  · exact hpop

/-- A builtin answers in the slot of the callee, and a closure writes nothing yet. -/
lemma call {args : Nat} (hs : low + (args + 1) ≤ m.sp) : m.Spares low (m.call args).machine := by
  unfold Machine.call
  split
  · exact .rfl
  · split
    · split
      · unfold Machine.callClosure
        dsimp only
        repeat' split
        all_goals exact .of_eq rfl rfl rfl
      · exact .rfl
    · rename_i b _
      have hstore : m.Spares low
          { m with sp := m.sp - (args + 1), store := (b.call m.store (m.top args).toList).2 } :=
        .of_eq rfl rfl (closures_builtin _ _ _)
      exact hstore.push (show low ≤ m.sp - (args + 1) by omega) _
    · exact .rfl

/-- The value goes to the slot below the call, or the run ends. -/
lemma leave (h : m.Spares low m₁) (hb : low < m₁.frame.base ∨ m₁.callers = []) (v : Value) :
    m.Spares low (m₁.leave v).machine := by
  unfold Machine.leave
  split
  · exact h
  · rename_i caller callers hc
    have hlow : low < m₁.frame.base := hb.resolve_right (by simp [hc])
    have hback : m₁.Spares low
        { m₁ with frame := caller, callers := callers, sp := m₁.frame.base - 1 } :=
      .of_eq rfl rfl rfl
    exact (h.trans hback).push (show low ≤ m₁.frame.base - 1 by omega) v

end Spares

/-- Instructions that store to no global spare what lies below their operands and below the call. -/
lemma spares_execute {i : Instr} (ht : low + i.takes ≤ m.sp) (hbase : low ≤ m.frame.base)
    (hr : i.returns = true → low < m.frame.base ∨ m.callers = []) (hg : i.op ≠ .setGlobal) :
    m.Spares low (m.execute i.op i.first i.second).machine := by
  have hpop : m.Spares low m.pop.2 := Spares.rfl.pop
  have hpop₂ : m.Spares low m.pop.2.pop.2 := hpop.pop
  obtain ⟨op, operands⟩ := i
  unfold Instr.takes at ht
  cases op with
  | setGlobal => exact absurd rfl hg
  | add | sub | mul | div | equal | notEqual | greater | greaterEqual | and | or =>
      simp only [execute, binary]
      exact hpop₂.pushResult (Nat.le_sub_of_add_le (Nat.le_sub_of_add_le ht)) _
  | getIndex => exact hpop₂.pushResult (Nat.le_sub_of_add_le (Nat.le_sub_of_add_le ht)) _
  | minus | bang =>
      simp only [execute, unary]
      exact hpop.pushResult (Nat.le_sub_of_add_le ht) _
  | pushTrue | pushFalse | pushNil | getGlobal | currentClosure => exact Spares.rfl.push ht _
  | pop => exact hpop
  | jump => exact .of_eq rfl rfl rfl
  | jumpNotTruthy =>
      simp only [execute]
      split <;> exact .of_eq rfl rfl rfl
  | constant | getLocal | getBuiltin | getFree =>
      simp only [execute, loadConstant, getLocal]
      split
      · exact Spares.rfl.push ht _
      · exact .rfl
  | array =>
      simp only [execute, makeArray]
      split
      · exact .rfl
      · have hstore : m.Spares low { m with
            sp := m.sp - Instr.first ⟨.array, operands⟩
            store := (m.store.newArray (m.top (Instr.first ⟨.array, operands⟩))).2 } :=
              .of_eq rfl rfl rfl
        exact hstore.push (Nat.le_sub_of_add_le ht) _
  | hash => exact .makeHash ht
  | closure => exact .makeClosure ht
  | setIndex => exact .setIndex
  | call => exact .call ht
  | setLocal =>
      simp only [execute, setLocal]
      split
      · exact hpop.write (show low ≤ m.frame.base + Instr.first ⟨.setLocal, operands⟩ by omega) _
      · exact hpop
  | returnValue => exact hpop.leave (hr rfl) _
  | returnNil => exact Spares.rfl.leave (hr rfl) _

/-- A machine in order, with functions that store to no global. -/
structure Sparing (main : Code) (k g : Nat) (m : Machine) : Prop where
  safe : m.Safe main k g
  functions : ∀ fn, Constant.function fn ∈ m.constants → fn.SparesGlobals

variable {main : Code} {k g : Nat}

/-- A step keeps the constants, so the functions go on to spare the globals. -/
lemma Sparing.next (h : m.Sparing main k g) (hm : m.step = .next m') : m'.Sparing main k g := by
  have hstep := h.safe.step
  have hconst := m.constants_step
  rw [hm] at hstep hconst
  exact ⟨hstep, fun fn hfn =>
    h.functions fn (by rwa [show m'.constants = m.constants from hconst] at hfn)⟩

/-- A run keeps the constants as well, so its functions spare the globals to the end. -/
lemma Sparing.run (h : m.Sparing main k g) {n : Nat} (hm : m.run n = .next m') :
    m'.Sparing main k g := by
  have hsafe := h.safe.run n
  have hconst := m.constants_run n
  rw [hm] at hsafe hconst
  exact ⟨hsafe, fun fn hfn =>
    h.functions fn (by rwa [show m'.constants = m.constants from hconst] at hfn)⟩

/-- Where a machine in order stands in a function. -/
lemma Safe.stands_inside (h : m.Safe main k g) (hc : m.callers ≠ []) :
    Constant.function m.frame.fn ∈ m.constants ∧
      ∃ before i rest, m.frame.Stands m.constants k g true m.sp before (i :: rest) := by
  have hframes := h.frames
  cases hcallers : m.callers with
  | nil => exact absurd hcallers hc
  | cons caller callers =>
      rw [hcallers] at hframes
      obtain ⟨-, hfn, -, -, ⟨before, after, hs⟩, -⟩ := hframes
      obtain ⟨i, rest, rfl⟩ := List.exists_cons_of_ne_nil (hs.inCode rfl)
      exact ⟨hfn, before, i, rest, hs⟩

/-- **A step in a function spares what lies below it.** -/
theorem Sparing.spares_step (h : m.Sparing main k g) (hc : m.callers ≠ [])
    (hlow : low < m.frame.base) :
    m.Spares low m.step.machine := by
  obtain ⟨hfn, before, i, rest, hs⟩ := h.safe.stands_inside hc
  have hglobal : i.op ≠ .setGlobal := h.functions _ hfn _ hs.reads i (by simp)
  have htakes := hs.takes_le
  have hjump : m.Spares low (m.jump (m.frame.ip + i.size)) := .of_eq rfl rfl rfl
  rw [step_of_instr hs.fits hs.holds]
  refine hjump.trans (spares_execute ?_ ?_ (fun _ => .inl hlow) hglobal)
  · show low + i.takes ≤ m.sp
    omega
  · show low ≤ m.frame.base
    omega

/-! ## Inside a call -/

/-- The machine stands at this instruction. -/
def StandsAt (m : Machine) (i : Instr) : Prop :=
  i.Fits ∧ m.frame.fn.code.Holds m.frame.ip [i]

/-- The innermost call returns this value next. -/
inductive Yields (m : Machine) : Value → Prop where
  | value (stands : m.StandsAt (.plain .returnValue)) : Yields m (m.stack.getD (m.sp - 1) .nil)
  | nil (stands : m.StandsAt (.plain .returnNil)) : Yields m .nil

/-- The call that `m` makes of what lies in `slot` is going on in `x`: it and the calls inside it
have their slots above, and the caller goes on behind the call. -/
structure Within (m : Machine) (slot : Nat) (x : Machine) (inner : List Frame) : Prop where
  spares : m.Spares slot x
  calls : x.frame :: x.callers = inner ++ { m.frame with ip := m.frame.ip + 2 } :: m.callers
  above : ∀ f ∈ inner, slot < f.base
  first : ∃ f, inner.getLast? = some f ∧ f.base = slot + 1

/-- The call that `m` made of what lies in `slot` came to an end with a value. -/
structure Back (m : Machine) (slot : Nat) (v : Value) (m' : Machine) : Prop where
  spares : m.Spares slot m'
  frame : m'.frame = { m.frame with ip := m.frame.ip + 2 }
  callers : m'.callers = m.callers
  sp : m'.sp = slot + 1
  value : m'.stack.getD slot .nil = v

/-- The caller finds the value in the place of what it called. -/
lemma getD_leave {v : Value} (h : m.leave v = .next m') :
    m'.stack.getD (m.frame.base - 1) .nil = v := by
  unfold leave returnTo push at h
  split at h
  · cases h
  · dsimp only at h
    split at h
    · rename_i hroom
      cases h
      exact getD_setIfInBounds_self hroom v
    · cases h

namespace Within

variable {slot : Nat} {x y : Machine} {inner : List Frame}

/-- The calls are those inside, the innermost first, and then those of `m`. -/
lemma exists_cons (h : m.Within slot x inner) : ∃ rest, inner = x.frame :: rest ∧
    x.callers = rest ++ { m.frame with ip := m.frame.ip + 2 } :: m.callers := by
  obtain ⟨f, hf, -⟩ := h.first
  cases inner with
  | nil => cases hf
  | cons f rest =>
      obtain ⟨hframe, hcallers⟩ := List.cons.inj h.calls
      exact ⟨rest, by rw [hframe], hcallers⟩

/-- So it is not the end of the run. -/
lemma callers_ne_nil (h : m.Within slot x inner) : x.callers ≠ [] := by
  obtain ⟨rest, -, hcallers⟩ := h.exists_cons
  rw [hcallers]
  simp

/-- The innermost call has its locals above the slot. -/
lemma lt_base (h : m.Within slot x inner) : slot < x.frame.base := by
  obtain ⟨rest, hinner, -⟩ := h.exists_cons
  exact h.above _ (by rw [hinner]; exact List.mem_cons_self)

/-- The innermost call goes on. -/
lemma stays (h : m.Within slot x inner) (hs : m.Spares slot y) (hbase : y.frame.base = x.frame.base)
    (hcallers : y.callers = x.callers) : ∃ inner', m.Within slot y inner' := by
  obtain ⟨rest, rfl, hrest⟩ := h.exists_cons
  refine ⟨y.frame :: rest, hs, by rw [hcallers, hrest]; rfl, fun f hf => ?_, ?_⟩
  · rcases List.mem_cons.mp hf with rfl | hf
    · rw [hbase]
      exact h.above _ List.mem_cons_self
    · exact h.above f (List.mem_cons_of_mem _ hf)
  · obtain ⟨f, hf, hfirst⟩ := h.first
    cases rest with
    | nil =>
        cases hf
        exact ⟨y.frame, rfl, hbase.trans hfirst⟩
    | cons g rest => exact ⟨f, hf, hfirst⟩

/-- Another call is made inside. -/
lemma enters (h : m.Within slot x inner) (hs : m.Spares slot y) (hbase : slot < y.frame.base)
    {caller : Frame} (hcaller : caller.base = x.frame.base)
    (hcallers : y.callers = caller :: x.callers) :
    ∃ inner', m.Within slot y inner' := by
  have hstays : ∃ inner', m.Within slot { y with frame := caller, callers := x.callers } inner' :=
    h.stays ⟨hs.around, hs.stack, hs.closures⟩ hcaller rfl
  obtain ⟨inner', h'⟩ := hstays
  refine ⟨y.frame :: inner', hs, by rw [hcallers, List.cons_append, ← h'.calls], fun f hf => ?_, ?_⟩
  · rcases List.mem_cons.mp hf with rfl | hf
    · exact hbase
    · exact h'.above f hf
  · obtain ⟨f, hf, hfirst⟩ := h'.first
    cases inner' with
    | nil => cases hf
    | cons g rest => exact ⟨f, hf, hfirst⟩

/-- The innermost call comes to an end, and it may be the one that `m` made. -/
lemma leaves (h : m.Within slot x inner) (hs : m.Spares slot y)
    (hcallers : x.callers = y.frame :: y.callers) (hsp : y.sp = x.frame.base - 1 + 1) {v : Value}
    (hv : y.stack.getD (x.frame.base - 1) .nil = v) :
    (∃ inner', m.Within slot y inner') ∨ m.Back slot v y := by
  obtain ⟨rest, rfl, hrest⟩ := h.exists_cons
  obtain ⟨f, hf, hfirst⟩ := h.first
  rw [hcallers] at hrest
  cases rest with
  | nil =>
      cases hf
      obtain ⟨hframe, hcs⟩ := List.cons.inj hrest
      have hbase : x.frame.base = slot + 1 := hfirst
      rw [hbase, Nat.add_sub_cancel] at hsp hv
      exact .inr ⟨hs, hframe, hcs, hsp, hv⟩
  | cons g rest =>
      exact .inl ⟨g :: rest, hs, hrest, fun f hf => h.above f (List.mem_cons_of_mem _ hf),
        f, hf, hfirst⟩

/-- **A step inside a call** stays in it, or comes back from it with the value that it yields. -/
theorem step (h : m.Within slot x inner) (hx : x.Sparing main k g) (hy : x.step = .next y) :
    (∃ inner', m.Within slot y inner') ∨ ∃ v, x.Yields v ∧ m.Back slot v y := by
  have hs : m.Spares slot y := by
    have hstep := hx.spares_step h.callers_ne_nil h.lt_base
    rw [hy] at hstep
    exact h.spares.trans hstep
  obtain ⟨-, before, i, rest, hi⟩ := hx.safe.stands_inside h.callers_ne_nil
  have hat : x.StandsAt i := ⟨hi.fits, hi.holds⟩
  have htakes := hi.takes_le
  have hlow := h.lt_base
  have hexec := step_of_instr hi.fits hi.holds
  rw [hy] at hexec
  obtain ⟨op, operands⟩ := i
  cases op with
  | jump =>
      cases hexec
      exact .inl (h.stays hs rfl rfl)
  | jumpNotTruthy =>
      simp only [execute] at hexec
      split at hexec <;> cases hexec <;> exact .inl (h.stays hs rfl rfl)
  | call =>
      rcases next_call hexec.symm with ⟨hframe, hcallers⟩ | ⟨ref, c, -, hcall⟩
      · exact .inl (h.stays hs (by rw [hframe]; rfl) hcallers)
      · obtain ⟨-, -, hframe, hcallers⟩ := next_callClosure hcall
        refine .inl (h.enters hs ?_ ?_ hcallers)
        swap
        · rfl
        rw [hframe]
        have hargs : x.frame.base + x.frame.fn.locals.toNat + (Instr.first ⟨.call, operands⟩ + 1) ≤
            x.sp := htakes
        show slot < x.sp - Instr.first ⟨.call, operands⟩
        omega
  | returnValue =>
      obtain ⟨hcallers, hsp⟩ := next_leave (m := (x.jump _).pop.2) hexec.symm
      have hv := getD_leave (m := (x.jump _).pop.2) hexec.symm
      have hnil : operands = [] := List.length_eq_zero_iff.mp hi.fits.length_eq.symm
      subst hnil
      exact (h.leaves hs hcallers hsp hv).imp_right fun hback => ⟨_, .value hat, hback⟩
  | returnNil =>
      obtain ⟨hcallers, hsp⟩ := next_leave hexec.symm
      have hv := getD_leave hexec.symm
      have hnil : operands = [] := List.length_eq_zero_iff.mp hi.fits.length_eq.symm
      subst hnil
      exact (h.leaves hs hcallers hsp hv).imp_right fun hback => ⟨_, .nil hat, hback⟩
  | _ =>
      obtain ⟨hframe, hcallers⟩ := next_execute (by simp) hexec.symm
      exact .inl (h.stays hs (by rw [hframe]; rfl) hcallers)

end Within

/-! ## The whole call -/

/-- `m` makes a call that goes on up to `r`, from where it returns to `m'`: up to `r` there are more
calls than in `m`, and in `m'` there are as many again. -/
def ReturnsBy (m r m' : Machine) : Prop :=
  r.step = .next m' ∧ m'.frameCount = m.frameCount ∧
  ∃ n, m.run (n + 1) = .next r ∧ ∀ j ≤ n, ∃ x, m.run (j + 1) = .next x ∧ m.frameCount < x.frameCount

/-- A call of a closure that goes on. -/
lemma next_call_closure {args ref : Nat}
    (hclosure : m.stack.getD (m.sp - (args + 1)) .nil = .closure ref) (h : m.call args = .next m') :
    ∃ c, m.store.closures[ref]? = some c ∧ m.callClosure ref c args = .next m' := by
  unfold call at h
  rw [hclosure] at h
  split at h
  · cases h
  · dsimp only at h
    split at h
    · rename_i c hc
      exact ⟨c, hc, h⟩
    · cases h

/-- A call of a closure that goes on is one call more, with its slots above the closure. -/
lemma Sparing.within_call {args ref : Nat} (h : m.Sparing main k g)
    (hat : m.StandsAt ⟨.call, [args]⟩)
    (hclosure : m.stack.getD (m.sp - (args + 1)) .nil = .closure ref) (hm : m.step = .next m') :
    ∃ inner, m.Within (m.sp - (args + 1)) m' inner := by
  obtain ⟨before, rest, hs⟩ := h.safe.stands hat.1 hat.2
  have hsp : args + 1 ≤ m.sp := by
    have htakes : m.frame.base + m.frame.fn.locals.toNat + (args + 1) ≤ m.sp := hs.takes_le
    omega
  have hspares : m.Spares (m.sp - (args + 1)) m' := by
    have hjump : m.Spares (m.sp - (args + 1)) (m.jump (m.frame.ip + 2)) := .of_eq rfl rfl rfl
    have hcall : (m.jump (m.frame.ip + 2)).Spares (m.sp - (args + 1))
        ((m.jump (m.frame.ip + 2)).call args).machine :=
      .call (Nat.le_of_eq (Nat.sub_add_cancel hsp))
    have hstep : m.step = (m.jump (m.frame.ip + 2)).call args := step_of_instr hat.1 hat.2
    rw [← hstep, hm] at hcall
    exact hjump.trans hcall
  have hexec : (m.jump (m.frame.ip + 2)).call args = .next m' :=
    (step_of_instr hat.1 hat.2).symm.trans hm
  obtain ⟨c, -, hcall⟩ := next_call_closure (m := m.jump (m.frame.ip + 2)) hclosure hexec
  obtain ⟨-, -, hframe, hcallers⟩ := next_callClosure hcall
  have hbase : m'.frame.base = m.sp - (args + 1) + 1 := by
    rw [hframe]
    show m.sp - args = _
    omega
  refine ⟨[m'.frame], hspares, by rw [hcallers]; rfl, fun f hf => ?_, m'.frame, rfl, hbase⟩
  rw [List.mem_singleton.mp hf, hbase]
  exact Nat.lt_succ_self _

/-- As long as there are more calls than in the beginning, the call goes on. -/
lemma Within.run {slot n : Nat} {x r : Machine} {inner : List Frame} (h : m.Within slot x inner)
    (hx : x.Sparing main k g) (hrun : x.run n = .next r)
    (hdepth : ∀ j ≤ n, ∃ y, x.run j = .next y ∧ m.frameCount < y.frameCount) :
    r.Sparing main k g ∧ ∃ inner', m.Within slot r inner' := by
  induction n generalizing x inner with
  | zero =>
      cases hrun
      exact ⟨hx, inner, h⟩
  | succ n ih =>
      obtain ⟨y, hy, hlt⟩ := hdepth 1 (by omega)
      have hstep : x.step = .next y := by
        rw [Machine.run] at hy
        cases hs : x.step with
        | next z =>
            rw [hs] at hy
            exact hy
        | done z | fault f z | crash z =>
            rw [hs] at hy
            cases hy
      have hshift (j : Nat) : x.run (j + 1) = y.run j := by
        rw [Machine.run, hstep]
      rcases h.step hx hstep with ⟨inner', h'⟩ | ⟨v, -, hback⟩
      · refine ih h' (hx.next hstep) (by rw [← hshift, hrun]) fun j hj => ?_
        rw [← hshift]
        exact hdepth (j + 1) (by omega)
      · -- one call less than there are
        rw [frameCount, frameCount, hback.callers] at hlt
        exact absurd hlt (Nat.lt_irrefl _)

/-- A call that returns is back at its caller. -/
theorem Sparing.back_of_returnsBy {args ref : Nat} {r : Machine} (h : m.Sparing main k g)
    (hat : m.StandsAt ⟨.call, [args]⟩)
    (hclosure : m.stack.getD (m.sp - (args + 1)) .nil = .closure ref)
    (hret : m.ReturnsBy r m') : ∃ v, r.Yields v ∧ m.Back (m.sp - (args + 1)) v m' := by
  obtain ⟨hstep, hcount, n, hrun, hdepth⟩ := hret
  have hnext : ∃ x, m.step = .next x := by
    rw [Machine.run] at hrun
    cases hs : m.step with
    | next x => exact ⟨x, rfl⟩
    | done x | fault f x | crash x =>
        rw [hs] at hrun
        cases hrun
  obtain ⟨x, hx⟩ := hnext
  have hshift (j : Nat) : m.run (j + 1) = x.run j := by
    rw [Machine.run, hx]
  obtain ⟨inner, hwithin⟩ := h.within_call hat hclosure hx
  obtain ⟨hr, inner', hwithin'⟩ := hwithin.run (h.next hx) (by rw [← hshift, hrun]) fun j hj => by
    rw [← hshift]
    exact hdepth j hj
  refine (hwithin'.step hr hstep).resolve_left ?_
  rintro ⟨inner'', h''⟩
  obtain ⟨rest, -, hcallers⟩ := h''.exists_cons
  rw [frameCount, frameCount, hcallers, List.length_append, List.length_cons] at hcount
  omega

end Machine

/-- The machine that a session sets up for a program. -/
lemma Session.Reached.sparing_load {limits : Limits} {s : Session} (h : Reached limits s)
    (hl : limits.areFeasible = true) {p : Program} (hok : (s.compiler.compile p).1 = .ok ()) :
    ((s.withCompiler (s.compiler.compile p).2).machine (s.compiler.compile p).2.bytecode).Sparing
      (s.compiler.compile p).2.bytecode.code Builtin.table.length
      (s.compiler.compile p).2.symbols.outermost.definitions :=
  ⟨(h.inOrder hl).safe_load hl hok, (h.inOrder hl).ready.sparesGlobals (h.sparesGlobals hl) p⟩

/-- **A call leaves its caller intact.** -/
theorem Session.Reached.call_leaves_caller_intact {limits : Limits} {s : Session}
    (h : Reached limits s) (hl : limits.areFeasible = true) {p : Program}
    (hok : (s.compiler.compile p).1 = .ok ()) {n args ref : Nat} {m r m' : Machine}
    (hm : ((s.withCompiler (s.compiler.compile p).2).machine (s.compiler.compile p).2.bytecode).run
      n = .next m)
    (hat : m.StandsAt ⟨.call, [args]⟩)
    (hclosure : m.stack.getD (m.sp - (args + 1)) .nil = .closure ref) (hret : m.ReturnsBy r m') :
    m'.sp = m.sp - (args + 1) + 1 ∧ r.Yields (m'.stack.getD (m.sp - (args + 1)) .nil) ∧
    (∀ i < m.sp - (args + 1), m'.stack.getD i .nil = m.stack.getD i .nil) ∧
    m'.surroundings = m.surroundings ∧
    m'.frame = { m.frame with ip := m.frame.ip + 2 } ∧ m'.callers = m.callers ∧
    m.store.closures.toList <+: m'.store.closures.toList := by
  have hsparing := (h.sparing_load hl hok).run hm
  obtain ⟨v, hv, hback⟩ := hsparing.back_of_returnsBy hat hclosure hret
  rw [hback.value]
  exact ⟨hback.sp, hv, hback.spares.stack.slots, hback.spares.around, hback.frame, hback.callers,
    hback.spares.closures⟩

/-- Whether the machine goes on, and then in a state that passes. -/
def Step.goesOn (p : Machine → Bool) : Step → Bool
  | .next m => p m
  | _ => false

/-- A machine that passes the test goes on. -/
lemma Step.eq_next_of_goesOn {p : Machine → Bool} {r : Step} (h : r.goesOn p = true) :
    r = .next r.machine ∧ p r.machine = true := by
  cases r with
  | next m => exact ⟨rfl, h⟩
  | done m | fault f m | crash m => cases h

namespace Session

/-- A function that calls itself, and a call of it under a value. -/
def summing : Program :=
  [.define "f" (.function (some "f") ["n"]
    [.expr (.cond (.binary "<" (.ident "n") (.integer 1)) [.expr (.integer 0)]
      (some [.expr (.binary "+" (.ident "n")
        (.call (.ident "f") [.binary "-" (.ident "n") (.integer 1)]))]))]),
    .expr (.binary "+" (.integer 1) (.call (.ident "f") [.integer 1]))]

/-- The machine for the program after five steps, where it calls the function. -/
def calling : Machine :=
  let s := start ⟨64, 16, 1000⟩
  let c := (s.compiler.compile summing).2
  (((s.withCompiler c).machine c.bytecode).run 5).machine

set_option maxRecDepth 100000 in
/-- The sum of 1 is back in the slot of the function, above the value below it. -/
theorem summing_leaves_caller_intact :
    calling.StandsAt ⟨.call, [1]⟩ ∧ ∃ r m', calling.ReturnsBy r m' ∧ r.Yields (.integer 1) ∧
      m'.stack.getD 0 .nil = .integer 1 ∧ m'.stack.getD 1 .nil = .integer 1 ∧ m'.sp = 2 ∧
      m'.surroundings = calling.surroundings ∧ m'.frame = { calling.frame with ip := 18 } ∧
      m'.callers = calling.callers := by
  have hat : calling.StandsAt ⟨.call, [1]⟩ :=
    ⟨.cons (by decide) .nil, by unfold Code.Holds; decide +kernel⟩
  have hinside : ∀ j < 19, (calling.run (j + 1)).goesOn
      (fun x => decide (calling.frameCount < x.frameCount)) = true := by
    decide +kernel
  have hlast := (Step.eq_next_of_goesOn (hinside 18 (by decide))).1
  set r := (calling.run 19).machine
  have hback : r.step.goesOn (fun x => x.frameCount == calling.frameCount) = true := by
    decide +kernel
  obtain ⟨hstep, hcount⟩ := Step.eq_next_of_goesOn hback
  have hret : calling.ReturnsBy r r.step.machine := by
    refine ⟨hstep, beq_iff_eq.mp hcount, 18, hlast, fun j hj => ?_⟩
    obtain ⟨hx, hlt⟩ := Step.eq_next_of_goesOn (hinside j (by omega))
    exact ⟨_, hx, of_decide_eq_true hlt⟩
  have hok : ((start ⟨64, 16, 1000⟩).compiler.compile summing).1 = .ok () := by decide +kernel
  have hrun : (((start ⟨64, 16, 1000⟩).withCompiler
      ((start ⟨64, 16, 1000⟩).compiler.compile summing).2).machine
      ((start ⟨64, 16, 1000⟩).compiler.compile summing).2.bytecode).run 5 = .next calling :=
    (Step.eq_next_of_goesOn (p := fun _ => true) (by decide +kernel)).1
  have hcallee : calling.stack.getD (calling.sp - (1 + 1)) .nil = .closure 1 := by decide +kernel
  have hfacts : calling.sp = 3 ∧ calling.frame.ip = 16 ∧ calling.stack.getD 0 .nil = .integer 1 ∧
      r.step.machine.stack.getD 1 .nil = .integer 1 := by decide +kernel
  obtain ⟨hsp, hip, hbelow, hvalue⟩ := hfacts
  have h := Reached.start.call_leaves_caller_intact (by decide) hok hrun hat hcallee hret
  obtain ⟨htop, hv, hslots, haround, hframe, hcallers, -⟩ := h
  rw [hsp] at htop hv hslots
  rw [hip] at hframe
  exact ⟨hat, r, _, hret, hvalue ▸ hv, (hslots 0 (by decide)).trans hbelow, hvalue, htop, haround,
    hframe, hcallers⟩

end Session

end Marmoset
