import Marmoset.Proofs.CallSteps
import Marmoset.Proofs.Leads

/-!
# Machines with another stack

Two machines that differ in their stacks alone take the same step, as long as the slots that the
step reads hold the same in both.  `SameSlots P` are stacks with the same values in the slots with
`P`, and `Step.Same P` are outcomes of steps that differ in the slots without `P` alone; for each
instruction it is said which slots have to be the same before, and which ones are the same
afterwards.

* `Machine.same_execute` — instructions that go on behind themselves, of which `SameAfter` are the
  slots that are the same afterwards;
* `Machine.same_call`, `Machine.same_leave` — calls and returns.
-/

namespace Marmoset

/-- Two stacks of the same size with the same values in the slots with `P`. -/
structure SameSlots (P : Nat → Prop) (xs ys : Array Value) : Prop where
  size : ys.size = xs.size
  slots : ∀ i, P i → ys.getD i .nil = xs.getD i .nil

/-- Fewer slots may be asked for. -/
lemma SameSlots.mono {P Q : Nat → Prop} {xs ys : Array Value} (h : SameSlots P xs ys)
    (hq : ∀ i, Q i → P i) :
    SameSlots Q xs ys :=
  ⟨h.size, fun i hi => h.slots i (hq i hi)⟩

/-- A slot that is written in both is the same. -/
lemma SameSlots.set {P : Nat → Prop} {xs ys : Array Value} (h : SameSlots P xs ys) (slot : Nat)
    (v : Value) :
    SameSlots (fun i => P i ∨ i = slot) (xs.setIfInBounds slot v) (ys.setIfInBounds slot v) where
  size := by
    rw [Array.size_setIfInBounds, Array.size_setIfInBounds, h.size]
  slots i hi := by
    simp only [Array.getD_eq_getD_getElem?, Array.getElem?_setIfInBounds, h.size]
    by_cases his : slot = i
    · rw [if_pos his, if_pos his]
    · rw [if_neg his, if_neg his, ← Array.getD_eq_getD_getElem?, ← Array.getD_eq_getD_getElem?]
      exact h.slots i (hi.resolve_right fun hi => his hi.symm)

/-- The machine with another stack. -/
def Machine.withStack (m : Machine) (stack : Array Value) : Machine :=
  { m with stack }

/-- The same outcome, but for the slots without `P`. -/
inductive Step.Same (P : Nat → Prop) : Step → Step → Prop where
  | next {m m' : Machine} (same : m' = m.withStack m'.stack) (h : SameSlots P m.stack m'.stack) :
      Same P (.next m) (.next m')
  | done {m m' : Machine} (same : m' = m.withStack m'.stack) (last : m'.lastPopped = m.lastPopped) :
      Same P (.done m) (.done m')
  | fault (f : Fault) {m m' : Machine} (same : m' = m.withStack m'.stack) :
      Same P (.fault f m) (.fault f m')
  | crash {m m' : Machine} (same : m' = m.withStack m'.stack) : Same P (.crash m) (.crash m')

/-- Fewer slots may be asked for in an outcome. -/
lemma Step.Same.mono {P Q : Nat → Prop} {r r' : Step} (h : r.Same P r') (hq : ∀ i, Q i → P i) :
    r.Same Q r' := by
  cases h with
  | next same h => exact .next same (h.mono hq)
  | done same last => exact .done same last
  | fault f same => exact .fault f same
  | crash same => exact .crash same

namespace Machine

variable {P : Nat → Prop} {m : Machine} {s : Array Value}

@[simp] lemma sp_withStack (m : Machine) (s : Array Value) : (m.withStack s).sp = m.sp := rfl

@[simp] lemma stack_withStack (m : Machine) (s : Array Value) : (m.withStack s).stack = s := rfl

@[simp] lemma frame_withStack (m : Machine) (s : Array Value) :
    (m.withStack s).frame = m.frame := rfl

@[simp] lemma callers_withStack (m : Machine) (s : Array Value) :
    (m.withStack s).callers = m.callers := rfl

@[simp] lemma store_withStack (m : Machine) (s : Array Value) :
    (m.withStack s).store = m.store := rfl

@[simp] lemma constants_withStack (m : Machine) (s : Array Value) :
    (m.withStack s).constants = m.constants := rfl

@[simp] lemma builtins_withStack (m : Machine) (s : Array Value) :
    (m.withStack s).builtins = m.builtins := rfl

/-- The slot that is pushed to is the same afterwards. -/
lemma same_push (h : SameSlots P m.stack s) (v : Value) :
    (m.push v).Same (fun i => P i ∨ i = m.sp) ((m.withStack s).push v) := by
  unfold push
  rw [stack_withStack, sp_withStack, h.size]
  by_cases hroom : m.sp < m.stack.size
  · rw [if_pos hroom, if_pos hroom]
    exact .next rfl (h.set m.sp v)
  · rw [if_neg hroom, if_neg hroom]
    exact .fault _ rfl

/-- A fault is the same, too. -/
lemma same_pushResult (h : SameSlots P m.stack s) (r : Except Fault Value) :
    (m.pushResult r).Same (fun i => P i ∨ i = m.sp) ((m.withStack s).pushResult r) := by
  cases r with
  | ok v => exact same_push h v
  | error f => exact .fault f rfl

/-- The value on top is read from a slot that is the same. -/
lemma pop_withStack (h : SameSlots P m.stack s) (hp : P (m.sp - 1)) :
    (m.withStack s).pop = (m.pop.1, m.pop.2.withStack s) := by
  have hslot := h.slots _ hp
  simp only [pop, stack_withStack, sp_withStack, hslot]
  rfl

/-- So are the values on top, if all their slots are the same. -/
lemma top_withStack (h : SameSlots P m.stack s) (hroom : m.sp ≤ m.stack.size) {n : Nat}
    (hp : ∀ j, m.sp - n ≤ j → j < m.sp → P j) : (m.withStack s).top n = m.top n := by
  refine Array.ext ?_ fun i hi hi' => ?_
  · simp only [top, withStack, Array.size_extract, h.size]
  · simp only [top, withStack, Array.size_extract] at hi hi'
    have hlt : m.sp - n + i < m.stack.size := by omega
    have hlt' : m.sp - n + i < s.size := by omega
    have hslot := h.slots (m.sp - n + i) (hp _ (by omega) (by omega))
    simp only [Array.getD_eq_getD_getElem?, Array.getElem?_eq_getElem hlt,
      Array.getElem?_eq_getElem hlt', Option.getD_some] at hslot
    simpa only [top, withStack, Array.getElem_extract] using hslot

/-- An operator reads two slots and writes the lower one. -/
lemma same_binary (h : SameSlots P m.stack s) (h₁ : P (m.sp - 1)) (h₂ : P (m.sp - 2))
    (op : Opcode) :
    (m.binary op).Same (fun j => P j ∨ j = m.sp - 2) ((m.withStack s).binary op) := by
  simp only [binary, pop_withStack h h₁, pop_withStack (m := m.pop.2) h h₂]
  exact same_pushResult (m := m.pop.2.pop.2) h _

/-- In front of an operand it reads and writes one. -/
lemma same_unary (h : SameSlots P m.stack s) (h₁ : P (m.sp - 1)) (op : Opcode) :
    (m.unary op).Same (fun j => P j ∨ j = m.sp - 1) ((m.withStack s).unary op) := by
  simp only [unary, pop_withStack h h₁]
  exact same_pushResult (m := m.pop.2) h _

/-- An index reads two slots and writes the lower one. -/
lemma same_getIndex (h : SameSlots P m.stack s) (h₁ : P (m.sp - 1)) (h₂ : P (m.sp - 2)) :
    m.getIndex.Same (fun j => P j ∨ j = m.sp - 2) (m.withStack s).getIndex := by
  simp only [getIndex, pop_withStack h h₁, pop_withStack (m := m.pop.2) h h₂]
  exact same_pushResult (m := m.pop.2.pop.2) h _

/-- Writing to an index reads three slots and writes none. -/
lemma same_setIndex (h : SameSlots P m.stack s) (h₁ : P (m.sp - 1)) (h₂ : P (m.sp - 2))
    (h₃ : P (m.sp - 3)) :
    m.setIndex.Same P (m.withStack s).setIndex := by
  simp only [setIndex, pop_withStack h h₁, pop_withStack (m := m.pop.2) h h₂,
    pop_withStack (m := m.pop.2.pop.2) h h₃, store_withStack]
  split
  · exact .next rfl h
  · exact .fault _ rfl

/-- A local is the same once it was stored. -/
lemma same_setLocal (h : SameSlots P m.stack s) (h₁ : P (m.sp - 1)) (a : Nat) :
    (m.setLocal a).Same (fun j => P j ∨ j = m.frame.base + a) ((m.withStack s).setLocal a) := by
  simp only [setLocal, pop_withStack h h₁, stack_withStack, frame_withStack, h.size]
  show Step.Same _ (if m.frame.base + a < m.stack.size then _ else _) _
  split
  · exact .next rfl (h.set _ _)
  · exact .fault _ rfl

/-- To read a local its slot has to be the same. -/
lemma same_getLocal (h : SameSlots P m.stack s) {a : Nat} (ha : P (m.frame.base + a)) :
    (m.getLocal a).Same (fun j => P j ∨ j = m.sp) ((m.withStack s).getLocal a) := by
  have hslot := h.slots _ ha
  unfold getLocal
  rw [stack_withStack, frame_withStack]
  by_cases hlt : m.frame.base + a < m.stack.size
  · have hlt' : m.frame.base + a < s.size := by rwa [h.size]
    simp only [Array.getD_eq_getD_getElem?, Array.getElem?_eq_getElem hlt,
      Array.getElem?_eq_getElem hlt', Option.getD_some] at hslot ⊢
    rw [hslot]
    exact same_push h _
  · have hlt' : s.size ≤ m.frame.base + a := by
      rw [h.size]
      exact Nat.not_lt.mp hlt
    rw [Array.getElem?_eq_none (Nat.not_lt.mp hlt), Array.getElem?_eq_none hlt']
    exact .fault _ rfl

section

variable {n : Nat} (h : SameSlots P m.stack s) (hroom : m.sp ≤ m.stack.size)
  (htop : ∀ j, m.sp - n ≤ j → j < m.sp → P j)

include h hroom htop

/-- An array takes its items from the top. -/
lemma same_makeArray :
    (m.makeArray n).Same (fun j => P j ∨ j = m.sp - n) ((m.withStack s).makeArray n) := by
  simp only [makeArray, top_withStack h hroom htop, sp_withStack, store_withStack]
  split
  · exact .fault _ rfl
  · exact same_push (m := { m with sp := m.sp - n, store := (m.store.newArray (m.top n)).2 }) h _

/-- A hash takes its pairs from there. -/
lemma same_makeHash :
    (m.makeHash n).Same (fun j => P j ∨ j = m.sp - n) ((m.withStack s).makeHash n) := by
  simp only [makeHash, top_withStack h hroom htop, sp_withStack, store_withStack]
  split
  · exact .fault _ rfl
  · split
    · exact .fault _ rfl
    · rename_i v store _
      exact same_push (m := { m with sp := m.sp - n, store }) h _

/-- A closure takes what it captures from there. -/
lemma same_makeClosure (index : Nat) :
    (m.makeClosure index n).Same (fun j => P j ∨ j = m.sp - n)
      ((m.withStack s).makeClosure index n) := by
  simp only [makeClosure, top_withStack h hroom htop, sp_withStack, store_withStack,
    constants_withStack]
  split
  · exact .fault _ rfl
  · split
    · exact .fault _ rfl
    · rename_i fn _ _
      exact same_push
        (m := { m with sp := m.sp - n, store := (m.store.newClosure ⟨fn, m.top n⟩).2 }) h _
  · exact .fault _ rfl

end

/-- The slots that are the same after an instruction: those from before, the one that it pushes and
the one that it writes. -/
def SameAfter (P : Nat → Prop) (m : Machine) (i : Instr) (j : Nat) : Prop :=
  P j ∨ (i.gives = 1 ∧ j = m.sp - i.takes) ∨ (i.op = .setLocal ∧ j = m.frame.base + i.first)

/-- An instruction that finds the same operands, and the same value in the slot that it reads, does
the same. -/
lemma same_execute {i : Instr} (h : SameSlots P m.stack s) (hroom : m.sp ≤ m.stack.size)
    (hops : ∀ j, m.sp - i.takes ≤ j → j < m.sp → P j) (htakes : i.takes ≤ m.sp)
    (hlocal : i.op = .getLocal → P (m.frame.base + i.first))
    (hop : i.op ∉ [Opcode.jump, .jumpNotTruthy, .call, .returnValue, .returnNil]) :
    (m.execute i.op i.first i.second).Same (SameAfter P m i)
      ((m.withStack s).execute i.op i.first i.second) := by
  have hslot (j : Nat) (hj : 0 < j) (hi : j ≤ i.takes) : P (m.sp - j) :=
    hops _ (by omega) (by omega)
  obtain ⟨op, operands⟩ := i
  cases op with
  | jump | jumpNotTruthy | call | returnValue | returnNil => simp at hop
  | pop => exact .next rfl (h.mono (by simp [SameAfter, Instr.gives, Instr.takes]))
  | pushTrue | pushFalse | pushNil | currentClosure | getGlobal =>
      exact (same_push h _).mono (by simp [SameAfter, Instr.gives, Instr.takes])
  | add | sub | mul | div | equal | notEqual | greater | greaterEqual | and | or =>
      simp only [execute]
      exact (same_binary h (hslot 1 (by simp) (by simp [Instr.takes]))
        (hslot 2 (by simp) (by simp [Instr.takes])) _).mono
        (by simp [SameAfter, Instr.gives, Instr.takes])
  | minus | bang =>
      simp only [execute]
      exact (same_unary h (hslot 1 (by simp) (by simp [Instr.takes])) _).mono
        (by simp [SameAfter, Instr.gives, Instr.takes])
  | getIndex =>
      exact (same_getIndex h (hslot 1 (by simp) (by simp [Instr.takes]))
        (hslot 2 (by simp) (by simp [Instr.takes]))).mono
        (by simp [SameAfter, Instr.gives, Instr.takes])
  | setIndex =>
      exact (same_setIndex h (hslot 1 (by simp) (by simp [Instr.takes]))
        (hslot 2 (by simp) (by simp [Instr.takes]))
        (hslot 3 (by simp) (by simp [Instr.takes]))).mono
          (by simp [SameAfter, Instr.gives, Instr.takes])
  | setGlobal =>
      simp only [execute, pop_withStack h (hslot 1 (by simp) (by simp [Instr.takes]))]
      exact .next rfl (h.mono (by simp [SameAfter, Instr.gives, Instr.takes]))
  | setLocal =>
      exact (same_setLocal h (hslot 1 (by simp) (by simp [Instr.takes])) _).mono
        (by simp [SameAfter, Instr.gives, Instr.takes])
  | getLocal =>
      exact (same_getLocal h (hlocal rfl)).mono (by simp [SameAfter, Instr.gives, Instr.takes])
  | array =>
      exact (same_makeArray h hroom hops).mono (by simp [SameAfter, Instr.gives, Instr.takes])
  | hash => exact (same_makeHash h hroom hops).mono (by simp [SameAfter, Instr.gives, Instr.takes])
  | closure =>
      exact (same_makeClosure h hroom hops _).mono (by simp [SameAfter, Instr.gives, Instr.takes])
  | constant | getBuiltin | getFree =>
      simp only [execute, loadConstant, constants_withStack, frame_withStack, builtins_withStack]
      split
      · exact (same_push h _).mono (by simp [SameAfter, Instr.gives, Instr.takes])
      · exact .fault _ rfl

/-- A call of a closure moves the stack pointer and writes nothing. -/
lemma same_callClosure (h : SameSlots P m.stack s) (ref : Nat) (c : Closure) (n : Nat) :
    (m.callClosure ref c n).Same P ((m.withStack s).callClosure ref c n) := by
  unfold callClosure
  simp only [sp_withStack, stack_withStack, h.size]
  by_cases hparams : c.fn.params.toNat = n
  · rw [if_neg (not_not.mpr hparams), if_neg (not_not.mpr hparams)]
    by_cases hword : UInt64.size ≤ m.sp - n + c.fn.locals.toNat
    · rw [if_pos hword, if_pos hword]
      exact .crash rfl
    · rw [if_neg hword, if_neg hword]
      by_cases hsp : m.stack.size < m.sp - n + c.fn.locals.toNat
      · rw [if_pos hsp, if_pos hsp]
        exact .fault _ rfl
      · rw [if_neg hsp, if_neg hsp]
        by_cases hframes : m.maxFrames ≤ m.frameCount
        · have hframes' : (m.withStack s).maxFrames ≤ (m.withStack s).frameCount := hframes
          rw [if_pos hframes, if_pos hframes']
          exact .fault _ rfl
        · have hframes' : ¬(m.withStack s).maxFrames ≤ (m.withStack s).frameCount := hframes
          rw [if_neg hframes, if_neg hframes']
          exact .next rfl h
  · rw [if_pos hparams, if_pos hparams]
    exact .fault _ rfl

/-- A call reads the callee and the arguments; if a builtin answers, it writes to the slot of the
callee. -/
lemma same_call {n : Nat} (h : SameSlots P m.stack s) (hroom : m.sp ≤ m.stack.size)
    (htop : ∀ j, m.sp - (n + 1) ≤ j → j < m.sp → P j) :
    (m.call n).Same (fun j => P j ∨ j = m.sp - (n + 1)) ((m.withStack s).call n) := by
  unfold call
  rw [sp_withStack]
  by_cases hn : m.sp < n + 1
  · rw [if_pos hn, if_pos hn]
    exact .fault _ rfl
  · rw [if_neg hn, if_neg hn, stack_withStack, h.slots _ (htop _ (Nat.le_refl _) (by omega)),
      store_withStack, top_withStack h hroom fun j hj => htop j (by omega)]
    cases m.stack.getD (m.sp - (n + 1)) .nil with
    | closure ref =>
        cases hc : m.store.closures[ref]? with
        | none =>
            simp only [hc]
            exact .fault _ rfl
        | some c =>
            simp only [hc]
            exact (same_callClosure h ref c n).mono fun j hj =>
              hj.elim id fun hj => hj ▸ htop _ (Nat.le_refl _) (by omega)
    | builtin f =>
        exact same_push (m := { m with
          sp := m.sp - (n + 1)
          store := (f.call m.store (m.top n).toList).2 }) h _
    | _ => exact .fault _ rfl

/-- Leaving a call writes to the slot below it; at the end of the run there is none to write to, and
the last value popped is read. -/
lemma same_leave (h : SameSlots P m.stack s) (hlast : m.callers = [] → P m.sp) (v : Value) :
    (m.leave v).Same (fun j => P j ∨ j = m.frame.base - 1) ((m.withStack s).leave v) := by
  unfold leave
  rw [callers_withStack]
  cases hc : m.callers with
  | nil => exact .done rfl (h.slots _ (hlast hc))
  | cons caller callers =>
      exact same_push (m := { m with frame := caller, callers, sp := m.frame.base - 1 }) h v

end Machine

end Marmoset
