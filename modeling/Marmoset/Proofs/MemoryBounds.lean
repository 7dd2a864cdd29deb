import Marmoset.Machine.Step
import Mathlib.Tactic.Common

/-!
# The machine stays inside its memory

What holds of the machine whatever it runs: any bytes for code, any constants, functions with any
numbers of locals and parameters, any values in its globals, also when it is run again after a run
that ended or failed.

* `Machine.Bounded` — stack pointer, globals, calls and their bases keep to their limits.
* **`Machine.Bounded.step`** — every step keeps them there, whatever comes of it.
* `Machine.stepModulo` — the step of a machine that does not break off where a sum is no machine
  word, and goes on with what is left of it.
* `Machine.step?` — such a step that reads and writes memory only where it is, and has no outcome
  where it would have to reach outside.
* **`Machine.Bounded.step?_eq`** — within the limits this is the step that the machine takes.
-/

namespace Marmoset

namespace Machine

/-- The machine keeps to its limits. -/
structure Bounded (l : Limits) (m : Machine) : Prop where
  size : m.stack.size = l.stackSize
  sp : m.sp ≤ l.stackSize
  globalCount : 65536 ≤ m.globalCount
  globals : m.globals.size ≤ m.globalCount
  maxFrames : m.maxFrames = l.maxFrames
  frameCount : m.frameCount ≤ max 1 l.maxFrames
  base : ∀ f ∈ m.frame :: m.callers, f.base ≤ l.stackSize

variable {l : Limits} {m : Machine}

/-! ## Every step keeps to the limits -/

/-- A machine starts within its limits. -/
lemma bounded_load (b : Bytecode) (globals : Array Value) (l : Limits) (builtins : List Builtin)
    (store : Store) :
    (load b globals l builtins store).Bounded l where
  size := Array.size_replicate
  sp := Nat.zero_le _
  globalCount := Nat.le_max_right _ _
  globals := Nat.le_max_left _ _
  maxFrames := rfl
  frameCount := Nat.le_max_left _ _
  base f hf := by
    rw [List.mem_singleton.mp hf]
    exact Nat.zero_le _

namespace Bounded

/-- Other values on the stack and another store. -/
lemma update (h : m.Bounded l) {stack : Array Value} {sp : Nat} {store : Store}
    (hs : stack.size = m.stack.size) (hsp : sp ≤ l.stackSize) :
    ({ m with stack, sp, store } : Machine).Bounded l :=
  ⟨hs.trans h.size, hsp, h.globalCount, h.globals, h.maxFrames, h.frameCount, h.base⟩

/-- Going elsewhere in the code touches no memory. -/
lemma jump (h : m.Bounded l) (target : Nat) : (m.jump target).Bounded l where
  size := h.size
  sp := h.sp
  globalCount := h.globalCount
  globals := h.globals
  maxFrames := h.maxFrames
  frameCount := h.frameCount
  base f hf := by
    rcases List.mem_cons.mp hf with rfl | hf
    · exact h.base m.frame List.mem_cons_self
    · exact h.base f (List.mem_cons_of_mem _ hf)

/-- A push finds a free slot or changes nothing. -/
lemma push (h : m.Bounded l) (v : Value) : (m.push v).machine.Bounded l := by
  unfold Machine.push
  split
  · rename_i hroom
    rw [h.size] at hroom
    exact h.update Array.size_setIfInBounds hroom
  · exact h

lemma pushResult (h : m.Bounded l) (r : Except Fault Value) :
    (m.pushResult r).machine.Bounded l := by
  cases r with
  | ok v => exact h.push v
  | error f => exact h

/-- A number of slots is given back. -/
lemma lower (h : m.Bounded l) (n : Nat) (store : Store) :
    ({ m with sp := m.sp - n, store } : Machine).Bounded l :=
  h.update rfl (Nat.le_trans (Nat.sub_le _ _) h.sp)

/-- A pop on an empty stack leaves the stack pointer at zero. -/
lemma pop (h : m.Bounded l) : m.pop.2.Bounded l :=
  h.lower 1 m.store

/-- Values on top are replaced by one. -/
lemma replaceTop (h : m.Bounded l) (n : Nat) (store : Store) (v : Value) :
    (({ m with sp := m.sp - n, store } : Machine).push v).machine.Bounded l :=
  (h.lower n store).push v

/-- A call is left only for one that is going on, at a base that was in order. -/
lemma returned (h : m.Bounded l) {caller : Frame} {callers : List Frame}
    (hc : m.callers = caller :: callers) :
    ({ m with frame := caller, callers, sp := m.frame.base - 1 } : Machine).Bounded l := by
  have hbase := h.base m.frame List.mem_cons_self
  have hcount := h.frameCount
  rw [Machine.frameCount, hc, List.length_cons] at hcount
  refine ⟨h.size, Nat.le_trans (Nat.sub_le _ _) hbase, h.globalCount, h.globals, h.maxFrames,
    Nat.le_trans (Nat.le_succ _) hcount, fun f hf => h.base f ?_⟩
  rw [hc]
  exact List.mem_cons_of_mem _ hf

/-- Leaving a call frees its slots and pushes what it returns. -/
lemma leave (h : m.Bounded l) (v : Value) : (m.leave v).machine.Bounded l := by
  unfold Machine.leave
  cases hc : m.callers with
  | nil => exact h
  | cons caller callers => exact Bounded.push (h.returned hc) v

/-- A call is added only while there are fewer than the limit allows, at a base below the stack
pointer. -/
lemma entered (h : m.Bounded l) {ref args sp : Nat} {c : Closure} (hsp : ¬m.stack.size < sp)
    (hframes : ¬m.maxFrames ≤ m.frameCount) :
    ({ m with
      frame := ⟨ref, c.fn, c.free, 0, m.sp - args⟩
      callers := m.frame :: m.callers
      sp } : Machine).Bounded l := by
  rw [h.size, Nat.not_lt] at hsp
  rw [h.maxFrames, Nat.not_le] at hframes
  refine ⟨h.size, hsp, h.globalCount, h.globals, h.maxFrames, ?_, fun f hf => ?_⟩
  · exact Nat.le_trans hframes (Nat.le_max_right _ _)
  · rcases List.mem_cons.mp hf with rfl | hf
    · exact Nat.le_trans (Nat.sub_le _ _) h.sp
    · exact h.base f hf

/-- A call that is made keeps to the limits, since it is refused where the stack or the calls would
go beyond them. -/
lemma callClosure (h : m.Bounded l) (ref : Nat) (c : Closure) (args : Nat) :
    (m.callClosure ref c args).machine.Bounded l := by
  unfold Machine.callClosure
  dsimp only
  split_ifs with hparams hword hsp hframes
  · exact h
  · exact h
  · exact h
  · exact h
  · exact h.entered hsp hframes

/-- There are globals for all operands of two bytes. -/
lemma setGlobal (h : m.Bounded l) {a : Nat} (ha : a < 65536) (v : Value) :
    (m.setGlobal a v).Bounded l where
  size := h.size
  sp := h.sp
  globalCount := h.globalCount
  globals := by
    have hg := h.globals
    have hc := h.globalCount
    simp only [Machine.setGlobal, Array.size_setIfInBounds, Array.size_append, Array.size_replicate]
    omega
  maxFrames := h.maxFrames
  frameCount := h.frameCount
  base := h.base

/-- Whatever is called, the limits are kept. -/
lemma call (h : m.Bounded l) (args : Nat) : (m.call args).machine.Bounded l := by
  unfold Machine.call
  split
  · exact h
  · split
    · split
      · exact h.callClosure _ _ _
      · exact h
    · exact h.replaceTop _ _ _
    · exact h

lemma makeClosure (h : m.Bounded l) (a n : Nat) : (m.makeClosure a n).machine.Bounded l := by
  unfold Machine.makeClosure
  split
  · exact h
  · split
    · exact h
    · exact h.replaceTop _ _ _
  · exact h

lemma makeHash (h : m.Bounded l) (n : Nat) : (m.makeHash n).machine.Bounded l := by
  unfold Machine.makeHash
  split
  · exact h
  · split
    · exact h
    · exact h.replaceTop _ _ _

lemma makeArray (h : m.Bounded l) (n : Nat) : (m.makeArray n).machine.Bounded l := by
  unfold Machine.makeArray
  split
  · exact h
  · exact h.replaceTop _ _ _

lemma setIndex (h : m.Bounded l) : m.setIndex.machine.Bounded l := by
  have hlow : m.pop.2.pop.2.pop.2.Bounded l := h.pop.pop.pop
  unfold Machine.setIndex
  dsimp only
  split
  · exact hlow.update rfl hlow.sp
  · exact hlow

/-- A store to a local beyond the end of the stack is refused. -/
lemma setLocal (h : m.Bounded l) (a : Nat) : (m.setLocal a).machine.Bounded l := by
  unfold Machine.setLocal
  dsimp only
  split
  · exact h.pop.update Array.size_setIfInBounds h.pop.sp
  · exact h.pop

lemma binary (h : m.Bounded l) (op : Opcode) : (m.binary op).machine.Bounded l :=
  h.pop.pop.pushResult _

lemma unary (h : m.Bounded l) (op : Opcode) : (m.unary op).machine.Bounded l :=
  h.pop.pushResult _

/-- One instruction of any kind. -/
lemma execute (h : m.Bounded l) (op : Opcode) {a : Nat} (ha : a < 65536) (b : Nat) :
    (m.execute op a b).machine.Bounded l := by
  cases op with
  | pop => exact h.pop
  | pushTrue | pushFalse | pushNil | getGlobal | currentClosure => exact h.push _
  | add | sub | mul | div | equal | notEqual | greater | greaterEqual | and | or =>
      simp only [Machine.execute]
      exact h.binary _
  | minus | bang =>
      simp only [Machine.execute]
      exact h.unary _
  | getIndex => exact h.pop.pop.pushResult _
  | jump => exact h.jump a
  | jumpNotTruthy =>
      simp only [Machine.execute]
      split
      · exact h.pop
      · exact h.pop.jump a
  | setGlobal => exact h.pop.setGlobal ha _
  | array => exact h.makeArray a
  | hash => exact h.makeHash a
  | closure => exact h.makeClosure a b
  | call => exact h.call a
  | setIndex => exact h.setIndex
  | setLocal => exact h.setLocal a
  | returnValue => exact h.pop.leave _
  | returnNil => exact h.leave _
  | constant | getLocal | getBuiltin | getFree =>
      simp only [Machine.execute, loadConstant, getLocal]
      split
      · exact h.push _
      · exact h

end Bounded

/-- An operand of one byte is less than 256, also where the code has ended. -/
lemma byteAt_lt (code : Code) (offset : Nat) : byteAt code offset < 256 :=
  (code.getD offset 0).toNat_lt

/-- No operand takes more than two bytes. -/
lemma firstOperand_lt (code : Code) (op : Opcode) (offset : Nat) :
    firstOperand code op offset < 65536 := by
  have h₁ := byteAt_lt code (offset + 1)
  have h₂ := byteAt_lt code (offset + 1 + 1)
  simp only [firstOperand, wordAt]
  split <;> omega

/-- **A step keeps the machine within its limits,** also one that ends the run or fails. -/
theorem Bounded.step (h : m.Bounded l) : m.step.machine.Bounded l := by
  unfold Machine.step
  dsimp only
  split
  · exact h.leave .nil
  · split
    · exact h
    · split
      · exact h
      · exact (h.jump _).execute _ (firstOperand_lt _ _ _) _

/-- What every step keeps, also one that ends the run or fails, a run keeps. -/
lemma run_keeps {P : Machine → Prop} (hstep : ∀ m, P m → P m.step.machine) (h : P m) (fuel : Nat) :
    P (m.run fuel).machine := by
  induction fuel generalizing m with
  | zero => exact h
  | succ fuel ih =>
      have hm := hstep m h
      rw [Machine.run]
      cases hs : m.step with
      | next m' =>
          rw [hs] at hm
          exact ih hm
      | done m' | fault f m' | crash m' =>
          rw [hs] at hm
          exact hm

/-- A run stays within the limits, however it ends. -/
lemma Bounded.run (h : m.Bounded l) (fuel : Nat) : (m.run fuel).machine.Bounded l :=
  run_keeps (fun _ => Bounded.step) h fuel

/-! ## Sums that wrap around -/

end Machine

/-- Whether the machine breaks off. -/
def Step.crashes : Step → Bool
  | .crash _ => true
  | _ => false

namespace Machine

/-- The call of a closure with what is left of the sum. -/
def callClosureModulo (m : Machine) (ref : Nat) (c : Closure) (args : Nat) : Step :=
  if c.fn.params.toNat ≠ args then .fault (.wrongArgumentCount c.fn.params.toNat args) m
  else
    let base := m.sp - args
    let sp := (base.toUInt64 + c.fn.locals).toNat
    if m.stack.size < sp then .fault .stackOverflow m
    else if m.maxFrames ≤ m.frameCount then .fault (.frameOverflow m.maxFrames) m
    else .next { m with frame := ⟨ref, c.fn, c.free, 0, base⟩, callers := m.frame :: m.callers, sp }

/-- Calls the closure under the arguments, if there is one, with what is left of the sum. -/
def callModulo (m : Machine) (args : Nat) : Step :=
  match m.stack.getD (m.sp - (args + 1)) .nil with
  | .closure ref =>
    match m.store.closures[ref]? with
    | some c => m.callClosureModulo ref c args
    | none => .crash m
  | _ => .crash m

end Machine

/-- Where the machine breaks off at a call, the call goes on with what is left of the sum. -/
def Step.modulo (args : Nat) : Step → Step
  | .crash m => m.callModulo args
  | s => s

/-- What does not break off stays as it is. -/
lemma Step.modulo_of_crashes {s : Step} (h : s.crashes = false) (args : Nat) :
    s.modulo args = s := by
  cases s with
  | crash m => cases h
  | _ => rfl

namespace Machine

variable {l : Limits} {m : Machine}

/-- One step of a machine that takes sums modulo the number of machine words. -/
def stepModulo (m : Machine) : Step :=
  m.step.modulo (byteAt m.frame.fn.code (m.frame.ip + 1))

/-- A sum that is a machine word is its own remainder. -/
lemma toNat_toUInt64_add {base : Nat} {locals : UInt64} (h : base + locals.toNat < UInt64.size) :
    (base.toUInt64 + locals).toNat = base + locals.toNat := by
  rw [UInt64.toNat_add]
  simp only [Nat.toUInt64_eq, UInt64.toNat_ofNat']
  simp only [UInt64.size] at h
  omega

/-- A call breaks off, or its sum is a machine word. -/
lemma callClosure_cases (m : Machine) (ref : Nat) (c : Closure) (args : Nat) :
    m.callClosure ref c args = .crash m ∨
      m.callClosure ref c args = m.callClosureModulo ref c args := by
  unfold callClosure callClosureModulo
  by_cases hparams : c.fn.params.toNat ≠ args
  · exact .inr (by rw [if_pos hparams, if_pos hparams])
  · rw [if_neg hparams, if_neg hparams]
    by_cases hword : UInt64.size ≤ m.sp - args + c.fn.locals.toNat
    · exact .inl (if_pos hword)
    · exact .inr (by simp only [if_neg hword, toNat_toUInt64_add (Nat.not_le.mp hword)])

/-! ### No other instruction breaks off -/

lemma crashes_push (m : Machine) (v : Value) : (m.push v).crashes = false := by
  unfold push
  split <;> rfl

lemma crashes_pushResult (m : Machine) (r : Except Fault Value) :
    (m.pushResult r).crashes = false := by
  cases r with
  | ok v => exact m.crashes_push v
  | error f => rfl

/-- Leaving a call has no sum to break off with. -/
lemma crashes_leave (m : Machine) (v : Value) : (m.leave v).crashes = false := by
  unfold leave returnTo
  split
  · rfl
  · exact crashes_push _ v

/-- With what is left of a sum no call breaks off. -/
lemma crashes_callClosureModulo (m : Machine) (ref : Nat) (c : Closure) (args : Nat) :
    (m.callClosureModulo ref c args).crashes = false := by
  unfold callClosureModulo
  dsimp only
  split_ifs <;> rfl

/-- **No instruction but a call breaks off.** -/
lemma crashes_execute (m : Machine) {op : Opcode} (h : op ≠ .call) (a b : Nat) :
    (m.execute op a b).crashes = false := by
  cases op with
  | call => exact absurd rfl h
  | pop | jump | setGlobal => rfl
  | pushTrue | pushFalse | pushNil | getGlobal | currentClosure => exact crashes_push _ _
  | add | sub | mul | div | equal | notEqual | greater | greaterEqual | and | or | minus | bang
  | getIndex =>
      simp only [execute, binary, unary, getIndex]
      exact crashes_pushResult _ _
  | returnValue => exact crashes_leave _ _
  | returnNil => exact crashes_leave _ _
  | constant | array | hash | closure | setIndex | setLocal | getLocal | getBuiltin | getFree
  | jumpNotTruthy =>
      simp only [execute, loadConstant, makeArray, makeHash, makeClosure, setIndex,
        setLocal, getLocal]
      repeat' split
      all_goals first | rfl | exact crashes_push _ _

/-- Where a call of a closure breaks off the sum is no machine word. -/
lemma callClosure_crash {ref args : Nat} {c : Closure} {m' : Machine}
    (h : m.callClosure ref c args = .crash m') :
    m' = m ∧ c.fn.params.toNat = args ∧ UInt64.size ≤ m.sp - args + c.fn.locals.toNat := by
  unfold callClosure at h
  dsimp only at h
  split_ifs at h with hparams hword
  exact ⟨(Step.crash.inj h).symm, not_not.mp hparams, hword⟩

/-- Some closure cannot be called: with its locals the stack would go past what a machine word
counts. -/
def Overreaches (m : Machine) : Prop :=
  ∃ c ∈ m.store.closures, c.fn.params.toNat < 256 ∧
    UInt64.size ≤ m.sp - c.fn.params.toNat + c.fn.locals.toNat

/-- **A step breaks off only in a call** of a closure whose sum is no machine word. -/
lemma overreaches_of_step {m' : Machine} (h : m.step = .crash m') : m'.Overreaches := by
  unfold step at h
  dsimp only at h
  split at h
  · have hleave := m.crashes_leave .nil
    rw [h] at hleave
    cases hleave
  · split at h
    · cases h
    · rename_i op hop
      split at h
      · cases h
      · by_cases hcall : op = .call
        · subst hcall
          simp only [execute, call] at h
          split at h
          · cases h
          · split at h
            · split at h
              · rename_i c hc
                obtain ⟨rfl, hparams, hsum⟩ := callClosure_crash h
                refine ⟨c, Array.mem_of_getElem? hc, ?_, hparams ▸ hsum⟩
                rw [hparams, firstOperand, if_pos (by rfl)]
                exact byteAt_lt _ _
              · cases h
            · have hpush := crashes_push _ _ ▸ congrArg Step.crashes h
              cases hpush
            · cases h
        · have hexec := crashes_execute _ hcall _ _ ▸ congrArg Step.crashes h
          cases hexec

/-- A run that breaks off does so in a call that reaches beyond all machine words. -/
lemma overreaches_of_run {m' : Machine} {fuel : Nat} (h : m.run fuel = .crash m') :
    m'.Overreaches := by
  induction fuel generalizing m with
  | zero => cases h
  | succ fuel ih =>
      rw [run] at h
      cases hs : m.step with
      | next n =>
          rw [hs] at h
          exact ih h
      | crash n =>
          rw [hs] at h
          cases h
          exact overreaches_of_step hs
      | done n | fault f n =>
          rw [hs] at h
          cases h

namespace Bounded

/-- With what is left of the sum a call keeps to the limits as well. -/
lemma callClosureModulo (h : m.Bounded l) (ref : Nat) (c : Closure) (args : Nat) :
    (m.callClosureModulo ref c args).machine.Bounded l := by
  unfold Machine.callClosureModulo
  dsimp only
  split_ifs with hparams hsp hframes
  · exact h
  · exact h
  · exact h
  · exact h.entered hsp hframes

/-- So does every outcome once its sum is reduced. -/
lemma modulo {s : Step} (h : s.machine.Bounded l) (args : Nat) :
    (s.modulo args).machine.Bounded l := by
  cases s with
  | crash m =>
      simp only [Step.modulo, callModulo]
      split
      · split
        · exact callClosureModulo h _ _ _
        · exact h
      · exact h
  | _ => exact h

/-- **So does a step with sums that wrap around.** -/
theorem stepModulo (h : m.Bounded l) : m.stepModulo.machine.Bounded l :=
  h.step.modulo _

end Bounded

/-! ## Memory is accessed where it is -/

/-- The operand of one byte that stands at a place of the operand bytes. -/
def byteOperand? (operands : Code) (place : Nat) : Option Nat := do
  let byte ← operands[place]?
  return byte.toNat

/-- The operand of two bytes, the high one first. -/
def wordOperand? (operands : Code) : Option Nat := do
  let high ← operands[0]?
  let low ← operands[1]?
  return high.toNat * 256 + low.toNat

/-- The position so many slots further down. -/
def down? (position count : Nat) : Option Nat :=
  if count ≤ position then some (position - count) else none

/-- The values from one position of the stack to another. -/
def slots? (m : Machine) (start stop : Nat) : Option (Array Value) :=
  if start ≤ stop ∧ stop ≤ m.stack.size then some (m.stack.extract start stop) else none

/-- Pushes a value if there is room on a stack that is meant to have `size` slots. -/
def push? (m : Machine) (size : Nat) (v : Value) : Option Step :=
  if size ≤ m.sp then some (.fault .stackOverflow m)
  else if m.sp < m.stack.size then
    some (.next { m with stack := m.stack.setIfInBounds m.sp v, sp := m.sp + 1 })
  else none

def pushResult? (m : Machine) (size : Nat) (r : Except Fault Value) : Option Step :=
  match r with
  | .ok v => m.push? size v
  | .error f => some (.fault f m)

def makeArray? (m : Machine) (size n : Nat) : Option Step :=
  match down? m.sp n with
  | none => some (.fault .stackUnderflow m)
  | some start => do
    let items ← m.slots? start m.sp
    let (v, store) := m.store.newArray items
    push? { m with sp := start, store } size v

def makeHash? (m : Machine) (size n : Nat) : Option Step :=
  match down? m.sp n with
  | none => some (.fault .stackUnderflow m)
  | some start => do
    let items ← m.slots? start m.sp
    match m.store.buildHash items.toList with
    | .error f => some (.fault f m)
    | .ok (v, store) => push? { m with sp := start, store } size v

def makeClosure? (m : Machine) (size index n : Nat) : Option Step :=
  match m.constants[index]? with
  | none => some (.fault (.undefinedConstant index) m)
  | some (.function fn) =>
    match down? m.sp n with
    | none => some (.fault .stackUnderflow m)
    | some start => do
      let free ← m.slots? start m.sp
      let (v, store) := m.store.newClosure ⟨fn, free⟩
      push? { m with sp := start, store } size v
  | some k => some (.fault (.notAFunction k.text) m)

def callClosure? (m : Machine) (size ref : Nat) (c : Closure) (args : Nat) : Option Step :=
  if c.fn.params.toNat ≠ args then some (.fault (.wrongArgumentCount c.fn.params.toNat args) m)
  else do
    let base ← down? m.sp args
    let sp := (base.toUInt64 + c.fn.locals).toNat
    if size < sp then return .fault .stackOverflow m
    else if m.maxFrames ≤ m.frameCount then return .fault (.frameOverflow m.maxFrames) m
    else return .next { m with
      frame := ⟨ref, c.fn, c.free, 0, base⟩, callers := m.frame :: m.callers, sp }

def callBuiltin? (m : Machine) (size : Nat) (f : Builtin) (args : Nat) : Option Step := do
  let start ← down? m.sp args
  let values ← m.slots? start m.sp
  let (v, store) := f.call m.store values.toList
  let sp ← down? m.sp (args + 1)
  push? { m with sp, store } size v

def call? (m : Machine) (size args : Nat) : Option Step :=
  match down? m.sp (args + 1) with
  | none => some (.fault .stackUnderflow m)
  | some place => do
    let callee ← m.stack[place]?
    match callee with
    | .closure ref =>
      match m.store.closures[ref]? with
      | some c => m.callClosure? size ref c args
      | none => some (.fault (.notCallable .closure) m)
    | .builtin f => m.callBuiltin? size f args
    | v => some (.fault (.notCallable v.kind) m)

def leave? (m : Machine) (size : Nat) (v : Value) : Option Step :=
  match m.callers with
  | [] => some (.done m)
  | caller :: callers => push? { m with frame := caller, callers, sp := m.frame.base - 1 } size v

/-- Carries out an instruction with the operand bytes that follow it. -/
def execute? (m : Machine) (size : Nat) (op : Opcode) (operands : Code) : Option Step :=
  match op with
  | .constant => do
    let a ← wordOperand? operands
    match m.constants[a]? with
    | some k => m.push? size (k.toValue (m.firstIdentity + a))
    | none => some (.fault (.undefinedConstant a) m)
  | .pop => some (.next m.pop.2)
  | .add | .sub | .mul | .div | .equal | .notEqual | .greater | .greaterEqual | .and | .or =>
    let (right, m) := m.pop
    let (left, m) := m.pop
    m.pushResult? size (Value.binary op left right)
  | .pushTrue => m.push? size (.boolean true)
  | .pushFalse => m.push? size (.boolean false)
  | .pushNil => m.push? size .nil
  | .minus | .bang =>
    let (v, m) := m.pop
    m.pushResult? size (Value.unary op v)
  | .jumpNotTruthy => do
    let a ← wordOperand? operands
    let (v, m) := m.pop
    if v.truthy then return .next m else return .next (m.jump a)
  | .jump => do
    let a ← wordOperand? operands
    return .next (m.jump a)
  | .setGlobal => do
    let a ← wordOperand? operands
    let (v, m) := m.pop
    if a < m.globalCount then return .next (m.setGlobal a v) else none
  | .getGlobal => do
    let a ← wordOperand? operands
    if a < m.globalCount then m.push? size (m.getGlobal a) else none
  | .array => do
    let a ← wordOperand? operands
    m.makeArray? size a
  | .hash => do
    let a ← wordOperand? operands
    m.makeHash? size a
  | .setIndex => some m.setIndex
  | .getIndex =>
    let (index, m) := m.pop
    let (left, m) := m.pop
    m.pushResult? size (m.store.getIndex left index)
  | .call => do
    let a ← byteOperand? operands 0
    m.call? size a
  | .returnValue =>
    let (v, m) := m.pop
    m.leave? size v
  | .returnNil => m.leave? size .nil
  | .setLocal => do
    let a ← byteOperand? operands 0
    return m.setLocal a
  | .getLocal => do
    let a ← byteOperand? operands 0
    match m.stack[m.frame.base + a]? with
    | some v => m.push? size v
    | none => some (.fault .stackOverflow m)
  | .getBuiltin => do
    let a ← byteOperand? operands 0
    match m.builtins[a]? with
    | some f => m.push? size (.builtin f)
    | none => some (.fault (.undefinedBuiltin a) m)
  | .closure => do
    let a ← wordOperand? operands
    let b ← byteOperand? operands 2
    m.makeClosure? size a b
  | .getFree => do
    let a ← byteOperand? operands 0
    match m.frame.free[a]? with
    | some v => m.push? size v
    | none => some (.fault (.undefinedFree a) m)
  | .currentClosure => m.push? size (.closure m.frame.closure)

/-- One step of a machine whose stack is meant to have `size` slots. -/
def step? (m : Machine) (size : Nat) : Option Step :=
  let code := m.frame.fn.code
  let ip := m.frame.ip
  if code.size ≤ ip then m.leave? size .nil
  else do
    let byte ← code[ip]?
    match Opcode.ofByte? byte with
    | none => some (.fault (.undefinedOpcode byte ip) m)
    | some op =>
      if code.size < ip + 1 + op.operandBytes then some (.fault (.truncatedInstruction op ip) m)
      else
        let operands := code.extract (ip + 1) (ip + 1 + op.operandBytes)
        (m.jump (ip + 1 + op.operandBytes)).execute? size op operands

/-! ### Within the limits every access finds its place -/

/-- Going down is possible as far as there is something below. -/
lemma down?_of_le {position count : Nat} (h : count ≤ position) :
    down? position count = some (position - count) :=
  if_pos h

/-- A position does not go further down than to zero. -/
lemma down?_of_lt {position count : Nat} (h : position < count) : down? position count = none :=
  if_neg (Nat.not_le.mpr h)

namespace Bounded

/-- The stretch of the stack below the stack pointer is there. -/
lemma slots?_eq (h : m.Bounded l) (n : Nat) : m.slots? (m.sp - n) m.sp = some (m.top n) := by
  have hsp := h.sp
  rw [← h.size] at hsp
  exact if_pos ⟨Nat.sub_le _ _, hsp⟩

/-- Within the limits a push writes to a slot that is there. -/
lemma push?_eq (h : m.Bounded l) (v : Value) : m.push? l.stackSize v = some (m.push v) := by
  rw [push?, Machine.push, h.size]
  by_cases hroom : m.sp < l.stackSize
  · rw [if_neg (Nat.not_le.mpr hroom), if_pos hroom, if_pos hroom]
  · rw [if_pos (Nat.not_lt.mp hroom), if_neg hroom]

lemma pushResult?_eq (h : m.Bounded l) (r : Except Fault Value) :
    m.pushResult? l.stackSize r = some (m.pushResult r) := by
  cases r with
  | ok v => exact h.push?_eq v
  | error f => rfl

/-- So does the push in place of values that are taken. -/
lemma replaceTop?_eq (h : m.Bounded l) (n : Nat) (store : Store) (v : Value) :
    push? { m with sp := m.sp - n, store } l.stackSize v =
      some (({ m with sp := m.sp - n, store } : Machine).push v) :=
  (h.lower n store).push?_eq v

/-- The members of a new array are on the stack, or it is refused. -/
lemma makeArray?_eq (h : m.Bounded l) (n : Nat) :
    m.makeArray? l.stackSize n = some (m.makeArray n) := by
  unfold makeArray? Machine.makeArray
  by_cases hn : m.sp < n
  · rw [down?_of_lt hn, if_pos hn]
  · rw [down?_of_le (Nat.not_lt.mp hn), if_neg hn]
    simp only [h.slots?_eq, Option.bind_eq_bind, Option.bind_some]
    exact h.replaceTop?_eq _ _ _

/-- So are the keys and values of a new hash. -/
lemma makeHash?_eq (h : m.Bounded l) (n : Nat) :
    m.makeHash? l.stackSize n = some (m.makeHash n) := by
  unfold makeHash? Machine.makeHash
  by_cases hn : m.sp < n
  · rw [down?_of_lt hn, if_pos hn]
  · rw [down?_of_le (Nat.not_lt.mp hn), if_neg hn]
    simp only [h.slots?_eq, Option.bind_eq_bind, Option.bind_some]
    cases m.store.buildHash (m.top n).toList with
    | error f => rfl
    | ok r => exact h.replaceTop?_eq _ _ _

/-- So are the captured values of a new closure. -/
lemma makeClosure?_eq (h : m.Bounded l) (index n : Nat) :
    m.makeClosure? l.stackSize index n = some (m.makeClosure index n) := by
  unfold makeClosure? Machine.makeClosure
  cases m.constants[index]? with
  | none => rfl
  | some k =>
      cases k with
      | function fn =>
          by_cases hn : m.sp < n
          · simp only [down?_of_lt hn, if_pos hn]
          · simp only [down?_of_le (Nat.not_lt.mp hn), if_neg hn, h.slots?_eq, Option.bind_eq_bind,
              Option.bind_some]
            exact h.replaceTop?_eq _ _ _
      | _ => rfl

/-- The arguments of a call are there, because it was made sure that what is called is there too. -/
lemma callClosure?_eq (h : m.Bounded l) (ref : Nat) (c : Closure) {args : Nat}
    (hn : args + 1 ≤ m.sp) :
    m.callClosure? l.stackSize ref c args = some (m.callClosureModulo ref c args) := by
  unfold callClosure? Machine.callClosureModulo
  simp only [down?_of_le (Nat.le_of_succ_le hn), Option.bind_eq_bind, Option.bind_some, h.size]
  repeat' split
  all_goals rfl

/-- The arguments of a builtin are there, and there is room for its answer. -/
lemma callBuiltin?_eq (h : m.Bounded l) (f : Builtin) {args : Nat} (hn : args + 1 ≤ m.sp) :
    m.callBuiltin? l.stackSize f args =
      some (({ m with
        sp := m.sp - (args + 1)
        store := (f.call m.store (m.top args).toList).2 } :
          Machine).push (f.call m.store (m.top args).toList).1) := by
  unfold callBuiltin?
  simp only [down?_of_le hn, down?_of_le (Nat.le_of_succ_le hn), h.slots?_eq, Option.bind_eq_bind,
    Option.bind_some]
  exact h.replaceTop?_eq _ _ _

/-- Where a call breaks off, the checked call goes on with what is left of the sum. -/
lemma call?_eq (h : m.Bounded l) (args : Nat) :
    m.call? l.stackSize args = some ((m.call args).modulo args) := by
  unfold call? Machine.call
  by_cases hn : m.sp < args + 1
  · rw [down?_of_lt hn, if_pos hn]
    rfl
  · have hn' := Nat.not_lt.mp hn
    have hplace : m.sp - (args + 1) < m.stack.size := by
      have hsp := h.sp
      rw [h.size]
      omega
    have hget : m.stack[m.sp - (args + 1)]? = some (m.stack.getD (m.sp - (args + 1)) .nil) := by
      rw [Array.getD_eq_getD_getElem?, Array.getElem?_eq_getElem hplace, Option.getD_some]
    rw [down?_of_le hn', if_neg hn]
    simp only [hget, Option.bind_eq_bind, Option.bind_some]
    cases hv : m.stack.getD (m.sp - (args + 1)) .nil with
    | closure ref =>
        cases hc : m.store.closures[ref]? with
        | none => simp only [hc, Step.modulo]
        | some c =>
            simp only [hc]
            rw [h.callClosure?_eq ref c hn']
            rcases m.callClosure_cases ref c args with hcall | hcall
            · simp only [hcall, Step.modulo, callModulo, hv, hc]
            · rw [hcall, Step.modulo_of_crashes (m.crashes_callClosureModulo ref c args)]
    | builtin f =>
        dsimp only
        rw [h.callBuiltin?_eq f hn', Step.modulo_of_crashes (crashes_push _ _)]
    | _ => rfl

/-- A call is left with access to nothing but the slot of its answer. -/
lemma leave?_eq (h : m.Bounded l) (v : Value) : m.leave? l.stackSize v = some (m.leave v) := by
  unfold leave? Machine.leave
  cases hc : m.callers with
  | nil => rfl
  | cons caller callers => exact Bounded.push?_eq (h.returned hc) v

/-- Every instruction but a call, with its operands as the machine reads them. -/
lemma execute?_eq_of_ne (h : m.Bounded l) {op : Opcode} (hcall : op ≠ .call) {operands : Code}
    {a b : Nat} (ha : a < 65536) (hbyte : op.operandBytes = 1 → byteOperand? operands 0 = some a)
    (hword : 2 ≤ op.operandBytes → wordOperand? operands = some a)
    (hsecond : op.operandBytes = 3 → byteOperand? operands 2 = some b) :
    m.execute? l.stackSize op operands = some (m.execute op a b) := by
  have hglobal : a < m.globalCount := Nat.lt_of_lt_of_le ha h.globalCount
  cases op with
  | constant | getLocal | getBuiltin | getFree =>
      simp only [execute?, Machine.execute, loadConstant, getLocal, Opcode.operandBytes,
        forall_const, Nat.le_refl] at *
      simp only [hbyte, hword, Option.bind_eq_bind, Option.bind_some]
      split
      · simp only [*, h.push?_eq]
      · simp only [*]
  | pop | setIndex => rfl
  | add | sub | mul | div | equal | notEqual | greater | greaterEqual | and | or =>
      simp only [execute?, Machine.execute]
      exact h.pop.pop.pushResult?_eq _
  | minus | bang =>
      simp only [execute?, Machine.execute]
      exact h.pop.pushResult?_eq _
  | getIndex => exact h.pop.pop.pushResult?_eq _
  | pushTrue | pushFalse | pushNil | currentClosure => exact h.push?_eq _
  | returnValue => exact h.pop.leave?_eq _
  | returnNil => exact h.leave?_eq _
  | jump => simp [execute?, Machine.execute, hword (by decide)]
  | jumpNotTruthy =>
      simp only [execute?, Machine.execute, hword (by decide), Option.bind_eq_bind,
        Option.bind_some]
      split <;> rfl
  | setGlobal =>
      simp only [execute?, Machine.execute, hword (by decide), Option.bind_eq_bind,
        Option.bind_some]
      exact if_pos hglobal
  | getGlobal =>
      simp only [execute?, Machine.execute, hword (by decide), Option.bind_eq_bind,
        Option.bind_some, if_pos hglobal]
      exact h.push?_eq _
  | array =>
      simp only [execute?, Machine.execute, hword (by decide), Option.bind_eq_bind,
        Option.bind_some]
      exact h.makeArray?_eq a
  | hash =>
      simp only [execute?, Machine.execute, hword (by decide), Option.bind_eq_bind,
        Option.bind_some]
      exact h.makeHash?_eq a
  | closure =>
      simp only [execute?, Machine.execute, hword (by decide), hsecond (by decide),
        Option.bind_eq_bind, Option.bind_some]
      exact h.makeClosure?_eq a b
  | call => exact absurd rfl hcall
  | setLocal => simp [execute?, Machine.execute, hbyte (by decide)]

/-- Every instruction that is carried out with checked sums has the outcome of the machine. -/
lemma execute?_eq (h : m.Bounded l) (op : Opcode) {operands : Code} {a b : Nat} (ha : a < 65536)
    (args : Nat) (hargs : op = .call → a = args)
    (hbyte : op.operandBytes = 1 → byteOperand? operands 0 = some a)
    (hword : 2 ≤ op.operandBytes → wordOperand? operands = some a)
    (hsecond : op.operandBytes = 3 → byteOperand? operands 2 = some b) :
    m.execute? l.stackSize op operands = some ((m.execute op a b).modulo args) := by
  by_cases hcall : op = .call
  · subst hcall
    simp only [execute?, Machine.execute, hbyte (by decide), Option.bind_eq_bind, Option.bind_some,
      ← hargs rfl]
    exact h.call?_eq a
  · rw [h.execute?_eq_of_ne hcall ha hbyte hword hsecond,
      Step.modulo_of_crashes (m.crashes_execute hcall a b)]

end Bounded

/-- The operand bytes of an instruction that is all there. -/
lemma byteOperand?_extract {code : Code} {start n place : Nat} (h : start + n ≤ code.size)
    (hp : place < n) :
    byteOperand? (code.extract start (start + n)) place = some (byteAt code (start + place)) := by
  have hlt : start + place < code.size := by omega
  have hbyte : (code.extract start (start + n))[place]? = some (code.getD (start + place) 0) := by
    rw [Array.getElem?_extract, if_pos (by omega), Array.getD_eq_getD_getElem?,
      Array.getElem?_eq_getElem hlt, Option.getD_some]
  rw [byteOperand?, hbyte]
  rfl

/-- The two bytes of an operand of an instruction that is all there. -/
lemma wordOperand?_extract {code : Code} {start n : Nat} (h : start + n ≤ code.size) (hn : 2 ≤ n) :
    wordOperand? (code.extract start (start + n)) = some (wordAt code start) := by
  have h₀ := byteOperand?_extract h (show 0 < n by omega)
  have h₁ := byteOperand?_extract h (show 1 < n by omega)
  simp only [byteOperand?, Option.bind_eq_bind, Option.pure_def, Option.bind_eq_some_iff,
    Option.some.injEq] at h₀ h₁
  obtain ⟨high, hhigh, heq⟩ := h₀
  obtain ⟨low, hlow, heq'⟩ := h₁
  simp only [wordOperand?, hhigh, hlow, heq, heq', wordAt, Nat.add_zero, Option.bind_eq_bind,
    Option.pure_def, Option.bind_some]

/-- **Within its limits the machine accesses memory only where it is.** -/
theorem Bounded.step?_eq (h : m.Bounded l) : m.step? l.stackSize = some m.stepModulo := by
  unfold step? Machine.stepModulo Machine.step
  dsimp only
  by_cases hend : m.frame.fn.code.size ≤ m.frame.ip
  · rw [if_pos hend, Array.getElem?_eq_none hend, h.leave?_eq .nil]
    dsimp only
    rw [Step.modulo_of_crashes (m.crashes_leave .nil)]
  · have hlt := Nat.not_le.mp hend
    rw [if_neg hend, Array.getElem?_eq_getElem hlt]
    simp only [Option.bind_eq_bind, Option.bind_some]
    cases Opcode.ofByte? m.frame.fn.code[m.frame.ip] with
    | none => rfl
    | some op =>
        by_cases hwhole : m.frame.fn.code.size < m.frame.ip + 1 + op.operandBytes
        · simp only [if_pos hwhole, Step.modulo]
        · simp only [if_neg hwhole]
          have hin := Nat.not_lt.mp hwhole
          refine (h.jump _).execute?_eq op (firstOperand_lt _ _ _) _ (fun hop => ?_) (fun hn => ?_)
            (fun hn => ?_)
            (fun hn => ?_)
          · rw [firstOperand, if_pos (by rw [hop]; rfl)]
          · rw [byteOperand?_extract hin (by omega), firstOperand, if_pos hn]
          · rw [wordOperand?_extract hin hn, firstOperand, if_neg (by omega)]
          · rw [byteOperand?_extract hin (by omega)]

/-! ## All that a machine goes through -/

/-- A machine that was loaded with something and run any number of times, each time for any number
of steps or to whatever end.  Where it would break off it may also have gone on with what is left of
the sum. -/
inductive Arises (l : Limits) : Machine → Prop where
  | load (b : Bytecode) (globals : Array Value) (builtins : List Builtin) (store : Store) :
      Arises l (load b globals l builtins store)
  | run {m : Machine} (h : Arises l m) (fuel : Nat) : Arises l (m.run fuel).machine
  | modulo {m : Machine} (h : Arises l m) : Arises l m.stepModulo.machine

/-- Whatever a machine has gone through, it is within its limits. -/
lemma Arises.bounded (h : Arises l m) : m.Bounded l := by
  induction h with
  | load b globals builtins store => exact bounded_load b globals l builtins store
  | run _ fuel ih => exact ih.run fuel
  | modulo _ ih => exact ih.stepModulo

/-- **The machine never leaves its memory,** whatever it runs and however often, and with sums that
wrap around. -/
theorem Arises.stays_inside (h : Arises l m) :
    m.sp ≤ l.stackSize ∧ m.stack.size = l.stackSize ∧ 65536 ≤ m.globalCount ∧
      m.globals.size ≤ m.globalCount ∧ 1 ≤ m.frameCount ∧ m.frameCount ≤ max 1 l.maxFrames ∧
      (∀ f ∈ m.frame :: m.callers, f.base ≤ l.stackSize) ∧ m.step? l.stackSize = some m.stepModulo ∧
      (m.step.crashes = false → m.stepModulo = m.step) :=
  have hb := h.bounded
  ⟨hb.sp, hb.size, hb.globalCount, hb.globals, Nat.le_add_left _ _, hb.frameCount, hb.base,
    hb.step?_eq,
    fun hstep => Step.modulo_of_crashes hstep _⟩

/-- A function with fewer locals than parameters, which drops values that are not its own, stores
behind the end of the stack and ends in the middle of an instruction. -/
def malformed : Bytecode :=
  ⟨#[31, 0, 0, 0, 31, 0, 0, 0, 25, 1, 200], #[.function ⟨#[1, 1, 1, 28, 8, 28, 1, 32], 0, 1⟩]⟩

/-- The machine has failed in its first run and is in the middle of the second. -/
theorem malformed_stays_inside :
    let first := (load malformed #[] ⟨8, 2, 0⟩ [] .empty).run 20
    let m := (first.machine.run 1).machine
    (match first with | .fault f _ => f = .stackOverflow | _ => False) ∧ m.frameCount = 2 ∧
      m.sp ≤ 8 ∧ m.stack.size = 8 ∧ 65536 ≤ m.globalCount ∧ m.globals.size ≤ m.globalCount ∧
      1 ≤ m.frameCount ∧ m.frameCount ≤ max 1 2 ∧ (∀ f ∈ m.frame :: m.callers, f.base ≤ 8) ∧
      m.step? 8 = some m.stepModulo ∧ (m.step.crashes = false → m.stepModulo = m.step) :=
  ⟨rfl, rfl, Arises.stays_inside (.run (.run (.load malformed #[] [] .empty) 20) 1)⟩

end Machine

end Marmoset
