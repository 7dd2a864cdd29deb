import Marmoset.Proofs.BytecodeFiles
import Marmoset.Proofs.Halting

/-!
# The sums of the machine

The machine adds machine words: the place of the next instruction, the slot of a local, the number
of values that a call takes from the stack, and the stack pointer of a call.  `Machine.exactStep?`
is a step that adds numbers as they are and has no outcome where a sum is no machine word.

* `Machine.exactStep?_eq` — it has the outcome of a step of the machine, and none exactly where that
  breaks off: only the stack pointer of a call can fail to be a machine word.
* `Machine.Holds` — what is known of all functions that can be called stays known of them.
* `Bytecode.size_lt_of_ofBytes` — what is read from a file is no longer than the file.
* **`Machine.Serves.steps_exactly`** — so whatever is in the file, a step is exact unless it calls a
  function of the file that asks for nearly as many locals as there are machine words, and then the
  machine breaks off.
* `Machine.greedy_crashes` — such a function can be called: a file is read without an error, and its
  run breaks off.

A push adds one to a stack pointer below the size of the stack, which is a machine word; there is
nothing to check.
-/

namespace Marmoset

/-- A block of memory has fewer bytes than this. -/
def blockBound : Nat := 0x8000000000000000

/-- The sum of two numbers, if it is a machine word. -/
def wordSum? (a b : Nat) : Option Nat :=
  if a + b < UInt64.size then some (a + b) else none

/-- A sum that is a machine word is itself. -/
lemma wordSum?_eq {a b : Nat} (h : a + b < UInt64.size) : wordSum? a b = some (a + b) :=
  if_pos h

/-- The outcome of a step that does not break off. -/
def Step.intact? : Step → Option Step
  | .crash _ => none
  | s => some s

lemma Step.intact?_fault (f : Fault) (m : Machine) : (Step.fault f m).intact? = some (.fault f m) :=
  rfl

/-- A step that does not break off is its own outcome. -/
lemma Step.intact?_of_crashes {s : Step} (h : s.crashes = false) : s.intact? = some s := by
  cases s with
  | crash m => cases h
  | next m | done m | fault f m => rfl

namespace Machine

/-! ## Steps with exact sums -/

def exactCallClosure? (m : Machine) (ref : Nat) (c : Closure) (args : Nat) : Option Step :=
  if c.fn.params.toNat ≠ args then some (.fault (.wrongArgumentCount c.fn.params.toNat args) m)
  else do
    let base := m.sp - args
    let sp ← wordSum? base c.fn.locals.toNat
    if m.stack.size < sp then return .fault .stackOverflow m
    else if m.maxFrames ≤ m.frameCount then return .fault (.frameOverflow m.maxFrames) m
    else return .next { m with
      frame := ⟨ref, c.fn, c.free, 0, base⟩, callers := m.frame :: m.callers, sp }

def exactCall? (m : Machine) (args : Nat) : Option Step := do
  let depth ← wordSum? args 1
  if m.sp < depth then return .fault .stackUnderflow m
  else
    match m.stack.getD (m.sp - depth) .nil with
    | .closure ref =>
      match m.store.closures[ref]? with
      | some c => m.exactCallClosure? ref c args
      | none => return .fault (.notCallable .closure) m
    | .builtin b =>
      let sp := m.sp - depth
      let (v, store) := b.call m.store (m.top args).toList
      return { m with sp, store }.push v
    | v => return .fault (.notCallable v.kind) m

def exactSetLocal? (m : Machine) (index : Nat) : Option Step := do
  let slot ← wordSum? m.frame.base index
  let (v, m) := m.pop
  if slot < m.stack.size then return .next { m with stack := m.stack.setIfInBounds slot v }
  else return .fault .stackOverflow m

def exactGetLocal? (m : Machine) (index : Nat) : Option Step := do
  let slot ← wordSum? m.frame.base index
  match m.stack[slot]? with
  | some v => return m.push v
  | none => return .fault .stackOverflow m

/-- Carries out an instruction; the others add nothing. -/
def exactExecute? (m : Machine) (op : Opcode) (a b : Nat) : Option Step :=
  match op with
  | .call => m.exactCall? a
  | .setLocal => m.exactSetLocal? a
  | .getLocal => m.exactGetLocal? a
  | op => some (m.execute op a b)

/-- One step with exact sums, if they are machine words. -/
def exactStep? (m : Machine) : Option Step :=
  let code := m.frame.fn.code
  let ip := m.frame.ip
  match code[ip]? with
  | none => some (m.leave .nil)
  | some byte =>
    match Opcode.ofByte? byte with
    | none => some (.fault (.undefinedOpcode byte ip) m)
    | some op => do
      let first ← wordSum? ip 1
      let next ← wordSum? first op.operandBytes
      if code.size < next then return .fault (.truncatedInstruction op ip) m
      else
        let a := firstOperand code op ip
        let b := byteAt code (ip + 3)
        (m.jump next).exactExecute? op a b

variable {m m' : Machine} {l : Limits}

/-- A call of a closure fails to be exact only where its stack pointer would be no machine word. -/
lemma exactCallClosure?_eq (m : Machine) (ref : Nat) (c : Closure) (args : Nat) :
    m.exactCallClosure? ref c args = (m.callClosure ref c args).intact? := by
  unfold exactCallClosure? callClosure
  dsimp only
  by_cases hparams : c.fn.params.toNat ≠ args
  · rw [if_pos hparams, if_pos hparams, Step.intact?_fault]
  · rw [if_neg hparams, if_neg hparams]
    by_cases hsum : m.sp - args + c.fn.locals.toNat < UInt64.size
    · rw [wordSum?_eq hsum, if_neg (Nat.not_le.mpr hsum)]
      simp only [Option.bind_some, bind, pure]
      split
      · rfl
      · split <;> rfl
    · rw [wordSum?, if_neg hsum, if_pos (Nat.not_lt.mp hsum)]
      rfl

/-- The count of the arguments and the function is a machine word. -/
lemma exactCall?_eq {args : Nat} (hargs : args < 65536) :
    m.exactCall? args = (m.call args).intact? := by
  have hdepth : args + 1 < UInt64.size := by
    simp only [UInt64.size]
    omega
  simp only [exactCall?, wordSum?_eq hdepth, call, bind, Option.bind_some, pure]
  by_cases hroom : m.sp < args + 1
  · rw [if_pos hroom, if_pos hroom, Step.intact?_fault]
  · rw [if_neg hroom, if_neg hroom]
    cases hv : m.stack.getD (m.sp - (args + 1)) .nil with
    | closure ref =>
        dsimp only
        cases hc : m.store.closures[ref]? with
        | none => rfl
        | some c => exact m.exactCallClosure?_eq ref c args
    | builtin b => exact (Step.intact?_of_crashes (crashes_push _ _)).symm
    | _ => rfl

/-- The slot of a local is near the base of its call. -/
lemma slot_lt (hbase : m.frame.base < blockBound) {index : Nat} (hindex : index < 65536) :
    m.frame.base + index < UInt64.size := by
  simp only [UInt64.size, blockBound] at hbase ⊢
  omega

/-- An instruction that does not call has the outcome of the machine. -/
lemma exactExecute?_of_ne (hbase : m.frame.base < blockBound) {op : Opcode} (hop : op ≠ .call)
    {a : Nat} (ha : a < 65536) (b : Nat) : m.exactExecute? op a b = some (m.execute op a b) := by
  cases op with
  | call => exact absurd rfl hop
  | setLocal =>
      simp only [exactExecute?, exactSetLocal?, wordSum?_eq (slot_lt hbase ha), execute,
        setLocal, bind, Option.bind_some]
      split <;> rfl
  | getLocal =>
      simp only [exactExecute?, exactGetLocal?, wordSum?_eq (slot_lt hbase ha), execute,
        getLocal, bind, Option.bind_some]
      cases m.stack[m.frame.base + a]? <;> rfl
  | _ => rfl

/-- Only calls and locals add; what they add to is less than the bound. -/
lemma exactExecute?_eq (hbase : m.frame.base < blockBound) (op : Opcode) {a : Nat} (ha : a < 65536)
    (b : Nat) :
    m.exactExecute? op a b = (m.execute op a b).intact? := by
  by_cases hop : op = .call
  · subst hop
    exact exactCall?_eq ha
  · rw [exactExecute?_of_ne hbase hop ha b, Step.intact?_of_crashes (m.crashes_execute hop a b)]

/-- No instruction has more than three bytes of operands. -/
lemma operandBytes_le (op : Opcode) : op.operandBytes ≤ 3 := by
  cases op <;> decide

/-- **A step is exact unless it breaks off,** if stack and code have fewer bytes than there are
places in memory. -/
theorem exactStep?_eq (h : m.Bounded l) (hl : l.areFeasible = true)
    (hcode : m.frame.fn.code.size < blockBound) :
    m.exactStep? = m.step.intact? := by
  have hsize : l.stackSize < blockBound := by
    simp only [Limits.areFeasible, decide_eq_true_eq] at hl
    simp only [blockBound]
    omega
  have hbase := h.base m.frame List.mem_cons_self
  simp only [exactStep?, step]
  cases hbyte : m.frame.fn.code[m.frame.ip]? with
  | none => exact (Step.intact?_of_crashes (m.crashes_leave .nil)).symm
  | some byte =>
      dsimp only
      cases hop : Opcode.ofByte? byte with
      | none => rfl
      | some op =>
          obtain ⟨hip, -⟩ := Array.getElem?_eq_some_iff.mp hbyte
          have hwidth := operandBytes_le op
          have hnext : m.frame.ip + 1 + op.operandBytes < UInt64.size := by
            simp only [UInt64.size, blockBound] at hcode ⊢
            omega
          have hfirst : m.frame.ip + 1 < UInt64.size :=
            Nat.lt_of_le_of_lt (Nat.le_add_right _ _) hnext
          simp only [wordSum?_eq hfirst, wordSum?_eq hnext, bind, Option.bind_some]
          by_cases htrunc : m.frame.fn.code.size < m.frame.ip + 1 + op.operandBytes
          · rw [if_pos htrunc, if_pos htrunc]
            rfl
          · rw [if_neg htrunc, if_neg htrunc]
            have ha := firstOperand_lt m.frame.fn.code op m.frame.ip
            exact exactExecute?_eq (m := m.jump (m.frame.ip + 1 + op.operandBytes))
              (Nat.lt_of_le_of_lt hbase hsize) op ha (byteAt m.frame.fn.code (m.frame.ip + 3))

/-! ## The functions that can run -/

/-- The functions of the calls that are going on. -/
def running (m : Machine) : List CompiledFunction :=
  (m.frame :: m.callers).map Frame.fn

/-- The calls after an instruction run functions that were running before, or functions of
closures. -/
def CallsFrom (m m' : Machine) : Prop :=
  ∀ fn ∈ m'.running, fn ∈ m.running ∨ ∃ c ∈ m.store.closures, c.fn = fn

/-- Nothing new is run where the calls stay as they are. -/
lemma CallsFrom.of_eq (h : m'.running = m.running) : m.CallsFrom m' := by
  intro fn hfn
  rw [h] at hfn
  exact .inl hfn

lemma running_push (v : Value) : (m.push v).machine.running = m.running := by
  unfold push
  split <;> rfl

lemma running_pushResult (r : Except Fault Value) :
    (m.pushResult r).machine.running = m.running := by
  cases r with
  | ok v => exact running_push v
  | error f => rfl

/-- Leaving a call leaves those around it. -/
lemma callsFrom_leave (v : Value) : m.CallsFrom (m.leave v).machine := by
  unfold leave
  split
  · exact .of_eq rfl
  · next caller callers hc =>
      intro fn hfn
      rw [returnTo, running_push] at hfn
      refine .inl (List.mem_cons_of_mem _ ?_)
      rw [hc]
      exact hfn

/-- A call runs the function of a closure, besides those that are running. -/
lemma callsFrom_call (args : Nat) : m.CallsFrom (m.call args).machine := by
  unfold call
  split
  · exact .of_eq rfl
  · split
    · split
      · next c hc =>
          unfold callClosure
          dsimp only
          split_ifs
          · exact .of_eq rfl
          · exact .of_eq rfl
          · exact .of_eq rfl
          · exact .of_eq rfl
          · intro fn hfn
            rcases List.mem_cons.mp hfn with rfl | hfn
            · exact .inr ⟨c, Array.mem_of_getElem? hc, rfl⟩
            · exact .inl hfn
      · exact .of_eq rfl
    · exact .of_eq (running_push _)
    · exact .of_eq rfl

/-- Only a call and a return change what is running. -/
lemma callsFrom_execute (op : Opcode) (a b : Nat) : m.CallsFrom (m.execute op a b).machine := by
  cases op with
  | call => exact callsFrom_call a
  | returnValue => exact callsFrom_leave (m := m.pop.2) _
  | returnNil => exact callsFrom_leave _
  | add | sub | mul | div | equal | notEqual | greater | greaterEqual | and | or | minus | bang
  | getIndex =>
      simp only [execute, binary, unary, getIndex]
      exact .of_eq (running_pushResult _)
  | pushTrue | pushFalse | pushNil | getGlobal | currentClosure => exact .of_eq (running_push _)
  | pop | setGlobal | jump => exact .of_eq rfl
  | constant | array | hash | closure | setIndex | jumpNotTruthy | setLocal | getLocal | getBuiltin
  | getFree =>
      simp only [execute, loadConstant, makeArray, makeHash, makeClosure, setIndex,
        setLocal, getLocal]
      repeat' split
      all_goals first | exact .of_eq rfl | exact .of_eq (running_push _)

/-- So it is with every step. -/
lemma callsFrom_step (m : Machine) : m.CallsFrom m.step.machine := by
  unfold step
  dsimp only
  split
  · exact callsFrom_leave _
  · split
    · exact .of_eq rfl
    · split
      · exact .of_eq rfl
      · exact callsFrom_execute (m := m.jump _) _ _ _

/-- All functions that the machine can come to run satisfy `P`. -/
structure Holds (P : CompiledFunction → Prop) (m : Machine) : Prop where
  constants : ∀ fn, Constant.function fn ∈ m.constants → P fn
  closures : ∀ c ∈ m.store.closures, P c.fn
  running : ∀ fn ∈ m.running, P fn

variable {P : CompiledFunction → Prop}

/-- What holds of all functions that can run goes on to hold in a step. -/
lemma Holds.step (h : m.Holds P) : m.step.machine.Holds P where
  constants := by
    rw [m.constants_step]
    exact h.constants
  closures c hc := (m.closuresFrom_step c hc).elim (h.closures c) (h.constants c.fn)
  running fn hfn := by
    rcases m.callsFrom_step fn hfn with hfn | ⟨c, hc, rfl⟩
    · exact h.running fn hfn
    · exact h.closures c hc

/-- What holds of all functions that can run goes on to hold in a run. -/
lemma Holds.run (h : m.Holds P) (fuel : Nat) : (m.run fuel).machine.Holds P :=
  run_keeps (fun _ => Holds.step) h fuel

end Machine

/-! ## What a file can hold -/

namespace File

/-- What was read satisfies `P`, and fewer than `bound` bytes are left. -/
def Leaves {α : Type} (bound : Nat) (P : α → Prop) (r : Except FileError (α × List UInt8)) : Prop :=
  ∀ a rest, r = .ok (a, rest) → P a ∧ rest.length < bound

variable {α β : Type} {bound : Nat} {P : α → Prop} {Q : β → Prop} {bytes : List UInt8}

lemma leaves_ok {a : α} (ha : P a) (h : bytes.length < bound) :
    Leaves bound P (.ok (a, bytes)) := by
  rintro _ _ ⟨⟩
  exact ⟨ha, h⟩

/-- Where nothing was read nothing is claimed. -/
lemma leaves_error (e : FileError) : Leaves bound P (.error e) := by
  rintro _ _ ⟨⟩

/-- One part of a file after the other. -/
lemma Leaves.bind {r : Except FileError (α × List UInt8)}
    {f : α × List UInt8 → Except FileError (β × List UInt8)} (h : Leaves bound P r)
    (hf : ∀ a rest, P a → rest.length < bound → Leaves bound Q (f (a, rest))) :
    Leaves bound Q (r >>= f) := by
  cases r with
  | error e => exact leaves_error e
  | ok r =>
      obtain ⟨ha, hrest⟩ := h r.1 r.2 rfl
      exact hf r.1 r.2 ha hrest

/-- A number takes at least one byte. -/
lemma leaves_readWithin (last budget : Nat) (h : bytes.length < bound) :
    Leaves bound (fun _ => True) (Varint.readWithin last budget bytes) := by
  induction budget generalizing bytes with
  | zero => exact leaves_error _
  | succ budget ih =>
      cases bytes with
      | nil => exact leaves_error _
      | cons b bytes =>
          have hrest : bytes.length < bound := Nat.lt_of_succ_lt h
          rw [Varint.readWithin]
          split_ifs
          · exact leaves_error _
          · exact leaves_ok trivial hrest
          · have hmore := ih hrest
            cases hr : Varint.readWithin last budget bytes with
            | error e => exact leaves_error e
            | ok r => exact leaves_ok trivial (hmore r.1 r.2 hr).2

/-- The bytes that are taken are among those that were left. -/
lemma leaves_readBytes (n : Nat) (h : bytes.length < bound) :
    Leaves bound (fun taken => taken.length < bound) (readBytes n bytes) := by
  unfold readBytes
  dsimp only
  split
  · exact leaves_error _
  · exact leaves_ok (by rw [List.length_take]; omega) (by rw [List.length_drop]; omega)

/-- Code has no more bytes than the file. -/
lemma leaves_readCode (h : bytes.length < bound) :
    Leaves bound (fun code => code.size < bound) (readCode bytes) :=
  (leaves_readWithin 1 10 h).bind fun n _ _ h =>
    (leaves_readBytes n h).bind fun _ _ htaken h => leaves_ok htaken h

/-- So has the code of a function. -/
lemma leaves_readFunction (h : bytes.length < bound) :
    Leaves bound (fun fn => fn.code.size < bound) (readFunction bytes) :=
  (leaves_readCode h).bind fun _ _ hcode h =>
    (leaves_readWithin 1 10 h).bind fun _ _ _ h =>
      (leaves_readWithin 1 10 h).bind fun _ _ _ h => leaves_ok hcode h

/-- The code of a constant, if it is a function, has fewer than `bound` bytes. -/
def Short (bound : Nat) (k : Constant) : Prop :=
  ∀ fn, k = .function fn → fn.code.size < bound

lemma leaves_readString (h : bytes.length < bound) :
    Leaves bound (fun _ => True) (readString bytes) := by
  refine (leaves_readWithin 1 10 h).bind fun n _ _ h =>
    (leaves_readBytes n h).bind fun taken _ _ h => ?_
  dsimp only
  split
  · exact leaves_ok trivial h
  · exact leaves_error _

/-- A constant that is a function has its code in the file. -/
lemma leaves_readConstant (h : bytes.length < bound) :
    Leaves bound (Short bound) (readConstant bytes) := by
  refine (leaves_readWithin 15 5 h).bind fun tag _ _ h => ?_
  dsimp only
  split
  · exact (leaves_readWithin 1 10 h).bind fun _ _ _ h => leaves_ok (by simp [Short]) h
  · refine Leaves.bind (P := fun _ => True) ?_ fun _ _ _ h => leaves_ok (by simp [Short]) h
    exact (leaves_readBytes 8 h).bind fun _ _ _ h => leaves_ok trivial h
  · exact (leaves_readString h).bind fun _ _ _ h => leaves_ok (by simp [Short]) h
  · refine (leaves_readFunction h).bind fun fn _ hfn h => leaves_ok ?_ h
    rintro _ ⟨⟩
    exact hfn
  · exact leaves_error _

/-- The induction is on the number of constants that are still to be read. -/
lemma leaves_readConstants (n : Nat) {acc : Array Constant} (hacc : ∀ k ∈ acc, Short bound k)
    (h : bytes.length < bound) :
    Leaves bound (fun ks => ∀ k ∈ ks, Short bound k) (readConstants acc n bytes) := by
  induction n generalizing acc bytes with
  | zero => exact leaves_ok hacc h
  | succ n ih =>
      have hfirst := leaves_readConstant h
      rw [readConstants]
      cases hr : readConstant bytes with
      | error e => exact leaves_error e
      | ok r =>
          obtain ⟨hk, hrest⟩ := hfirst r.1 r.2 hr
          refine ih (fun k hmem => ?_) hrest
          rcases Array.mem_push.mp hmem with hmem | rfl
          · exact hacc k hmem
          · exact hk

/-- All code of a program was in the file. -/
lemma leaves_readProgram (h : bytes.length < bound) :
    Leaves bound (fun b => b.code.size < bound ∧ ∀ k ∈ b.constants, Short bound k)
      (readProgram bytes) := by
  refine (leaves_readCode h).bind fun code _ hcode h => ?_
  refine Leaves.bind (P := fun ks : Array Constant => ∀ k ∈ ks, Short bound k) ?_ fun _ _ hks h =>
    leaves_ok ⟨hcode, hks⟩ h
  exact (leaves_readWithin 1 10 h).bind fun n _ _ h => leaves_readConstants n (by simp) h

end File

/-- All code in a file has fewer bytes than the file may have. -/
lemma Bytecode.size_lt_of_ofBytes {bytes : List UInt8} {b : Bytecode} {bound : Nat}
    (h : bytes.length < bound) (hb : Bytecode.ofBytes bytes = .ok b) :
    b.code.size < bound ∧ ∀ fn, Constant.function fn ∈ b.constants → fn.code.size < bound := by
  rw [File.ofBytes_eq] at hb
  cases hr : File.readProgram bytes with
  | error e =>
      rw [hr] at hb
      cases hb
  | ok r =>
      rw [hr] at hb
      cases hb
      obtain ⟨⟨hcode, hks⟩, -⟩ := File.leaves_readProgram h r.1 r.2 hr
      exact ⟨hcode, fun fn hfn => hks _ hfn fn rfl⟩

/-! ## Whatever is in the file -/

namespace Machine

/-- A machine that was loaded with the program and nothing to call besides, and run any number of
times, each time for any number of steps or to whatever end. -/
inductive Serves (b : Bytecode) (l : Limits) : Machine → Prop where
  | load (globals : Array Value) (builtins : List Builtin) {store : Store}
      (h : store.closures = #[]) :
      Serves b l (load b globals l builtins store)
  | run {m : Machine} (h : Serves b l m) (fuel : Nat) : Serves b l (m.run fuel).machine

namespace Serves

variable {b : Bytecode} {l : Limits} {m : Machine}

/-- However it was supplied and run, the machine arises under these limits. -/
lemma arises (h : Serves b l m) : Arises l m := by
  induction h with
  | load globals builtins _ => exact .load b globals builtins _
  | run _ fuel ih => exact .run ih fuel

/-- What is called is the program itself or one of its functions. -/
lemma holds (h : Serves b l m) :
    m.Holds fun fn => fn = ⟨b.code, 0, 0⟩ ∨ Constant.function fn ∈ b.constants := by
  induction h with
  | load globals builtins hstore =>
      refine ⟨fun fn hfn => .inr hfn, fun c hc => ?_, fun fn hfn => ?_⟩
      · have hmain : c = ⟨⟨b.code, 0, 0⟩, #[]⟩ := by
          simpa [Machine.load, Store.reserve, Store.newClosure, hstore] using hc
        rw [hmain]
        exact .inl rfl
      · exact .inl (List.mem_singleton.mp hfn)
  | run _ fuel ih => exact ih.run fuel

/-- Where the machine breaks off, it calls a function of the file. -/
lemma exists_function_of_crash (h : Serves b l m) (hl : l.areFeasible = true) {m' : Machine}
    (hm : m.step = .crash m') :
    ∃ fn, Constant.function fn ∈ b.constants ∧
      UInt64.size ≤ m'.sp - fn.params.toNat + fn.locals.toNat := by
  obtain ⟨c, hc, -, hsum⟩ := overreaches_of_step hm
  have hholds := h.holds.step
  have hbounded := h.arises.bounded.step
  rw [hm] at hholds hbounded
  rcases hholds.closures c hc with hfn | hfn
  · -- the program itself has no locals
    have hsp : m'.sp ≤ l.stackSize := hbounded.sp
    rw [hfn] at hsum
    simp only [Limits.areFeasible, decide_eq_true_eq] at hl
    simp only [UInt64.size, UInt64.toNat_zero] at hsum
    omega
  · exact ⟨c.fn, hfn, hsum⟩

/-- **The sums of the machine are exact,** whatever is in the file that was loaded and however often
it is run: a step has a sum that is no machine word only if it calls a function of the file that
asks for so many locals that they do not fit behind the stack, and with that sum the machine breaks
off. -/
theorem steps_exactly {bytes : List UInt8} (hb : Bytecode.ofBytes bytes = .ok b)
    (hbytes : bytes.length < blockBound) (hl : l.areFeasible = true) (h : Serves b l m) :
    (m.exactStep? = some m.step ∧ ∀ m', m.step ≠ .crash m') ∨
      m.exactStep? = none ∧ ∃ m', m.step = .crash m' ∧ m'.sp ≤ l.stackSize ∧
        ∃ fn, Constant.function fn ∈ b.constants ∧
        UInt64.size ≤ m'.sp - fn.params.toNat + fn.locals.toNat := by
  obtain ⟨hmain, hfunctions⟩ := Bytecode.size_lt_of_ofBytes hbytes hb
  have hcode : m.frame.fn.code.size < blockBound := by
    rcases h.holds.running m.frame.fn List.mem_cons_self with hfn | hfn
    · rw [hfn]
      exact hmain
    · exact hfunctions _ hfn
  have hbounded := h.arises.bounded.step
  rw [exactStep?_eq h.arises.bounded hl hcode]
  cases hm : m.step with
  | crash m' =>
      rw [hm] at hbounded
      exact .inr ⟨rfl, m', rfl, hbounded.sp, h.exists_function_of_crash hl hm⟩
  | next m' | done m' | fault f m' => exact .inl ⟨rfl, fun _ h => by cases h⟩

end Serves

/-- The file with a function that stores behind the end of the stack, in the middle of its second
run. -/
theorem malformed_steps_exactly :
    let m := (((load malformed #[] ⟨8, 2, 0⟩ [] .empty).run 20).machine.run 1).machine
    Bytecode.ofBytes malformed.toBytes = .ok malformed ∧ m.frameCount = 2 ∧
    m.exactStep? = some m.step := by
  have hfile : Bytecode.ofBytes malformed.toBytes = .ok malformed := by decide +kernel
  have hmodest : ∀ fn, Constant.function fn ∈ malformed.constants → fn.locals.toNat = 0 := by
    intro fn hfn
    have hfn : fn = ⟨#[1, 1, 1, 28, 8, 28, 1, 32], 0, 1⟩ := by simpa [malformed] using hfn
    rw [hfn]
    rfl
  have hserves : Serves malformed ⟨8, 2, 0⟩
      (((load malformed #[] ⟨8, 2, 0⟩ [] .empty).run 20).machine.run 1).machine :=
    .run (.run (.load #[] [] rfl) 20) 1
  rcases Serves.steps_exactly hfile (by decide +kernel) (by decide) hserves with h
    | ⟨-, m', -, hsp, fn, hfn, hsum⟩
  · exact ⟨hfile, rfl, h.1⟩
  · -- no function of the file has a local
    rw [hmodest fn hfn, UInt64.size] at hsum
    dsimp only at hsp
    omega

/-- A program that calls a function, which has no code, no parameters and as many locals as a
machine word can say. -/
def greedy : Bytecode :=
  ⟨#[31, 0, 0, 0, 25, 0, 1], #[.function ⟨#[], 18446744073709551615, 0⟩]⟩

/-- The program as a file. -/
def greedyFile : List UInt8 :=
  [7, 31, 0, 0, 0, 25, 0, 1, 1, 3, 0, 255, 255, 255, 255, 255, 255, 255, 255, 255, 1, 0]

/-- The machine that is about to call the function. -/
def aboutToCall : Machine :=
  ((load greedy #[] .standard Builtin.table .empty).run 1).machine

/-- The file is read without an error, the call is no step with exact sums, and the machine meets no
fault: it breaks off. -/
theorem greedy_crashes :
    Bytecode.ofBytes greedyFile = .ok greedy ∧ aboutToCall.exactStep?.isNone = true ∧
      ((load greedy #[] .standard Builtin.table .empty).run 2).crashes = true := by
  decide +kernel

end Machine

end Marmoset
