import Marmoset.Proofs.CallSteps
import Marmoset.Proofs.Leads
import Marmoset.Proofs.MemoryBounds
import Marmoset.Proofs.SafeSessions

/-!
# Every run of compiled code comes to an end

The language has no loops, but functions may call themselves and each other.  A run ends all the
same: within a call the machine only goes forward (`CompiledFunction.Forward`), and no more than a
fixed number of calls can be going on at once.

The measure is a number written in a base that is greater than every piece of code
(`Machine.remaining`).  Each call that is going on has a digit, what is left of its code, and the
calls that could still be made inside are zeros behind it.  A new call puts its own code in the
place of a zero, but its caller has moved on by then; a call that returns leaves a zero behind.

* `Machine.closures_run` — the closures after a run are those from before and closures of the
  constants.
* **`Machine.Guided.step`** — the measure gets smaller with each step.
* **`Session.Reached.run_halts`** — the machine comes to an end, whatever inputs came before and
  whatever its limits are: it is done or has met a fault, and it breaks off in a sum only on a stack
  that cannot be had.
-/

namespace Marmoset

/-- The code is read instruction by instruction and jumps only forward. -/
def CompiledFunction.Forward (fn : CompiledFunction) : Prop :=
  ∃ is, fn.code.Reads is ∧ JumpsForward is

/-- Beside its parameters the function has no more locals than one byte counts. -/
def CompiledFunction.Slim (fn : CompiledFunction) : Prop :=
  fn.locals.toNat ≤ max fn.params.toNat 256

namespace Machine

/-! ## What an instruction does to the calls and closures -/

/-- The call that runs next and those around it: the same as before, a new one around which is the
one before, or the one that was waiting. -/
inductive Moves (m : Machine) : Frame → List Frame → Prop where
  | stays : Moves m m.frame m.callers
  | calls {c : Closure} (hc : c ∈ m.store.closures) (room : m.frameCount < m.maxFrames)
      (ref base : Nat) :
      Moves m ⟨ref, c.fn, c.free, 0, base⟩ (m.frame :: m.callers)
  | returns {caller : Frame} {callers : List Frame} (hc : m.callers = caller :: callers) :
      Moves m caller callers

variable {m m₁ m' : Machine}

/-- What leaves the calls as they are moves nowhere. -/
lemma SameCalls.moves (h : m.SameCalls m') : m.Moves m'.frame m'.callers := by
  rw [h.1, h.2]
  exact .stays

/-- An instruction that is no jump goes on with what stands behind it, or in another call. -/
lemma moves_execute {op : Opcode} (hj : op ≠ .jump) (hj' : op ≠ .jumpNotTruthy) {a b : Nat}
    (hm : m.execute op a b = .next m') : m.Moves m'.frame m'.callers := by
  cases op with
  | jump | jumpNotTruthy => contradiction
  | call =>
      rcases next_call hm with hsame | ⟨ref, c, hc, hm⟩
      · exact hsame.moves
      · obtain ⟨-, hroom, hf, hcs⟩ := next_callClosure hm
        rw [hf, hcs]
        exact .calls (Array.mem_of_getElem? hc) hroom _ _
  | returnValue =>
      have hcallers := (next_leave (m := m.pop.2) hm).1
      exact .returns hcallers
  | returnNil => exact .returns (next_leave hm).1
  | _ => exact (next_execute (by decide) hm).moves

/-- The closures after an instruction are those from before and closures of constants. -/
def ClosuresFrom (m m' : Machine) : Prop :=
  ∀ c ∈ m'.store.closures, c ∈ m.store.closures ∨ Constant.function c.fn ∈ m.constants

/-- No closure was made. -/
lemma ClosuresFrom.of_eq {m' : Machine} (h : m'.store.closures = m.store.closures) :
    m.ClosuresFrom m' := by
  intro c hc
  rw [h] at hc
  exact .inl hc

/-- Two parts of an instruction, of which the first leaves the constants. -/
lemma ClosuresFrom.trans {m₂ : Machine} (h : m.ClosuresFrom m₁)
    (hconst : m₁.constants = m.constants) (h' : m₁.ClosuresFrom m₂) : m.ClosuresFrom m₂ := by
  intro c hc
  rcases h' c hc with hc | hc
  · exact h c hc
  · rw [hconst] at hc
    exact .inr hc

lemma store_push (v : Value) : (m.push v).machine.store = m.store := by
  unfold push
  split <;> rfl

lemma store_pushResult (r : Except Fault Value) : (m.pushResult r).machine.store = m.store := by
  cases r with
  | ok v => exact store_push v
  | error f => rfl

lemma store_leave (v : Value) : (m.leave v).machine.store = m.store := by
  unfold leave returnTo
  split
  · rfl
  · exact store_push v

/-- Builtins make no closures. -/
lemma closures_builtin (f : Builtin) (s : Store) (args : List Value) :
    (f.call s args).2.closures = s.closures :=
  have hall : s.All fun _ => True := ⟨by simp, by simp, by simp⟩
  (Builtin.call_keeps (by simp) hall f (by simp)).2.2

/-- A call makes no closure, whatever is called. -/
lemma closuresFrom_call (args : Nat) : m.ClosuresFrom (m.call args).machine := by
  unfold call callClosure
  dsimp only
  repeat' split
  all_goals
    apply ClosuresFrom.of_eq
    first | rfl | rw [store_push, closures_builtin]

/-- A closure is made of a constant. -/
lemma closuresFrom_makeClosure (index n : Nat) :
    m.ClosuresFrom (m.makeClosure index n).machine := by
  unfold makeClosure
  split
  · exact .of_eq rfl
  · rename_i fn hfn
    split
    · exact .of_eq rfl
    · intro c hc
      rw [store_push] at hc
      rcases Array.mem_push.mp hc with hc | rfl
      · exact .inl hc
      · exact .inr (Array.mem_of_getElem? hfn)
  · exact .of_eq rfl

lemma closuresFrom_makeHash (n : Nat) : m.ClosuresFrom (m.makeHash n).machine := by
  have hall : m.store.All fun _ => True := ⟨by simp, by simp, by simp⟩
  have hhash := hall.gives_buildHash (by simp) (show ∀ v ∈ (m.top n).toList, True by simp)
  unfold makeHash
  split
  · exact .of_eq rfl
  · cases hb : m.store.buildHash (m.top n).toList with
    | error f => exact .of_eq rfl
    | ok r =>
        rw [hb] at hhash
        apply ClosuresFrom.of_eq
        rw [store_push]
        exact hhash.2.2

lemma closuresFrom_setIndex : m.ClosuresFrom m.setIndex.machine := by
  have hall : m.store.All fun _ => True := ⟨by simp, by simp, by simp⟩
  have hset := hall.gives_setIndex m.pop.2.pop.2.pop.1 m.pop.2.pop.1 (v := m.pop.1) trivial
  unfold setIndex
  dsimp only
  split
  · rename_i store hs
    rw [show m.pop.2.pop.2.pop.2.store = m.store from rfl] at hs
    rw [hs] at hset
    exact .of_eq hset.2
  · exact .of_eq rfl

/-- Of all instructions only one makes closures. -/
lemma closuresFrom_execute (op : Opcode) (a b : Nat) :
    m.ClosuresFrom (m.execute op a b).machine := by
  cases op with
  | call => exact closuresFrom_call a
  | closure => exact closuresFrom_makeClosure a b
  | hash => exact closuresFrom_makeHash a
  | setIndex => exact closuresFrom_setIndex
  | add | sub | mul | div | equal | notEqual | greater | greaterEqual | and | or | minus | bang
  | getIndex =>
      simp only [execute, binary, unary, getIndex]
      exact .of_eq (congrArg Store.closures (store_pushResult _))
  | pushTrue | pushFalse | pushNil | getGlobal | currentClosure =>
      exact .of_eq (congrArg Store.closures (store_push _))
  | pop | setGlobal | jump => exact .of_eq rfl
  | returnValue => exact .of_eq (congrArg Store.closures (store_leave (m := m.pop.2) _))
  | returnNil => exact .of_eq (congrArg Store.closures (store_leave _))
  | constant | array | jumpNotTruthy | setLocal | getLocal | getBuiltin | getFree =>
      simp only [execute, loadConstant, makeArray, setLocal, getLocal]
      split
      all_goals
        apply ClosuresFrom.of_eq
        first | rfl | exact (congrArg Store.closures (store_push _)).trans rfl

/-- So it is with every step. -/
lemma closuresFrom_step (m : Machine) : m.ClosuresFrom m.step.machine := by
  unfold step
  dsimp only
  split
  · exact .of_eq (congrArg Store.closures (store_leave _))
  · split
    · exact .of_eq rfl
    · split
      · exact .of_eq rfl
      · exact closuresFrom_execute _ _ _

/-- A run makes closures of constants only. -/
lemma closures_run (fuel : Nat) : m.ClosuresFrom (m.run fuel).machine := by
  have hkeeps : m.ClosuresFrom (m.run fuel).machine ∧
      (m.run fuel).machine.constants = m.constants :=
    run_keeps (P := fun n => m.ClosuresFrom n ∧ n.constants = m.constants)
      (fun n h => ⟨h.1.trans h.2 n.closuresFrom_step, n.constants_step.trans h.2⟩)
        ⟨.of_eq rfl, rfl⟩ fuel
  exact hkeeps.1

/-! ## The measure -/

end Machine

/-- The call is at an instruction of code that goes forward, or at its end. -/
def Frame.OnTrack (f : Frame) : Prop :=
  ∃ before after, f.fn.code.Reads (before ++ after) ∧ f.ip = extent before ∧
    JumpsForward (before ++ after)

/-- What is left of the code, and the return at the end. -/
def Frame.left (f : Frame) : Nat :=
  f.fn.code.size - f.ip + 1

/-- The digits of the calls, the innermost last. -/
def digits (base : Nat) : List Frame → Nat
  | [] => 0
  | f :: fs => digits base fs * base + f.left

/-- A number with so many zeros behind it. -/
def withZeros (base : Nat) : (zeros : Nat) → Nat → Nat
  | 0, x => x
  | zeros + 1, x => withZeros base zeros (x * base)

/-- Zeros behind both numbers keep their order. -/
lemma withZeros_lt {base : Nat} (hb : 0 < base) (zeros : Nat) {x y : Nat} (h : x < y) :
    withZeros base zeros x < withZeros base zeros y := by
  induction zeros generalizing x y with
  | zero => exact h
  | succ zeros ih => exact ih (Nat.mul_lt_mul_of_pos_right h hb)

namespace Machine

/-- How much the machine can still do, if no code is as long as `base` and `limit` calls can be
going on at once. -/
def remaining (base limit : Nat) (m : Machine) : Nat :=
  withZeros base (limit - m.frameCount) (digits base (m.frame :: m.callers))

/-- All code that the machine can come to goes forward and is shorter than `base`. -/
structure Guided (base : Nat) (m : Machine) : Prop where
  base_pos : 0 < base
  frames : ∀ f ∈ m.frame :: m.callers, f.OnTrack
  closures : ∀ c ∈ m.store.closures, c.fn.Forward ∧ c.fn.code.size + 1 < base
  constants : ∀ fn, Constant.function fn ∈ m.constants → fn.Forward ∧ fn.code.size + 1 < base

variable {m m' : Machine} {base limit : Nat}

/-- The measure where the call goes on further back. -/
lemma remaining_lt_of_stays {ip : Nat} (hb : 0 < base) (hlt : m.frame.ip < ip)
    (hle : ip ≤ m.frame.fn.code.size) (hf : m'.frame = { m.frame with ip })
    (hc : m'.callers = m.callers) :
    m'.remaining base limit < m.remaining base limit := by
  unfold remaining frameCount
  rw [hc]
  refine withZeros_lt hb _ ?_
  simp only [digits, Frame.left, hf]
  omega

/-- The measure where the caller has moved on and the new call is at its start. -/
lemma remaining_lt_of_calls {ip : Nat} (hlt : m.frame.ip < ip) (hle : ip ≤ m.frame.fn.code.size)
    (hc : m'.callers = { m.frame with ip } :: m.callers) (hsize : m'.frame.fn.code.size + 1 < base)
    (hroom : m.frameCount < limit) : m'.remaining base limit < m.remaining base limit := by
  have hcount : m'.frameCount = m.frameCount + 1 := by
    rw [frameCount, hc]
    rfl
  unfold remaining
  obtain ⟨n, hn⟩ : ∃ n, limit - m.frameCount = n + 1 := ⟨limit - m.frameCount - 1, by omega⟩
  rw [hcount, show limit - (m.frameCount + 1) = n by omega, hn, withZeros]
  refine withZeros_lt (by omega) _ ?_
  rw [hc]
  simp only [digits, Frame.left]
  set above := digits base m.callers * base
  have hstep : above + (m.frame.fn.code.size - ip + 1) + 1 ≤ above +
      (m.frame.fn.code.size - m.frame.ip + 1) := by
    omega
  calc (above + (m.frame.fn.code.size - ip + 1)) * base + (m'.frame.fn.code.size - m'.frame.ip + 1)
      < (above + (m.frame.fn.code.size - ip + 1)) * base + base := by omega
    _ = (above + (m.frame.fn.code.size - ip + 1) + 1) * base := (Nat.succ_mul _ _).symm
    _ ≤ (above + (m.frame.fn.code.size - m.frame.ip + 1)) * base := Nat.mul_le_mul_right base hstep

/-- The measure where a call is left. -/
lemma remaining_lt_of_returns {caller : Frame} {callers : List Frame} (hb : 0 < base)
    (hc : m.callers = caller :: callers) (hf : m'.frame = caller) (hc' : m'.callers = callers)
    (hcount : m.frameCount ≤ limit) : m'.remaining base limit < m.remaining base limit := by
  have hless : m.frameCount = m'.frameCount + 1 := by
    rw [frameCount, frameCount, hc, hc']
    rfl
  unfold remaining
  obtain ⟨n, hn⟩ : ∃ n, limit - m'.frameCount = n + 1 := ⟨limit - m'.frameCount - 1, by omega⟩
  rw [hless, show limit - (m'.frameCount + 1) = n by omega, hn, withZeros]
  refine withZeros_lt hb _ ?_
  rw [hf, hc', hc]
  simp only [digits, Frame.left]
  omega

/-- The calls that go on after a move are on track, and the measure gets smaller. -/
lemma Guided.moves {ip : Nat} (h : m.Guided base) (hlt : m.frame.ip < ip)
    (hle : ip ≤ m.frame.fn.code.size) (htrack : ({ m.frame with ip } : Frame).OnTrack)
    (hm : (m.jump ip).Moves m'.frame m'.callers) (hcount : m.frameCount ≤ max 1 m.maxFrames) :
    (∀ f ∈ m'.frame :: m'.callers, f.OnTrack) ∧
      m'.remaining base (max 1 m.maxFrames) < m.remaining base (max 1 m.maxFrames) := by
  have hcallers : ∀ f ∈ m.callers, f.OnTrack := fun f hf => h.frames f (List.mem_cons_of_mem _ hf)
  generalize hf : m'.frame = frame, hc : m'.callers = callers at hm
  cases hm with
  | stays =>
      exact ⟨List.forall_mem_cons.mpr ⟨htrack, hcallers⟩,
        remaining_lt_of_stays h.base_pos hlt hle hf hc⟩
  | @calls c hmem hroom ref start =>
      obtain ⟨⟨is, hreads, hjumps⟩, hsize⟩ := h.closures c hmem
      refine ⟨List.forall_mem_cons.mpr
        ⟨⟨[], is, hreads, rfl, hjumps⟩, List.forall_mem_cons.mpr ⟨htrack, hcallers⟩⟩,
        remaining_lt_of_calls hlt hle hc (by rw [hf]; exact hsize) ?_⟩
      exact Nat.lt_of_lt_of_le hroom (Nat.le_max_right _ _)
  | returns hcs =>
      have hcs' : m.callers = _ := hcs
      rw [hcs'] at hcallers
      exact ⟨hcallers, remaining_lt_of_returns h.base_pos hcs' hf hc hcount⟩

/-- Within its code a call goes on further back. -/
lemma Guided.instr {i : Instr} {before rest : List Instr} (h : m.Guided base)
    (hcount : m.frameCount ≤ max 1 m.maxFrames)
    (hreads : m.frame.fn.code.Reads (before ++ i :: rest))
    (hip : m.frame.ip = extent before) (hjumps : JumpsForward (before ++ i :: rest))
    (hm : (m.jump (m.frame.ip + i.size)).execute i.op i.first i.second = .next m') :
    (∀ f ∈ m'.frame :: m'.callers, f.OnTrack) ∧
      m'.remaining base (max 1 m.maxFrames) < m.remaining base (max 1 m.maxFrames) := by
  have hsize := hreads.size
  have hpos := i.size_pos
  rw [extent_append, extent_cons] at hsize
  have hbehind : ({ m.frame with ip := m.frame.ip + i.size } : Frame).OnTrack := by
    refine ⟨before ++ [i], rest, ?_, ?_, ?_⟩
    · rwa [List.append_assoc]
    · rw [hip]
      simp
    · rwa [List.append_assoc]
  have hnext {m' : Machine} (hm : (m.jump (m.frame.ip + i.size)).Moves m'.frame m'.callers) :=
    h.moves (by omega) (by omega) hbehind hm hcount
  by_cases hj : i.jumps = true
  · obtain ⟨mid, j, rest', rfl, htarget⟩ := hjumps before i rest rfl hj
    have hahead : ({ m.frame with ip := i.first } : Frame).OnTrack :=
      ⟨before ++ i :: mid, j :: rest', by simpa using hreads, htarget, by simpa using hjumps⟩
    have hlt : m.frame.ip < i.first := by
      rw [htarget, hip, extent_append, extent_cons]
      omega
    have hle : i.first ≤ m.frame.fn.code.size := by
      rw [htarget, hsize, extent_append, extent_append, extent_cons]
      omega
    have hland {m' : Machine} (hm : (m.jump i.first).Moves m'.frame m'.callers) :=
      h.moves hlt hle hahead hm hcount
    obtain ⟨op, operands⟩ := i
    simp only [Instr.jumps, Bool.or_eq_true, beq_iff_eq] at hj
    rcases hj with rfl | rfl
    · cases hm
      exact hland .stays
    · simp only [execute] at hm
      split at hm
      · cases hm
        exact hnext .stays
      · cases hm
        exact hland .stays
  · exact hnext (moves_execute (fun ho => hj (by simp [Instr.jumps, ho]))
      (fun ho => hj (by simp [Instr.jumps, ho])) hm)

/-- **The measure gets smaller with each step,** and the machine stays on track. -/
theorem Guided.step (h : m.Guided base) (hcount : m.frameCount ≤ max 1 m.maxFrames)
    (hm : m.step = .next m') :
    m'.Guided base ∧ m'.remaining base (max 1 m.maxFrames) <
      m.remaining base (max 1 m.maxFrames) := by
  have hclosures : m.ClosuresFrom m' := by
    have := m.closuresFrom_step
    rwa [hm] at this
  have hconst : m'.constants = m.constants := by
    have := m.constants_step
    rwa [hm] at this
  have hcode (c : Closure) (hc : c ∈ m'.store.closures) : c.fn.Forward ∧
      c.fn.code.size + 1 < base :=
    (hclosures c hc).elim (h.closures c) (h.constants c.fn)
  suffices hcalls : (∀ f ∈ m'.frame :: m'.callers, f.OnTrack) ∧
      m'.remaining base (max 1 m.maxFrames) < m.remaining base (max 1 m.maxFrames) by
    exact ⟨⟨h.base_pos, hcalls.1, hcode, by rw [hconst]; exact h.constants⟩, hcalls.2⟩
  obtain ⟨before, after, hreads, hip, hjumps⟩ := h.frames m.frame List.mem_cons_self
  cases after with
  | nil =>
      -- at the end of the code the call is left, and its digit goes
      have hend : m.frame.fn.code[m.frame.ip]? = none := by
        rw [hip]
        exact Array.getElem?_eq_none (Nat.le_of_eq (by rw [hreads.size, List.append_nil]))
      simp only [Machine.step, hend] at hm
      have hcallers := (next_leave hm).1
      refine ⟨fun f hf => h.frames f (List.mem_cons_of_mem _ ?_),
        remaining_lt_of_returns h.base_pos hcallers rfl rfl hcount⟩
      rwa [hcallers]
  | cons i rest =>
      -- otherwise the call moves on, and a call that it makes comes with a digit below its own
      have hholds := hreads.holds
      rw [← hip] at hholds
      rw [step_of_instr (hreads.fits i (by simp)) hholds] at hm
      exact h.instr hcount hreads hip hjumps hm

/-- A machine on track comes to an end in as many steps as the measure says. -/
theorem Guided.run_ne_next {l : Limits} (h : m.Guided base) (hb : m.Bounded l) {fuel : Nat}
    (hfuel : m.remaining base (max 1 l.maxFrames) < fuel) : ∀ m', m.run fuel ≠ .next m' := by
  induction fuel generalizing m with
  | zero => exact absurd hfuel (Nat.not_lt_zero _)
  | succ fuel ih =>
      have hlimits := hb.step
      rw [run]
      cases hs : m.step with
      | next m' =>
          rw [hs] at hlimits
          obtain ⟨hguided, hless⟩ := h.step (hb.maxFrames ▸ hb.frameCount) hs
          rw [hb.maxFrames] at hless
          exact ih hguided hlimits (by omega)
      | done m' | fault f m' | crash m' => simp

/-- **Slim functions break off no run** on a stack that can be had. -/
theorem run_ne_crash {l : Limits} (hb : m.Bounded l) (hl : l.areFeasible = true)
    (hclosures : ∀ c ∈ m.store.closures, c.fn.Slim)
    (hconst : ∀ fn, Constant.function fn ∈ m.constants → fn.Slim)
    (fuel : Nat) : ∀ m', m.run fuel ≠ .crash m' := by
  intro m' hr
  obtain ⟨c, hc, hparams, hsum⟩ := overreaches_of_run hr
  have hslim : c.fn.Slim := by
    have hfrom := m.closures_run fuel
    rw [hr] at hfrom
    exact (hfrom c hc).elim (hclosures c) (hconst c.fn)
  have hsp : m'.sp ≤ l.stackSize := by
    have hbounded := hb.run fuel
    rw [hr] at hbounded
    exact hbounded.sp
  have hsize : l.stackSize * 24 < 0x8000000000000000 := of_decide_eq_true hl
  have hword : UInt64.size = 18446744073709551616 := rfl
  unfold CompiledFunction.Slim at hslim
  omega

end Machine

/-! ## Sessions -/

/-- Code that is well formed goes forward. -/
lemma CompiledFunction.WellFormed.forward {pool : Array Constant} {builtins globals : Nat}
    {fn : CompiledFunction} (h : fn.WellFormed pool builtins globals) : fn.Forward := by
  obtain ⟨is, captured, hreads, hbal, -⟩ := h.code
  exact ⟨is, hreads, hbal.jumpsForward⟩

/-- There is a number greater than all that is counted of finitely many things. -/
lemma exists_above {α : Type} (count : α → Nat) (xs : List α) : ∃ n, ∀ x ∈ xs, count x < n := by
  induction xs with
  | nil => exact ⟨0, by simp⟩
  | cons x xs ih =>
      obtain ⟨n, hn⟩ := ih
      refine ⟨max (count x + 1) n, fun y hy => ?_⟩
      rcases List.mem_cons.mp hy with rfl | hy
      · exact Nat.lt_of_lt_of_le (Nat.lt_succ_self _) (Nat.le_max_left _ _)
      · exact Nat.lt_of_lt_of_le (hn y hy) (Nat.le_max_right _ _)

/-- The number of bytes of a constant that is a function. -/
def Constant.codeSize : Constant → Nat
  | .function fn => fn.code.size
  | _ => 0

/-- A machine is on track if all code that it was given goes forward. -/
lemma Machine.exists_guided_load {b : Bytecode} {store : Store} (globals : Array Value) (l : Limits)
    (builtins : List Builtin) (hmain : CompiledFunction.Forward ⟨b.code, 0, 0⟩)
    (hconst : ∀ fn, Constant.function fn ∈ b.constants → fn.Forward)
    (hclosures : ∀ c ∈ store.closures, c.fn.Forward) :
    ∃ base, (load b globals l builtins store).Guided base := by
  obtain ⟨n, hn⟩ := exists_above Constant.codeSize b.constants.toList
  obtain ⟨k, hk⟩ := exists_above (fun c : Closure => c.fn.code.size) store.closures.toList
  refine ⟨n + k + b.code.size + 2, by omega, fun f hf => ?_, fun c hc => ?_, fun fn hfn => ?_⟩
  · rw [List.mem_singleton.mp hf]
    obtain ⟨is, hreads, hjumps⟩ := hmain
    exact ⟨[], is, hreads, rfl, hjumps⟩
  · rcases Array.mem_push.mp hc with hc | rfl
    · have hsize := hk c (Array.mem_toList_iff.mpr hc)
      exact ⟨hclosures c hc, by omega⟩
    · exact ⟨hmain, by dsimp only; omega⟩
  · have hsize := hn _ (Array.mem_toList_iff.mpr hfn)
    rw [Constant.codeSize] at hsize
    exact ⟨hconst fn hfn, by omega⟩

namespace Session

variable {limits : Limits} {s s' : Session} {b : Bytecode} {source : String}

/-- The names and constants of a session are those of a compiler that went through its inputs. -/
lemma Reached.compiler (h : Reached limits s) : Compiler.Reached Builtin.table s.compiler := by
  have hcompile {s : Session} (ih : Compiler.Reached Builtin.table s.compiler) (source : String) :
      Compiler.Reached Builtin.table (s.compile source).2.compiler := by
    rcases s.compile_cases source with ⟨e, he⟩ | ⟨p, -, ⟨-, he⟩ | ⟨e, he⟩⟩
    · rw [he]
      exact ih
    · rw [he]
      exact .ofState (.compile ih p)
    · rw [he]
      exact .ofState (.compile ih p)
  induction h with
  | start => exact .ofState .withBuiltins
  | compile _ source ih => exact hcompile ih source
  | @eval s _ source ih =>
      rw [s.compiler_eval source]
      exact hcompile ih source

/-- The code of an input and of all constants goes forward. -/
lemma Reached.forward_of_compile (h : Reached limits s) (hs : s.compile source = (.ok b, s')) :
    CompiledFunction.Forward ⟨b.code, 0, 0⟩ ∧ ∀ fn, Constant.function fn ∈ b.constants →
      fn.Forward := by
  obtain ⟨p, -, hok, rfl, rfl⟩ := exists_of_compile hs
  have hready := h.compiler.ready
  obtain ⟨is, hem, htracks, hready'⟩ := hready.emits_of_ok .empty hok
  refine ⟨⟨is, ⟨htracks.code, htracks.fits⟩, (hem.balanced 0).2.jumpsForward⟩, fun fn hfn => ?_⟩
  exact (hready'.good.pool fn hfn).forward

/-- The functions among all constants are slim. -/
lemma Reached.slim_of_compile (h : Reached limits s) (hs : s.compile source = (.ok b, s')) :
    CompiledFunction.Slim ⟨b.code, 0, 0⟩ ∧ ∀ fn, Constant.function fn ∈ b.constants → fn.Slim := by
  refine ⟨Nat.zero_le _, ?_⟩
  obtain ⟨p, -, hok, rfl, rfl⟩ := exists_of_compile hs
  obtain ⟨is, -, -, hready'⟩ := h.compiler.ready.emits_of_ok .empty hok
  exact fun fn hfn => (hready'.good.pool fn hfn).slots

/-- What holds of all code that inputs compile to holds of all closures that the inputs so far have
made. -/
lemma Reached.forall_closures {P : CompiledFunction → Prop}
    (hcode : ∀ {s s' : Session} {source : String} {b : Bytecode}, Reached limits s →
      s.compile source = (.ok b, s') →
      P ⟨b.code, 0, 0⟩ ∧ ∀ fn, Constant.function fn ∈ b.constants → P fn)
    (h : Reached limits s) : ∀ c ∈ s.store.closures, P c.fn := by
  have hcompile (s : Session) (source : String) : (s.compile source).2.store = s.store := by
    rcases s.compile_cases source with ⟨e, he⟩ | ⟨p, -, ⟨-, he⟩ | ⟨e, he⟩⟩ <;> rw [he] <;> rfl
  induction h with
  | start => simp [Session.start, Store.empty]
  | @compile s _ source ih =>
      rw [hcompile s source]
      exact ih
  | @eval s h source ih =>
      have hstore := hcompile s source
      cases hc : s.compile source with
      | mk r s' =>
          rw [hc] at hstore
          cases r with
          | error e =>
              rw [eval_of_error hc, hstore]
              exact ih
          | ok b =>
              obtain ⟨hmain, hconst⟩ := hcode h hc
              rw [(eval_of_ok hc).1]
              intro c hmem
              rcases (s'.machine b).closures_run s'.limits.steps c hmem with hmem | hmem
              · rcases Array.mem_push.mp hmem with hmem | rfl
                · rw [← hstore] at ih
                  exact ih c hmem
                · exact hmain
              · exact hconst c.fn hmem

/-- Nor does the code of a session break off a run. -/
lemma Reached.run_ne_crash (h : Reached limits s) (hs : s.compile source = (.ok b, s')) {l : Limits}
    (hl : l.areFeasible = true) (fuel : Nat) :
    ∀ m, (Machine.load b s'.globals l Builtin.table s'.store).run fuel ≠ .crash m := by
  have hs' : Reached limits s' := by
    have hreached := h.compile source
    rwa [hs] at hreached
  obtain ⟨hmain, hconst⟩ := h.slim_of_compile hs
  refine Machine.run_ne_crash (Machine.bounded_load b s'.globals l Builtin.table s'.store) hl
    (fun c hc => ?_) hconst fuel
  rcases Array.mem_push.mp hc with hc | rfl
  · exact hs'.forall_closures (fun h hs => h.slim_of_compile hs) c hc
  · exact hmain

/-- **Every run of compiled code comes to an end,** whatever inputs came before and whatever the
limits are.  The machine is done or meets a fault; in a sum it breaks off only where the stack is
larger than any can be. -/
theorem Reached.run_halts (h : Reached limits s) (hs : s.compile source = (.ok b, s'))
    (l : Limits) :
    ∃ n, ∀ fuel ≥ n,
      (∃ m, (Machine.load b s'.globals l Builtin.table s'.store).run fuel = .done m) ∨
      (∃ f m, (Machine.load b s'.globals l Builtin.table s'.store).run fuel = .fault f m) ∨
      l.areFeasible = false ∧
      ∃ m, (Machine.load b s'.globals l Builtin.table s'.store).run fuel = .crash m := by
  have hs' : Reached limits s' := by
    have hreached := h.compile source
    rwa [hs] at hreached
  obtain ⟨hmain, hconst⟩ := h.forward_of_compile hs
  obtain ⟨base, hguided⟩ :=
    Machine.exists_guided_load s'.globals l Builtin.table hmain hconst
      (hs'.forall_closures fun h hs => h.forward_of_compile hs)
  refine ⟨Machine.remaining base (max 1 l.maxFrames)
    (.load b s'.globals l Builtin.table s'.store) + 1,
    fun fuel hfuel => ?_⟩
  have hends := hguided.run_ne_next (Machine.bounded_load b s'.globals l Builtin.table s'.store)
    (Nat.lt_of_succ_le hfuel)
  cases hr : (Machine.load b s'.globals l Builtin.table s'.store).run fuel with
  | next m => exact absurd hr (hends m)
  | done m => exact .inl ⟨m, rfl⟩
  | fault f m => exact .inr (.inl ⟨f, m, rfl⟩)
  | crash m =>
      refine .inr (.inr ⟨?_, m, rfl⟩)
      by_contra hl
      exact h.run_ne_crash hs (by simpa using hl) fuel m hr

/-- A function that calls itself without end is stopped, also when an earlier input has made it. -/
def endless : Session :=
  ((start ⟨64, 16, 1000⟩).eval "let f = fn(n) { if (n) { f(n) } else { f(!n) } }; f(false)").2

set_option maxRecDepth 100000 in
/-- The run comes to an end at the limit of forty calls. -/
theorem endless_halts :
    ∃ b s', endless.compile "let g = fn() { f(f) }; g()" = (.ok b, s') ∧
      ∃ n, ∀ fuel ≥ n,
        (∃ m, (Machine.load b s'.globals ⟨100, 40, 0⟩ Builtin.table s'.store).run fuel = .done m) ∨
        ∃ f m, (Machine.load b s'.globals ⟨100, 40, 0⟩ Builtin.table s'.store).run fuel =
          .fault f m := by
  have hok : (endless.compile "let g = fn() { f(f) }; g()").1.toBool = true := by decide +kernel
  cases hc : endless.compile "let g = fn() { f(f) }; g()" with
  | mk r s' =>
      cases r with
      | error e =>
          rw [hc] at hok
          cases hok
      | ok b =>
          obtain ⟨n, hn⟩ := (Reached.start.eval _).run_halts hc ⟨100, 40, 0⟩
          refine ⟨b, s', rfl, n,
            fun fuel hfuel => (hn fuel hfuel).imp_right fun h => h.resolve_right fun hcrash => ?_⟩
          exact absurd hcrash.1 (by decide)

end Session

end Marmoset
