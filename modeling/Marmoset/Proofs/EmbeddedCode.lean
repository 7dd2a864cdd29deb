import Marmoset.Proofs.Mirroring
import Marmoset.Proofs.Relocation
import Marmoset.Proofs.StackContents

/-!
# A piece of code by itself and in longer code

`Code.Embeds` says that the instructions of a piece of code stand in longer code from some byte on,
with their jumps moved.  `Machine.Follows` says that a machine has come as far in the longer code as
another one in the piece.  The stacks may differ in slots that no call holds: the piece by itself
starts with an empty stack, and in the longer code what came before has left values behind.

* **`Machine.Mirrors.step`** — machines that mirror each other take the same step.
* `Machine.Safe.at_end_of_done` — a run of code without returns ends behind its last instruction.
* **`Machine.Follows.step`**, **`Machine.Follows.run`** — a machine that follows another one goes on
  following it, to the end of the piece.
-/

namespace Marmoset

/-- From byte `δ` on, the code is that of the piece, which consists of `is`. -/
structure Code.Embeds (whole : Code) (δ : Nat) (piece : Code) (is : List Instr) : Prop where
  piece : piece.Reads is
  whole : ∃ before after, whole.Reads (before ++ is.map (Instr.moved δ) ++ after) ∧
    extent before = δ

/-- An instruction of the piece in the whole. -/
lemma Code.Embeds.holds {whole piece : Code} {δ : Nat} {before rest : List Instr} {i : Instr}
    (h : whole.Embeds δ piece (before ++ i :: rest)) :
    (i.moved δ).Fits ∧ whole.Holds (extent before + δ) [i.moved δ] := by
  obtain ⟨first, last, hreads, rfl⟩ := h.whole
  have hsplit : first ++ (before ++ i :: rest).map (Instr.moved (extent first)) ++ last =
      first ++ before.map (Instr.moved (extent first)) ++ i.moved (extent first) ::
        (rest.map (Instr.moved (extent first)) ++ last) := by
    simp
  rw [hsplit] at hreads
  refine ⟨hreads.fits _ (by simp), ?_⟩
  have hholds := hreads.holds
  rwa [extent_append, extent_moved, Nat.add_comm] at hholds

namespace Machine.Mirrors

variable {ρ : Nat → Nat} {δ : Nat} {whole piece : Code} {n m : Machine}
  {is before rest : List Instr} {i : Instr}
  {k g top : Nat}

/-- The instruction at which the first machine stands. -/
lemma instr (h : n.Mirrors ρ δ whole piece m) (hcode : whole.Embeds δ piece is)
    (hs : m.frame.Stands m.constants k g (!m.callers.isEmpty) top before (i :: rest)) :
    (i.moved (shift δ m.callers)).Fits ∧
      n.frame.fn.code.Holds n.frame.ip [i.moved (shift δ m.callers)] := by
  have hcalls := h.calls
  have hreads := hs.reads
  have hip := hs.ip
  have hfits := hs.fits
  generalize n.frame = f at hcalls ⊢
  generalize n.callers = fs at hcalls
  generalize m.frame = e at hcalls hreads hip
  generalize m.callers = es at hcalls ⊢
  cases hcalls with
  | main ref ref' ip =>
      obtain rfl := hreads.unique hcode.piece
      dsimp only at hip
      rw [hip]
      exact hcode.holds
  | call _ ref fn free ip base =>
      dsimp only at hip
      rw [shift_cons, Instr.moved_zero, hip]
      exact ⟨hfits, hreads.holds⟩

section

variable (h : n.Mirrors ρ δ whole piece m) (hρ : Function.Injective ρ) (hn : n.Tidy)
  (hwhole : Constant.function ⟨whole, 0, 0⟩ ∉ n.constants) (hcode : whole.Embeds δ piece is)
  (hs : m.frame.Stands m.constants k g (!m.callers.isEmpty) top before (i :: rest))

include h hρ hn hwhole hcode hs

/-- **Machines that mirror each other take the same step.** -/
theorem step : Step.Mirrors ρ δ whole piece n.step m.step := by
  obtain ⟨hfits, hholds⟩ := h.instr hcode hs
  rw [step_of_instr hfits hholds, step_of_instr hs.fits hs.holds, Instr.op_moved,
    Instr.size_moved, h.calls.ip, Nat.add_right_comm]
  have hnext := h.jump (m.frame.ip + i.size)
  by_cases hj : i.jumps = true
  · have htarget : (i.moved (shift δ m.callers)).first = i.first + shift δ m.callers :=
      Instr.first_moved hj (Instr.Fits.operands_ne_nil hs.fits hj)
    have hjump := h.jump i.first
    rw [htarget]
    simp only [Instr.jumps, Bool.or_eq_true, beq_iff_eq] at hj
    rcases hj with hop | hop
    · rw [hop]
      exact .next hjump
    · rw [hop]
      simp only [Machine.execute]
      rw [hnext.pop.1, Value.truthy_renamed]
      split_ifs
      · exact .next hnext.pop.2
      · exact .next hjump.pop.2
  · rw [Bool.not_eq_true] at hj
    rw [Instr.moved_of_jumps hj]
    exact hnext.execute ⟨hn.stack, hn.globals, hn.store⟩ hwhole hρ hs.instr_inRange hj

end

end Machine.Mirrors

/-! ## The end of a run -/

/-- Whether a run is over. -/
def Step.isDone : Step → Bool
  | .done _ => true
  | _ => false

namespace Machine

variable {m m' : Machine} {main : Code} {k g : Nat}

lemma isDone_push (v : Value) : (m.push v).isDone = false := by
  unfold push
  split <;> rfl

lemma isDone_pushResult (r : Except Fault Value) : (m.pushResult r).isDone = false := by
  cases r with
  | ok v => exact isDone_push v
  | error f => rfl

/-- No other instruction than a return ends a run. -/
lemma isDone_execute {op : Opcode} (h : op ≠ .returnValue ∧ op ≠ .returnNil) (a b : Nat) :
    (m.execute op a b).isDone = false := by
  cases op with
  | returnValue => exact absurd rfl h.1
  | returnNil => exact absurd rfl h.2
  | add | sub | mul | div | equal | notEqual | greater | greaterEqual | and | or | minus | bang
  | getIndex =>
      simp only [execute, binary, unary, getIndex]
      exact isDone_pushResult _
  | pushTrue | pushFalse | pushNil | getGlobal | currentClosure => exact isDone_push _
  | pop | setGlobal | jump => rfl
  | constant | array | hash | closure | setIndex | setLocal | getLocal | getBuiltin | getFree
  | jumpNotTruthy | call =>
      simp only [execute, loadConstant, makeArray, makeHash, makeClosure, setIndex, setLocal,
        getLocal, call, callClosure]
      repeat' split
      all_goals first | rfl | exact isDone_push _

/-- A run of code without returns ends behind its last instruction. -/
lemma Safe.at_end_of_done {is : List Instr} (h : m.Safe main k g) (hcode : main.Reads is)
    (hstays : ∀ i ∈ is, i.returns = false) (hm : m.step = .done m') :
    m' = m ∧ m.callers = [] ∧ m.frame.ip = extent is := by
  obtain ⟨before, after, hs⟩ := h.frames.stands
  have hframes := h.frames
  cases after with
  | nil =>
      have hcallers : m.callers = [] := by
        by_contra hne
        exact hs.inCode (by simpa using hne) rfl
      rw [hcallers] at hframes
      have hreads := hs.reads
      rw [hframes.1, List.append_nil] at hreads
      have hip : m.frame.ip = extent is := by rw [hs.ip, hreads.unique hcode]
      have hstep := step_at_end hcallers (by rw [hframes.1, hip]; exact Nat.le_of_eq hcode.size)
      rw [hm] at hstep
      cases hstep
      exact ⟨rfl, hcallers, hip⟩
  | cons i rest =>
      exfalso
      rw [step_of_instr hs.fits hs.holds] at hm
      have hreturns : i.op = .returnValue ∨ i.op = .returnNil := by
        by_contra hno
        have hdone :=
          isDone_execute (m := m.jump (m.frame.ip + i.size)) (not_or.mp hno) i.first i.second
        rw [hm] at hdone
        cases hdone
      cases hc : m.callers with
      | nil =>
          rw [hc] at hframes
          have hreads := hs.reads
          rw [hframes.1] at hreads
          have hstay := hstays i (by rw [hcode.unique hreads]; simp)
          rcases hreturns with hop | hop <;> rw [Instr.returns, hop] at hstay <;> cases hstay
      | cons c cs =>
          have hleave {n : Machine} (hn : n.callers = m.callers) (v : Value) :
              (n.leave v).isDone = false := by
            rw [leave, hn, hc]
            exact isDone_push _
          rcases hreturns with hop | hop
          · have hdone := hleave (n := (m.jump (m.frame.ip + i.size)).pop.2) rfl
              (m.jump (m.frame.ip + i.size)).pop.1
            rw [hop] at hm
            simp only [execute] at hm
            rw [hm] at hdone
            cases hdone
          · have hdone := hleave (n := m.jump (m.frame.ip + i.size)) rfl .nil
            rw [hop] at hm
            simp only [execute] at hm
            rw [hm] at hdone
            cases hdone

/-- Where a machine goes on, it stands at an instruction. -/
lemma Safe.stands_of_next (h : m.Safe main k g) (hm : m.step = .next m') :
    ∃ before i rest, m.frame.Stands m.constants k g (!m.callers.isEmpty) m.sp before
      (i :: rest) := by
  obtain ⟨before, after, hs⟩ := h.frames.stands
  cases after with
  | nil =>
      have hcallers : m.callers = [] := by
        by_contra hne
        exact hs.inCode (by simpa using hne) rfl
      have hend : m.frame.fn.code.size = m.frame.ip := by
        rw [hs.ip, hs.reads.size, List.append_nil]
      rw [step_at_end hcallers (Nat.le_of_eq hend)] at hm
      cases hm
  | cons i rest => exact ⟨before, i, rest, hs⟩

end Machine

/-! ## Runs of the piece -/

/-- If a step goes on, so does the same step on another stack. -/
lemma Step.Same.next_inv {P : Nat → Prop} {m : Machine} {r : Step} (h : (Step.next m).Same P r) :
    ∃ s, r = .next (m.withStack s) ∧ SameSlots P m.stack s := by
  cases h with
  | @next _ m' same h => exact ⟨m'.stack, congrArg Step.next same, h⟩

/-- A piece of code that does not return and ends by dropping values, in longer code; the functions
that both may call write their slots before they read them, and the longer code is none of them. -/
structure Code.Extends (whole : Code) (δ : Nat) (piece : Code) (is : List Instr)
    (pool : Array Constant) : Prop where
  embeds : whole.Embeds δ piece is
  stays : ∀ i ∈ is, i.returns = false
  ends : EndsInDrop is
  writes : ∀ fn, Constant.function fn ∈ pool → fn.WritesFirst
  whole_notMem : Constant.function ⟨whole, 0, 0⟩ ∉ pool

/-- The first machine has come as far in the longer code as the second one in the piece.  The slots
that the calls hold are the same in both. -/
structure Machine.Follows (ρ : Nat → Nat) (δ : Nat) (whole piece : Code) (n m : Machine) :
    Prop where
  mirrors : n.Mirrors ρ δ whole piece (m.withStack (n.stack.map (Value.renamed ρ)))
  slots : ∃ P, m.Held P ∧ SameSlots P m.stack (n.stack.map (Value.renamed ρ))

namespace Machine.Follows

variable {ρ : Nat → Nat} {δ : Nat} {whole piece : Code} {n m m' : Machine} {is : List Instr}
  {k g g' : Nat}

/-- **A step of the piece is a step of the longer code.** -/
theorem step (h : n.Follows ρ δ whole piece m) (hρ : Function.Injective ρ)
    (hcode : whole.Extends δ piece is n.constants) (hn : n.Safe whole k g') (hm : m.Safe piece k g)
    (hnext : m.step = .next m') : ∃ n', n.step = .next n' ∧ n'.Follows ρ δ whole piece m' := by
  obtain ⟨before, i, rest, hs⟩ := hm.stands_of_next hnext
  obtain ⟨P, hheld, hslots⟩ := h.slots
  have hwrites (fn : CompiledFunction) (hfn : Constant.function fn ∈ m.constants) :
      fn.WritesFirst :=
    hcode.writes fn (Array.mem_def.mpr (h.mirrors.constants.subset (Array.mem_def.mp hfn)))
  -- the stack of the longer run may stand in for that of the piece
  obtain ⟨Q, hsame, hheld'⟩ := hm.stepsAlike hheld hslots hcode.embeds.piece hcode.ends hwrites
  rw [hnext] at hsame
  obtain ⟨s, hstep, hslots'⟩ := hsame.next_inv
  have hmirrors := h.mirrors.step hρ hn.tidy hcode.whole_notMem hcode.embeds hs
  rw [hstep] at hmirrors
  generalize n.step = r at hmirrors ⊢
  cases hmirrors with
  | @next n' _ hmirrors =>
      obtain rfl : s = n'.stack.map (Value.renamed ρ) := hmirrors.stack
      exact ⟨n', rfl, hmirrors, Q, hheld' m' hnext, hslots'⟩

/-- **A run of the piece to its end is a part of the run of the longer code.** -/
theorem run (h : n.Follows ρ δ whole piece m) (hρ : Function.Injective ρ)
    (hcode : whole.Extends δ piece is n.constants) (hn : n.Safe whole k g') (hm : m.Safe piece k g)
    {fuel : Nat} (hrun : m.run fuel = .done m') :
    ∃ j n', n.run j = .next n' ∧ n'.Follows ρ δ whole piece m' ∧ m'.Safe piece k g ∧
      m'.callers = [] ∧ m'.frame.ip = extent is := by
  induction fuel generalizing n m with
  | zero => cases hrun
  | succ fuel ih =>
      rw [Machine.run] at hrun
      cases hstep : m.step with
      | next m₁ =>
          rw [hstep] at hrun
          obtain ⟨n₁, hstep', h₁⟩ := h.step hρ hcode hn hm hstep
          have hn₁ := hn.step
          have hm₁ := hm.step
          have hconst := n.constants_step
          rw [hstep'] at hn₁ hconst
          rw [hstep] at hm₁
          obtain ⟨j, n', hj, hrest⟩ := ih h₁ (hconst ▸ hcode) hn₁ hm₁ hrun
          refine ⟨j + 1, n', ?_, hrest⟩
          rw [Machine.run, hstep']
          exact hj
      | done m₁ =>
          rw [hstep] at hrun
          cases hrun
          -- only the piece is done here, the longer code goes on; so that run takes no further step
          obtain ⟨rfl, hcallers, hip⟩ := hm.at_end_of_done hcode.embeds.piece hcode.stays hstep
          exact ⟨0, n, rfl, h, hm, hcallers, hip⟩
      | fault f m₁ | crash m₁ =>
          rw [hstep] at hrun
          cases hrun

/-- The value popped last lies in a slot that the piece has held, when it is at its end. -/
lemma lastPopped (h : n.Follows ρ δ whole piece m) (hcallers : m.callers = [])
    (hend : m.frame.ip = m.frame.fn.code.size) : m.lastPopped = n.lastPopped.renamed ρ := by
  obtain ⟨P, hheld, hslots⟩ := h.slots
  have hsp : m.sp = n.sp := h.mirrors.sp
  rw [Machine.lastPopped, Machine.lastPopped, ← hsp, ← hslots.slots m.sp (hheld.last hcallers hend)]
  exact h.mirrors.getD_stack m.sp

end Machine.Follows

end Marmoset
