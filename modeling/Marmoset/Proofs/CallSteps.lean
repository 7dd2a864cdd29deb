import Marmoset.Machine.Step
import Mathlib.Tactic.Common

/-!
# What an instruction does to the calls

Where the machine goes on after an instruction: in the same call (`Machine.next_execute`), in a new
call (`Machine.next_call`) or in the one that was waiting (`Machine.next_leave`).
-/

namespace Marmoset

namespace Machine

/-- The same calls are going on, at the same instructions. -/
def SameCalls (m m' : Machine) : Prop :=
  m'.frame = m.frame ∧ m'.callers = m.callers

end Machine

/-- If the machine goes on, then with the same calls. -/
def Step.Stays (m : Machine) : Step → Prop
  | .next m' => m.SameCalls m'
  | _ => True

namespace Machine

variable {m m₁ m' : Machine}

lemma stays_push (v : Value) (h : m.SameCalls m₁) : (m₁.push v).Stays m := by
  unfold push
  split
  · exact h
  · trivial

lemma stays_pushResult (r : Except Fault Value) (h : m.SameCalls m₁) :
    (m₁.pushResult r).Stays m := by
  cases r with
  | ok v => exact stays_push v h
  | error f => trivial

lemma next_push {v : Value} (h : m.push v = .next m') : m.SameCalls m' := by
  have hstays : (m.push v).Stays m := stays_push v ⟨rfl, rfl⟩
  rwa [h] at hstays

/-- The instructions that go neither to another call nor to another place. -/
lemma stays_execute {op : Opcode}
    (h : op ∉ [Opcode.jump, .jumpNotTruthy, .call, .returnValue, .returnNil]) (a b : Nat) :
    (m.execute op a b).Stays m := by
  cases op with
  | jump | jumpNotTruthy | call | returnValue | returnNil => simp at h
  | add | sub | mul | div | equal | notEqual | greater | greaterEqual | and | or =>
      simp only [execute, binary]
      exact stays_pushResult _ ⟨rfl, rfl⟩
  | minus | bang =>
      simp only [execute, unary]
      exact stays_pushResult _ ⟨rfl, rfl⟩
  | getIndex =>
      simp only [execute, getIndex]
      exact stays_pushResult _ ⟨rfl, rfl⟩
  | pushTrue | pushFalse | pushNil | getGlobal | currentClosure => exact stays_push _ ⟨rfl, rfl⟩
  | pop | setGlobal => exact ⟨rfl, rfl⟩
  | constant | array | hash | closure | setIndex | setLocal | getLocal | getBuiltin | getFree =>
      simp only [execute, loadConstant, makeArray, makeHash, makeClosure, setIndex,
        setLocal, getLocal]
      repeat' split
      all_goals first | trivial | exact stays_push _ ⟨rfl, rfl⟩

lemma next_execute {op : Opcode}
    (h : op ∉ [Opcode.jump, .jumpNotTruthy, .call, .returnValue, .returnNil]) {a b : Nat}
    (hm : m.execute op a b = .next m') : m.SameCalls m' := by
  have hstays := stays_execute (m := m) h a b
  rwa [hm] at hstays

/-- A call of a closure with as many arguments as it has parameters is added while there is room for
it; its base is the slot of the first argument. -/
lemma next_callClosure {ref args : Nat} {c : Closure} (h : m.callClosure ref c args = .next m') :
    c.fn.params.toNat = args ∧ m.frameCount < m.maxFrames ∧
      m'.frame = ⟨ref, c.fn, c.free, 0, m.sp - args⟩ ∧ m'.callers = m.frame :: m.callers := by
  unfold callClosure at h
  dsimp only at h
  split_ifs at h with hparams hword hsp hroom
  cases h
  exact ⟨not_not.mp hparams, Nat.not_le.mp hroom, rfl, rfl⟩

/-- A call of a builtin is over at once. -/
lemma next_call {args : Nat} (h : m.call args = .next m') :
    m.SameCalls m' ∨ ∃ ref c, m.store.closures[ref]? = some c ∧
      m.callClosure ref c args = .next m' := by
  unfold call at h
  split at h
  · cases h
  · split at h
    · split at h
      · rename_i c hc
        exact .inr ⟨_, c, hc, h⟩
      · cases h
    · have hsame := next_push h
      exact .inl hsame
    · cases h

/-- A call that is left makes room for the one that was waiting, which finds the value where the
callee was. -/
lemma next_leave {v : Value} (h : m.leave v = .next m') :
    m.callers = m'.frame :: m'.callers ∧ m'.sp = m.frame.base - 1 + 1 := by
  unfold leave at h
  split at h
  · cases h
  · rename_i caller callers hcallers
    simp only [returnTo, push] at h
    split at h
    · cases h
      exact ⟨hcallers, rfl⟩
    · cases h

end Machine

end Marmoset
