import Marmoset.Proofs.SafeRuns

/-!
# Where runs lead

`Step.Leads Q` says that the machine, after some number of steps, comes to an outcome that satisfies
`Q`; or else its stack is too small for that.  Runs are put together one instruction after the
other, and one part of the code after the other.

* `Step.Leads.bind` — from where a run leads, it leads on.
* `Machine.step_of_instr` — the step at an instruction, with the operands as they were written.
* `Machine.Safe.stands` — in a machine that is in order the instruction finds what it takes.
-/

namespace Marmoset

namespace Step

/-- Where a run has come to after so many more steps. -/
def after (r : Step) (n : Nat) : Step :=
  match r with
  | .next m => m.run n
  | r => r

/-- So many steps, and then so many more. -/
lemma after_add (r : Step) (a b : Nat) : r.after (a + b) = (r.after a).after b := by
  cases r with
  | next m =>
      show m.run (a + b) = (m.run a).after b
      rw [Machine.run_add]
      cases m.run a with
      | next m' | done m' | fault f m' | crash m' => rfl
  | done m | fault f m | crash m => rfl

/-- The value popped last, if the run is at its end. -/
def value? : Step → Option Value
  | .done m => some m.lastPopped
  | _ => none

/-- The run comes to an outcome that satisfies `Q`, unless the stack overflows. -/
def Leads (r : Step) (Q : Step → Prop) : Prop :=
  ∃ n, Q (r.after n) ∨ ∃ m, r.after n = .fault .stackOverflow m

namespace Leads

variable {r : Step} {Q Q' : Step → Prop}

/-- The run is there already. -/
lemma here (h : Q r) : r.Leads Q := by
  refine ⟨0, .inl ?_⟩
  cases r with
  | next m | done m | fault f m | crash m => exact h

/-- Where the next step leads, the machine leads. -/
lemma of_step {m : Machine} (h : m.step.Leads Q) : (Step.next m).Leads Q := by
  obtain ⟨n, hn⟩ := h
  have hstep : (Step.next m).after (n + 1) = m.step.after n := by
    show m.run (n + 1) = m.step.after n
    rw [Machine.run]
    cases m.step with
    | next m' | done m' | fault f m' | crash m' => rfl
  exact ⟨n + 1, by rwa [hstep]⟩

/-- A run that leads somewhere leads on from there. -/
lemma bind (h : r.Leads Q) (hQ : ∀ r, Q r → r.Leads Q') : r.Leads Q' := by
  obtain ⟨n, hn | hn⟩ := h
  · obtain ⟨k, hk⟩ := hQ _ hn
    exact ⟨n + k, by rwa [after_add]⟩
  · exact ⟨n, .inr hn⟩

/-- Less may be asked for. -/
lemma mono (h : r.Leads Q) (hQ : ∀ r, Q r → Q' r) : r.Leads Q' :=
  h.bind fun r hr => here (hQ r hr)

/-- A machine in order is in order wherever its run leads. -/
lemma safe {main : Code} {k g : Nat} (h : r.Leads Q) (hr : r.Safe main k g) :
    r.Leads fun r => Q r ∧ r.Safe main k g := by
  obtain ⟨n, hn⟩ := h
  refine ⟨n, hn.imp_left fun hq => ⟨hq, ?_⟩⟩
  cases r with
  | next m => exact Machine.Safe.run hr n
  | done m | fault f m | crash m => exact hr

end Leads

end Step

lemma getD_setIfInBounds_of_ne {xs : Array Value} {i j : Nat} (hij : i ≠ j) (v : Value) :
    (xs.setIfInBounds i v).getD j .nil = xs.getD j .nil := by
  rw [Array.getD_eq_getD_getElem?, Array.getD_eq_getD_getElem?,
    Array.getElem?_setIfInBounds, if_neg hij]

lemma getD_setIfInBounds_self {xs : Array Value} {i : Nat} (hi : i < xs.size) (v : Value) :
    (xs.setIfInBounds i v).getD i .nil = v := by
  rw [Array.getD_eq_getD_getElem?, Array.getElem?_setIfInBounds, if_pos rfl, if_pos hi]
  rfl

namespace Machine

variable {m : Machine} {Q Q' : Step → Prop}

@[simp] lemma sp_jump (m : Machine) (ip : Nat) : (m.jump ip).sp = m.sp := rfl

@[simp] lemma store_jump (m : Machine) (ip : Nat) : (m.jump ip).store = m.store := rfl

@[simp] lemma top_jump (m : Machine) (ip n : Nat) : (m.jump ip).top n = m.top n := rfl

/-- The machine with a value on top of its stack. -/
def pushed (m : Machine) (v : Value) : Machine :=
  { m with stack := m.stack.setIfInBounds m.sp v, sp := m.sp + 1 }

/-- A push overflows the stack or goes on with the value on top. -/
lemma leads_push {v : Value} (h : m.sp < m.stack.size → (Step.next (m.pushed v)).Leads Q) :
    (m.push v).Leads Q := by
  rw [push]
  split_ifs with hroom
  · exact h hroom
  · exact ⟨0, .inr ⟨m, rfl⟩⟩

/-! ## Instructions -/

end Machine

namespace Code.Holds

variable {code : Code} {pos : Nat} {i : Instr} {is : List Instr}

lemma head (h : code.Holds pos (i :: is)) : code.Holds pos [i] := by
  have h' : code.Holds pos ([i] ++ is) := h
  exact h'.left

/-- The others stand behind the first one. -/
lemma tail (h : code.Holds pos (i :: is)) (hi : i.Fits) : code.Holds (pos + i.size) is := by
  have h' : code.Holds pos ([i] ++ is) := h
  have hr := h'.right fun j hj => by rwa [List.mem_singleton.mp hj]
  rwa [extent_cons, extent_nil, Nat.add_zero] at hr

end Code.Holds

namespace Machine

variable {m : Machine} {Q Q' : Step → Prop}

/-- Operands that an instruction does not have are not looked at. -/
lemma execute_congr (m : Machine) {op : Opcode} {a a' b b' : Nat} (ha : op.widths ≠ [] → a = a')
    (hb : 1 < op.widths.length → b = b') : m.execute op a b = m.execute op a' b' := by
  cases op with
  | closure => rw [ha (by simp [Opcode.widths]), hb (by simp [Opcode.widths])]
  | constant | jumpNotTruthy | jump | setGlobal | getGlobal | array | hash | call
  | setLocal | getLocal
  | getBuiltin | getFree =>
      rw [ha (by simp [Opcode.widths])]
      rfl
  | _ => rfl

/-- **The step at an instruction.** -/
theorem step_of_instr {i : Instr} (hi : i.Fits) (h : m.frame.fn.code.Holds m.frame.ip [i]) :
    m.step = (m.jump (m.frame.ip + i.size)).execute i.op i.first i.second := by
  obtain ⟨a, b, hstep, ha, hb⟩ := step_instr hi h
  have hlen := hi.length_eq
  rw [hstep]
  refine execute_congr _ (fun hw => ha fun ho => hw ?_) (fun hw => hb (by omega))
  rw [ho, List.length_nil, List.length_eq_zero_iff] at hlen
  exact hlen

/-- At an instruction the run leads where the instruction does. -/
lemma leads_of_instr {i : Instr} (hi : i.Fits) (h : m.frame.fn.code.Holds m.frame.ip [i])
    (hq : ((m.jump (m.frame.ip + i.size)).execute i.op i.first i.second).Leads Q) :
    (Step.next m).Leads Q := by
  refine .of_step ?_
  rw [step_of_instr hi h]
  exact hq

/-- Behind its last instruction a program is done. -/
lemma step_at_end (hc : m.callers = []) (hend : m.frame.fn.code.size ≤ m.frame.ip) :
    m.step = .done m := by
  simp only [step, Array.getElem?_eq_none hend, leave, hc]

/-- At each place of a stream there is one instruction at most. -/
lemma instr_unique {code : Code} {pos : Nat} {i j : Instr} (hi : i.Fits) (hj : j.Fits)
    (h : code.Holds pos [i]) (h' : code.Holds pos [j]) : i = j := by
  obtain ⟨rest, hrest⟩ := h
  obtain ⟨rest', hrest'⟩ := h'
  rw [bytesOf_cons, bytesOf_nil, List.append_nil] at hrest hrest'
  have hlines := decodeFrom_instr hi rest 0
  rw [hrest, ← hrest', decodeFrom_instr hj rest' 0] at hlines
  simp only [List.cons.injEq, Instruction.Line.instruction.injEq, true_and] at hlines
  obtain ⟨op, operands⟩ := i
  obtain ⟨op', operands'⟩ := j
  obtain ⟨⟨rfl, rfl⟩, -⟩ := hlines
  rfl

namespace Safe

variable {main : Code} {k g : Nat}

/-- Where a machine in order stands at an instruction. -/
lemma stands (h : m.Safe main k g) {i : Instr} (hi : i.Fits)
    (hc : m.frame.fn.code.Holds m.frame.ip [i]) :
    ∃ before rest, m.frame.Stands m.constants k g (!m.callers.isEmpty) m.sp before (i :: rest) := by
  obtain ⟨before, after, hs⟩ := h.frames.stands
  cases after with
  | nil =>
      -- the code does not end here
      have hend : m.frame.fn.code.toList.drop m.frame.ip = [] := by
        rw [hs.ip, hs.reads.bytes, List.append_nil,
          ← length_bytesOf fun j hj => hs.reads.fits j (by simp [hj]), List.drop_length]
      rw [Code.Holds, hend, List.prefix_nil, bytesOf_cons, bytesOf_nil, List.append_nil] at hc
      have hlen := hi.length_bytes
      rw [hc] at hlen
      exact absurd hlen (Nat.ne_of_lt i.size_pos)
  | cons j rest =>
      have hij : i = j := instr_unique hi hs.fits hc hs.holds
      subst hij
      exact ⟨before, rest, hs⟩

/-- The locals of the call are on the stack. -/
lemma floor_le (h : m.Safe main k g) : m.frame.base + m.frame.fn.locals.toNat ≤ m.sp := by
  obtain ⟨before, after, hs⟩ := h.frames.stands
  rw [hs.top]
  exact Nat.le_add_right _ _

/-- Under the locals of a function lies what was called. -/
lemma base_pos (h : m.Safe main k g) (hc : m.callers ≠ []) : 0 < m.frame.base := by
  have hframes := h.frames
  cases hcallers : m.callers with
  | nil => exact absurd hcallers hc
  | cons c cs =>
      rw [hcallers] at hframes
      exact hframes.2.2.2.1

end Safe

/-! ## Names -/

end Machine

lemma SymbolKind.eq_of_owned {k : SymbolKind} (h : k.owned = true) : k = .global ∨ k = .local := by
  cases k with
  | global => exact .inl rfl
  | «local» => exact .inr rfl
  | builtin | free | function => cases h

namespace Machine

variable {m : Machine} {Q Q' : Step → Prop}

/-- The slot behind the locals of the innermost call. -/
def ground (m : Machine) : Nat :=
  m.frame.base + m.frame.fn.locals.toNat

/-- What a symbol of the innermost scope stands for. -/
def denotes (m : Machine) (x : Symbol) : Value :=
  match x.kind with
  | .global => m.getGlobal x.index
  | .local => m.stack.getD (m.frame.base + x.index) .nil
  | .builtin => ((m.builtins[x.index]?).map Value.builtin).getD .nil
  | .free => m.frame.free.getD x.index .nil
  | .function => .closure m.frame.closure

/-- The machine with a value in the slot of a symbol. -/
def stored (m : Machine) (x : Symbol) (v : Value) : Machine :=
  { m with
    globals := if x.kind = .global then (m.setGlobal x.index v).globals else m.globals
    stack := if x.kind = .global then m.stack
      else m.stack.setIfInBounds (m.frame.base + x.index) v }

section

variable (m : Machine) (x : Symbol) (v : Value)

/-- A store to a global changes this global only. -/
lemma getGlobal_stored (hk : x.kind = .global) (j : Nat) :
    (m.stored x v).getGlobal j = if x.index = j then v else m.getGlobal j := by
  rw [← getGlobal_setGlobal]
  simp only [getGlobal, stored, if_pos hk]

/-- Only the slot of the symbol changes. -/
lemma getD_stored (i : Nat) (hi : i ≠ m.frame.base + x.index ∨ x.kind = .global) :
    (m.stored x v).stack.getD i .nil = m.stack.getD i .nil := by
  simp only [stored]
  split_ifs with hk
  · rfl
  · simp only [Array.getD_eq_getD_getElem?, Array.getElem?_setIfInBounds,
      if_neg (hi.resolve_right hk).symm]

/-- A symbol stands for what was stored to it. -/
lemma denotes_stored (ho : x.kind.owned = true)
    (hroom : x.kind = .local → m.frame.base + x.index < m.stack.size) :
    (m.stored x v).denotes x = v := by
  cases hk : x.kind with
  | global => simp only [denotes, hk, getGlobal_stored m x v hk, if_true]
  | «local» =>
      simp only [denotes, hk]
      simp [stored, hk, Array.getD_eq_getD_getElem?, hroom hk]
  | builtin | free | function =>
      rw [hk] at ho
      cases ho

/-- Other symbols stand for what they stood for. -/
lemma denotes_stored_of_ne {y : Symbol} (ho : x.kind.owned = true)
    (hy : y.kind = x.kind → y.index ≠ x.index) :
    (m.stored x v).denotes y = m.denotes y := by
  cases hky : y.kind with
  | global =>
      simp only [denotes, hky]
      by_cases hk : x.kind = .global
      · rw [getGlobal_stored m x v hk, if_neg (hy (hky.trans hk.symm)).symm]
      · simp only [getGlobal, stored, if_neg hk]
  | «local» =>
      simp only [denotes, hky]
      refine m.getD_stored x v _ ?_
      by_cases hk : x.kind = .global
      · exact .inr hk
      · have hne := hy (hky.trans ((SymbolKind.eq_of_owned ho).resolve_left hk).symm)
        exact .inl (by simp only [stored]; omega)
  | builtin | free | function =>
      simp only [denotes, hky]
      rfl

end

namespace Safe

variable {main : Code} {k g : Nat} {x : Symbol}

/-- Loading a symbol pushes what it stands for. -/
lemma execute_load (h : m.Safe main k g) (hi : x.loadInstr.Fits)
    (hc : m.frame.fn.code.Holds m.frame.ip [x.loadInstr]) (ip : Nat) :
    (m.jump ip).execute x.loadInstr.op x.loadInstr.first x.loadInstr.second =
      (m.jump ip).push (m.denotes x) := by
  obtain ⟨before, rest, hs⟩ := h.stands hi hc
  have hr := hs.instr_inRange
  cases hk : x.kind with
  | global | function =>
      simp only [Symbol.loadInstr, denotes, hk]
      rfl
  | «local» =>
      simp only [Symbol.loadInstr, hk] at hr
      have hlt : m.frame.base + x.index < m.stack.size := by
        have h₁ : x.index < m.frame.fn.locals.toNat := hr
        have h₂ := h.floor_le
        have h₃ := h.room
        omega
      simp only [Symbol.loadInstr, denotes, hk, Array.getD_eq_getD_getElem?,
        Array.getElem?_eq_getElem hlt]
      show (m.jump ip).getLocal x.index = _
      simp only [getLocal, jump, Array.getElem?_eq_getElem hlt]
      rfl
  | builtin =>
      simp only [Symbol.loadInstr, hk] at hr
      have hlt : x.index < m.builtins.length := by
        rw [h.builtins]
        exact hr
      simp only [Symbol.loadInstr, denotes, hk, execute, jump, Instr.first, List.getD_cons_zero,
        List.getElem?_eq_getElem hlt]
      rfl
  | free =>
      simp only [Symbol.loadInstr, hk] at hr
      have hlt : x.index < m.frame.free.size := hr
      simp only [Symbol.loadInstr, denotes, hk, execute, jump, Instr.first, List.getD_cons_zero,
        Array.getD_eq_getD_getElem?, Array.getElem?_eq_getElem hlt]
      rfl

/-- Storing to a symbol moves the top value to its slot, which is one of the call's own. -/
lemma execute_store (h : m.Safe main k g) (ho : x.kind.owned = true) (hi : x.storeInstr.Fits)
    (hc : m.frame.fn.code.Holds m.frame.ip [x.storeInstr]) (ip : Nat) :
    (x.kind = .local → x.index < m.frame.fn.locals.toNat) ∧
      (m.jump ip).execute x.storeInstr.op x.storeInstr.first x.storeInstr.second =
        .next (stored { m.jump ip with sp := m.sp - 1 } x (m.stack.getD (m.sp - 1) .nil)) := by
  obtain ⟨before, rest, hs⟩ := h.stands hi hc
  have hr := hs.instr_inRange
  cases hk : x.kind with
  | global =>
      refine ⟨nofun, ?_⟩
      simp only [Symbol.storeInstr, stored, hk, if_true]
      rfl
  | «local» =>
      simp only [Symbol.storeInstr, hk] at hr
      have hlt : x.index < m.frame.fn.locals.toNat := hr
      have hslot : m.frame.base + x.index < m.stack.size := by
        have h₂ := h.floor_le
        have h₃ := h.room
        omega
      refine ⟨fun _ => hlt, ?_⟩
      simp only [Symbol.storeInstr, stored, hk, reduceCtorEq, if_false]
      show (m.jump ip).setLocal x.index = _
      exact if_pos hslot
  | builtin | free | function =>
      rw [hk] at ho
      cases ho

end Safe

end Machine

end Marmoset
