import Marmoset.Proofs.OtherStacks
import Marmoset.Proofs.SafeSessions
import Marmoset.Proofs.WrittenSlots

/-!
# What lay on the stack before

A call takes slots for its locals as it finds them.  So a run depends on what lay on the stack
before, unless each local that is no parameter is written before it is read
(`CompiledFunction.WritesFirst`).

`Holding P` says that the slots that calls have written so far have `P`, and `Machine.Held P` that
this is so in a machine.  A step in order reads nothing but such slots (`Machine.Safe.stepsAlike`),
and so does a whole run (`Machine.Safe.run_withStack`).

* **`Session.Reached.run_ignores_stack`** — where functions write their locals first, the outcome of
  a run is the same for any two contents of the stack.
* `Session.leftover_is_read` — it is not the same for all programs: a local may stand in its own
  definition.
-/

namespace Marmoset

/-- The call has come to the end of `before` and written the slots `w` on the way.  All its slots
below `top` have `P`, but for those of its locals that are no parameters and not written. -/
structure Frame.Holds (P : Nat → Prop) (f : Frame) (top : Nat) (before after : List Instr)
    (w : List Nat) : Prop where
  reads : f.fn.code.Reads (before ++ after)
  ip : f.ip = extent before
  walk : Walk (before ++ after) before after w
  held : ∀ j, f.base ≤ j → j < top →
    (f.base + f.fn.locals.toNat ≤ j ∨ j - f.base < f.fn.params.toNat ∨ j - f.base ∈ w) → P j

/-- So it is for all calls that are going on; those that wait are not at the end of their code. -/
def Holding (P : Nat → Prop) : Frame → List Frame → Nat → Prop
  | f, [], top => ∃ before after w, f.Holds P top before after w
  | f, caller :: callers, top =>
      (∃ before after w, f.Holds P top before after w) ∧ caller.ip < caller.fn.code.size ∧
      Holding P caller callers f.base

namespace Frame.Holds

variable {P Q : Nat → Prop} {f : Frame} {top : Nat} {before rest : List Instr} {i : Instr}
  {w : List Nat}

/-- More slots may be held. -/
lemma mono {after : List Instr} (h : f.Holds P top before after w) (hq : ∀ j, P j → Q j) :
    f.Holds Q top before after w :=
  ⟨h.reads, h.ip, h.walk, fun j hb ht hj => hq j (h.held j hb ht hj)⟩

/-- The call goes on behind an instruction that pushes or writes into slots with `Q`. -/
lemma advance (h : f.Holds P top before (i :: rest) w) (hj : i.op ≠ .jump) (hr : i.returns = false)
    (hq : ∀ j, P j → Q j) (hpush : i.gives = 1 → Q (top - i.takes))
    (hwrite : i.op = .setLocal → Q (f.base + i.first)) :
    ({ f with ip := f.ip + i.size } : Frame).Holds Q (top - i.takes + i.gives) (before ++ [i]) rest
      (i.writes ++ w) where
  reads := by
    rw [List.append_assoc]
    exact h.reads
  ip := by
    rw [h.ip]
    simp
  walk := by
    rw [List.append_assoc]
    exact h.walk.next hj hr
  held j hb ht hj := by
    have hgives : i.gives = 0 ∨ i.gives = 1 := by
      unfold Instr.gives
      split <;> simp
    by_cases hlt : j < top - i.takes
    · rw [List.mem_append] at hj
      rcases hj with hj | hj | hj | hj
      · exact hq j (h.held j hb (by omega) (.inl hj))
      · exact hq j (h.held j hb (by omega) (.inr (.inl hj)))
      · unfold Instr.writes at hj
        split at hj
        · rename_i hop
          have hslot : j - f.base = i.first := List.mem_singleton.mp hj
          have hbase : f.base ≤ j := hb
          rw [show j = f.base + i.first by omega]
          exact hwrite hop
        · cases hj
      · exact hq j (h.held j hb (by omega) (.inr (.inr hj)))
    · have hone : i.gives = 1 := by omega
      rw [show j = top - i.takes by omega]
      exact hpush hone

/-- The call goes on where a jump goes. -/
lemma land {mid rest' : List Instr} (h : f.Holds P top before (i :: (mid ++ rest')) w)
    (hj : i.jumps = true) (ht : i.first = extent (before ++ i :: mid)) :
    ({ f with ip := i.first } : Frame).Holds P (top - i.takes) (before ++ i :: mid) rest' w where
  reads := by simpa using h.reads
  ip := ht
  walk := by simpa using h.walk.jump hj ht
  held j hb hlt hj := h.held j hb (Nat.lt_of_lt_of_le hlt (Nat.sub_le _ _)) hj

end Frame.Holds

/-- So it is for all calls. -/
lemma Holding.mono {P Q : Nat → Prop} {f : Frame} {callers : List Frame} {top : Nat}
    (h : Holding P f callers top) (hq : ∀ j, P j → Q j) : Holding Q f callers top := by
  induction callers generalizing f top with
  | nil =>
      obtain ⟨before, after, w, h⟩ := h
      exact ⟨before, after, w, h.mono hq⟩
  | cons c cs ih =>
      obtain ⟨⟨before, after, w, h⟩, hlt, hrest⟩ := h
      exact ⟨⟨before, after, w, h.mono hq⟩, hlt, ih hrest⟩

/-- The innermost call holds its slots. -/
lemma Holding.frame {P : Nat → Prop} {f : Frame} {callers : List Frame} {top : Nat}
    (h : Holding P f callers top) :
    ∃ before after w, f.Holds P top before after w := by
  cases callers with
  | nil => exact h
  | cons c cs => exact h.1

/-- The innermost call goes on somewhere else. -/
lemma Holding.move {P Q : Nat → Prop} {f f' : Frame} {callers : List Frame} {top top' : Nat}
    (h : Holding P f callers top) (hq : ∀ j, P j → Q j) (hbase : f'.base = f.base)
    (hf : ∃ before after w, f'.Holds Q top' before after w) : Holding Q f' callers top' := by
  cases callers with
  | nil => exact hf
  | cons c cs =>
      refine ⟨hf, h.2.1, ?_⟩
      rw [hbase]
      exact h.2.2.mono hq

namespace Machine

/-- The calls hold slots with `P`; and at the end of the program the value popped last lies in such
a slot. -/
structure Held (P : Nat → Prop) (m : Machine) : Prop where
  calls : Holding P m.frame m.callers m.sp
  last : m.callers = [] → m.frame.ip = m.frame.fn.code.size → P m.sp

/-- On the other stack the step does the same, and what calls hold afterwards is the same there
too. -/
def StepsAlike (m : Machine) (s : Array Value) : Prop :=
  ∃ Q, m.step.Same Q (m.withStack s).step ∧ ∀ m', m.step = .next m' → m'.Held Q

end Machine

/-- In code there is one place for each offset. -/
lemma Code.Reads.split_unique {code : Code} {before after before' after' : List Instr}
    (h : code.Reads (before ++ after)) (h' : code.Reads (before' ++ after'))
    (he : extent before = extent before') :
    before = before' ∧ after = after' := by
  have heq := h.unique h'
  obtain rfl := append_inj_of_extent heq he
  exact ⟨rfl, List.append_cancel_left heq⟩

/-- Where a call stands determines how high its stack is. -/
lemma Frame.Stands.top_eq {pool : Array Constant} {k g top top' : Nat} {inside inside' : Bool}
    {f : Frame} {before after before' after' : List Instr}
    (h : f.Stands pool k g inside top before after)
    (h' : f.Stands pool k g inside' top' before' after') : top' = top := by
  obtain ⟨rfl, -⟩ := h.reads.split_unique h'.reads (h.ip.symm.trans h'.ip)
  rw [h.top, h'.top]

namespace Machine

variable {P : Nat → Prop} {m m' : Machine} {s : Array Value} {main : Code} {k g : Nat} {i : Instr}
  {before rest : List Instr} {w : List Nat}

/-- The stack pointer of a machine in order, where its innermost call stands. -/
lemma Safe.sp_eq (h : m.Safe main k g) {inside : Bool} {top : Nat} {after : List Instr}
    (hs : m.frame.Stands m.constants k g inside top before after) : m.sp = top := by
  obtain ⟨before', after', hs'⟩ := h.frames.stands
  exact hs.top_eq hs'

/-- A machine in order that holds slots with `P`, at an instruction. -/
structure AtInstr (main : Code) (k g : Nat) (P : Nat → Prop) (m : Machine) (before : List Instr)
    (i : Instr) (rest : List Instr) (w : List Nat) : Prop where
  safe : m.Safe main k g
  stands : m.frame.Stands m.constants k g (!m.callers.isEmpty) m.sp before (i :: rest)
  held : m.Held P
  holds : m.frame.Holds P m.sp before (i :: rest) w
  /-- The program ends by dropping a value. -/
  ends : m.callers = [] → rest = [] → i.Drops

namespace AtInstr

variable (hi : AtInstr main k g P m before i rest w) (h : SameSlots P m.stack s)

include hi

/-- What the instruction takes lies in slots with `P`. -/
lemma operands : ∀ j, m.sp - i.takes ≤ j → j < m.sp → P j := by
  intro j hj hlt
  have htakes := hi.stands.takes_le
  exact hi.holds.held j (by omega) hlt (.inl (by omega))

/-- The step carries out the instruction. -/
lemma step_eq : m.step = (m.jump (m.frame.ip + i.size)).execute i.op i.first i.second :=
  step_of_instr hi.stands.fits hi.stands.holds

/-- So it does on the other stack. -/
lemma step_withStack (s : Array Value) :
    (m.withStack s).step =
      ((m.jump (m.frame.ip + i.size)).withStack s).execute i.op i.first i.second :=
  step_of_instr hi.stands.fits hi.stands.holds

/-- A machine in order that goes on is in order, with the same constants. -/
lemma safe_next (hm : m.step = .next m') : m'.Safe main k g ∧ m'.constants = m.constants := by
  have hstep := hi.safe.step
  have hconst := m.constants_step
  rw [hm] at hstep hconst
  exact ⟨hstep, hconst⟩

/-- The call goes on with the instruction behind. -/
lemma held_next {Q : Nat → Prop} (hj : i.op ≠ .jump) (hr : i.returns = false) (hq : ∀ j, P j → Q j)
    (hpush : i.gives = 1 → Q (m.sp - i.takes))
    (hwrite : i.op = .setLocal → Q (m.frame.base + i.first))
    (hm : m.step = .next m') (hc : (m.jump (m.frame.ip + i.size)).SameCalls m') : m'.Held Q := by
  obtain ⟨hsafe, hconst⟩ := hi.safe_next hm
  obtain ⟨hframe, hcallers⟩ := hc
  have hstands : m'.frame.Stands m'.constants k g (!m.callers.isEmpty) (m.sp - i.takes + i.gives)
      (before ++ [i]) rest := by
    rw [hframe, hconst]
    exact hi.stands.advance hj hr
  have hsp := hsafe.sp_eq hstands
  refine ⟨?_, fun hnil hend => ?_⟩
  · rw [hframe, hcallers, hsp]
    exact hi.held.calls.move hq rfl ⟨_, _, _, hi.holds.advance hj hr hq hpush hwrite⟩
  · rw [hcallers] at hnil
    have hend' : m.frame.ip + i.size = m.frame.fn.code.size := by
      rw [hframe] at hend
      exact hend
    have hrest : rest = [] := by
      rw [hi.stands.reads.size, hi.stands.ip, extent_append, extent_cons] at hend'
      cases rest with
      | nil => rfl
      | cons j rest =>
          have hpos := j.size_pos
          rw [extent_cons] at hend'
          omega
    obtain ⟨hgives, htakes⟩ := hi.ends hnil hrest
    have hroom := hi.stands.takes_le
    rw [hsp, hgives]
    exact hq _ (hi.operands _ (Nat.le_refl _) (by omega))

/-- A jump that is taken. -/
lemma held_jump (hj : i.jumps = true) {sp : Nat} (hsp : sp = m.sp - i.takes) :
    ({ m.jump i.first with sp } : Machine).Held P := by
  obtain ⟨-, hjump, -⟩ := hi.stands.balanced.right
  obtain ⟨mid, rest', hrest, hne, htarget, -⟩ := hjump hj
  have hholds := hi.holds
  rw [hrest] at hholds
  have hto : i.first = extent (before ++ i :: mid) := by
    rw [htarget, extent_append, extent_cons]
    omega
  refine ⟨?_, fun _ hend => ?_⟩
  · rw [hsp]
    exact hi.held.calls.move (fun _ => id) rfl ⟨_, _, _, hholds.land hj hto⟩
  · -- the program does not end where a jump goes
    obtain ⟨j, rest'', rfl⟩ := List.exists_cons_of_ne_nil (hne rfl)
    have hend' : i.first = m.frame.fn.code.size := hend
    have hpos := j.size_pos
    rw [hi.stands.reads.size, hto, hrest] at hend'
    simp only [extent_append, extent_cons] at hend'
    omega

/-- A call is left for the one that was waiting. -/
lemma held_leave (m₁ : Machine) {v : Value} (hf : m₁.frame.base = m.frame.base)
    (hc : m₁.callers = m.callers) (hm : m₁.leave v = .next m') :
    m'.Held fun j => P j ∨ j = m.frame.base - 1 := by
  obtain ⟨hcallers, hsp⟩ := next_leave hm
  rw [hc] at hcallers
  have hpos := hi.safe.base_pos (by simp [hcallers])
  obtain ⟨-, hwaits, hrest⟩ : Holding P m.frame (m'.frame :: m'.callers) m.sp :=
    hcallers ▸ hi.held.calls
  refine ⟨?_, fun _ hend => absurd hend (Nat.ne_of_lt hwaits)⟩
  rw [hsp, hf, show m.frame.base - 1 + 1 = m.frame.base by omega]
  exact hrest.mono fun j => .inl

/-- A slot that is read was written. -/
lemma getLocal (hwrites : ∀ fn, Constant.function fn ∈ m.constants → fn.WritesFirst)
    (hop : i.op = .getLocal) :
    P (m.frame.base + i.first) := by
  have hslot : i.first < m.frame.fn.locals.toNat := by
    have hrange := hi.stands.instr_inRange
    rwa [Instr.InRange, hop] at hrange
  have hframes := hi.safe.frames
  cases hc : m.callers with
  | nil =>
      -- the program itself has no locals
      rw [hc] at hframes
      rw [hframes.1] at hslot
      cases hslot
  | cons c cs =>
      rw [hc] at hframes
      -- on the way that was walked the function has written what it reads here
      have hw := hwrites _ hframes.2.1 _ hi.holds.reads _ _ _ _ hi.holds.walk hop
      have htakes := hi.stands.takes_le
      exact hi.holds.held _ (Nat.le_add_right _ _) (by omega)
        (.inr (by rwa [Nat.add_sub_cancel_left]))

/-- A call of a closure waits for it; the arguments are the first slots of the new call. -/
lemma held_call {ref : Nat} {c : Closure} (hop : i.op = .call) (hm : m.step = .next m')
    (hcall : (m.jump (m.frame.ip + i.size)).callClosure ref c i.first = .next m') : m'.Held P := by
  obtain ⟨hparams, -, hframe, hcallers⟩ := next_callClosure hcall
  obtain ⟨hsafe, -⟩ := hi.safe_next hm
  have htakes := hi.stands.takes_le
  have hargs : i.takes = i.first + 1 := by simp [Instr.takes, hop]
  have hgives : i.gives = 1 := by simp [Instr.gives, hop]
  have hret : i.returns = false := by simp [Instr.returns, hop]
  have hne : rest ≠ [] := by
    intro hnil
    by_cases hc : m.callers = []
    · rw [(hi.ends hc hnil).1] at hgives
      cases hgives
    · exact hi.stands.rest_ne_nil hret (by simpa using hc) hnil
  have hframes := hsafe.frames
  rw [hcallers, hframe] at hframes
  obtain ⟨-, -, -, -, ⟨before', after', hstart⟩, -⟩ := hframes
  have hnil : before' = [] := by
    cases before' with
    | nil => rfl
    | cons j js =>
        have hpos := j.size_pos
        have hip := hstart.ip
        simp only [extent_cons] at hip
        omega
  subst hnil
  refine ⟨?_, fun hnone => by rw [hcallers] at hnone; cases hnone⟩
  rw [hcallers, hframe]
  refine ⟨⟨[], after', [], hstart.reads, rfl, .start, fun j hb hlt hj => ?_⟩, ?_, ?_⟩
  · have htop := hstart.top
    simp only [height_nil, sp_jump] at hb htop hj
    rcases hj with hj | hj | hj
    · omega
    · exact hi.operands j (by omega) (by omega)
    · cases hj
  · obtain ⟨j, rest', rfl⟩ := List.exists_cons_of_ne_nil hne
    have hpos := j.size_pos
    show m.frame.ip + i.size < m.frame.fn.code.size
    rw [hi.stands.reads.size, hi.stands.ip]
    simp only [extent_append, extent_cons]
    omega
  · have hwaits := hi.holds.advance (by simp [hop]) hret (fun _ => id)
      (fun _ => hi.operands _ (Nat.le_refl _) (by omega)) (by simp [hop])
    rw [hargs, hgives, show m.sp - (i.first + 1) + 1 = m.sp - i.first by omega] at hwaits
    exact hi.held.calls.move (fun _ => id) rfl ⟨_, _, _, hwaits⟩

include h

/-- Instructions that go on behind themselves. -/
lemma plain (hlocal : i.op = .getLocal → P (m.frame.base + i.first))
    (hop : i.op ∉ [Opcode.jump, .jumpNotTruthy, .call, .returnValue, .returnNil]) :
    m.StepsAlike s := by
  have htakes := hi.stands.takes_le
  have hj : i.op ≠ .jump := fun ho => hop (by simp [ho])
  have hr : i.returns = false := by
    simp only [List.mem_cons, not_or] at hop
    simp [Instr.returns, hop]
  refine ⟨SameAfter P m i, ?_, fun m' hm => ?_⟩
  · rw [hi.step_eq, hi.step_withStack]
    exact same_execute (m := m.jump (m.frame.ip + i.size)) h hi.safe.room hi.operands
      (show i.takes ≤ m.sp by omega) hlocal hop
  · refine hi.held_next hj hr (fun j => .inl) (fun hg => .inr (.inl ⟨hg, rfl⟩))
      (fun ho => .inr (.inr ⟨ho, rfl⟩)) hm ?_
    rw [hi.step_eq] at hm
    exact next_execute hop hm

/-- A jump reads no slot. -/
lemma jump (hop : i.op = .jump) : m.StepsAlike s := by
  have hj : i.jumps = true := by simp [Instr.jumps, hop]
  refine ⟨P, ?_, fun m' hm => ?_⟩
  · rw [hi.step_eq, hi.step_withStack, hop]
    exact .next rfl h
  · rw [hi.step_eq, hop] at hm
    cases hm
    exact hi.held_jump hj (by simp [Instr.takes, hop])

/-- A conditional jump reads the slot on top. -/
lemma jumpNotTruthy (hop : i.op = .jumpNotTruthy) : m.StepsAlike s := by
  have hj : i.jumps = true := by simp [Instr.jumps, hop]
  have htakes := hi.stands.takes_le
  have hone : i.takes = 1 := by simp [Instr.takes, hop]
  have hpop := pop_withStack (m := m.jump (m.frame.ip + i.size)) h
    (hi.operands _ (by simp [hone]) (by simp; omega))
  refine ⟨P, ?_, fun m' hm => ?_⟩
  · rw [hi.step_eq, hi.step_withStack, hop]
    simp only [execute, hpop]
    split
    · exact .next rfl h
    · exact .next rfl h
  · have hm' := hm
    rw [hi.step_eq, hop] at hm
    simp only [execute] at hm
    split at hm
    · cases hm
      exact hi.held_next (by simp [hop]) (by simp [Instr.returns, hop]) (fun j => id)
        (by simp [Instr.gives, hop])
        (by simp [hop]) hm' ⟨rfl, rfl⟩
    · cases hm
      exact hi.held_jump hj (by rw [hone]; rfl)

/-- A return reads the slot on top, or none. -/
lemma leaves (hr : i.returns = true) : m.StepsAlike s := by
  have htakes := hi.stands.takes_le
  refine ⟨fun j => P j ∨ j = m.frame.base - 1, ?_, fun m' hm => ?_⟩
  · rw [hi.step_eq, hi.step_withStack]
    simp only [Instr.returns, Bool.or_eq_true, beq_iff_eq] at hr
    rcases hr with hop | hop
    · have hone : i.takes = 1 := by simp [Instr.takes, hop]
      have hslot : P (m.sp - 1) := hi.operands _ (by omega) (by omega)
      have hpop := pop_withStack (m := m.jump (m.frame.ip + i.size)) h hslot
      rw [hop]
      simp only [execute, hpop]
      exact same_leave (m := (m.jump (m.frame.ip + i.size)).pop.2) h (fun _ => hslot) _
    · have hinside := hi.stands.instr_inRange
      rw [Instr.InRange, hop] at hinside
      rw [hop]
      exact same_leave (m := m.jump (m.frame.ip + i.size)) h
        (fun hnil => absurd hinside (by simp [show m.callers = [] from hnil])) _
  · rw [hi.step_eq] at hm
    simp only [Instr.returns, Bool.or_eq_true, beq_iff_eq] at hr
    rcases hr with hop | hop
    · rw [hop] at hm
      exact hi.held_leave (m.jump (m.frame.ip + i.size)).pop.2 rfl rfl hm
    · rw [hop] at hm
      exact hi.held_leave (m.jump (m.frame.ip + i.size)) rfl rfl hm

/-- A call reads the callee and its arguments. -/
lemma calls (hop : i.op = .call) : m.StepsAlike s := by
  have hargs : i.takes = i.first + 1 := by simp [Instr.takes, hop]
  have hops := hi.operands
  rw [hargs] at hops
  refine ⟨fun j => P j ∨ j = m.sp - (i.first + 1), ?_, fun m' hm => ?_⟩
  · rw [hi.step_eq, hi.step_withStack, hop]
    exact same_call (m := m.jump (m.frame.ip + i.size)) h hi.safe.room hops
  · have hm' := hm
    rw [hi.step_eq, hop] at hm
    rcases next_call hm with hsame | ⟨ref, c, -, hcall⟩
    · exact hi.held_next (by simp [hop]) (by simp [Instr.returns, hop]) (fun j => .inl)
        (fun _ => .inr (by rw [hargs]))
        (by simp [hop]) hm' hsame
    · have hheld := hi.held_call hop hm' hcall
      exact ⟨hheld.calls.mono fun j => .inl, fun hnil hend => .inl (hheld.last hnil hend)⟩

end AtInstr

/-- **A step does not depend on slots that no call holds.** -/
theorem Safe.stepsAlike {is : List Instr} (hsafe : m.Safe main k g) (hheld : m.Held P)
    (h : SameSlots P m.stack s) (hmain : main.Reads is) (hends : EndsInDrop is)
    (hwrites : ∀ fn, Constant.function fn ∈ m.constants → fn.WritesFirst) : m.StepsAlike s := by
  obtain ⟨before, after, hs⟩ := hsafe.frames.stands
  obtain ⟨before', after', w, hholds⟩ := hheld.calls.frame
  obtain ⟨rfl, rfl⟩ := hs.reads.split_unique hholds.reads (hs.ip.symm.trans hholds.ip)
  cases after with
  | nil =>
      -- only the program itself comes to the end of its code
      have hcallers : m.callers = [] := by
        by_contra hne
        exact hs.inCode (by simpa using hne) rfl
      have hip : m.frame.ip = m.frame.fn.code.size := by
        rw [hs.ip, hs.reads.size, List.append_nil]
      have hend : m.frame.fn.code[m.frame.ip]? = none := by
        rw [hip]
        exact Array.getElem?_size
      have hstep : m.step = m.leave .nil := by simp only [Machine.step, hend]
      have hstep' : (m.withStack s).step = (m.withStack s).leave .nil := by
        simp only [Machine.step, frame_withStack, hend]
      refine ⟨_, hstep ▸ hstep' ▸ same_leave h (fun _ => hheld.last hcallers hip) .nil,
        fun m' hm => ?_⟩
      rw [hstep, Machine.leave, hcallers] at hm
      cases hm
  | cons i rest =>
      have hi : AtInstr main k g P m before i rest w := by
        refine ⟨hsafe, hs, hheld, hholds, fun hnil hrest => ?_⟩
        have hframes := hsafe.frames
        rw [hnil] at hframes
        have hreads := hs.reads
        rw [hframes.1, hrest] at hreads
        obtain ⟨init, j, rfl, hj⟩ := hends
        have hlast := congrArg List.getLast? (hreads.unique hmain)
        simp only [List.getLast?_append, List.getLast?_singleton, Option.some_or,
          Option.some.injEq] at hlast
        rwa [hlast]
      by_cases hop : i.op ∈ [Opcode.jump, .jumpNotTruthy, .call, .returnValue, .returnNil]
      · simp only [List.mem_cons, List.not_mem_nil, or_false] at hop
        rcases hop with hop | hop | hop | hop | hop
        · exact hi.jump h hop
        · exact hi.jumpNotTruthy h hop
        · exact hi.calls h hop
        · exact hi.leaves h (by simp [Instr.returns, hop])
        · exact hi.leaves h (by simp [Instr.returns, hop])
      · exact hi.plain h (hi.getLocal hwrites) hop

end Machine

/-! ## Outcomes -/

/-- Two runs that went equally far and in the same way, as far as one can see from outside. -/
inductive Step.SameOutcome : Step → Step → Prop where
  | next {m m' : Machine} (globals : m'.globals = m.globals) (store : m'.store = m.store) :
      SameOutcome (.next m) (.next m')
  | done {m m' : Machine} (last : m'.lastPopped = m.lastPopped) (globals : m'.globals = m.globals)
      (store : m'.store = m.store) : SameOutcome (.done m) (.done m')
  | fault (f : Fault) {m m' : Machine} (globals : m'.globals = m.globals)
      (store : m'.store = m.store) :
      SameOutcome (.fault f m) (.fault f m')
  | crash {m m' : Machine} (globals : m'.globals = m.globals) (store : m'.store = m.store) :
      SameOutcome (.crash m) (.crash m')

namespace Step.SameOutcome

variable {r r₁ r₂ : Step}

/-- What is the same but for some slots looks the same from outside. -/
lemma of_same {P : Nat → Prop} (h : r.Same P r₁) : r.SameOutcome r₁ := by
  cases h with
  | next same h =>
      rw [same]
      exact .next rfl rfl
  | done same last => exact .done last (by rw [same]; rfl) (by rw [same]; rfl)
  | fault f same =>
      rw [same]
      exact .fault f rfl rfl
  | crash same =>
      rw [same]
      exact .crash rfl rfl

lemma symm (h : r.SameOutcome r₁) : r₁.SameOutcome r := by
  cases h with
  | next globals store => exact .next globals.symm store.symm
  | done last globals store => exact .done last.symm globals.symm store.symm
  | fault f globals store => exact .fault f globals.symm store.symm
  | crash globals store => exact .crash globals.symm store.symm

lemma trans (h : r.SameOutcome r₁) (h' : r₁.SameOutcome r₂) : r.SameOutcome r₂ := by
  cases h with
  | next globals store =>
      cases h' with
      | next globals' store' => exact .next (globals'.trans globals) (store'.trans store)
  | done last globals store =>
      cases h' with
      | done last' globals' store' =>
          exact .done (last'.trans last) (globals'.trans globals) (store'.trans store)
  | fault f globals store =>
      cases h' with
      | fault _ globals' store' => exact .fault f (globals'.trans globals) (store'.trans store)
  | crash globals store =>
      cases h' with
      | crash globals' store' => exact .crash (globals'.trans globals) (store'.trans store)

/-- The value of the run is the same. -/
lemma value?_eq (h : r.SameOutcome r₁) : r₁.value? = r.value? := by
  cases h with
  | next => rfl
  | done last => exact congrArg some last
  | fault => rfl
  | crash => rfl

end Step.SameOutcome

namespace Machine

/-- **Nor does a run.** -/
theorem Safe.run_withStack {P : Nat → Prop} {m : Machine} {s : Array Value} {main : Code}
    {k g : Nat} {is : List Instr} (hsafe : m.Safe main k g) (hheld : m.Held P)
    (h : SameSlots P m.stack s) (hmain : main.Reads is) (hends : EndsInDrop is)
    (hwrites : ∀ fn, Constant.function fn ∈ m.constants → fn.WritesFirst) (n : Nat) :
    (m.run n).SameOutcome ((m.withStack s).run n) := by
  induction n generalizing P m s with
  | zero => exact .next rfl rfl
  | succ n ih =>
      obtain ⟨Q, hsame, hheld'⟩ := hsafe.stepsAlike hheld h hmain hends hwrites
      have hsafe' := hsafe.step
      have hconst := m.constants_step
      rw [Machine.run, Machine.run]
      generalize m.step = r at hsame hheld' hsafe' hconst ⊢
      generalize (m.withStack s).step = r' at hsame ⊢
      cases hsame with
      | next same hslots =>
          rw [same]
          rw [← hconst] at hwrites
          exact ih hsafe' (hheld' _ rfl) hslots hwrites
      | done same last => exact .of_same (.done (P := Q) same last)
      | fault f same => exact .of_same (.fault (P := Q) f same)
      | crash same => exact .of_same (.crash (P := Q) same)

end Machine

/-- Whether the constant, if it is a function, passes the test `CompiledFunction.isSettled`. -/
def Constant.isSettled : Constant → Bool
  | .function fn => fn.isSettled
  | _ => true

/-! ## Sessions -/

namespace Session

variable {limits : Limits} {s s' : Session} {b : Bytecode} {source : String}

/-- The code of an input that ends in an expression. -/
lemma InOrder.reads_drop (h : s.InOrder limits) (hs : s.compile source = (.ok b, s')) {p : Program}
    (hp : Program.ofText source = .ok p) (hlast : p.endsInExpr = true) :
    ∃ is, b.code.Reads is ∧ EndsInDrop is := by
  obtain ⟨p', hp', hok, rfl, rfl⟩ := exists_of_compile hs
  obtain rfl : p = p' := Except.ok.inj (hp.symm.trans hp')
  obtain ⟨is, hem, htracks, -⟩ := h.ready.emits_of_ok .empty hok
  obtain ⟨ss, e, rfl⟩ := Program.exists_of_endsInExpr hlast
  obtain ⟨init, rfl⟩ := hem.ends_in_pop
  have hreads : (s.compiler.compile (ss ++ [.expr e])).2.bytecode.code.Reads (init ++ [.pop]) :=
    ⟨htracks.code, htracks.fits⟩
  exact ⟨_, hreads, init, .pop, rfl, rfl, Nat.one_pos⟩

/-- A machine that begins holds no slots. -/
lemma held_machine {b : Bytecode} {is : List Instr} (hmain : b.code.Reads is)
    (hends : EndsInDrop is) (s : Session) :
    (s.machine b).Held fun _ => False where
  calls := ⟨[], _, [], hmain, rfl, .start, fun j _ hj => absurd hj (Nat.not_lt_zero j)⟩
  last _ hend := by
    have hsize : 0 = b.code.size := hend
    obtain ⟨init, i, rfl, -⟩ := hends
    rw [hmain.size, extent_append] at hsize
    have hpos := i.size_pos
    simp only [extent_cons, extent_nil] at hsize
    omega

/-- The globals may be others that are in order. -/
lemma safe_withGlobals {b : Bytecode} {main : Code} {k g : Nat} {globals : Array Value}
    (h : (s.machine b).Safe main k g) (hg : ∀ v ∈ globals, v.Sane b.constants s.store.closures) :
    (({ s with globals } : Session).machine b).Safe main k g := by
  refine ⟨⟨h.tidy.stack, fun v hv => (hg v hv).mono List.prefix_rfl ?_, h.tidy.store⟩,
    h.functions, h.builtins, h.small, h.room, h.frames⟩
  simp [machine, Machine.load, Store.newClosure, Store.reserve]

/-- **A run does not depend on what lay on the stack before,** where functions write their locals
before they read them. -/
theorem Reached.run_ignores_stack (h : Reached limits s) (hl : limits.areFeasible = true)
    (hs : s.compile source = (.ok b, s')) {p : Program} (hp : Program.ofText source = .ok p)
    (hlast : p.endsInExpr = true)
    (hwrites : ∀ fn, Constant.function fn ∈ b.constants → fn.WritesFirst) {globals : Array Value}
    (hg : ∀ v ∈ globals, v.Sane b.constants s'.store.closures) {xs ys : Array Value}
    (hx : xs.size = limits.stackSize) (hy : ys.size = limits.stackSize) (n : Nat) :
    (((Machine.load b globals limits Builtin.table s'.store).withStack xs).run n).SameOutcome
      (((Machine.load b globals limits Builtin.table s'.store).withStack ys).run n) := by
  have hin := h.inOrder hl
  obtain ⟨is, hmain, hends⟩ := hin.reads_drop hs hp hlast
  have hlimits : s'.limits = limits := by
    have hin' := hin.compile source
    rw [hs] at hin'
    exact hin'.limits
  -- both are compared with the machine that begins with an empty stack
  have key {zs : Array Value} (hz : zs.size = limits.stackSize) :
      ((Machine.load b globals limits Builtin.table s'.store).run n).SameOutcome
        (((Machine.load b globals limits Builtin.table s'.store).withStack zs).run n) := by
    rw [← hlimits] at hz ⊢
    refine (safe_withGlobals (hin.safe_machine hl hs) hg).run_withStack (held_machine hmain hends _)
      ⟨?_, fun i hi => hi.elim⟩ hmain hends hwrites n
    rw [hz]
    exact Array.size_replicate.symm
  exact (key hx).symm.trans (key hy)

/-- A function with locals that are written on two ways, one of them inside a branch, called after a
failed input. -/
def branching : Session :=
  ((start ⟨64, 16, 1000⟩).eval
    "let f = fn(a) { let y = a + 1; if (y < 3) { let z = y * y; z + a } else { y } }; f(nil)").2

set_option maxRecDepth 100000 in
/-- The locals on both ways are written before they are read, so whatever lies on the stack the
outcome is the same. -/
theorem branching_ignores_stack :
    ∃ b s', branching.compile "let g = fn() { f(1) + f(5) }; g()" = (.ok b, s') ∧ ∀ v n,
      (((Machine.load b s'.globals ⟨64, 16, 1000⟩ Builtin.table s'.store).withStack
        (.replicate 64 v)).run n).SameOutcome
        (((Machine.load b s'.globals ⟨64, 16, 1000⟩ Builtin.table s'.store).withStack
          (.replicate 64 .nil)).run n) := by
  have hok : (branching.compile "let g = fn() { f(1) + f(5) }; g()").1.toBool = true := by
    decide +kernel
  have hsettled : (branching.compile "let g = fn() { f(1) + f(5) }; g()").2.constants.all
      Constant.isSettled = true := by
    decide +kernel
  have hlast : (Program.ofText "let g = fn() { f(1) + f(5) }; g()").toOption.any
      Program.endsInExpr = true := by
    decide +kernel
  cases hc : branching.compile "let g = fn() { f(1) + f(5) }; g()" with
  | mk r s' =>
      cases r with
      | error e =>
          rw [hc] at hok
          cases hok
      | ok b =>
          cases hp : Program.ofText "let g = fn() { f(1) + f(5) }; g()" with
          | error e =>
              rw [hp] at hlast
              cases hlast
          | ok p =>
              rw [hp] at hlast
              rw [hc] at hsettled
              have hreached : Reached ⟨64, 16, 1000⟩ branching := .eval .start _
              have hin := (hreached.inOrder (by decide)).compile "let g = fn() { f(1) + f(5) }; g()"
              rw [hc] at hin
              have hconst := constants_of_compile hc
              refine ⟨b, s', rfl, fun v n =>
                hreached.run_ignores_stack (by decide) hc hp hlast (fun fn hfn => ?_)
                  ?_ Array.size_replicate Array.size_replicate n⟩
              · rw [hconst] at hfn
                exact CompiledFunction.writesFirst_of_isSettled
                  (Array.all_eq_true'.mp hsettled _ hfn)
              · rw [hconst]
                exact hin.globals

/-- What an input that was compiled comes to, on a stack that is full of each of the values. -/
def valuesOver (vs : List Value) : Except SessionError Bytecode × Session → List (Option Value)
  | (.ok b, s) => vs.map fun v => (((s.machine b).withStack (.replicate 64 v)).run 100).value?
  | _ => []

set_option maxRecDepth 100000 in
/-- A local may stand in its own definition; it is read there before it is written. -/
theorem leftover_is_read :
    ∃ b s' p, (start ⟨64, 16, 1000⟩).compile "fn() { let x = x; x }()" = (.ok b, s') ∧
      Program.ofText "fn() { let x = x; x }()" = .ok p ∧ p.endsInExpr = true ∧
      ∃ xs ys : Array Value, xs.size = 64 ∧ ys.size = 64 ∧
        ¬(((s'.machine b).withStack xs).run 100).SameOutcome
          (((s'.machine b).withStack ys).run 100) := by
  have hlast : (Program.ofText "fn() { let x = x; x }()").toOption.any Program.endsInExpr =
      true := by decide +kernel
  have hvalues : valuesOver [.nil, .integer 7]
      ((start ⟨64, 16, 1000⟩).compile "fn() { let x = x; x }()") =
        [some .nil, some (.integer 7)] := by decide +kernel
  cases hc : (start ⟨64, 16, 1000⟩).compile "fn() { let x = x; x }()" with
  | mk r s' =>
      rw [hc] at hvalues
      cases r with
      | error e => cases hvalues
      | ok b =>
          cases hp : Program.ofText "fn() { let x = x; x }()" with
          | error e =>
              rw [hp] at hlast
              cases hlast
          | ok p =>
              rw [hp] at hlast
              refine ⟨b, s', p, rfl, rfl, hlast, .replicate 64 .nil, .replicate 64 (.integer 7),
                Array.size_replicate, Array.size_replicate, fun hsame => ?_⟩
              simp only [valuesOver, List.map_cons, List.map_nil, List.cons.injEq,
                and_true] at hvalues
              have heq := hsame.value?_eq
              rw [hvalues.1, hvalues.2] at heq
              cases heq

end Session

end Marmoset
