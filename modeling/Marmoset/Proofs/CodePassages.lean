import Marmoset.Proofs.CallEffects
import Marmoset.Proofs.StackContents

/-!
# Passing over code

A call stands at the start of some code and comes to its end.  On the way jumps leave out parts of
the code, and other calls come and go; but the call itself is not left.

* `Machine.RunsTo` — a run up to the first state of a kind, with so many calls open all the time.
* `Machine.Crosses` — a run from the start of code to its end, in the same call.
* **`Machine.Crosses.split`** — where jumps stay in the first part of the code, the run comes by the
  end of it.
* **`Machine.Crosses.sp_eq`** — the stack is higher by what the code leaves.
-/

namespace Marmoset

namespace Machine

variable {m m' x y : Machine} {stop : Machine → Prop} {depth : Nat} {xs ys is : List Instr}

/-- The run from the first machine comes to the second one.  That is the first for which `stop`
holds, and up to there at least `depth` calls are open. -/
inductive RunsTo (stop : Machine → Prop) (depth : Nat) : Machine → Machine → Prop where
  | here {m : Machine} (stops : stop m) : RunsTo stop depth m m
  | step {m x m' : Machine} (goesOn : ¬ stop m) (next : m.step = .next x)
      (deep : depth ≤ x.frameCount)
      (rest : RunsTo stop depth x m') : RunsTo stop depth m m'

namespace RunsTo

lemma stops (h : RunsTo stop depth m m') : stop m' := by
  induction h with
  | here stops => exact stops
  | step _ _ _ _ ih => exact ih

lemma safe {main : Code} {k g : Nat} (h : RunsTo stop depth m m') (hm : m.Safe main k g) :
    m'.Safe main k g := by
  induction h with
  | here _ => exact hm
  | step _ next _ _ ih =>
      have hstep := hm.step
      rw [next] at hstep
      exact ih hstep

/-- Such a run, from the states on the way. -/
lemma of_run {n : Nat} (hn : m.run n = .next m') (hstop : stop m')
    (hway : ∀ j < n, ∀ x, m.run j = .next x → ¬ stop x)
    (hdeep : ∀ j < n, ∀ x, m.run (j + 1) = .next x → depth ≤ x.frameCount) :
    RunsTo stop depth m m' := by
  induction n generalizing m with
  | zero =>
      cases hn
      exact .here hstop
  | succ n ih =>
      have hrun := hn
      rw [run] at hrun
      cases hs : m.step with
      | next x =>
          rw [hs] at hrun
          have hshift (j : Nat) : m.run (j + 1) = x.run j := by rw [run, hs]
          refine .step (hway 0 (Nat.succ_pos n) m rfl) hs (hdeep 0 (Nat.succ_pos n) x (hshift 0))
            (ih hrun ?_ ?_)
          · exact fun j hj y hy => hway (j + 1) (Nat.succ_lt_succ hj) y ((hshift j).trans hy)
          · exact fun j hj y hy => hdeep (j + 1) (Nat.succ_lt_succ hj) y ((hshift (j + 1)).trans hy)
      | done x | fault f x | crash x =>
          rw [hs] at hrun
          cases hrun

end RunsTo

/-- The call that stands at the start of `is`, at the end of it. -/
def frameBehind (m : Machine) (is : List Instr) : Frame :=
  { m.frame with ip := m.frame.ip + extent is }

/-- The call in which `m` stands at the start of `is` has come to the end of it. -/
def Behind (m : Machine) (is : List Instr) (x : Machine) : Prop :=
  x.frame = m.frameBehind is ∧ x.callers = m.callers

instance (m : Machine) (is : List Instr) (x : Machine) : Decidable (m.Behind is x) :=
  inferInstanceAs (Decidable (_ ∧ _))

lemma Behind.append (h : m.Behind xs x) (ys : List Instr) : x.Behind ys = m.Behind (xs ++ ys) := by
  unfold Behind frameBehind
  rw [h.1, h.2, extent_append, ← Nat.add_assoc]
  rfl

lemma Behind.frameCount_eq (h : m.Behind xs x) : x.frameCount = m.frameCount := by
  rw [frameCount, frameCount, h.2]

/-- From the start of `is` the machine comes to the end of it, without leaving the call. -/
structure Crosses (m : Machine) (is : List Instr) (m' : Machine) : Prop where
  fits : ∀ i ∈ is, i.Fits
  code : m.frame.fn.code.Holds m.frame.ip is
  run : RunsTo (m.Behind is) m.frameCount m m'

/-- Whether the machine comes to the end of `is` in just so many steps, without leaving the call. -/
def comesBehind (m : Machine) (is : List Instr) (n : Nat) : Bool :=
  decide (bytesOf is <+: m.frame.fn.code.toList.drop m.frame.ip) &&
    (m.run n).goesOn (fun x => decide (m.Behind is x)) &&
    decide (∀ j < n, (m.run j).goesOn
      (fun x => decide (¬ m.Behind is x ∧ m.frameCount ≤ x.frameCount)) = true)

lemma Crosses.of_comesBehind {n : Nat} (hfits : ∀ i ∈ is, i.Fits) (h : m.comesBehind is n = true) :
    m.Crosses is (m.run n).machine := by
  simp only [comesBehind, Bool.and_eq_true, decide_eq_true_eq] at h
  obtain ⟨⟨hcode, hend⟩, hway⟩ := h
  obtain ⟨hn, hbehind⟩ := Step.eq_next_of_goesOn hend
  have hstop := of_decide_eq_true hbehind
  have hpasses (j : Nat) (hj : j < n) (x : Machine) (hx : m.run j = .next x) :
      ¬ m.Behind is x ∧ m.frameCount ≤ x.frameCount := by
    have hgoes := hway j hj
    rw [hx] at hgoes
    exact of_decide_eq_true hgoes
  refine ⟨hfits, hcode,
    .of_run hn hstop (fun j hj x hx => (hpasses j hj x hx).1) fun j hj x hx => ?_⟩
  rcases Nat.lt_or_eq_of_le (Nat.succ_le_of_lt hj) with hlt | rfl
  · exact (hpasses (j + 1) hlt x hx).2
  · cases hn.symm.trans hx
    exact Nat.le_of_eq hstop.frameCount_eq.symm

/-! ## On the way -/

/-- The call in which `m` stands at the start of `xs` is somewhere in `xs`, in `x` or around the
calls of `x`. -/
def Inside (m : Machine) (xs : List Instr) (x : Machine) : Prop :=
  ∃ inner before after, xs = before ++ after ∧
    x.frame :: x.callers = inner ++ m.frameBehind before :: m.callers

lemma Inside.start (m : Machine) (xs : List Instr) : m.Inside xs m :=
  ⟨[], [], xs, rfl, rfl⟩

/-- What a step does to the calls. -/
lemma moves_step (hx : m.step = .next x) : ∃ ip, (m.jump ip).Moves x.frame x.callers := by
  unfold step at hx
  dsimp only at hx
  split at hx
  · exact ⟨m.frame.ip, .returns (next_leave hx).1⟩
  · split at hx
    · cases hx
    · rename_i op _
      split at hx
      · cases hx
      · by_cases hj : op = .jump
        · subst hj
          cases hx
          exact ⟨_, .stays⟩
        · by_cases hj' : op = .jumpNotTruthy
          · subst hj'
            simp only [execute] at hx
            split at hx <;> cases hx <;> exact ⟨_, .stays⟩
          · exact ⟨_, moves_execute hj hj' hx⟩

namespace Inside

variable {before after : List Instr}

/-- A step of a call that was made on the way. -/
lemma step_inner {f : Frame} {fs : List Frame} (hxs : xs = before ++ after)
    (hcalls : x.frame :: x.callers = f :: (fs ++ m.frameBehind before :: m.callers))
    (hy : x.step = .next y) :
    m.Inside xs y := by
  obtain ⟨-, hcallers⟩ := List.cons.inj hcalls
  obtain ⟨ip, hmoves⟩ := moves_step hy
  generalize hf : y.frame = f' at hmoves
  generalize hc : y.callers = cs at hmoves
  cases hmoves with
  | stays => exact ⟨y.frame :: fs, before, after, hxs, by rw [hc]; exact congrArg _ hcallers⟩
  | calls =>
      refine ⟨y.frame :: (x.jump ip).frame :: fs, before, after, hxs, ?_⟩
      rw [hc]
      exact congrArg (fun cs => y.frame :: (x.jump ip).frame :: cs) hcallers
  | returns hcs => exact ⟨fs, before, after, hxs, by rw [hf, hc, ← hcallers]; exact hcs.symm⟩

/-- Where the way goes on behind `xs`, its end is not inside `xs`. -/
lemma behind_of_behind (hx : m.Inside xs x) (h : m.Behind (xs ++ ys) x) : m.Behind xs x := by
  obtain ⟨inner, before, after, rfl, hcalls⟩ := hx
  have hlen := congrArg List.length hcalls
  rw [List.length_append, List.length_cons, List.length_cons, h.2] at hlen
  obtain rfl : inner = [] := List.length_eq_zero_iff.mp (by omega)
  obtain ⟨hframe, -⟩ := List.cons.inj hcalls
  have hip : m.frame.ip + extent before = m.frame.ip + extent (before ++ after ++ ys) :=
    congrArg Frame.ip (hframe.symm.trans h.1)
  rw [extent_append, extent_append] at hip
  refine ⟨?_, h.2⟩
  rw [hframe, frameBehind, frameBehind, extent_append, show extent after = 0 by omega, Nat.add_zero]

section

variable {w : Bool} {h : Nat} (hfits : ∀ i ∈ xs, i.Fits)
  (hcode : m.frame.fn.code.Holds m.frame.ip xs)
  (hjumps : Balanced w m.frame.ip h xs)

include hfits hcode hjumps

/-- A step of the call itself, which does not leave it. -/
lemma step_outer {i : Instr} (hxs : xs = before ++ i :: after)
    (hframe : x.frame = m.frameBehind before) (hcallers : x.callers = m.callers)
    (hy : x.step = .next y) (hdeep : m.frameCount ≤ y.frameCount) :
    m.Inside xs y := by
  subst hxs
  have hi : x.frame.fn.code.Holds x.frame.ip [i] := by
    rw [hframe]
    exact (hcode.right fun j hj => hfits j (by simp [hj])).head
  rw [step_of_instr (hfits i (by simp)) hi] at hy
  have hgoesOn : (x.jump (x.frame.ip + i.size)).frame = m.frameBehind (before ++ [i]) := by
    show { x.frame with ip := x.frame.ip + i.size } = _
    rw [hframe]
    simp only [frameBehind, extent_append, extent_cons, extent_nil, Nat.add_zero, Nat.add_assoc]
  have hstays (z : Machine) (hz : z.frame = m.frameBehind (before ++ [i]))
      (hc : z.callers = x.callers) :
      m.Inside (before ++ i :: after) z :=
    ⟨[], before ++ [i], after, by simp, by rw [hz, hc, hcallers]; rfl⟩
  by_cases hj : i.jumps = true
  · obtain ⟨mid, rest, rfl, -, htarget, -⟩ := hjumps.right.2.1 hj
    have hlands (z : Machine) (hz : z.frame = { x.frame with ip := i.first })
      (hc : z.callers = x.callers) :
        m.Inside (before ++ i :: (mid ++ rest)) z := by
      refine ⟨[], before ++ i :: mid, rest, by simp, ?_⟩
      rw [hz, hc, hcallers, hframe, htarget]
      simp only [frameBehind, extent_append, extent_cons, List.nil_append, Nat.add_assoc]
    obtain ⟨op, operands⟩ := i
    simp only [Instr.jumps, Bool.or_eq_true, beq_iff_eq] at hj
    rcases hj with rfl | rfl
    · cases hy
      exact hlands _ rfl rfl
    · simp only [execute] at hy
      split at hy
      · cases hy
        exact hstays _ hgoesOn rfl
      · cases hy
        exact hlands _ rfl rfl
  · have hmoves := moves_execute (fun ho => hj (by simp [Instr.jumps, ho]))
      (fun ho => hj (by simp [Instr.jumps, ho])) hy
    generalize hf : y.frame = f at hmoves
    generalize hc : y.callers = cs at hmoves
    cases hmoves with
    | stays => exact hstays y (hf.trans hgoesOn) hc
    | calls =>
        refine ⟨[y.frame], before ++ [i], after, by simp, ?_⟩
        rw [hc, hgoesOn]
        exact congrArg (fun cs => y.frame :: m.frameBehind (before ++ [i]) :: cs) hcallers
    | returns hcs =>
        -- a return would leave fewer calls open
        have hcs : x.callers = f :: cs := hcs
        rw [frameCount, frameCount, ← hcallers, hcs, hc, List.length_cons] at hdeep
        omega

/-- **A step on the way** stays on the way, or starts at the end of it. -/
theorem step (hx : m.Inside xs x) (hend : ¬ m.Behind xs x) (hy : x.step = .next y)
    (hdeep : m.frameCount ≤ y.frameCount) : m.Inside xs y := by
  obtain ⟨inner, before, after, hxs, hcalls⟩ := hx
  cases inner with
  | cons f fs => exact step_inner hxs hcalls hy
  | nil =>
      obtain ⟨hframe, hcallers⟩ := List.cons.inj hcalls
      cases after with
      | nil =>
          rw [List.append_nil] at hxs
          exact absurd ⟨hxs ▸ hframe, hcallers⟩ hend
      | cons i after => exact step_outer hfits hcode hjumps hxs hframe hcallers hy hdeep

/-- A run to the end of `xs ++ ys` comes by the end of `xs` first. -/
lemma split (hx : m.Inside xs x) (hrun : RunsTo (m.Behind (xs ++ ys)) m.frameCount x m') :
    ∃ m₁, RunsTo (m.Behind xs) m.frameCount x m₁ ∧
      RunsTo (m.Behind (xs ++ ys)) m.frameCount m₁ m' := by
  induction hrun with
  | here stops => exact ⟨_, .here (hx.behind_of_behind stops), .here stops⟩
  | @step x y m' goesOn next deep rest ih =>
      by_cases hend : m.Behind xs x
      · exact ⟨x, .here hend, .step goesOn next deep rest⟩
      · obtain ⟨m₁, h₁, h₂⟩ := ih (hx.step hfits hcode hjumps hend next deep)
        exact ⟨m₁, .step hend next deep h₁, h₂⟩

end

end Inside

/-! ## From the start to the end -/

namespace Crosses

lemma behind (h : m.Crosses is m') : m.Behind is m' :=
  h.run.stops

/-- **The run comes by the end of the first part,** if no jump goes over it. -/
theorem split {w : Bool} {n : Nat} (h : m.Crosses (xs ++ ys) m')
    (hjumps : Balanced w m.frame.ip n xs) :
    ∃ m₁, m.Crosses xs m₁ ∧ m₁.Crosses ys m' := by
  have hfits : ∀ i ∈ xs, i.Fits := fun i hi => h.fits i (by simp [hi])
  obtain ⟨m₁, h₁, h₂⟩ := (Inside.start m xs).split hfits h.code.left hjumps h.run
  have hbehind := h₁.stops
  refine ⟨m₁, ⟨hfits, h.code.left, h₁⟩, fun i hi => h.fits i (by simp [hi]), ?_, ?_⟩
  · rw [hbehind.1]
    exact h.code.right hfits
  · rwa [hbehind.append, hbehind.frameCount_eq]

/-- Behind the code the call stands at what follows there. -/
lemma standsAt {i : Instr} (h : m.Crosses is m') (hi : i.Fits)
    (hcode : m.frame.fn.code.Holds m.frame.ip (is ++ [i])) : m'.StandsAt i := by
  refine ⟨hi, ?_⟩
  rw [h.behind.1]
  exact hcode.right h.fits

end Crosses

end Machine

/-- Code that is held at the place of an instruction is the code from this instruction on. -/
lemma Code.Reads.exists_of_holds {code : Code} {before after is : List Instr}
    (h : code.Reads (before ++ after)) (hfits : ∀ i ∈ is, i.Fits)
    (hholds : code.Holds (extent before) is) : ∃ rest, after = is ++ rest := by
  induction is generalizing before after with
  | nil => exact ⟨after, rfl⟩
  | cons i is ih =>
      cases after with
      | nil =>
          obtain ⟨rest, hrest⟩ := hholds
          have hlen := congrArg List.length hrest
          rw [h.bytes, List.append_nil, List.length_drop,
            length_bytesOf fun j hj => h.fits j (by simp [hj]),
            Nat.sub_self, List.length_append, length_bytesOf hfits, extent_cons] at hlen
          have hpos := i.size_pos
          omega
      | cons j after =>
          have hi : i.Fits := hfits i (by simp)
          obtain rfl : i = j := Machine.instr_unique hi (h.fits j (by simp)) hholds.head h.holds
          have htail := hholds.tail hi
          rw [show extent before + i.size = extent (before ++ [i]) by simp] at htail
          have hreads : code.Reads (before ++ [i] ++ after) := by simpa using h
          obtain ⟨rest, rfl⟩ := ih hreads (fun j hj => hfits j (List.mem_cons_of_mem _ hj)) htail
          exact ⟨rest, rfl⟩

namespace Machine

variable {m m' : Machine} {is : List Instr} {main : Code} {k g : Nat}

namespace Crosses

/-- **The stack is higher by what the code leaves.** -/
theorem sp_eq {w : Bool} {pos n : Nat} (h : m.Crosses is m') (hm : m.Safe main k g)
    (hl : Leaves w pos is n) :
    m'.sp = m.sp + n := by
  obtain ⟨before, after, hs⟩ := hm.frames.stands
  obtain ⟨before', after', hs'⟩ := (h.run.safe hm).frames.stands
  have hcode := h.code
  rw [hs.ip] at hcode
  obtain ⟨rest, rfl⟩ := hs.reads.exists_of_holds h.fits hcode
  have hreads := hs.reads
  have hreads' := hs'.reads
  have hip' := hs'.ip
  rw [← List.append_assoc] at hreads
  rw [h.behind.1] at hreads' hip'
  obtain ⟨rfl, -⟩ := hreads'.split_unique hreads (by rw [← hip', extent_append, ← hs.ip]; rfl)
  rw [hs'.top, hs.top, h.behind.1, height_append, (hl _).1]
  simp only [frameBehind, Nat.add_assoc]

/-- A function does not come to the end of all its code. -/
lemma extent_lt_size (h : m.Crosses is m') (hm : m.Safe main k g) (hc : m.callers ≠ []) :
    m.frame.ip + extent is < m.frame.fn.code.size := by
  have hc' : m'.callers ≠ [] := by rwa [h.behind.2]
  obtain ⟨-, before, i, rest, hs⟩ := (h.run.safe hm).stands_inside hc'
  have hsize := hs.reads.size
  have hip := hs.ip
  have hpos := i.size_pos
  rw [h.behind.1] at hsize hip
  rw [extent_append, extent_cons] at hsize
  have hip : m.frame.ip + extent is = extent before := hip
  have hsize : m.frame.fn.code.size = extent before + (i.size + extent rest) := hsize
  omega

/-- Code that only pushes nil. -/
lemma top_of_pushNil (h : m.Crosses [.plain .pushNil] m') : m'.stack.getD m.sp .nil = .nil := by
  have hi : Instr.Fits (.plain .pushNil) := h.fits _ (by simp)
  have hrun := h.run
  cases hrun with
  | here stops =>
      have hip : m.frame.ip = m.frame.ip + extent [.plain .pushNil] := congrArg Frame.ip stops.1
      rw [extent_cons] at hip
      have hpos := (Instr.plain .pushNil).size_pos
      omega
  | step _ next _ rest =>
      have hpush : (m.jump (m.frame.ip + (Instr.plain .pushNil).size)).push .nil = .next _ :=
        (step_of_instr hi h.code).symm.trans next
      unfold push at hpush
      split at hpush
      · rename_i hroom
        cases hpush
        cases rest with
        | here _ => exact getD_setIfInBounds_self hroom .nil
        | step goesOn _ _ _ => exact absurd ⟨rfl, rfl⟩ goesOn
      · cases hpush

end Crosses

end Machine

end Marmoset
