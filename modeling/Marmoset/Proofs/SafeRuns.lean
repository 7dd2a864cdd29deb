import Marmoset.Proofs.Operands
import Marmoset.Proofs.StoredValues

/-!
# Runs of compiled code

What the machine keeps true while it runs well-formed code (`Machine.Safe`).

Each call stands somewhere in its code, at the height that the text of its code has there, counted
from the slot behind its locals (`Frame.Stands`); a call that waits for another one stands at the
height at which it will find the value (`Frames`).  Every value in sight is one that the machine may
hold (`Value.Sane`).

* **`Machine.Safe.step`** — a step keeps all this, and never stops with a fault that would mean that
  the code is broken.
* **`Machine.Safe.run`** — nor does a run.
-/

namespace Marmoset

/-- What the machine may hold: no function that is not a closure yet, and closures of functions of
the pool that captured all that their code reads. -/
def Value.Sane (pool : Array Constant) (closures : Array Closure) : Value → Prop
  | .compiled _ _ => False
  | .closure ref =>
    ∃ c, closures[ref]? = some c ∧ Constant.function c.fn ∈ pool ∧ c.fn.FreeBelow c.free.size
  | _ => True

namespace Value.Sane

variable {pool pool' : Array Constant} {closures closures' : Array Closure}

/-- Values that are no functions may always be held. -/
lemma of_not_function (v : Value) (h : v.isFunction = false) : v.Sane pool closures := by
  cases v <;> trivial

/-- Constants and closures are only added. -/
lemma mono {v : Value} (h : v.Sane pool closures) (hp : pool.toList <+: pool'.toList)
    (hc : closures.toList <+: closures'.toList) : v.Sane pool' closures' := by
  cases v with
  | closure ref =>
      obtain ⟨c, href, hfn, hfree⟩ := h
      refine ⟨c, ?_, Array.mem_def.mpr (hp.subset (Array.mem_def.mp hfn)), hfree⟩
      obtain ⟨rest, hrest⟩ := hc
      rw [← Array.getElem?_toList] at href ⊢
      rw [← hrest, List.getElem?_append_left (List.getElem?_eq_some_iff.mp href).1, href]
  | compiled _ _ => exact h
  | _ => trivial

end Value.Sane

/-! ## Calls -/

/-- The call stands between `before` and `after`, with `top` slots in use. -/
structure Frame.Stands (pool : Array Constant) (builtins globals : Nat) (inside : Bool) (f : Frame)
    (top : Nat) (before after : List Instr) : Prop where
  reads : f.fn.code.Reads (before ++ after)
  ip : f.ip = extent before
  top : top = f.base + f.fn.locals.toNat + height 0 before
  balanced : Balanced true 0 0 (before ++ after)
  inRange : AllInRange ⟨pool, builtins, globals, f.fn.locals.toNat, f.free.size, inside⟩
    (before ++ after)
  returns : inside = true → ∃ init i, before ++ after = init ++ [i] ∧ i.returns = true
  inCode : inside = true → after ≠ []

/-- The calls that are going on, with `top` slots in use by the innermost. -/
def Frames (main : Code) (pool : Array Constant) (builtins globals : Nat)
    (closures : Array Closure) :
    Frame → List Frame → Nat → Prop
  | f, [], top =>
      f.fn = ⟨main, 0, 0⟩ ∧ f.base = 0 ∧ f.free = #[] ∧
      ∃ before after, f.Stands pool builtins globals false top before after
  | f, caller :: callers, top =>
      closures[f.closure]? = some ⟨f.fn, f.free⟩ ∧ Constant.function f.fn ∈ pool ∧
        f.fn.FreeBelow f.free.size ∧
      0 < f.base ∧ (∃ before after, f.Stands pool builtins globals true top before after) ∧
      Frames main pool builtins globals closures caller callers f.base

namespace Frame.Stands

variable {pool : Array Constant} {k g top : Nat} {inside : Bool} {f : Frame}
  {before rest : List Instr} {i : Instr}

/-- The instruction at which the call stands finds what it takes. -/
lemma takes_le (h : f.Stands pool k g inside top before (i :: rest)) :
    f.base + f.fn.locals.toNat + i.takes ≤ top := by
  have hb := h.balanced.right.1
  rw [h.top]
  omega

/-- The instruction at which a call stands fits. -/
lemma fits (h : f.Stands pool k g inside top before (i :: rest)) : i.Fits :=
  h.reads.fits i (by simp)

/-- Its operands refer to what is there. -/
lemma instr_inRange (h : f.Stands pool k g inside top before (i :: rest)) :
    i.InRange ⟨pool, k, g, f.fn.locals.toNat, f.free.size, inside⟩ :=
  h.inRange i (by simp)

/-- The bytes of the instruction stand at the instruction pointer. -/
lemma holds (h : f.Stands pool k g inside top before (i :: rest)) : f.fn.code.Holds f.ip [i] := by
  rw [h.ip]
  exact h.reads.holds

/-- Behind an instruction that does not leave the function stands another one. -/
lemma rest_ne_nil (h : f.Stands pool k g inside top before (i :: rest)) (hr : i.returns = false)
    (hin : inside = true) : rest ≠ [] := by
  rintro rfl
  obtain ⟨init, j, heq, hj⟩ := h.returns hin
  have hij : i = j := by
    have := congrArg List.getLast? heq
    simpa using this
  rw [← hij, hr] at hj
  cases hj

/-- The call goes on with the next instruction. -/
lemma advance (h : f.Stands pool k g inside top before (i :: rest)) (hj : i.op ≠ .jump)
    (hr : i.returns = false) :
    ({ f with ip := f.ip + i.size } : Frame).Stands pool k g inside (top - i.takes + i.gives)
      (before ++ [i]) rest where
  reads := by
    rw [List.append_assoc]
    exact h.reads
  ip := by
    rw [h.ip]
    simp
  top := by
    have ht := h.takes_le
    have htop := h.top
    rw [height_append, height_cons, height_nil, Instr.next, if_neg hj]
    show _ = f.base + f.fn.locals.toNat + _
    omega
  balanced := by
    rw [List.append_assoc]
    exact h.balanced
  inRange := by
    rw [List.append_assoc]
    exact h.inRange
  returns := by
    rw [List.append_assoc]
    exact h.returns
  inCode := h.rest_ne_nil hr

/-- The call goes on where a jump goes. -/
lemma land (h : f.Stands pool k g inside top before (i :: rest)) (hj : i.jumps = true) :
    ∃ mid rest', rest = mid ++ rest' ∧
      ({ f with ip := i.first } : Frame).Stands pool k g inside (top - i.takes)
        (before ++ i :: mid) rest' := by
  have htakes := h.takes_le
  obtain ⟨-, hjump, -⟩ := h.balanced.right
  obtain ⟨mid, rest', rfl, hne, htarget, hheight⟩ := hjump hj
  have hassoc : before ++ i :: mid ++ rest' = before ++ i :: (mid ++ rest') := by simp
  refine ⟨mid, rest', rfl, ?_, ?_, ?_, ?_, ?_, ?_, fun _ => hne rfl⟩
  · rw [hassoc]
    exact h.reads
  · show i.first = _
    rw [htarget, extent_append, extent_cons]
    omega
  · have htop := h.top
    rw [height_append, height_cons, hheight]
    show _ = f.base + f.fn.locals.toNat + _
    omega
  · rw [hassoc]
    exact h.balanced
  · rw [hassoc]
    exact h.inRange
  · rw [hassoc]
    exact h.returns

end Frame.Stands

namespace Frames

variable {main : Code} {pool : Array Constant} {k g top : Nat}
  {closures closures' : Array Closure} {f : Frame}
  {callers : List Frame}

/-- New closures change nothing for the calls that are going on. -/
lemma mono (h : Frames main pool k g closures f callers top)
    (hc : closures.toList <+: closures'.toList) :
    Frames main pool k g closures' f callers top := by
  induction callers generalizing f top with
  | nil => exact h
  | cons c cs ih =>
      obtain ⟨href, hfn, hfree, hbase, hstands, hrest⟩ := h
      refine ⟨?_, hfn, hfree, hbase, hstands, ih hrest⟩
      obtain ⟨rest, hrest⟩ := hc
      rw [← Array.getElem?_toList] at href ⊢
      rw [← hrest, List.getElem?_append_left (List.getElem?_eq_some_iff.mp href).1, href]

/-- Where the innermost call stands. -/
lemma stands (h : Frames main pool k g closures f callers top) :
    ∃ before after, f.Stands pool k g (!callers.isEmpty) top before after := by
  cases callers with
  | nil => exact h.2.2.2
  | cons c cs => exact h.2.2.2.2.1

/-- The innermost call goes on somewhere else. -/
lemma move (h : Frames main pool k g closures f callers top) {ip top' : Nat}
    {before after : List Instr}
    (hs : ({ f with ip := ip } : Frame).Stands pool k g (!callers.isEmpty) top' before after) :
    Frames main pool k g closures { f with ip := ip } callers top' := by
  cases callers with
  | nil => exact ⟨h.1, h.2.1, h.2.2.1, before, after, hs⟩
  | cons c cs =>
      obtain ⟨href, hfn, hfree, hbase, -, hrest⟩ := h
      exact ⟨href, hfn, hfree, hbase, ⟨before, after, hs⟩, hrest⟩

/-- What the innermost call captured. -/
lemma sane_free {s : Store} (h : Frames main pool k g s.closures f callers top)
    (hs : s.All (Value.Sane pool s.closures)) : ∀ v ∈ f.free, v.Sane pool s.closures := by
  cases callers with
  | nil =>
      rw [h.2.2.1]
      simp
  | cons c cs => exact hs.closures _ (Array.mem_of_getElem? h.1)

end Frames

/-! ## The state of the machine -/

namespace Machine

/-- Every value in sight is one that the machine may hold. -/
structure Tidy (m : Machine) : Prop where
  stack : ∀ v ∈ m.stack, v.Sane m.constants m.store.closures
  globals : ∀ v ∈ m.globals, v.Sane m.constants m.store.closures
  store : m.store.All (Value.Sane m.constants m.store.closures)

/-- The machine is in order, for calls that have `top` slots in use. -/
structure Sound (main : Code) (k g : Nat) (m : Machine) (top : Nat) : Prop where
  tidy : m.Tidy
  functions : ∀ fn, Constant.function fn ∈ m.constants → fn.WellFormed m.constants k g
  builtins : m.builtins.length = k
  small : m.stack.size + 256 < 18446744073709551616
  room : m.sp ≤ m.stack.size
  frames : Frames main m.constants k g m.store.closures m.frame m.callers top

/-- The machine is in order. -/
def Safe (main : Code) (builtins globals : Nat) (m : Machine) : Prop :=
  m.Sound main builtins globals m.sp

end Machine

/-- The machine goes on in order, or stops with every value in order and no fault of broken code.
It does not break off. -/
def Step.Safe (main : Code) (builtins globals : Nat) : Step → Prop
  | .next m => m.Safe main builtins globals
  | .done m => m.Tidy
  | .fault f m => f.isInternal = false ∧ m.Tidy
  | .crash _ => False

/-- However a step ends, all values in sight may be held. -/
lemma Step.Safe.tidy {main : Code} {k g : Nat} {r : Step} (h : r.Safe main k g) :
    r.machine.Tidy := by
  cases r with
  | next m => exact Machine.Sound.tidy h
  | done m => exact h
  | fault f m => exact h.2
  | crash m => exact h.elim

namespace Machine.Sound

variable {main : Code} {k g top : Nat} {m : Machine}

/-! ### Single steps of instructions -/

/-- A push of such a value finds room, or there is a fault that programs can have. -/
lemma push {v : Value} (h : m.Sound main k g (m.sp + 1))
    (hv : v.Sane m.constants m.store.closures) :
    (m.push v).Safe main k g := by
  unfold Machine.push
  split_ifs with hroom
  · refine ⟨⟨fun w hw => ?_, h.tidy.globals, h.tidy.store⟩, h.functions, h.builtins, ?_,
      ?_, h.frames⟩
    · rcases Array.mem_or_eq_of_mem_setIfInBounds hw with hw | rfl
      · exact h.tidy.stack w hw
      · exact hv
    · simpa using h.small
    · rw [Array.size_setIfInBounds]
      exact hroom
  · exact ⟨rfl, h.tidy⟩

lemma pop (h : m.Sound main k g top) : m.pop.2.Sound main k g top :=
  ⟨⟨h.tidy.stack, h.tidy.globals, h.tidy.store⟩, h.functions, h.builtins, h.small,
    Nat.le_trans (Nat.sub_le _ _) h.room, h.frames⟩

/-- Whatever lies on the stack may be held, and nil where there is nothing. -/
lemma sane_getD (h : m.Sound main k g top) (i : Nat) :
    (m.stack.getD i .nil).Sane m.constants m.store.closures := by
  rw [Array.getD_eq_getD_getElem?]
  cases hi : m.stack[i]? with
  | none => trivial
  | some v => exact h.tidy.stack v (Array.mem_of_getElem? hi)

/-- So may what is popped. -/
lemma sane_pop (h : m.Sound main k g top) : m.pop.1.Sane m.constants m.store.closures :=
  h.sane_getD _

/-- So may the values on top. -/
lemma sane_top (h : m.Sound main k g top) (n : Nat) :
    ∀ v ∈ m.top n, v.Sane m.constants m.store.closures :=
  fun v hv => h.tidy.stack v (mem_of_mem_extract hv)

/-- A result is pushed, or its fault is one that programs can have. -/
lemma pushResult {r : Except Fault Value} (h : m.Sound main k g (m.sp + 1))
    (hr : Gives (Value.Sane m.constants m.store.closures) r) : (m.pushResult r).Safe main k g := by
  unfold Machine.pushResult
  cases r with
  | ok v => exact h.push hr
  | error f => exact ⟨hr, h.tidy⟩

/-- The stack pointer may be set, and the store replaced by one with the same closures. -/
lemma withStore (h : m.Sound main k g top) {sp : Nat} {s : Store} (hsp : sp ≤ m.stack.size)
    (hs : m.store.Keeps (Value.Sane m.constants m.store.closures) s) :
    Sound main k g { m with sp := sp, store := s } top := by
  obtain ⟨hall, hc⟩ := hs
  obtain ⟨⟨hstack, hglobals, -⟩, hf, hb, hsmall, -, hframes⟩ := h
  rw [← hc] at hall hstack hglobals hframes
  exact ⟨⟨hstack, hglobals, hall⟩, hf, hb, hsmall, hsp, hframes⟩

/-- A new closure of a function of the pool. -/
lemma withClosure (h : m.Sound main k g top) {sp : Nat} {c : Closure} (hsp : sp ≤ m.stack.size)
    (hc : ∀ v ∈ c.free, v.Sane m.constants m.store.closures) :
    Sound main k g { m with sp := sp, store := (m.store.newClosure c).2 } top := by
  have hgrows : m.store.closures.toList <+: (m.store.newClosure c).2.closures.toList := by
    simp [Store.newClosure]
  have hmono (v : Value) (hv : v.Sane m.constants m.store.closures) :
      v.Sane m.constants (m.store.newClosure c).2.closures := hv.mono List.prefix_rfl hgrows
  exact ⟨⟨fun v hv => hmono v (h.tidy.stack v hv), fun v hv => hmono v (h.tidy.globals v hv),
    (h.tidy.store.newClosure hc).mono hmono⟩, h.functions, h.builtins, h.small, hsp,
    h.frames.mono hgrows⟩

/-! ### Instructions that stay in the function -/

/-- A constant that is no function may be held. -/
lemma loadConstant {index : Nat} {c : Constant} (h : m.Sound main k g (m.sp + 1))
    (hc : m.constants[index]? = some c) (hfn : ∀ fn, c ≠ .function fn) :
    (m.loadConstant index).Safe main k g := by
  unfold Machine.loadConstant
  rw [hc]
  refine h.push ?_
  cases c with
  | function fn => exact absurd rfl (hfn fn)
  | _ => trivial

/-- An array holds values that were on the stack. -/
lemma makeArray {n : Nat} (h : m.Sound main k g (m.sp - n + 1)) (hn : n ≤ m.sp) :
    (m.makeArray n).Safe main k g := by
  unfold Machine.makeArray
  rw [if_neg (Nat.not_lt.mpr hn)]
  have hkeeps : m.store.Keeps (Value.Sane m.constants m.store.closures)
      (m.store.newArray (m.top n)).2 :=
    ⟨h.tidy.store.newArray (h.sane_top n), rfl⟩
  exact (h.withStore (Nat.le_trans (Nat.sub_le _ n) h.room) hkeeps).push trivial

/-- A hash holds values that were on the stack, or a key is refused. -/
lemma makeHash {n : Nat} (h : m.Sound main k g (m.sp - n + 1)) (hn : n ≤ m.sp) :
    (m.makeHash n).Safe main k g := by
  unfold Machine.makeHash
  rw [if_neg (Nat.not_lt.mpr hn)]
  have hgives := h.tidy.store.gives_buildHash Value.Sane.of_not_function
    (fun v hv => h.sane_top n v (Array.mem_def.mpr hv))
  cases hb : m.store.buildHash (m.top n).toList with
  | error f =>
      rw [hb] at hgives
      exact ⟨hgives, h.tidy⟩
  | ok r =>
      rw [hb] at hgives
      obtain ⟨hv, hkeeps⟩ := hgives
      refine (h.withStore (Nat.le_trans (Nat.sub_le _ n) h.room) hkeeps).push ?_
      show r.1.Sane m.constants r.2.closures
      rwa [hkeeps.2]

/-- A closure has captured all that its code reads. -/
lemma makeClosure {index n : Nat} {fn : CompiledFunction} (h : m.Sound main k g (m.sp - n + 1))
    (hn : n ≤ m.sp) (hfn : m.constants[index]? = some (.function fn)) (hfree : fn.FreeBelow n) :
    (m.makeClosure index n).Safe main k g := by
  have hsize : (m.top n).size = n := by
    have hroom := h.room
    simp only [Machine.top, Array.size_extract]
    omega
  unfold Machine.makeClosure
  rw [hfn]
  simp only [if_neg (Nat.not_lt.mpr hn)]
  refine (h.withClosure (Nat.le_trans (Nat.sub_le _ n) h.room) (h.sane_top n)).push ?_
  refine ⟨⟨fn, m.top n⟩, ?_, Array.mem_of_getElem? hfn, by rwa [hsize]⟩
  simp [Store.newClosure]

/-- Operators between values make no functions. -/
lemma binary (op : Opcode) (h : m.Sound main k g (m.sp - 2 + 1)) : (m.binary op).Safe main k g :=
  h.pop.pop.pushResult (Value.gives_binary Value.Sane.of_not_function op h.pop.sane_pop h.sane_pop)

/-- Nor do those in front of a value. -/
lemma unary (op : Opcode) (h : m.Sound main k g (m.sp - 1 + 1)) : (m.unary op).Safe main k g :=
  h.pop.pushResult (Value.gives_unary Value.Sane.of_not_function op _)

/-- What an index finds was in the store. -/
lemma getIndex (h : m.Sound main k g (m.sp - 2 + 1)) : m.getIndex.Safe main k g :=
  h.pop.pop.pushResult (h.tidy.store.gives_getIndex Value.Sane.of_not_function _ _)

/-- What is written to an index was on the stack. -/
lemma setIndex (h : m.Sound main k g (m.sp - 3)) : m.setIndex.Safe main k g := by
  have hgives := h.tidy.store.gives_setIndex m.pop.2.pop.2.pop.1 m.pop.2.pop.1 h.sane_pop
  have h3 := h.pop.pop.pop
  simp only [Machine.setIndex]
  change Gives _ (m.pop.2.pop.2.pop.2.store.setIndex _ _ _) at hgives
  cases hs : m.pop.2.pop.2.pop.2.store.setIndex m.pop.2.pop.2.pop.1 m.pop.2.pop.1 m.pop.1 with
  | error f =>
      rw [hs] at hgives
      exact ⟨hgives, h3.tidy⟩
  | ok s =>
      rw [hs] at hgives
      exact h3.withStore h3.room hgives

lemma setLocal {index : Nat} (h : m.Sound main k g (m.sp - 1)) :
    (m.setLocal index).Safe main k g := by
  have h1 := h.pop
  simp only [Machine.setLocal]
  split_ifs
  · refine ⟨⟨fun v hv => ?_, h1.tidy.globals, h1.tidy.store⟩, h1.functions, h1.builtins, ?_,
      ?_, h1.frames⟩
    · rcases Array.mem_or_eq_of_mem_setIfInBounds hv with hv | rfl
      · exact h1.tidy.stack v hv
      · exact h.sane_pop
    · simpa using h1.small
    · simpa using h1.room
  · exact ⟨rfl, h1.tidy⟩

lemma getLocal {index : Nat} (h : m.Sound main k g (m.sp + 1)) :
    (m.getLocal index).Safe main k g := by
  unfold Machine.getLocal
  cases hv : m.stack[m.frame.base + index]? with
  | none => exact ⟨rfl, h.tidy⟩
  | some v => exact h.push (h.tidy.stack v (Array.mem_of_getElem? hv))

/-- What is stored to a global was on the stack. -/
lemma setGlobal {index : Nat} {v : Value} (h : m.Sound main k g m.sp)
    (hv : v.Sane m.constants m.store.closures) :
    (m.setGlobal index v).Safe main k g := by
  refine ⟨⟨h.tidy.stack, fun w hw => ?_, h.tidy.store⟩, h.functions, h.builtins, h.small,
    h.room, h.frames⟩
  rcases Array.mem_or_eq_of_mem_setIfInBounds hw with hw | rfl
  · rcases Array.mem_append.mp hw with hw | hw
    · exact h.tidy.globals w hw
    · rw [Array.eq_of_mem_replicate hw]
      trivial
  · exact hv

lemma getGlobal {index : Nat} (h : m.Sound main k g (m.sp + 1)) :
    (m.push (m.getGlobal index)).Safe main k g := by
  refine h.push ?_
  unfold Machine.getGlobal
  rw [Array.getD_eq_getD_getElem?]
  cases hi : m.globals[index]? with
  | none => trivial
  | some v => exact h.tidy.globals v (Array.mem_of_getElem? hi)

/-! ### Calls and returns -/

/-- The function that is called starts with nothing on top of its locals. -/
lemma callClosure {ref args : Nat} {c : Closure} (h : m.Sound main k g (m.sp - args))
    (hn : args + 1 ≤ m.sp) (hsmall : args < 256) (href : m.store.closures[ref]? = some c)
    (hfn : Constant.function c.fn ∈ m.constants) (hfree : c.fn.FreeBelow c.free.size) :
    (m.callClosure ref c args).Safe main k g := by
  obtain ⟨-, hslots, is, captured, hreads, hbal, hret, hrange⟩ := h.functions c.fn hfn
  simp only [Machine.callClosure]
  split_ifs with hargs hword hstack hlimit
  · exact ⟨rfl, h.tidy⟩
  · -- at most 256 locals, so that the sum is a machine word
    have hroom := h.room
    have hsize := h.small
    rw [not_not] at hargs
    rw [UInt64.size] at hword
    omega
  · exact ⟨rfl, h.tidy⟩
  · exact ⟨rfl, h.tidy⟩
  · have hrange' : AllInRange ⟨m.constants, k, g, c.fn.locals.toNat, c.free.size, true⟩ is := by
      intro i hi
      have hir := hrange i hi
      by_cases hop : i.op = .getFree
      · have hlt := hfree is hreads i hi hop
        unfold Instr.InRange
        rw [hop]
        exact hlt
      · unfold Instr.InRange at hir ⊢
        split <;> rename_i heq <;> simp_all
    have hne : is ≠ [] := by
      obtain ⟨init, i, rfl, -⟩ := hret
      simp
    refine ⟨⟨h.tidy.stack, h.tidy.globals, h.tidy.store⟩, h.functions, h.builtins, h.small,
      Nat.le_of_not_lt hstack, ?_⟩
    refine ⟨href, hfn, hfree, show 0 < m.sp - args by omega, ⟨[], is, ?_⟩, h.frames⟩
    exact ⟨hreads, rfl, rfl, hbal, hrange', fun _ => hret, fun _ => hne⟩

/-- Whatever is called, the machine goes on in order or has a fault that programs can have. -/
lemma call {args : Nat} (h : m.Sound main k g (m.sp - (args + 1) + 1)) (hn : args + 1 ≤ m.sp)
    (hsmall : args < 256) : (m.call args).Safe main k g := by
  have hcallee := h.sane_getD (m.sp - (args + 1))
  have htop : m.sp - (args + 1) + 1 = m.sp - args := by omega
  unfold Machine.call
  rw [if_neg (Nat.not_lt.mpr hn)]
  cases hv : m.stack.getD (m.sp - (args + 1)) .nil with
  | closure ref =>
      rw [hv] at hcallee
      obtain ⟨c, href, hfn, hfree⟩ := hcallee
      simp only [href]
      rw [htop] at h
      exact h.callClosure hn hsmall href hfn hfree
  | builtin b =>
      obtain ⟨hval, hkeeps⟩ := Builtin.call_keeps Value.Sane.of_not_function h.tidy.store b
        (fun v hv => h.sane_top args v (Array.mem_def.mpr hv))
      refine (h.withStore (Nat.le_trans (Nat.sub_le _ _) h.room) hkeeps).push ?_
      show Value.Sane m.constants (b.call m.store (m.top args).toList).2.closures _
      rwa [hkeeps.2]
  | _ => exact ⟨rfl, h.tidy⟩

/-- The caller finds the value in the place of what it called.  Where the call stood itself does not
matter any more. -/
lemma leave {v : Value} (h : m.Sound main k g m.sp) (hv : v.Sane m.constants m.store.closures)
    (ip sp : Nat) :
    (Machine.leave { m with frame := { m.frame with ip := ip }, sp := sp } v).Safe main k g := by
  have hframes := h.frames
  unfold Machine.leave
  cases hc : m.callers with
  | nil => exact ⟨h.tidy.stack, h.tidy.globals, h.tidy.store⟩
  | cons caller callers =>
      rw [hc] at hframes
      obtain ⟨-, -, -, hbase, ⟨before, after, hstands⟩, hrest⟩ := hframes
      have htop := hstands.top
      have hroom := h.room
      have hsp : m.frame.base - 1 + 1 = m.frame.base := by omega
      have hsound : Sound main k g
          { m with frame := caller, callers := callers, sp := m.frame.base - 1 }
          (m.frame.base - 1 + 1) := by
        rw [hsp]
        exact ⟨⟨h.tidy.stack, h.tidy.globals, h.tidy.store⟩, h.functions, h.builtins, h.small,
          show m.frame.base - 1 ≤ m.stack.size by omega, hrest⟩
      exact hsound.push hv

end Machine.Sound

namespace Machine

variable {main : Code} {k g : Nat} {m : Machine}

/-- An instruction that goes on with the one behind it. -/
lemma Sound.execute {i : Instr} {locals a b : Nat} (h : m.Sound main k g (m.sp - i.takes + i.gives))
    (ht : i.takes ≤ m.sp) (hf : i.Fits)
    (hr : i.InRange ⟨m.constants, k, g, locals, m.frame.free.size, !m.callers.isEmpty⟩)
    (hj : i.jumps = false) (hret : i.returns = false) (ha : i.operands ≠ [] → a = i.first)
    (hb : 1 < i.operands.length → b = i.second) : (m.execute i.op a b).Safe main k g := by
  have hlen : i.operands.length = i.op.widths.length := hf.length_eq.symm
  have hne (hw : i.op.widths.length ≠ 0) : a = i.first := ha fun ho => hw (by rw [← hlen, ho]; rfl)
  have hsnd (hw : i.op.widths.length = 2) : b = i.second := hb (by omega)
  obtain ⟨op, operands⟩ := i
  cases op with
  | constant =>
      obtain ⟨c, hc, hfn⟩ := hr
      rw [hne (by simp [Opcode.widths])]
      exact h.loadConstant hc hfn
  | pop => exact h.pop
  | add | sub | mul | div | equal | notEqual | greater | greaterEqual => exact binary _ h
  | and => exact binary .and h
  | or => exact binary .or h
  | pushTrue | pushFalse | pushNil => exact h.push trivial
  | minus => exact unary .minus h
  | bang => exact unary .bang h
  | jumpNotTruthy | jump => cases hj
  | returnValue | returnNil => cases hret
  | setGlobal => exact h.pop.setGlobal h.sane_pop
  | getGlobal => exact h.getGlobal
  | array =>
      rw [hne (by simp [Opcode.widths])]
      exact h.makeArray ht
  | hash =>
      rw [hne (by simp [Opcode.widths])]
      exact h.makeHash ht
  | setIndex => exact h.setIndex
  | getIndex => exact h.getIndex
  | call =>
      rw [hne (by simp [Opcode.widths])]
      have hlt : Instr.first ⟨.call, operands⟩ < 256 := by
        obtain ⟨n, ns, hn, -, hns⟩ := List.forall₂_cons_left_iff.mp hf
        simp only at hns
        rw [hns]
        exact hn
      exact h.call ht hlt
  | setLocal => exact h.setLocal
  | getLocal => exact h.getLocal
  | getBuiltin =>
      rw [hne (by simp [Opcode.widths])]
      have hlt : Instr.first ⟨.getBuiltin, operands⟩ < m.builtins.length := by
        rw [h.builtins]
        exact hr
      have hget := List.getElem?_eq_getElem hlt
      simp only [Machine.execute, hget]
      exact h.push trivial
  | closure =>
      obtain ⟨fn, hfn, hfree⟩ := hr
      rw [hne (by simp [Opcode.widths]), hsnd (by simp [Opcode.widths])]
      exact h.makeClosure ht hfn hfree
  | getFree =>
      rw [hne (by simp [Opcode.widths])]
      have hget : m.frame.free[Instr.first ⟨.getFree, operands⟩]? = some _ :=
        Array.getElem?_eq_getElem hr
      simp only [Machine.execute, hget]
      exact h.push (h.frames.sane_free h.tidy.store _ (Array.getElem_mem _))
  | currentClosure =>
      have hframes := h.frames
      cases hc : m.callers with
      | nil => rw [hc] at hr; cases hr
      | cons c cs =>
          rw [hc] at hframes
          exact h.push ⟨_, hframes.1, hframes.2.1, hframes.2.2.1⟩

/-- The call goes on somewhere else. -/
lemma Safe.move (h : m.Safe main k g) {ip top : Nat} {before after : List Instr}
    (hs : ({ m.frame with ip := ip } : Frame).Stands m.constants k g (!m.callers.isEmpty) top
      before after) :
    (m.jump ip).Sound main k g top :=
  ⟨⟨h.tidy.stack, h.tidy.globals, h.tidy.store⟩, h.functions, h.builtins, h.small, h.room,
    h.frames.move hs⟩

/-- A jump that is taken or not. -/
lemma Safe.executeJump (h : m.Safe main k g) {i : Instr} {before rest : List Instr} {a : Nat}
    (b : Nat) (hs : m.frame.Stands m.constants k g (!m.callers.isEmpty) m.sp before (i :: rest))
    (hj : i.jumps = true) (ha : i.operands ≠ [] → a = i.first) :
    ((m.jump (m.frame.ip + i.size)).execute i.op a b).Safe main k g := by
  obtain ⟨mid, rest', -, hland⟩ := hs.land hj
  have hne : i.operands ≠ [] := Instr.Fits.operands_ne_nil hs.fits hj
  obtain ⟨op, operands⟩ := i
  rw [ha hne]
  simp only [Instr.jumps, Bool.or_eq_true, beq_iff_eq] at hj
  rcases hj with rfl | rfl
  · exact h.move hland
  · have hnext := (h.move (hs.advance (by simp) rfl)).pop
    have htaken := (h.move hland).pop
    simp only [Machine.execute]
    split_ifs
    · exact hnext
    · exact htaken

/-- A return leaves a machine in order, or ends the run. -/
lemma Safe.executeReturn (h : m.Safe main k g) {i : Instr} (ip a b : Nat) (hr : i.returns = true) :
    ((m.jump ip).execute i.op a b).Safe main k g := by
  obtain ⟨op, operands⟩ := i
  simp only [Instr.returns, Bool.or_eq_true, beq_iff_eq] at hr
  rcases hr with rfl | rfl
  · exact Sound.leave h h.sane_pop ip _
  · exact Sound.leave (v := .nil) h trivial ip _

/-- **A step keeps the machine in order**, and no fault of broken code can stop it. -/
theorem Safe.step (h : m.Safe main k g) : m.step.Safe main k g := by
  obtain ⟨before, after, hs⟩ := h.frames.stands
  cases after with
  | nil =>
      -- only the top level can be at its end
      have hmain : m.callers = [] := by
        by_contra hne
        exact hs.inCode (by simpa using hne) rfl
      have hend : m.frame.fn.code[m.frame.ip]? = none := by
        have hsize : m.frame.fn.code.size = extent before := by
          rw [hs.reads.size, List.append_nil]
        rw [hs.ip]
        exact Array.getElem?_eq_none (Nat.le_of_eq hsize)
      simp only [Machine.step, hend, Machine.leave, hmain]
      exact h.tidy
  | cons i rest =>
      obtain ⟨a, b, hstep, ha, hb⟩ := step_instr hs.fits hs.holds
      rw [hstep]
      by_cases hj : i.jumps = true
      · exact h.executeJump b hs hj ha
      · by_cases hr : i.returns = true
        · exact h.executeReturn _ a b hr
        · rw [Bool.not_eq_true] at hj hr
          have hop : i.op ≠ .jump := by
            intro hop
            rw [Instr.jumps, hop] at hj
            cases hj
          have htakes := hs.takes_le
          exact (h.move (hs.advance hop hr)).execute
            (Nat.le_trans (Nat.le_add_left _ _) htakes) hs.fits
            hs.instr_inRange hj hr ha hb

/-- **A run keeps the machine in order.** -/
theorem Safe.run (h : m.Safe main k g) (fuel : Nat) : (m.run fuel).Safe main k g := by
  induction fuel generalizing m with
  | zero => exact h
  | succ fuel ih =>
      have hstep := h.step
      rw [Machine.run]
      cases hs : m.step with
      | next m' =>
          rw [hs] at hstep
          exact ih hstep
      | done m' =>
          rw [hs] at hstep
          exact hstep
      | fault f m' =>
          rw [hs] at hstep
          exact hstep
      | crash m' =>
          rw [hs] at hstep
          exact hstep

/-! ### Constants and builtins -/

/-- What a machine was supplied with and never changes. -/
def supply (m : Machine) : Array Constant × List Builtin :=
  (m.constants, m.builtins)

variable (m)

@[simp] lemma supply_push (v : Value) : (m.push v).machine.supply = m.supply := by
  unfold push
  split <;> rfl

@[simp] lemma supply_pushResult (r : Except Fault Value) :
    (m.pushResult r).machine.supply = m.supply := by
  cases r with
  | ok v => exact m.supply_push v
  | error f => rfl

@[simp] lemma supply_leave (v : Value) : (m.leave v).machine.supply = m.supply := by
  unfold leave returnTo
  split
  · rfl
  · exact supply_push _ v

/-- No instruction changes what the machine was supplied with. -/
lemma supply_execute (op : Opcode) (a b : Nat) : (m.execute op a b).machine.supply = m.supply := by
  cases op with
  | closure =>
      simp only [execute, makeClosure]
      repeat' split
      all_goals first | rfl | exact supply_push _ _
  | call =>
      simp only [execute, call, callClosure]
      repeat' split
      all_goals first | rfl | exact supply_push _ _
  | constant | array | hash | setIndex | jumpNotTruthy | setLocal | getLocal | getBuiltin
  | getFree =>
      simp only [execute, loadConstant, makeArray, makeHash, setIndex, setLocal, getLocal]
      split
      all_goals
        first
          | rfl
          | exact supply_push _ _
          | (split <;> first | rfl | exact supply_push _ _)
  | returnValue => exact supply_leave m.pop.2 m.pop.1
  | returnNil => exact m.supply_leave .nil
  | pop | jump | setGlobal => rfl
  | _ => first | exact supply_push _ _ | exact supply_pushResult _ _

/-- No step changes what the machine was supplied with. -/
lemma supply_step : m.step.machine.supply = m.supply := by
  unfold step
  dsimp only
  repeat' split
  · exact m.supply_leave .nil
  · rfl
  · rfl
  · exact supply_execute _ _ _ _

/-- No run changes what the machine was supplied with. -/
lemma supply_run (fuel : Nat) : (m.run fuel).machine.supply = m.supply := by
  induction fuel generalizing m with
  | zero => rfl
  | succ fuel ih =>
      have hstep := m.supply_step
      rw [run]
      cases hs : m.step with
      | next m' =>
          rw [hs] at hstep
          exact (ih m').trans hstep
      | done m' | fault f m' | crash m' =>
          rw [hs] at hstep
          exact hstep

/-- A step does not change the constants. -/
lemma constants_step : m.step.machine.constants = m.constants :=
  congrArg Prod.fst m.supply_step

/-- A run does not change the constants. -/
lemma constants_run (fuel : Nat) : (m.run fuel).machine.constants = m.constants :=
  congrArg Prod.fst (m.supply_run fuel)

/-- A run does not change the builtins. -/
lemma builtins_run (fuel : Nat) : (m.run fuel).machine.builtins = m.builtins :=
  congrArg Prod.snd (m.supply_run fuel)

end Machine

end Marmoset
