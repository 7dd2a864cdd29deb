import Marmoset.Proofs.CallSteps
import Marmoset.Proofs.RenamedClosures
import Marmoset.Proofs.SafeRuns

/-!
# Machines that mirror each other

A machine that runs a piece of code by itself, and one that runs the same piece as a part of longer
code.  In the second one the main stream is further on by the length of what stands before, and
closures are at other places; all else is the same (`Machine.Mirrors`).

* **`Machine.Mirrors.execute`** — an instruction that is no jump does the same in both.
-/

namespace Marmoset

/-- The calls of two machines: those of the first one come from code in which that of the second one
starts at byte `δ`.  Functions are called with the same code in both. -/
inductive Frame.Mirrors (ρ : Nat → Nat) (δ : Nat) (whole piece : Code) :
    Frame → List Frame → Frame → List Frame → Prop
    where
  | main (ref ref' ip : Nat) :
      Mirrors ρ δ whole piece ⟨ref, ⟨whole, 0, 0⟩, #[], ip + δ, 0⟩ []
        ⟨ref', ⟨piece, 0, 0⟩, #[], ip, 0⟩ []
  | call {f g : Frame} {fs gs : List Frame} (h : Mirrors ρ δ whole piece f fs g gs) (ref : Nat)
      (fn : CompiledFunction)
      (free : Array Value) (ip base : Nat) :
      Mirrors ρ δ whole piece ⟨ref, fn, free, ip, base⟩ (f :: fs)
        ⟨ρ ref, fn, free.map (Value.renamed ρ), ip, base⟩ (g :: gs)

/-- How much further on the code of the innermost call is in the first machine. -/
def shift (δ : Nat) (callers : List Frame) : Nat :=
  if callers.isEmpty then δ else 0

@[simp] lemma shift_nil (δ : Nat) : shift δ [] = δ := rfl

@[simp] lemma shift_cons (δ : Nat) (c : Frame) (cs : List Frame) : shift δ (c :: cs) = 0 := rfl

namespace Frame.Mirrors

variable {ρ : Nat → Nat} {δ : Nat} {whole piece : Code} {f g : Frame} {fs gs : List Frame}

/-- Both calls have their locals at the same place. -/
lemma base (h : Mirrors ρ δ whole piece f fs g gs) : g.base = f.base := by
  cases h <;> rfl

/-- What was captured is the same but for the places of closures. -/
lemma free (h : Mirrors ρ δ whole piece f fs g gs) : g.free = f.free.map (Value.renamed ρ) := by
  cases h with
  | main => exact Array.map_empty.symm
  | call => rfl

/-- The closure that was called, if it is not the main stream. -/
lemma closure (h : Mirrors ρ δ whole piece f fs g gs) (hne : gs ≠ []) :
    g.closure = ρ f.closure := by
  cases h with
  | main => exact absurd rfl hne
  | call => rfl

/-- Calls are nested equally deep. -/
lemma length (h : Mirrors ρ δ whole piece f fs g gs) : gs.length = fs.length := by
  induction h with
  | main => rfl
  | call _ _ _ _ _ _ ih => rw [List.length_cons, List.length_cons, ih]

/-- Where the first call is. -/
lemma ip (h : Mirrors ρ δ whole piece f fs g gs) : f.ip = g.ip + shift δ gs := by
  cases h <;> rfl

/-- Outside of functions both machines run their main streams. -/
lemma top_level (h : Mirrors ρ δ whole piece f fs g gs) (hgs : gs = []) :
    fs = [] ∧ ∃ ref, f = ⟨ref, ⟨whole, 0, 0⟩, #[], g.ip + δ, 0⟩ := by
  cases h with
  | main ref => exact ⟨rfl, ref, rfl⟩
  | call => cases hgs

/-- Both calls go on elsewhere. -/
lemma jump (h : Mirrors ρ δ whole piece f fs g gs) (target : Nat) :
    Mirrors ρ δ whole piece { f with ip := target + shift δ gs } fs { g with ip := target } gs := by
  cases h with
  | main ref ref' ip => exact .main ref ref' target
  | call h ref fn free ip base => exact .call h ref fn free target base

end Frame.Mirrors

/-- The second machine runs a piece of the code of the first one, from byte `δ` on. -/
structure Machine.Mirrors (ρ : Nat → Nat) (δ : Nat) (whole piece : Code) (n m : Machine) :
    Prop where
  constants : m.constants.toList <+: n.constants.toList
  builtins : m.builtins = n.builtins
  maxFrames : m.maxFrames = n.maxFrames
  globals : m.globals = n.globals.map (Value.renamed ρ)
  stack : m.stack = n.stack.map (Value.renamed ρ)
  sp : m.sp = n.sp
  calls : Frame.Mirrors ρ δ whole piece n.frame n.callers m.frame m.callers
  store : n.store.Renamed ρ m.store
  /-- Closures that are made next will be at places that belong together. -/
  next : ∀ k, ρ (n.store.closures.size + k) = m.store.closures.size + k
  first : n.store.closures[0]? = some ⟨⟨whole, 0, 0⟩, #[]⟩

/-- The outcomes of a step. -/
inductive Step.Mirrors (ρ : Nat → Nat) (δ : Nat) (whole piece : Code) : Step → Step → Prop where
  | next {n m : Machine} (h : n.Mirrors ρ δ whole piece m) :
      Mirrors ρ δ whole piece (.next n) (.next m)
  | done {n m : Machine} (h : n.Mirrors ρ δ whole piece m) :
      Mirrors ρ δ whole piece (.done n) (.done m)
  | fault (f : Fault) (n m : Machine) : Mirrors ρ δ whole piece (.fault f n) (.fault f m)
  | crash (n m : Machine) : Mirrors ρ δ whole piece (.crash n) (.crash m)

namespace Machine.Mirrors

variable {ρ : Nat → Nat} {δ : Nat} {whole piece : Code} {n m : Machine}

/-- A slot of the stack has the same value but for the places of closures. -/
lemma getD_stack (h : n.Mirrors ρ δ whole piece m) (i : Nat) :
    m.stack.getD i .nil = (n.stack.getD i .nil).renamed ρ := by
  rw [h.stack, Array.getD_eq_getD_getElem?, Array.getD_eq_getD_getElem?, Array.getElem?_map]
  cases n.stack[i]? <;> rfl

/-- A global has the same value but for the places of closures. -/
lemma getGlobal (h : n.Mirrors ρ δ whole piece m) (i : Nat) :
    m.getGlobal i = (n.getGlobal i).renamed ρ := by
  rw [Machine.getGlobal, Machine.getGlobal, h.globals, Array.getD_eq_getD_getElem?,
    Array.getD_eq_getD_getElem?, Array.getElem?_map]
  cases n.globals[i]? <;> rfl

/-- A constant of the second machine is one of the first machine. -/
lemma getElem?_constants (h : n.Mirrors ρ δ whole piece m) {i : Nat} {k : Constant}
    (hk : m.constants[i]? = some k) :
    n.constants[i]? = some k := by
  obtain ⟨rest, hrest⟩ := h.constants
  rw [← Array.getElem?_toList] at hk ⊢
  rw [← hrest, List.getElem?_append_left (List.getElem?_eq_some_iff.mp hk).1, hk]

/-! ### Parts of instructions -/

/-- Both push, or both have no room. -/
lemma push (h : n.Mirrors ρ δ whole piece m) {v w : Value} (hw : w = v.renamed ρ) :
    Step.Mirrors ρ δ whole piece (n.push v) (m.push w) := by
  unfold Machine.push
  rw [h.sp, h.stack, Array.size_map, hw]
  split_ifs
  · refine .next ⟨h.constants, h.builtins, h.maxFrames, h.globals, ?_, rfl, h.calls, h.store,
      h.next, h.first⟩
    exact Array.map_setIfInBounds.symm
  · exact .fault _ _ _

/-- Both push, or both have the fault. -/
lemma pushResult (h : n.Mirrors ρ δ whole piece m) {r r' : Except Fault Value}
    (hr : r' = r.map (Value.renamed ρ)) :
    Step.Mirrors ρ δ whole piece (n.pushResult r) (m.pushResult r') := by
  rw [hr]
  cases r with
  | ok v => exact h.push rfl
  | error f => exact .fault f n m

/-- Both pop the same value but for the places of closures. -/
lemma pop (h : n.Mirrors ρ δ whole piece m) :
    m.pop.1 = n.pop.1.renamed ρ ∧ n.pop.2.Mirrors ρ δ whole piece m.pop.2 := by
  refine ⟨?_, h.constants, h.builtins, h.maxFrames, h.globals, h.stack, ?_, h.calls, h.store,
    h.next, h.first⟩
  · simp only [Machine.pop, h.sp, h.getD_stack]
  · simp only [Machine.pop, h.sp]

/-- So it is with the values on top. -/
lemma top (h : n.Mirrors ρ δ whole piece m) (k : Nat) :
    m.top k = (n.top k).map (Value.renamed ρ) := by
  rw [Machine.top, Machine.top, h.sp, h.stack, Array.map_extract]

/-- The stack pointer is set and the stores change, but not their closures. -/
lemma withStore (h : n.Mirrors ρ δ whole piece m) {σ s : Store}
    (hs : Store.Renamed.Keeps ρ n.store m.store σ s) {sp sp' : Nat} (hsp : sp' = sp) :
    Mirrors ρ δ whole piece { n with sp := sp, store := σ } { m with sp := sp', store := s } := by
  obtain ⟨hs, hσ, hs'⟩ := hs
  refine ⟨h.constants, h.builtins, h.maxFrames, h.globals, h.stack, hsp, h.calls, hs,
    fun k => ?_, ?_⟩
  · show ρ (σ.closures.size + k) = s.closures.size + k
    rw [hσ, hs', h.next]
  · show σ.closures[0]? = _
    rw [hσ, h.first]

/-- The machines still mirror each other where other calls go on that do. -/
lemma withCalls (h : n.Mirrors ρ δ whole piece m) {f g : Frame} {fs gs : List Frame}
    (hc : Frame.Mirrors ρ δ whole piece f fs g gs) {sp sp' : Nat} (hsp : sp' = sp) :
    Mirrors ρ δ whole piece { n with frame := f, callers := fs, sp := sp }
      { m with frame := g, callers := gs, sp := sp' } :=
  ⟨h.constants, h.builtins, h.maxFrames, h.globals, h.stack, hsp, hc, h.store, h.next, h.first⟩

/-- A closure is made by both. -/
lemma withClosure (h : n.Mirrors ρ δ whole piece m) (c : Closure) {sp sp' : Nat} (hsp : sp' = sp) :
    Mirrors ρ δ whole piece { n with sp := sp, store := (n.store.newClosure c).2 }
      { m with sp := sp', store := (m.store.newClosure (c.renamed ρ)).2 } := by
  refine ⟨h.constants, h.builtins, h.maxFrames, h.globals, h.stack, hsp, h.calls,
    (h.store.newClosure (h.next 0) c).2, fun k => ?_, ?_⟩
  · simp only [Store.newClosure, Array.size_push]
    rw [Nat.add_assoc, Nat.add_assoc, h.next]
  · have hpos := (Array.getElem?_eq_some_iff.mp h.first).1
    simp only [Store.newClosure]
    rw [Array.getElem?_push_lt hpos, ← Array.getElem?_eq_getElem hpos, h.first]

/-- Both calls go on elsewhere. -/
lemma jump (h : n.Mirrors ρ δ whole piece m) (target : Nat) :
    (n.jump (target + shift δ m.callers)).Mirrors ρ δ whole piece (m.jump target) :=
  ⟨h.constants, h.builtins, h.maxFrames, h.globals, h.stack, h.sp, h.calls.jump target, h.store,
    h.next, h.first⟩

/-! ### Instructions -/

/-- Operators may compare closures, and different ones stay different. -/
lemma binary (h : n.Mirrors ρ δ whole piece m) (hρ : Function.Injective ρ) (op : Opcode) :
    Step.Mirrors ρ δ whole piece (n.binary op) (m.binary op) := by
  simp only [Machine.binary]
  rw [h.pop.1, h.pop.2.pop.1]
  exact h.pop.2.pop.2.pushResult (Value.binary_renamed hρ op _ _)

lemma unary (h : n.Mirrors ρ δ whole piece m) (op : Opcode) :
    Step.Mirrors ρ δ whole piece (n.unary op) (m.unary op) := by
  simp only [Machine.unary]
  rw [h.pop.1]
  exact h.pop.2.pushResult (Value.unary_renamed op _)

/-- What an index finds is in stores that correspond. -/
lemma getIndex (h : n.Mirrors ρ δ whole piece m) :
    Step.Mirrors ρ δ whole piece n.getIndex m.getIndex := by
  simp only [Machine.getIndex]
  rw [h.pop.1, h.pop.2.pop.1]
  exact h.pop.2.pop.2.pushResult (h.store.getIndex _ _)

/-- So is what is written to an index. -/
lemma setIndex (h : n.Mirrors ρ δ whole piece m) :
    Step.Mirrors ρ δ whole piece n.setIndex m.setIndex := by
  have h₃ := h.pop.2.pop.2.pop.2
  have hset := h₃.store.setIndex n.pop.2.pop.2.pop.1 n.pop.2.pop.1 n.pop.1
  simp only [Machine.setIndex]
  rw [h.pop.1, h.pop.2.pop.1, h.pop.2.pop.2.pop.1]
  generalize n.pop.2.pop.2.pop.2.store.setIndex _ _ _ = r at hset ⊢
  generalize m.pop.2.pop.2.pop.2.store.setIndex _ _ _ = r' at hset ⊢
  cases hset with
  | ok hs => exact .next (h₃.withStore hs h₃.sp)
  | error f => exact .fault f _ _

/-- A constant that is no function has no place in it. -/
lemma loadConstant (h : n.Mirrors ρ δ whole piece m) {i : Nat} {k : Constant}
    (hk : m.constants[i]? = some k) (hfn : ∀ fn, k ≠ .function fn) :
    Step.Mirrors ρ δ whole piece (n.loadConstant i) (m.loadConstant i) := by
  unfold Machine.loadConstant
  rw [hk, h.getElem?_constants hk]
  refine h.push ?_
  cases k with
  | function fn => exact absurd rfl (hfn fn)
  | _ => rfl

/-- A new array is at the same place in both. -/
lemma makeArray (h : n.Mirrors ρ δ whole piece m) (k : Nat) :
    Step.Mirrors ρ δ whole piece (n.makeArray k) (m.makeArray k) := by
  unfold Machine.makeArray
  rw [h.sp, h.top]
  split_ifs
  · exact .fault _ _ _
  · exact (h.withStore ⟨(h.store.newArray (n.top k)).2, rfl, rfl⟩ rfl).push
      (h.store.newArray (n.top k)).1

/-- So is a new hash. -/
lemma makeHash (h : n.Mirrors ρ δ whole piece m) (k : Nat) :
    Step.Mirrors ρ δ whole piece (n.makeHash k) (m.makeHash k) := by
  unfold Machine.makeHash
  rw [h.sp, h.top, Array.toList_map]
  split_ifs
  · exact .fault _ _ _
  · have hbuild := h.store.buildHash (n.top k).toList
    generalize n.store.buildHash _ = r at hbuild ⊢
    generalize m.store.buildHash _ = r' at hbuild ⊢
    cases hbuild with
    | ok hr => exact (h.withStore hr.2 rfl).push hr.1
    | error f => exact .fault f _ _

/-- A new closure is at places that correspond, with the same function. -/
lemma makeClosure (h : n.Mirrors ρ δ whole piece m) {i : Nat} {fn : CompiledFunction}
    (hfn : m.constants[i]? = some (.function fn)) (k : Nat) :
    Step.Mirrors ρ δ whole piece (n.makeClosure i k) (m.makeClosure i k) := by
  unfold Machine.makeClosure
  rw [hfn, h.getElem?_constants hfn, h.sp, h.top]
  dsimp only
  split_ifs
  · exact .fault _ _ _
  · exact (h.withClosure ⟨fn, n.top k⟩ rfl).push (h.store.newClosure (h.next 0) ⟨fn, n.top k⟩).1

/-- A local is stored at the same slot. -/
lemma setLocal (h : n.Mirrors ρ δ whole piece m) (i : Nat) :
    Step.Mirrors ρ δ whole piece (n.setLocal i) (m.setLocal i) := by
  simp only [Machine.setLocal]
  rw [h.pop.1, h.calls.base, h.pop.2.stack, Array.size_map]
  split_ifs
  · have h₁ := h.pop.2
    refine .next ⟨h₁.constants, h₁.builtins, h₁.maxFrames, h₁.globals, ?_, h₁.sp, h₁.calls,
      h₁.store, h₁.next, h₁.first⟩
    exact Array.map_setIfInBounds.symm
  · exact .fault _ _ _

/-- A local is read from the same slot. -/
lemma getLocal (h : n.Mirrors ρ δ whole piece m) (i : Nat) :
    Step.Mirrors ρ δ whole piece (n.getLocal i) (m.getLocal i) := by
  unfold Machine.getLocal
  rw [h.calls.base, h.stack, Array.getElem?_map]
  cases n.stack[n.frame.base + i]? with
  | none => exact .fault _ _ _
  | some v => exact h.push rfl

/-- A global is stored at the same slot. -/
lemma setGlobal (h : n.Mirrors ρ δ whole piece m) (i : Nat) (v : Value) :
    (n.setGlobal i v).Mirrors ρ δ whole piece (m.setGlobal i (v.renamed ρ)) := by
  refine ⟨h.constants, h.builtins, h.maxFrames, ?_, h.stack, h.sp, h.calls, h.store,
    h.next, h.first⟩
  simp only [Machine.setGlobal, h.globals, Array.size_map]
  rw [Array.map_setIfInBounds, Array.map_append, Array.map_replicate]
  rfl

/-- A function that is left gives its value to the call around it, and at the end of the run there
is none. -/
lemma leave (h : n.Mirrors ρ δ whole piece m) (v : Value) :
    Step.Mirrors ρ δ whole piece (n.leave v) (m.leave (v.renamed ρ)) := by
  have hcalls := h.calls
  have hbase := hcalls.base
  unfold Machine.leave Machine.returnTo
  rw [hbase]
  generalize n.frame = f at hcalls ⊢
  generalize n.callers = fs at hcalls ⊢
  generalize m.frame = g at hcalls
  generalize m.callers = gs at hcalls ⊢
  cases hcalls with
  | main => exact .done h
  | call hrest => exact (h.withCalls hrest rfl).push rfl

/-- Closures that correspond are called in the same way. -/
lemma callClosure (h : n.Mirrors ρ δ whole piece m) (ref : Nat) (c : Closure) (args : Nat) :
    Step.Mirrors ρ δ whole piece (n.callClosure ref c args)
      (m.callClosure (ρ ref) (c.renamed ρ) args) := by
  have hsize : m.stack.size = n.stack.size := by rw [h.stack, Array.size_map]
  have hcount : m.frameCount = n.frameCount := congrArg (· + 1) h.calls.length
  have hfn : (c.renamed ρ).fn = c.fn := rfl
  simp only [Machine.callClosure, hfn, h.sp, hsize, h.maxFrames, hcount]
  by_cases hparams : c.fn.params.toNat = args
  · rw [if_neg (not_not.mpr hparams), if_neg (not_not.mpr hparams)]
    split_ifs
    · exact .crash _ _
    · exact .fault _ _ _
    · exact .fault _ _ _
    · have hcall := h.withCalls (.call h.calls ref c.fn c.free 0 (n.sp - args))
        (Eq.refl (n.sp - args + c.fn.locals.toNat))
      rw [h.maxFrames] at hcall
      exact .next hcall
  · rw [if_pos hparams, if_pos hparams]
    exact .fault _ _ _

/-- What the first machine holds. -/
lemma below_of_sane {pool : Array Constant} {closures : Array Closure} {v : Value}
    (h : v.Sane pool closures) :
    v.Below closures.size := by
  rintro ref rfl
  obtain ⟨c, hc, -⟩ := h
  exact (Array.getElem?_eq_some_iff.mp hc).1

section

variable (h : n.Mirrors ρ δ whole piece m) (hn : n.Tidy)
  (hwhole : Constant.function ⟨whole, 0, 0⟩ ∉ n.constants)

include h hn hwhole

/-- A call of a closure or a builtin. -/
lemma call (args : Nat) : Step.Mirrors ρ δ whole piece (n.call args) (m.call args) := by
  unfold Machine.call
  rw [h.sp, h.getD_stack, h.top, Array.toList_map]
  split_ifs
  · exact .fault _ _ _
  · cases hv : n.stack.getD (n.sp - (args + 1)) .nil with
    | closure ref =>
        have hmem : Value.closure ref ∈ n.stack := by
          rw [Array.getD_eq_getD_getElem?] at hv
          cases hi : n.stack[n.sp - (args + 1)]? with
          | none =>
              rw [hi] at hv
              cases hv
          | some v =>
              rw [hi] at hv
              exact hv ▸ Array.mem_of_getElem? hi
        obtain ⟨c, hc, hfn, -⟩ := hn.stack _ hmem
        have hpos : 0 < ref := by
          refine Nat.pos_of_ne_zero fun hzero => hwhole ?_
          rw [hzero, h.first] at hc
          cases hc
          exact hfn
        have hc' := h.store.closures ref c hpos hc
        simp only [Value.renamed, hc, hc']
        exact h.callClosure ref c args
    | builtin b =>
        have hargs (v : Value) (hv : v ∈ (n.top args).toList) : v.Below n.store.closures.size :=
          below_of_sane (hn.stack v (mem_of_mem_extract (Array.mem_def.mpr hv)))
        have hanswer := h.store.call (hn.store.mono fun _ => below_of_sane) b hargs
        exact (h.withStore hanswer.2 rfl).push hanswer.1
    | _ => exact .fault _ _ _

/-- **An instruction that is no jump does the same in both machines.** -/
theorem execute (hρ : Function.Injective ρ) {i : Instr} {k g locals captured : Nat}
    (hr : i.InRange ⟨m.constants, k, g, locals, captured, !m.callers.isEmpty⟩)
    (hj : i.jumps = false) :
    Step.Mirrors ρ δ whole piece (n.execute i.op i.first i.second)
      (m.execute i.op i.first i.second) := by
  obtain ⟨op, operands⟩ := i
  cases op with
  | constant =>
      obtain ⟨c, hc, hfn⟩ := hr
      exact h.loadConstant hc hfn
  | pop => exact .next h.pop.2
  | add | sub | mul | div | equal | notEqual | greater | greaterEqual => exact h.binary hρ _
  | and => exact h.binary hρ .and
  | or => exact h.binary hρ .or
  | pushTrue | pushFalse | pushNil => exact h.push rfl
  | minus => exact h.unary .minus
  | bang => exact h.unary .bang
  | jumpNotTruthy | jump => cases hj
  | setGlobal =>
      simp only [Machine.execute]
      rw [h.pop.1]
      exact .next (h.pop.2.setGlobal _ _)
  | getGlobal => exact h.push (h.getGlobal _)
  | array => exact h.makeArray _
  | hash => exact h.makeHash _
  | setIndex => exact h.setIndex
  | getIndex => exact h.getIndex
  | call => exact h.call hn hwhole _
  | returnValue =>
      simp only [Machine.execute]
      rw [h.pop.1]
      exact h.pop.2.leave _
  | returnNil => exact h.leave .nil
  | setLocal => exact h.setLocal _
  | getLocal => exact h.getLocal _
  | getBuiltin =>
      simp only [Machine.execute, h.builtins]
      split
      · exact h.push rfl
      · exact .fault _ _ _
  | closure =>
      obtain ⟨fn, hfn, -⟩ := hr
      exact h.makeClosure hfn _
  | getFree =>
      simp only [Machine.execute, h.calls.free, Array.getElem?_map]
      cases n.frame.free[Instr.first ⟨.getFree, operands⟩]? with
      | none => exact .fault _ _ _
      | some v => exact h.push rfl
  | currentClosure =>
      refine h.push (congrArg Value.closure (h.calls.closure ?_))
      simpa [Instr.InRange] using hr

end

end Machine.Mirrors

end Marmoset
