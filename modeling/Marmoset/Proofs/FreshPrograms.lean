import Marmoset.Proofs.SafeSessions
import Marmoset.Proofs.ScopeRuns

/-!
# A program in both engines

A program that a new compiler has compiled is run by a new machine, and is evaluated by a new
evaluator.  Their outcomes match (`Step.Matches`) if both have come to values that are alike, or to
faults that are alike, and what they made and printed on the way is alike.

* **`Site.Performs.program`** — they do, if the engines agree before the first statement and each
  statement runs as it is evaluated.
* **`Site.Tracks.program`** — they do, if the engines agree wherever the names of the program are
  kept track of.
-/

namespace Marmoset

/-- The machine is done, or has stopped, with the outcome that the evaluator has. -/
inductive Step.Matches : Step → Except Fault Value × Evaluator → Prop where
  | value {m : Machine} {v : Value} {e : Evaluator}
      (value : m.lastPopped.Like e.store.functions.size v)
      (store : m.store.Like e.store) : Matches (.done m) (.ok v, e)
  | fault {f f' : Fault} {m : Machine} {e : Evaluator}
      (fault : Fault.Like e.store.functions.size f f')
      (store : m.store.Like e.store) : Matches (.fault f m) (.error f', e)

/-- A run that comes to a value comes to no other one, and to no fault. -/
lemma Machine.run_of_value? {m : Machine} {n : Nat} {v : Value} (h : (m.run n).value? = some v)
    (k : Nat) :
    (∃ m', m.run k = .next m') ∨ (m.run k).value? = some v := by
  rcases Nat.le_total n k with hle | hle
  · obtain ⟨j, rfl⟩ := Nat.exists_eq_add_of_le hle
    rw [Machine.run_add]
    cases hr : m.run n with
    | next _ | fault _ _ | crash _ =>
        rw [hr] at h
        cases h
    | done _ =>
        rw [hr] at h
        exact .inr h
  · obtain ⟨j, rfl⟩ := Nat.exists_eq_add_of_le hle
    rw [Machine.run_add] at h
    cases hr : m.run k with
    | next m' => exact .inl ⟨m', rfl⟩
    | done _ | fault _ _ | crash _ =>
        rw [hr] at h
        exact .inr h

lemma Machine.run_ne_fault {m : Machine} {n : Nat} {v : Value} (h : (m.run n).value? = some v)
    (k : Nat) {f : Fault} {m' : Machine} : m.run k ≠ .fault f m' := by
  intro hk
  rcases Machine.run_of_value? h k with ⟨_, hnext⟩ | hvalue
  · cases hk.symm.trans hnext
  · rw [hk] at hvalue
    cases hvalue

namespace Program

/-- The machine that is about to run the program. -/
def machine (p : Program) (limits : Limits) : Machine :=
  .load (Compiler.fresh.compile p).2.bytecode #[] limits Builtin.table .empty

/-- What the evaluator makes of the program. -/
def evaluate (p : Program) (limits : Limits) : Except Fault Value × Evaluator :=
  (Evaluator.ofStore .empty limits.maxFrames).run p

/-- The top level of the program. -/
def site (p : Program) (limits : Limits) : Site where
  main := (Compiler.fresh.compile p).2.bytecode.code
  globals := (Compiler.fresh.compile p).2.symbols.outermost.definitions
  maxFrames := limits.maxFrames
  left := limits.maxFrames - 1
  env := 0
  free := []

/-- The evaluator does the statements of the program one after the other. -/
lemma evaluate_eq (p : Program) (limits : Limits) : p.evaluate limits =
    match Evaluator.evalTop (p.site limits).call 0 .nil p
      (Evaluator.ofStore .empty limits.maxFrames).store with
    | .ok v σ => (.ok v, ⟨σ, 0, limits.maxFrames⟩)
    | .error (.returned v) σ => (.ok v, ⟨σ, 0, limits.maxFrames⟩)
    | .error (.fault f) σ => (.error f, ⟨σ, 0, limits.maxFrames⟩) := rfl

/-- What is known before the first statement: the names of the top level, none of which is bound. -/
def world (p : Program) : World where
  scopes _ := ⟨(Stmt.mentionsAll p).binds, [], (Stmt.mentionsAll p).uses⟩
  slots _ := none

/-- The engines before the first statement. -/
def joint (p : Program) (limits : Limits) : Joint :=
  ⟨p.world, p.machine limits, (Evaluator.ofStore .empty limits.maxFrames).store⟩

/-- The names that a new compiler knows are those of the builtins. -/
lemma find?_fresh {n : String} {x : Symbol} (hx : Compiler.fresh.symbols.current.find? n = some x) :
    x.kind = .builtin ∧ Builtin.table[x.index]?.map Builtin.name = some n := by
  have hall : ∀ x ∈ Compiler.fresh.symbols.current.symbols,
      x.kind = .builtin ∧ Builtin.table[x.index]?.map Builtin.name = some x.name := by decide
  have hname : x.name = n := by simpa using List.find?_some hx
  rw [← hname]
  exact hall x (List.mem_of_find?_eq_some hx)

lemma boundTo_start (limits : Limits) (e : Nat) (n : String) :
    boundTo (Evaluator.ofStore .empty limits.maxFrames).store.environments e n = none := by
  refine (boundTo_push #[] none e n).trans ?_
  simp [boundTo]

lemma outerOf_start (limits : Limits) (e : Nat) :
    outerOf (Evaluator.ofStore .empty limits.maxFrames).store.environments e = none := by
  refine (outerOf_push #[] none e).trans ?_
  split_ifs
  · rfl
  · simp [outerOf]

/-- Before the first statement the engines agree in all that has a place. -/
lemma core_joint (p : Program) (limits : Limits) : (p.joint limits).Core where
  like := by
    refine ⟨.empty, .empty, rfl, fun i f hf => ?_, .same _⟩
    change (#[] : Array FunctionObject)[i]? = some f at hf
    simp at hf
  functions {i f} hf := by
    change (#[] : Array FunctionObject)[i]? = some f at hf
    simp at hf
  fits := by
    refine ⟨fun e o ho => ?_, outerOf_start limits 0, fun e n v hv => ?_⟩
    · cases (outerOf_start limits e).symm.trans ho
    · cases (boundTo_start limits e n).symm.trans hv
  top := Nat.zero_lt_one
  globals {n g} hs := by
    cases hs
  builtins := rfl

end Program

namespace Program

variable {p : Program} {limits : Limits}

/-- **The outcomes match**, if the code of the program does what the evaluator does with it. -/
theorem matches_of_follows {A : Joint → Prop} (hA : Joint.Stable A) (hstart : A (p.joint limits))
    (hl : limits.areFeasible = true) (hok : (Compiler.fresh.compile p).1 = .ok ())
    (hstack : ∀ n m, (p.machine limits).run n ≠ .fault .stackOverflow m)
    (hrun : ∀ {is}, Emits (.stmts p) Compiler.fresh.draft 0 is (Compiler.fresh.compile p).2.draft →
      (p.site limits).Stage A Compiler.fresh.draft 0 is (Compiler.fresh.compile p).2.draft
        (p.joint limits) →
      (p.machine limits).frame.fn.code.size = 0 + extent is →
        (p.joint limits).Follows (p.site limits) 0 (.next (p.machine limits))
          (Evaluator.evalTop (p.site limits).call 0 .nil p >>= fun v => throw (.returned v))
            fun (_ : Value) _ => True) :
    ∃ n, ((p.machine limits).run n).Matches (p.evaluate limits) := by
  have hin : (Session.start limits).InOrder limits := Session.Reached.start.inOrder hl
  have hsafe : (p.machine limits).Safe (p.site limits).main Builtin.table.length
      (p.site limits).globals :=
    hin.safe_load hl hok
  have hfresh : Compiler.fresh.Ready Builtin.table.length := Compiler.Reached.withBuiltins.ready
  obtain ⟨is, hem, htracks, hready⟩ := hfresh.emits_of_ok .empty hok
  have hst : (p.site limits).Stage A Compiler.fresh.draft 0 is (Compiler.fresh.compile p).2.draft
      (p.joint limits) :=
    { stable := hA
      agrees := hstart
      safe := hsafe
      frames := rfl
      depth := rfl
      callers := fun h => absurd rfl h
      good := hfresh.good
      ip := rfl
      code := .of_eq htracks.code
      fits := htracks.fits
      pool := List.prefix_rfl
      free := List.prefix_nil.mpr hready.free }
  have hend : (p.machine limits).frame.fn.code.size = 0 + extent is := by
    rw [Nat.zero_add]
    exact htracks.size
  have hends {Q : Step → Prop} {out : Except Fault Value × Evaluator}
      (h : (Step.next (p.machine limits)).Leads Q)
      (hQ : ∀ r, Q r → r.Matches out) : ∃ n, ((p.machine limits).run n).Matches out := by
    obtain ⟨n, hq | ⟨m, hm⟩⟩ := h
    · exact ⟨n, hQ _ hq⟩
    · exact absurd hm (hstack n m)
  have hreturn {v : Value} {σ : Store}
      (h : (Step.next (p.machine limits)).Leads ((p.joint limits).Returns 0 v σ)) :
      ∃ n, ((p.machine limits).run n).Matches (.ok v, ⟨σ, 0, limits.maxFrames⟩) := by
    refine hends h ?_
    rintro r ⟨m, rfl, hv, hlike⟩
    exact .value hv hlike
  have hrun := hrun hem hst hend
  rw [Joint.Follows, Eval.run_bind, joint] at hrun
  rw [evaluate_eq]
  cases hr : Evaluator.evalTop (p.site limits).call 0 .nil p
    (Evaluator.ofStore .empty limits.maxFrames).store with
  | ok v σ =>
      rw [hr] at hrun
      exact hreturn hrun
  | error x σ =>
      rw [hr] at hrun
      cases x with
      | returned v => exact hreturn hrun
      | fault f =>
          refine hends hrun ?_
          rintro r ⟨f', m, rfl, hf, hlike⟩
          exact .fault hf hlike

end Program

namespace Site

variable {p : Program} {limits : Limits} (hl : limits.areFeasible = true)
  (hok : (Compiler.fresh.compile p).1 = .ok ()) (hlast : p.endsInExpr = true)
  (hstack : ∀ n m, (p.machine limits).run n ≠ .fault .stackOverflow m)

include hl hok hlast hstack

/-- **The outcomes match**, if the engines agree before the first statement and each statement runs
as it is evaluated. -/
theorem Performs.program {I : SymbolTable → List Stmt → Joint → Prop}
    (hI : (p.site limits).Performs I) (hstart : I Compiler.fresh.symbols p (p.joint limits)) :
    ∃ n, ((p.machine limits).run n).Matches (p.evaluate limits) := by
  refine Program.matches_of_follows (hI.stable _ _) hstart hl hok hstack fun hem hst hend => ?_
  obtain ⟨ss, e, rfl⟩ := Program.exists_of_endsInExpr hlast
  exact hI.top .nil hem hst hend rfl

/-- **The outcomes match**, if the engines agree wherever the names of the program are kept track
of. -/
theorem Tracks.program {K : Type} {T : Tracking K} {A : SymbolTable → K → Joint → Prop} {k k' : K}
    (hT : (p.site limits).Tracks T A) (hcalls : (p.site limits).CallsAgree)
    (hp : ∀ {is d'}, Emits (.branch p) Compiler.fresh.draft 0 is d' →
      T.Passes (p.site limits) (.branch p) k (p.joint limits).store k')
    (hstart : A Compiler.fresh.symbols k (p.joint limits)) :
    ∃ n, ((p.machine limits).run n).Matches (p.evaluate limits) := by
  refine Program.matches_of_follows (hT.stable _ _) hstart hl hok hstack fun hem hst hend => ?_
  obtain ⟨ss, e, rfl⟩ := Program.exists_of_endsInExpr hlast
  exact hT.top hcalls .nil (hp (.branch hem)) hem hst hend rfl

end Site

end Marmoset
