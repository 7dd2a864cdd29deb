import Marmoset.Proofs.Discipline
import Marmoset.Proofs.EmbeddedCode
import Marmoset.Proofs.FreshPrograms
import Marmoset.Proofs.MemoryBounds
import Marmoset.Proofs.RejectedInputs
import Marmoset.Proofs.TopLevelCode
import Mathlib.Order.Monotone.Basic

/-!
# Inputs one after the other, or all in one program

A session runs each input by itself, with a new machine.  One program of all their statements is
compiled to one stream and run by one machine, which has come through the same states in between
(`Machine.CaughtUp`).  Each input of a session adds a main stream to the closures, the program adds
just one; so closures are at other places.  And each input of a session finds an empty stack, while
the program finds what its first statements have left there; so functions are taken that write their
slots before they read them.

* `Session.evalAll` — inputs one after the other.
* **`Machine.CaughtUp.eval`** — after an input of the session the machine has run the statements of
  the input.
* **`Session.evalAll_eq_batch`** — what a session comes to is what the one program comes to.
* `Session.rebinding_differs` — it is not for all programs: a parameter may stand in a `let` of its
  own name, and then a slot is read that the call has not written.
-/

namespace Marmoset

/-! ## The code that is left -/

/-- From byte `δ` on, the code is that of the programs, compiled with the names and constants of
`d`; all constants together are `pool`. -/
def Code.Remains (whole : Code) (δ : Nat) (pool : Array Constant) (d : Draft) (ps : List Program) :
    Prop :=
  ∃ before is d', whole.Reads (before ++ is) ∧ extent before = δ ∧
    Emits (.stmts ps.flatten) d δ is d' ∧ d'.constants = pool

/-- The next program by itself is a piece of the code that is left. -/
lemma Code.Remains.cons {whole piece : Code} {δ : Nat} {pool : Array Constant} {d d₁ : Draft}
    {p : Program} {ps : List Program} {is : List Instr} (h : whole.Remains δ pool d (p :: ps))
    (hem : Emits (.stmts p) d 0 is d₁) (hpiece : piece.Reads is) :
    whole.Embeds δ piece is ∧ whole.Remains (δ + extent is) pool d₁ ps ∧
      d₁.constants.toList <+: pool.toList := by
  obtain ⟨before, all, d', hreads, hbefore, hall, hpool⟩ := h
  rw [List.flatten_cons] at hall
  obtain ⟨is₁, d₂, is₂, rfl, hem₁, hem₂⟩ := hall.stmts_append
  obtain ⟨rfl, rfl⟩ := hem.moved (δ := δ) (by rwa [Nat.zero_add])
  rw [← List.append_assoc] at hreads
  rw [extent_moved] at hem₂
  refine ⟨⟨hpiece, before, is₂, hreads, hbefore⟩, ⟨_, is₂, d', hreads, ?_, hem₂, hpool⟩,
    hpool ▸ hem₂.grows.pool⟩
  rw [extent_append, extent_moved, hbefore]

/-- Where no program is left, the code is at its end. -/
lemma Code.Remains.size_eq {whole : Code} {δ : Nat} {pool : Array Constant} {d : Draft}
    (h : whole.Remains δ pool d []) : whole.size = δ := by
  obtain ⟨before, is, d', hreads, hbefore, hem, -⟩ := h
  cases hem
  rw [hreads.size, List.append_nil, hbefore]

/-! ## Places of closures -/

/-- One more closure that only the session has, behind the first `n`. -/
def skipping (ρ : Nat → Nat) (n i : Nat) : Nat :=
  if i < n then ρ i else ρ i + 1

lemma skipping_of_lt {ρ : Nat → Nat} {n i : Nat} (h : i < n) : skipping ρ n i = ρ i :=
  if_pos h

lemma skipping_add (ρ : Nat → Nat) (n k : Nat) : skipping ρ n (n + k) = ρ (n + k) + 1 :=
  if_neg (by omega)

lemma strictMono_skipping {ρ : Nat → Nat} (h : StrictMono ρ) (n : Nat) :
    StrictMono (skipping ρ n) := by
  intro i j hij
  have hlt := h hij
  unfold skipping
  split_ifs <;> omega

/-! ## Between two inputs -/

/-- An input that was run to its end. -/
lemma Session.eval_eq_ok {s s' : Session} {source : String} {p : Program} {v : Value}
    (hp : Program.ofText source = .ok p) (h : s.eval source = (.ok v, s')) :
    ∃ m, (s.compiler.compile p).1 = .ok () ∧
      ((s.withCompiler (s.compiler.compile p).2).machine (s.compiler.compile p).2.bytecode).run
        (s.withCompiler (s.compiler.compile p).2).limits.steps = .done m ∧
      v = m.lastPopped ∧
      s' = { s.withCompiler (s.compiler.compile p).2 with
        globals := m.globals, store := m.store } := by
  rcases s.compile_cases source with ⟨e, hc⟩ | ⟨p', hp', ⟨hok, hc⟩ | ⟨e, hc⟩⟩
  · rw [eval_of_error hc] at h
    cases h
  · obtain rfl : p = p' := Except.ok.inj (hp.symm.trans hp')
    have hanswer := answer_of_ok hc
    have hstate := (eval_of_ok hc).1
    rw [h] at hanswer hstate
    cases hrun :
      ((s.withCompiler (s.compiler.compile p).2).machine (s.compiler.compile p).2.bytecode).run
        (s.withCompiler (s.compiler.compile p).2).limits.steps with
    | done m =>
        rw [hrun] at hanswer hstate
        exact ⟨m, hok, rfl, Except.ok.inj hanswer, hstate⟩
    | next m | fault f m | crash m =>
        rw [hrun] at hanswer
        cases hanswer
  · rw [eval_of_error hc] at h
    cases h

namespace Machine

/-- The machine has run as much of the code as the session has run inputs. -/
structure CaughtUp (ρ : Nat → Nat) (δ : Nat) (whole : Code) (g : Nat) (n : Machine) (s : Session) :
    Prop where
  mono : StrictMono ρ
  safe : n.Safe whole Builtin.table.length g
  bounded : n.Bounded s.limits
  builtins : n.builtins = Builtin.table
  /-- Functions write their slots before they read them, and the code is that of none of them. -/
  writes : ∀ fn, Constant.function fn ∈ n.constants → fn.WritesFirst
  whole_notMem : Constant.function ⟨whole, 0, 0⟩ ∉ n.constants
  globals : s.globals = n.globals.map (Value.renamed ρ)
  sp : n.sp = 0
  frame : ∃ ref, n.frame = ⟨ref, ⟨whole, 0, 0⟩, #[], δ, 0⟩
  callers : n.callers = []
  store : n.store.Renamed ρ s.store
  /-- The next input adds a closure of its own. -/
  next : ∀ k, ρ (n.store.closures.size + k) = s.store.closures.size + 1 + k
  first : n.store.closures[0]? = some ⟨⟨whole, 0, 0⟩, #[]⟩

namespace CaughtUp

variable {ρ : Nat → Nat} {δ g : Nat} {whole : Code} {n n' : Machine} {s s' : Session}
  {limits : Limits}

/-- The machine of the next input is mirrored at its start. -/
lemma mirrors (h : n.CaughtUp ρ δ whole g s) {b : Bytecode}
    (hb : b.constants.toList <+: n.constants.toList) :
    n.Mirrors ρ δ whole b.code ((s.machine b).withStack (n.stack.map (Value.renamed ρ))) := by
  obtain ⟨ref, hframe⟩ := h.frame
  have hsize : (s.machine b).store.closures.size = s.store.closures.size + 1 := Array.size_push _
  refine ⟨hb, h.builtins.symm, h.bounded.maxFrames.symm, h.globals, rfl, h.sp.symm, ?_, ?_,
    fun k => ?_, h.first⟩
  · have hmain : Frame.Mirrors ρ δ whole b.code _ _ _ _ := .main ref s.store.closures.size 0
    rw [Nat.zero_add] at hmain
    rw [hframe, h.callers]
    exact hmain
  · refine ⟨h.store.arrays, h.store.hashes, fun i c hi hc => ?_, h.store.functions, h.store.printed⟩
    have hold := h.store.closures i c hi hc
    have hlt := (Array.getElem?_eq_some_iff.mp hold).1
    show (s.store.closures.push _)[ρ i]? = _
    rw [Array.getElem?_push_lt hlt, ← Array.getElem?_eq_getElem hlt]
    exact hold
  · show _ = (s.machine b).store.closures.size + k
    rw [hsize]
    exact h.next k

/-- It is followed from there, if the input has any code. -/
lemma follows (h : n.CaughtUp ρ δ whole g s) {b : Bytecode}
    (hb : b.constants.toList <+: n.constants.toList) {is : List Instr} (hreads : b.code.Reads is)
    (hends : EndsInDrop is) :
    n.Follows ρ δ whole b.code (s.machine b) := by
  refine ⟨h.mirrors hb, _, Session.held_machine hreads hends s, ?_, fun _ hi => hi.elim⟩
  rw [Array.size_map, h.bounded.size]
  exact Array.size_replicate.symm

/-- The machine has caught up again when it mirrors an input at its end. -/
lemma advance (h : n.CaughtUp ρ δ whole g s) {j : Nat} (hj : n.run j = .next n') {piece : Code}
    {m : Machine} {is : List Instr}
    (hm : n'.Mirrors ρ δ whole piece (m.withStack (n'.stack.map (Value.renamed ρ))))
    (hcallers : m.callers = []) (hip : m.frame.ip = extent is) (hsp : m.sp = 0) {c : Compiler}
    (hs : s' = { s.withCompiler c with globals := m.globals, store := m.store }) :
    n'.CaughtUp (skipping ρ n'.store.closures.size) (δ + extent is) whole g s' ∧
      n'.lastPopped.renamed (skipping ρ n'.store.closures.size) = n'.lastPopped.renamed ρ := by
  subst hs
  have hsafe := h.safe.run j
  have hconst := n.constants_run j
  have hbuiltins := n.builtins_run j
  have hbounded := h.bounded.run j
  rw [hj] at hsafe hconst hbuiltins hbounded
  have hn' : n'.Safe whole Builtin.table.length g := hsafe
  have hskip {v : Value} (hv : v.Sane n'.constants n'.store.closures) :
      v.renamed (skipping ρ n'.store.closures.size) = v.renamed ρ :=
    Value.renamed_congr (fun _ => skipping_of_lt) (Mirrors.below_of_sane hv)
  obtain ⟨hcallers', ref, hframe⟩ := hm.calls.top_level hcallers
  refine ⟨⟨strictMono_skipping h.mono _, hn', hbounded, hbuiltins.trans h.builtins, ?_, ?_, ?_,
    hm.sp.symm.trans hsp, ⟨ref, ?_⟩, hcallers', ?_, fun k => ?_, hm.first⟩, hskip (hn'.sane_getD _)⟩
  · exact fun fn hfn => h.writes fn (hconst ▸ hfn)
  · exact fun hmem => h.whole_notMem (hconst ▸ hmem)
  · show m.globals = _
    rw [show m.globals = _ from hm.globals]
    exact Array.map_congr_left fun v hv => (hskip (hn'.tidy.globals v hv)).symm
  · rw [hframe, Nat.add_comm δ, ← hip]
    rfl
  · exact Store.Renamed.congr hm.store (hn'.tidy.store.mono fun _ => Mirrors.below_of_sane)
      fun _ => skipping_of_lt
  · rw [skipping_add, hm.next]
    show m.store.closures.size + k + 1 = m.store.closures.size + 1 + k
    omega

/-- While the machine of the next input runs to its end, this one comes behind the piece.  If the
input has no code, both stay where they are. -/
lemma run_piece (h : n.CaughtUp ρ δ whole g s) {b : Bytecode}
    (hb : b.constants.toList <+: n.constants.toList) {is : List Instr}
    (hembeds : whole.Embeds δ b.code is) (hstays : ∀ i ∈ is, i.returns = false)
    (hdrops : is = [] ∨ EndsInDrop is) {g' : Nat}
    (hm : (s.machine b).Safe b.code Builtin.table.length g') {fuel : Nat} {m : Machine}
    (hrun : (s.machine b).run fuel = .done m) :
    ∃ j n', n.run j = .next n' ∧
      n'.Mirrors ρ δ whole b.code (m.withStack (n'.stack.map (Value.renamed ρ))) ∧
      m.Safe b.code Builtin.table.length g' ∧ m.callers = [] ∧ m.frame.ip = extent is ∧
      (EndsInDrop is → m.lastPopped = n'.lastPopped.renamed ρ) := by
  rcases hdrops with rfl | hends
  -- without code the machine of the input is done at once
  · cases fuel with
    | zero => cases hrun
    | succ fuel =>
        rw [run, step_at_end rfl (Nat.le_of_eq hembeds.piece.size)] at hrun
        cases hrun
        exact ⟨0, n, rfl, h.mirrors hb, hm, rfl, rfl, by simp [EndsInDrop]⟩
  · obtain ⟨j, n', hj, hfollows, hsafe, hcallers, hip⟩ :=
      (h.follows hb hembeds.piece hends).run h.mono.injective
        ⟨hembeds, hstays, hends, h.writes, h.whole_notMem⟩ h.safe hm hrun
    refine ⟨j, n', hj, hfollows.mirrors, hsafe, hcallers, hip,
      fun _ => hfollows.lastPopped hcallers ?_⟩
    have hframes := hsafe.frames
    rw [hcallers] at hframes
    rw [hframes.1, hip]
    exact hembeds.piece.size.symm

/-- **After an input of the session the machine has run the statements of the input.** -/
theorem eval (h : n.CaughtUp ρ δ whole g s) (hs : s.InOrder limits) (hl : limits.areFeasible = true)
    {source : String} {p : Program} {ps : List Program} {v : Value}
    (hp : Program.ofText source = .ok p) (heval : s.eval source = (.ok v, s'))
    (hr : Stmt.anyReturns p = false)
    (hrem : whole.Remains δ n.constants s.compiler.draft (p :: ps)) :
    ∃ j n' ρ' δ', n.run j = .next n' ∧ n'.CaughtUp ρ' δ' whole g s' ∧
      whole.Remains δ' n'.constants s'.compiler.draft ps ∧
      (p.endsInExpr = true → v = n'.lastPopped.renamed ρ') := by
  obtain ⟨m, hok, hrun, hv, hs'⟩ := Session.eval_eq_ok hp heval
  obtain ⟨is, hem, htracks, -⟩ := hs.ready.emits_of_ok .empty hok
  set c := (s.compiler.compile p).2
  have hpiece : c.bytecode.code.Reads is := ⟨htracks.code, htracks.fits⟩
  obtain ⟨hembeds, hrem', hpool⟩ := hrem.cons hem hpiece
  obtain ⟨j, n', hj, hm, hsafe, hcallers, hip, hvalue⟩ :=
    h.run_piece hpool hembeds (hem.returns_eq_false hr) hem.drops (hs.safe_load hl hok) hrun
  have hsp : m.sp = 0 := hsafe.sp_eq_zero (by rwa [List.append_nil]) hem.balanced hcallers hip
  obtain ⟨hcaught, hlast⟩ := h.advance hj hm hcallers hip hsp hs'
  have hconst := n.constants_run j
  rw [hj] at hconst
  refine ⟨j, n', _, _, hj, hcaught, ?_, fun hends => ?_⟩
  · rw [show n'.constants = n.constants from hconst, hs']
    exact hrem'
  · obtain ⟨ss, e, rfl⟩ := Program.exists_of_endsInExpr hends
    obtain ⟨init, rfl⟩ := hem.ends_in_pop
    rw [hv, hlast, hvalue ⟨init, .pop, rfl, rfl, Nat.one_pos⟩]

end CaughtUp

end Machine

/-! ## All inputs -/

/-- The inputs one after the other, up to the first that fails.  The value is that of the last
input. -/
def Session.evalAll (s : Session) : List String → Except SessionError Value × Session
  | [] => (.ok .nil, s)
  | [source] => s.eval source
  | source :: next :: sources =>
    match s.eval source with
    | (.ok _, s) => s.evalAll (next :: sources)
    | (.error e, s) => (.error e, s)

lemma mapM_ofText_cons {source : String} {sources : List String} {programs : List Program}
    (h : (source :: sources).mapM Program.ofText = .ok programs) :
    ∃ p ps, Program.ofText source = .ok p ∧ sources.mapM Program.ofText = .ok ps ∧
      programs = p :: ps := by
  rw [List.mapM_cons] at h
  cases hp : Program.ofText source with
  | error e =>
      rw [hp] at h
      cases h
  | ok p =>
      rw [hp] at h
      cases hps : sources.mapM Program.ofText with
      | error e =>
          rw [hps] at h
          cases h
      | ok ps =>
          rw [hps] at h
          exact ⟨p, ps, rfl, rfl, (Except.ok.inj h).symm⟩

/-- After all inputs of the session the machine has run all statements. -/
lemma Machine.CaughtUp.evalAll {ρ : Nat → Nat} {δ g : Nat} {whole : Code} {n : Machine}
    {s s' : Session} {limits : Limits} {sources : List String} {programs : List Program} {v : Value}
    (h : n.CaughtUp ρ δ whole g s) (hs : s.InOrder limits) (hl : limits.areFeasible = true)
    (hp : sources.mapM Program.ofText = .ok programs) (heval : s.evalAll sources = (.ok v, s'))
    (hr : ∀ p ∈ programs, Stmt.anyReturns p = false)
    (hlast : programs.getLast?.any Program.endsInExpr = true)
    (hrem : whole.Remains δ n.constants s.compiler.draft programs) :
    ∃ j n' ρ', n.run j = .next n' ∧ n'.CaughtUp ρ' whole.size whole g s' ∧
      v = n'.lastPopped.renamed ρ' := by
  induction sources generalizing n s ρ δ programs with
  | nil =>
      cases hp
      cases hlast
  | cons source sources ih =>
      obtain ⟨p, ps, hparse, hrest, rfl⟩ := mapM_ofText_cons hp
      cases sources with
      | nil =>
          cases hrest
          obtain ⟨j, n', ρ', δ', hj, hcaught, hrem', hv⟩ :=
            h.eval hs hl hparse heval (hr p (by simp)) hrem
          exact ⟨j, n', ρ', hj, hrem'.size_eq ▸ hcaught, hv hlast⟩
      | cons next sources =>
          rw [Session.evalAll] at heval
          obtain ⟨q, qs, -, -, rfl⟩ := mapM_ofText_cons hrest
          cases hfirst : s.eval source with
          | mk r s₁ =>
              rw [hfirst] at heval
              cases r with
              | error e => cases heval
              | ok w =>
                  obtain ⟨j, n₁, ρ₁, δ₁, hj, hcaught, hrem', -⟩ :=
                    h.eval hs hl hparse hfirst (hr p (by simp)) hrem
                  have hs₁ := hs.eval hl source
                  rw [hfirst] at hs₁
                  obtain ⟨j', n', ρ', hj', hn'⟩ :=
                    ih hcaught hs₁ hrest heval
                      (fun p hp => hr p (List.mem_cons_of_mem _ hp)) hlast hrem'
                  refine ⟨j + j', n', ρ', ?_, hn'⟩
                  rw [run_add, hj]
                  exact hj'

/-- Code that does not return is that of no function. -/
lemma Machine.Safe.main_notMem {main : Code} {k g : Nat} {m : Machine} {is : List Instr}
    (h : m.Safe main k g) (hreads : main.Reads is) (hstays : ∀ i ∈ is, i.returns = false) :
    Constant.function ⟨main, 0, 0⟩ ∉ m.constants := by
  intro hmem
  obtain ⟨is', -, hreads', -, ⟨init, i, rfl, hi⟩, -⟩ := (h.functions _ hmem).code
  obtain rfl := hreads.unique hreads'
  have hstay := hstays i (by simp)
  rw [hi] at hstay
  cases hstay

section

variable {limits : Limits} (hl : limits.areFeasible = true) {programs : List Program}
  (hstays : ∀ p ∈ programs, Stmt.anyReturns p = false)
  (hok : (Compiler.fresh.compile programs.flatten).1 = .ok ())
  (hwrites : ∀ fn, Constant.function fn ∈ (Compiler.fresh.compile programs.flatten).2.constants →
    fn.WritesFirst)

include hl hstays hok hwrites

/-- Before its first statement a machine has caught up with a new session. -/
lemma Program.caughtUp :
    (machine programs.flatten limits).CaughtUp id 0
      (Compiler.fresh.compile programs.flatten).2.bytecode.code
      (Compiler.fresh.compile programs.flatten).2.symbols.outermost.definitions
        (Session.start limits) ∧
    (Compiler.fresh.compile programs.flatten).2.bytecode.code.Remains 0
      (machine programs.flatten limits).constants
      Compiler.fresh.draft programs := by
  have hin : (Session.start limits).InOrder limits := Session.Reached.start.inOrder hl
  have hfresh : Compiler.fresh.Ready Builtin.table.length := Compiler.Reached.withBuiltins.ready
  simp only [Stmt.anyReturns_eq_false] at hstays
  obtain ⟨is, hem, htracks, -⟩ := hfresh.emits_of_ok .empty hok
  set c := (Compiler.fresh.compile programs.flatten).2
  have hreads : c.bytecode.code.Reads is := ⟨htracks.code, htracks.fits⟩
  have hsafe : (machine programs.flatten limits).Safe c.bytecode.code Builtin.table.length
      c.symbols.outermost.definitions := hin.safe_load hl hok
  have hnone :=
    hem.returns_eq_false (Stmt.anyReturns_eq_false.mpr (List.forall_mem_flatten.mpr hstays))
  refine ⟨⟨strictMono_id, hsafe, Machine.bounded_load _ _ _ _ _, rfl, hwrites,
    hsafe.main_notMem hreads hnone, Array.map_empty.symm, rfl, ⟨0, rfl⟩, rfl, ?_,
    fun k => rfl, rfl⟩,
    [], is, _, hreads, rfl, hem, rfl⟩
  refine ⟨Array.map_empty.symm, Array.map_empty.symm, fun i c hi hc => ?_, rfl, .same _⟩
  have hlt : i < 1 := (Array.getElem?_eq_some_iff.mp hc).1
  omega

/-- **What a session comes to is what one program of all its inputs comes to**, if the inputs do not
return and the functions of the program write their slots before they read them. -/
theorem Session.evalAll_eq_batch {sources : List String}
    (hp : sources.mapM Program.ofText = .ok programs) {v : Value} {s : Session}
    (heval : (Session.start limits).evalAll sources = (.ok v, s))
    (hlast : programs.getLast?.any Program.endsInExpr = true) :
    ∃ n m ρ, (Program.machine programs.flatten limits).run n = .done m ∧ StrictMono ρ ∧
      v = m.lastPopped.renamed ρ ∧
      s.globals = m.globals.map (Value.renamed ρ) ∧ m.store.Renamed ρ s.store := by
  obtain ⟨hstart, hrem⟩ := Program.caughtUp hl hstays hok hwrites
  obtain ⟨j, m, ρ, hj, hm, hv⟩ :=
    hstart.evalAll (Session.Reached.start.inOrder hl) hl hp heval hstays hlast hrem
  obtain ⟨ref, hframe⟩ := hm.frame
  have hend : m.step = .done m := Machine.step_at_end hm.callers (by rw [hframe])
  refine ⟨j + 1, m, ρ, ?_, hm.mono, hv, hm.globals, hm.store⟩
  rw [Machine.run_add, hj]
  show m.run 1 = .done m
  rw [Machine.run, hend]

end

/-- Whether the expression, if it is a function, binds no names but those of its parameters. -/
def Expr.bindsParamNames : Expr → Bool
  | .function _ params body => (Stmt.mentionsAll body).binds.all fun n => params.contains n
  | _ => true

namespace Session

/-- Inputs of which the last one comes to a function that another one has defined.  The function
binds a name of its own and the name of its parameter anew; an input without code stands in
between. -/
def stepping : List String :=
  ["let n = 1; [5, 6, 7, 8]",
    "let step = fn(x) { let y = x + n; if (y > 2) { let x = 2; x + y } else { y } }", "",
    "if (step(n) > 1) { puts(step(2)); step } else { 0 }"]

set_option maxRecDepth 100000 in
theorem stepping_equals_batch :
    ∃ programs s n m ρ, stepping.mapM Program.ofText = .ok programs ∧
      (start ⟨8, 4, 100⟩).evalAll stepping = (.ok (.closure 2), s) ∧
      (Program.machine programs.flatten ⟨8, 4, 100⟩).run n = .done m ∧ StrictMono ρ ∧
      .closure 2 = m.lastPopped.renamed ρ ∧ s.globals = m.globals.map (Value.renamed ρ) ∧
      m.store.Renamed ρ s.store := by
  have htest : (stepping.mapM Program.ofText).toOption.any (fun ps =>
      ps.all (fun p => !Stmt.anyReturns p) && ps.getLast?.any Program.endsInExpr &&
      decide ((Compiler.fresh.compile ps.flatten).1 = .ok ()) &&
      (Compiler.fresh.compile ps.flatten).2.constants.all Constant.isSettled) = true := by
    decide +kernel
  have heval : (start ⟨8, 4, 100⟩).evalAll stepping =
      (.ok (.closure 2), ((start ⟨8, 4, 100⟩).evalAll stepping).2) :=
    Prod.ext (by decide +kernel) rfl
  cases hp : stepping.mapM Program.ofText with
  | error e =>
      rw [hp] at htest
      cases htest
  | ok programs =>
      rw [hp] at htest
      simp only [Except.toOption, Option.any_some, Bool.and_eq_true, List.all_eq_true,
        Bool.not_eq_true', decide_eq_true_eq] at htest
      obtain ⟨⟨⟨hstays, hlast⟩, hok⟩, hsettled⟩ := htest
      have hwrites (fn : CompiledFunction)
          (hfn : Constant.function fn ∈ (Compiler.fresh.compile programs.flatten).2.constants) :
          fn.WritesFirst :=
        CompiledFunction.writesFirst_of_isSettled (Array.all_eq_true'.mp hsettled _ hfn)
      obtain ⟨n, m, ρ, h⟩ := evalAll_eq_batch (by decide) hstays hok hwrites hp heval hlast
      exact ⟨programs, _, n, m, ρ, rfl, heval, h⟩

set_option maxRecDepth 100000 in
/-- A function may bind the name of a parameter anew, and read it before it has a value.  In the one
program the slot has something that an earlier statement left there. -/
theorem rebinding_differs :
    ∃ programs s,
      ["let f = fn(x) { let x = x; x }; [5, 6, 7]", "f(1)"].mapM Program.ofText = .ok programs ∧
      (∀ p ∈ programs, Stmt.anyReturns p = false ∧
        Stmt.everyOf Expr.bindsParamNames (fun _ => true) p = true) ∧
      programs.getLast?.any Program.endsInExpr = true ∧
      (start ⟨8, 4, 100⟩).evalAll ["let f = fn(x) { let x = x; x }; [5, 6, 7]", "f(1)"] =
        (.ok .nil, s) ∧
      (Compiler.fresh.compile programs.flatten).1 = .ok () ∧
      ((Program.machine programs.flatten ⟨8, 4, 100⟩).run 100).value? = some (.integer 7) := by
  have htest : (["let f = fn(x) { let x = x; x }; [5, 6, 7]", "f(1)"].mapM
      Program.ofText).toOption.any (fun ps =>
      ps.all (fun p => !Stmt.anyReturns p && Stmt.everyOf Expr.bindsParamNames (fun _ => true) p) &&
      ps.getLast?.any Program.endsInExpr &&
      decide ((Compiler.fresh.compile ps.flatten).1 = .ok ()) &&
      decide (((Program.machine ps.flatten ⟨8, 4, 100⟩).run 100).value? =
        some (.integer 7))) = true := by
    decide +kernel
  have heval : ((start ⟨8, 4, 100⟩).evalAll
      ["let f = fn(x) { let x = x; x }; [5, 6, 7]", "f(1)"]).1 = .ok .nil := by
    decide +kernel
  cases hp : ["let f = fn(x) { let x = x; x }; [5, 6, 7]", "f(1)"].mapM Program.ofText with
  | error e =>
      rw [hp] at htest
      cases htest
  | ok programs =>
      rw [hp] at htest
      simp only [Except.toOption, Option.any_some, Bool.and_eq_true, List.all_eq_true,
        Bool.not_eq_true', decide_eq_true_eq] at htest
      obtain ⟨⟨⟨hall, hlast⟩, hok⟩, hvalue⟩ := htest
      exact ⟨programs, _, rfl, hall, hlast, Prod.ext heval rfl, hok, hvalue⟩

end Session

end Marmoset
