import Marmoset.Proofs.SafeRuns
import Marmoset.Proofs.WellFormedCode
import Marmoset.Session

/-!
# Sessions never go wrong

`Session.Reached` are the sessions that come about when inputs are compiled and run one after the
other, with whatever outcome.  What is handed on from one input to the next is in order in each of
them (`Session.Reached.inOrder`), so every machine that a session sets up is in order from its first
step on (`Session.InOrder.safe_load`), and closures that were made by earlier inputs stay good.

* **`Session.Reached.eval_never_goes_wrong`** — no input ends in a fault that would mean that the
  code is broken, and in every state of the machine on the way each instruction finds its operands
  above the floor of its call.
-/

namespace Marmoset

namespace Machine

/-- The lowest slot that instructions of the innermost call may pop. -/
def floor (m : Machine) : Nat :=
  if m.callers = [] then 0 else m.frame.base + m.frame.fn.locals.toNat

/-- The machine is at the end of the program, or stands at an instruction that finds what it takes
above the floor and whose slot is one of the call's own. -/
def Steady (m : Machine) : Prop :=
  (m.callers = [] ∧ m.frame.ip = m.frame.fn.code.size) ∨
  ∃ before i after, m.frame.fn.code.Consists (before ++ i :: after) ∧ m.frame.ip = extent before ∧
    m.floor + i.takes ≤ m.sp ∧
    (i.op = .getLocal ∨ i.op = .setLocal → i.first < m.frame.fn.locals.toNat)

/-- No function stands by itself on the stack or in the globals. -/
def NoBareFunctions (m : Machine) : Prop :=
  (∀ v ∈ m.stack, v.kind ≠ .compiled) ∧ ∀ v ∈ m.globals, v.kind ≠ .compiled

lemma Tidy.noBareFunctions {m : Machine} (h : m.Tidy) : m.NoBareFunctions := by
  have key {v : Value} (hv : v.Sane m.constants m.store.closures) : v.kind ≠ .compiled := by
    cases v with
    | compiled _ _ => cases hv
    | _ => simp [Value.kind]
  exact ⟨fun v hv => key (h.stack v hv), fun v hv => key (h.globals v hv)⟩

section

variable {main : Code} {k g : Nat} {m : Machine}

lemma Safe.floor_eq (h : m.Safe main k g) : m.floor = m.frame.base + m.frame.fn.locals.toNat := by
  have hframes := h.frames
  unfold floor
  split_ifs with hc
  · rw [hc] at hframes
    rw [hframes.1, hframes.2.1]
    rfl
  · rfl

lemma Safe.steady (h : m.Safe main k g) : m.Steady := by
  obtain ⟨before, after, hs⟩ := h.frames.stands
  cases after with
  | nil =>
      refine .inl ⟨?_, ?_⟩
      · by_contra hne
        exact hs.inCode (by simpa using hne) rfl
      · rw [hs.ip, hs.reads.size, List.append_nil]
  | cons i rest =>
      refine .inr ⟨before, i, rest, hs.reads.consists, hs.ip, ?_, fun hop => ?_⟩
      · rw [h.floor_eq]
        exact hs.takes_le
      · have hr := hs.instr_inRange
        unfold Instr.InRange at hr
        rcases hop with hop | hop <;> rw [hop] at hr <;> exact hr

/-- Where the code so far takes from the stack what it puts there, the stack is empty. -/
lemma Safe.sp_eq_zero (h : m.Safe main k g) {is js : List Instr} (hreads : main.Reads (is ++ js))
    (hleaves : Leaves true 0 is 0) (hc : m.callers = []) (hip : m.frame.ip = extent is) :
    m.sp = 0 := by
  have hframes := h.frames
  rw [hc] at hframes
  obtain ⟨hfn, hbase, -, before, after, hs⟩ := hframes
  have hbytes := hs.reads
  rw [hfn] at hbytes
  have hbefore : before = is := append_inj_of_extent (hbytes.unique hreads) (hs.ip.symm.trans hip)
  rw [hs.top, hfn, hbase, hbefore, (hleaves 0).1]
  rfl

end

end Machine

/-- Calls of functions are never at the end of their code. -/
lemma Frames.ip_lt {main : Code} {pool : Array Constant} {k g top : Nat} {closures : Array Closure}
    {f : Frame} {callers : List Frame} (h : Frames main pool k g closures f callers top) :
    ∀ c ∈ (f :: callers).dropLast, c.ip < c.fn.code.size := by
  induction callers generalizing f top with
  | nil => simp
  | cons c cs ih =>
      obtain ⟨-, -, -, -, ⟨before, after, hs⟩, hrest⟩ := h
      intro x hx
      rcases List.mem_cons.mp hx with rfl | hx
      · obtain ⟨i, rest, rfl⟩ := List.exists_cons_of_ne_nil (hs.inCode rfl)
        have hpos := i.size_pos
        rw [hs.ip, hs.reads.size, extent_append, extent_cons]
        omega
      · exact ih hrest x hx

/-! ## Programs in parts -/

lemma Stmt.compileAll_append (xs ys : List Stmt) :
    Stmt.compileAll (xs ++ ys) = (do Stmt.compileAll xs; Stmt.compileAll ys) := by
  induction xs with
  | nil =>
      rw [List.nil_append, Stmt.compileAll, pure_bind]
  | cons s ss ih =>
      rw [List.cons_append, Stmt.compileAll, Stmt.compileAll, ih, bind_assoc]

namespace Compiler

/-- A program that can be compiled is compiled piece by piece. -/
lemma compile_append {c : Compiler} {xs ys : List Stmt} (ok : (c.compile (xs ++ ys)).1 = .ok ()) :
    (c.compile xs).1 = .ok () ∧ c.compile (xs ++ ys) = (c.compile xs).2.compile ys := by
  have hrun : Stmt.compileAll (xs ++ ys) c =
      EStateM.bind (Stmt.compileAll xs) (fun _ => Stmt.compileAll ys) c := by
    rw [Stmt.compileAll_append]
    rfl
  unfold EStateM.bind at hrun
  unfold compile at ok ⊢
  rw [hrun] at ok ⊢
  cases hxs : Stmt.compileAll xs c with
  | ok u c' => exact ⟨rfl, rfl⟩
  | error e c' =>
      rw [hxs] at ok
      cases ok

/-- The code of the first statements of a program stands at the start of its code, and takes from
the stack what it puts there. -/
lemma Ready.reads_append {k : Nat} {c : Compiler} {xs ys : List Stmt} (h : c.Ready k)
    (hb : c.buffer.Tracks []) (ok : (c.compile (xs ++ ys)).1 = .ok ()) :
    ∃ is js, (c.compile xs).2.bytecode.code.size = extent is ∧ Leaves true 0 is 0 ∧
      (c.compile (xs ++ ys)).2.bytecode.code.Reads (is ++ js) := by
  obtain ⟨hxs, heq⟩ := compile_append ok
  obtain ⟨is, hem, htracks, hready⟩ := h.emits_of_ok hb hxs
  obtain ⟨js, -, htracks', -⟩ := hready.emits_of_ok htracks (heq ▸ ok)
  rw [← heq] at htracks'
  exact ⟨is, js, htracks.size, hem.balanced, htracks'.code, htracks'.fits⟩

end Compiler

/-! ## Sessions -/

namespace Session

/-- A session with these limits, after any inputs. -/
inductive Reached (limits : Limits) : Session → Prop where
  | start : Reached limits (start limits)
  | compile {s : Session} (h : Reached limits s) (source : String) :
      Reached limits (s.compile source).2
  | eval {s : Session} (h : Reached limits s) (source : String) : Reached limits (s.eval source).2

/-- The compiler that a session sets up for an input. -/
def compiler (s : Session) : Compiler :=
  .ofState s.symbols s.constants

/-- The session with the names and constants of a compiler. -/
def withCompiler (s : Session) (c : Compiler) : Session :=
  { s with symbols := c.symbols, constants := c.constants }

/-- The outcomes of compiling an input: it is not a program, or its statements are compiled with
either outcome. -/
lemma compile_cases (s : Session) (source : String) :
    (∃ e, s.compile source = (.error (.source e), s)) ∨
    ∃ p, Program.ofText source = .ok p ∧
      (((s.compiler.compile p).1 = .ok () ∧ s.compile source =
          (.ok (s.compiler.compile p).2.bytecode, s.withCompiler (s.compiler.compile p).2)) ∨
        ∃ e, s.compile source =
          (.error (.compile e), s.withCompiler (s.compiler.compile p).2)) := by
  unfold Session.compile compiler
  cases hp : Program.ofText source with
  | error e => exact .inl ⟨_, rfl⟩
  | ok p =>
      refine .inr ⟨p, rfl, ?_⟩
      dsimp only
      generalize (Compiler.ofState s.symbols s.constants).compile p = outcome
      obtain ⟨r, c⟩ := outcome
      cases r with
      | ok _ => exact .inl ⟨rfl, rfl⟩
      | error e => exact .inr ⟨_, rfl⟩

/-- What was read and written where an input is compiled without an error. -/
lemma exists_of_compile {s s' : Session} {source : String} {b : Bytecode}
    (h : s.compile source = (.ok b, s')) :
    ∃ p, Program.ofText source = .ok p ∧ (s.compiler.compile p).1 = .ok () ∧
      b = (s.compiler.compile p).2.bytecode ∧ s' = s.withCompiler (s.compiler.compile p).2 := by
  rcases s.compile_cases source with ⟨e, he⟩ | ⟨p, hp, ⟨hok, he⟩ | ⟨e, he⟩⟩
  · rw [h] at he
    cases he
  · rw [h] at he
    cases he
    exact ⟨p, hp, hok, rfl, rfl⟩
  · rw [h] at he
    cases he

/-- The bytecode of an input comes with all constants of the session. -/
lemma constants_of_compile {s s' : Session} {source : String} {b : Bytecode}
    (h : s.compile source = (.ok b, s')) :
    b.constants = s'.constants := by
  obtain ⟨p, -, -, rfl, rfl⟩ := exists_of_compile h
  rfl

/-- The machine that a session sets up for compiled code. -/
def machine (s : Session) (b : Bytecode) : Machine :=
  .load b s.globals s.limits Builtin.table s.store

lemma eval_of_error {s s' : Session} {source : String} {e : SessionError}
    (h : s.compile source = (.error e, s')) :
    s.eval source = (.error e, s') := by
  rw [Session.eval, h]

/-- An input that can be compiled is run, and the globals and the store are those of the machine
afterwards. -/
lemma eval_of_ok {s s' : Session} {source : String} {b : Bytecode}
    (h : s.compile source = (.ok b, s')) :
    (s.eval source).2 = { s' with
      globals := ((s'.machine b).run s'.limits.steps).machine.globals
      store := ((s'.machine b).run s'.limits.steps).machine.store } ∧
    ∀ f, (s.eval source).1 = .error (.fault f) →
    ∃ m, (s'.machine b).run s'.limits.steps = .fault f m := by
  rw [Session.eval, h]
  dsimp only
  simp only [← machine.eq_1]
  generalize (s'.machine b).run s'.limits.steps = r
  cases r with
  | next m => exact ⟨rfl, fun f hf => by cases hf⟩
  | done m => exact ⟨rfl, fun f hf => by cases hf⟩
  | fault g m =>
      refine ⟨rfl, fun f hf => ?_⟩
      cases hf
      exact ⟨m, rfl⟩
  | crash m => exact ⟨rfl, fun f hf => by cases hf⟩

/-- A run changes neither names nor constants. -/
lemma compiler_eval (s : Session) (source : String) :
    (s.eval source).2.compiler = (s.compile source).2.compiler := by
  cases hc : s.compile source with
  | mk r s' =>
      cases r with
      | error e => rw [eval_of_error hc]
      | ok b =>
          rw [(eval_of_ok hc).1]
          rfl

/-- What a session hands on is in order. -/
structure InOrder (limits : Limits) (s : Session) : Prop where
  limits : s.limits = limits
  good : Draft.Good Builtin.table.length ⟨s.symbols, s.constants⟩
  global : s.symbols.outer = []
  globals : ∀ v ∈ s.globals, v.Sane s.constants s.store.closures
  store : s.store.All (Value.Sane s.constants s.store.closures)

namespace InOrder

variable {limits : Limits} {s s' : Session} {b : Bytecode} {source : String}

lemma ready (h : s.InOrder limits) : s.compiler.Ready Builtin.table.length :=
  ⟨h.good, rfl, h.global, [], .empty⟩

lemma compile (h : s.InOrder limits) (source : String) : (s.compile source).2.InOrder limits := by
  have key (p : Program) : (s.withCompiler (s.compiler.compile p).2).InOrder limits := by
    obtain ⟨hready, hp⟩ : (s.compiler.compile p).2.Ready Builtin.table.length ∧
        s.constants.toList <+: (s.compiler.compile p).2.constants.toList := by
      rcases h.ready.compile_cases .empty p with ⟨is, -, hem, -, hready⟩ | ⟨e, -, hp, hready⟩
      · exact ⟨hready, hem.grows.pool⟩
      · exact ⟨hready, hp⟩
    exact ⟨h.limits, hready.good, hready.global,
      fun v hv => (h.globals v hv).mono hp List.prefix_rfl,
      h.store.mono fun _ hv => hv.mono hp List.prefix_rfl⟩
  rcases s.compile_cases source with ⟨e, he⟩ | ⟨p, -, ⟨-, heq⟩ | ⟨e, heq⟩⟩
  · rw [he]
    exact h
  · rw [heq]
    exact key p
  · rw [heq]
    exact key p

/-- The machine that a session sets up for a program is in order. -/
lemma safe_load (h : s.InOrder limits) (hl : limits.areFeasible = true) {p : Program}
    (hok : (s.compiler.compile p).1 = .ok ()) :
    ((s.withCompiler (s.compiler.compile p).2).machine (s.compiler.compile p).2.bytecode).Safe
      (s.compiler.compile p).2.bytecode.code Builtin.table.length
      (s.compiler.compile p).2.symbols.outermost.definitions := by
  obtain ⟨is, hem, htracks, hready⟩ := h.ready.emits_of_ok .empty hok
  set c := (s.compiler.compile p).2
  have hmono {v : Value} (hv : v.Sane s.constants s.store.closures) :
      v.Sane c.constants (s.store.closures.push ⟨⟨c.bytecode.code, 0, 0⟩, #[]⟩) := by
    refine hv.mono hem.grows.pool ?_
    rw [Array.toList_push]
    exact List.prefix_append _ _
  refine ⟨⟨?_, ?_, ?_⟩, hready.good.pool, rfl, ?_, Nat.zero_le _, rfl, rfl, rfl, [], is, ?_⟩
  · intro v hv
    rw [(Array.mem_replicate.mp hv).2]
    trivial
  · exact fun v hv => hmono (h.globals v hv)
  · exact ((h.store.reserve _).mono fun _ => hmono).newClosure (by simp)
  · have hsize : limits.stackSize * 24 < 0x8000000000000000 := of_decide_eq_true hl
    show (Array.replicate s.limits.stackSize Value.nil).size + 256 < _
    rw [Array.size_replicate, h.limits]
    omega
  · have hrange := (hem.good h.ready.good).2
    rw [hready.room] at hrange
    exact ⟨⟨htracks.code, htracks.fits⟩, rfl, rfl, (hem.balanced 0).2, hrange, by simp, by simp⟩

/-- The machine that a session sets up for an input is in order. -/
lemma safe_machine (h : s.InOrder limits) (hl : limits.areFeasible = true)
    (hs : s.compile source = (.ok b, s')) :
    (s'.machine b).Safe b.code Builtin.table.length s'.symbols.outermost.definitions := by
  obtain ⟨p, -, hok, rfl, rfl⟩ := exists_of_compile hs
  exact h.safe_load hl hok

/-- An input may fail, but not because its code is broken. -/
lemma isInternal_eq_false (h : s.InOrder limits) (hl : limits.areFeasible = true) {f : Fault}
    (hf : (s.eval source).1 = .error (.fault f)) : f.isInternal = false := by
  rcases s.compile_cases source with ⟨e, hc⟩ | ⟨p, -, ⟨-, hc⟩ | ⟨e, hc⟩⟩
  · rw [eval_of_error hc] at hf
    cases hf
  · obtain ⟨m, hm⟩ := (eval_of_ok hc).2 f hf
    have hrun := (h.safe_machine hl hc).run (s.withCompiler (s.compiler.compile p).2).limits.steps
    rw [hm] at hrun
    exact hrun.1
  · rw [eval_of_error hc] at hf
    cases hf

/-- Between two statements of an input the stack is empty. -/
lemma sp_eq_zero (h : s.InOrder limits) (hs : s.compile source = (.ok b, s')) {xs ys : List Stmt}
    (hp : Program.ofText source = .ok (xs ++ ys)) {k g : Nat} {m : Machine} (hm : m.Safe b.code k g)
    (hc : m.callers = []) (hip : m.frame.ip = (s.compiler.compile xs).2.bytecode.code.size) :
    m.sp = 0 := by
  obtain ⟨p, hp', hok, rfl, rfl⟩ := exists_of_compile hs
  obtain rfl : xs ++ ys = p := Except.ok.inj (hp.symm.trans hp')
  obtain ⟨is, js, hsize, hleaves, hreads⟩ := h.ready.reads_append .empty hok
  exact hm.sp_eq_zero hreads hleaves hc (hip.trans hsize)

lemma eval (h : s.InOrder limits) (hl : limits.areFeasible = true) (source : String) :
    (s.eval source).2.InOrder limits := by
  have hs := h.compile source
  cases hc : s.compile source with
  | mk r s' =>
      rw [hc] at hs
      cases r with
      | error e =>
          rw [eval_of_error hc]
          exact hs
      | ok b =>
          rw [(eval_of_ok hc).1]
          have htidy := ((h.safe_machine hl hc).run s'.limits.steps).tidy
          have hpool := (s'.machine b).constants_run s'.limits.steps
          rw [show (s'.machine b).constants = s'.constants from constants_of_compile hc] at hpool
          have hglobals := htidy.globals
          have hstore := htidy.store
          rw [hpool] at hglobals hstore
          exact ⟨hs.limits, hs.good, hs.global, hglobals, hstore⟩

end InOrder

lemma Reached.inOrder {limits : Limits} {s : Session} (h : Reached limits s)
    (hl : limits.areFeasible = true) :
    s.InOrder limits := by
  induction h with
  | start =>
      have hready : Compiler.fresh.Ready Builtin.table.length := Compiler.Reached.withBuiltins.ready
      exact ⟨rfl, hready.good, hready.global, by simp [Session.start],
        by simp [Session.start, Store.empty],
        by simp [Session.start, Store.empty], by simp [Session.start, Store.empty]⟩
  | compile _ source ih => exact ih.compile source
  | eval _ source ih => exact ih.eval hl source

/-- **Compiled code never goes wrong.** -/
theorem Reached.eval_never_goes_wrong {limits : Limits} {s : Session} (h : Reached limits s)
    (hl : limits.areFeasible = true) (source : String) :
    (∀ f, (s.eval source).1 = .error (.fault f) → f.isInternal = false) ∧
    ∀ b s', s.compile source = (.ok b, s') → ∀ n,
      ((s'.machine b).run n).machine.NoBareFunctions ∧
      ∀ m, (s'.machine b).run n = .next m →
        m.Steady ∧ (∀ f ∈ (m.frame :: m.callers).dropLast, f.ip < f.fn.code.size) ∧
        ∀ xs ys, Program.ofText source = .ok (xs ++ ys) → m.callers = [] →
          m.frame.ip = (s.compiler.compile xs).2.bytecode.code.size → m.sp = 0 := by
  have hs := h.inOrder hl
  refine ⟨fun f hf => hs.isInternal_eq_false hl hf, fun b s' hc n => ?_⟩
  have hrun := (hs.safe_machine hl hc).run n
  refine ⟨hrun.tidy.noBareFunctions, fun m hm => ?_⟩
  rw [hm] at hrun
  exact ⟨Machine.Safe.steady hrun, hrun.frames.ip_lt,
    fun xs ys hp hcallers hip => hs.sp_eq_zero hc hp hrun hcallers hip⟩

/-- The second input calls a function of the first one, which failed when it was called there. -/
def recursive : Session :=
  ((start ⟨64, 16, 1000⟩).eval
    "let f = fn(n) { if (n < 1) { 0 } else { n + f(n - 1) } }; f(true)").2

set_option maxRecDepth 100000 in
theorem recursive_never_goes_wrong :
    (recursive.eval "f(2); f(3)").1 = .ok (.integer 6) ∧
    ∃ b s', recursive.compile "f(2); f(3)" = (.ok b, s') ∧
      ∀ n, ((s'.machine b).run n).machine.NoBareFunctions ∧
      ∀ m, (s'.machine b).run n = .next m → m.Steady := by
  have hok : (recursive.compile "f(2); f(3)").1.toBool = true := by decide +kernel
  refine ⟨by decide +kernel, ?_⟩
  cases hc : recursive.compile "f(2); f(3)" with
  | mk r s' =>
      cases r with
      | error e =>
          rw [hc] at hok
          cases hok
      | ok b =>
          have h :=
            ((Reached.start.eval _).eval_never_goes_wrong (by decide) "f(2); f(3)").2 b s' hc
          exact ⟨b, s', rfl, fun n => ⟨(h n).1, fun m hm => ((h n).2 m hm).1⟩⟩

end Session

end Marmoset
