import Marmoset.Proofs.SessionHistory

/-!
# Inputs that are rejected

An input that is no program leaves the session as it was.  One that cannot be compiled to its end is
not run, so globals and store stay, but names that it bound before it was given up keep their new
slots, in which nothing was ever stored.  Every other name gives what it gave before.

* `Session.answer` — what comes of an input that is just a name.
* **`Session.InOrder.eval_name`** — it hangs on the symbol of the name and the globals only.
* **`Session.Reached.rejected_disturbs_bound_names_only`** — what a rejected input leaves.
-/

namespace Marmoset

/-! ## A value that is pushed and popped -/

/-- What a session answers after a run. -/
def Step.answer : Step → Except SessionError Value
  | .next _ => .error .unfinished
  | .done m => .ok m.lastPopped
  | .fault f _ => .error (.fault f)
  | .crash _ => .error .crashed

/-- A run does not reject the input. -/
lemma Step.answer_ne (r : Step) :
    (∀ {e}, r.answer ≠ .error (.source e)) ∧ ∀ {e}, r.answer ≠ .error (.compile e) := by
  cases r <;> simp [answer]

/-- What a run within the limits makes of code that pushes the value and pops it. -/
def Limits.popping (l : Limits) (v : Value) : Except SessionError Value :=
  if l.steps = 0 then .error .unfinished
  else if l.stackSize = 0 then .error (.fault .stackOverflow)
  else if l.steps < 3 then .error .unfinished
  else .ok v

lemma Limits.eq_of_popping {l : Limits} {v w : Value} (h : l.popping v = .ok w) : w = v := by
  unfold popping at h
  split_ifs at h
  exact (Except.ok.inj h).symm

namespace Machine

variable {m : Machine} {i : Instr} {v : Value}

/-- Code that pushes a value and pops it, and ends there. -/
lemma answer_of_pushes (hi : i.Fits) (hcode : m.frame.fn.code.Holds m.frame.ip [i, .pop])
    (hend : m.frame.fn.code.size = m.frame.ip + i.size + 1) (hc : m.callers = []) (hsp : m.sp = 0)
    (hpush : ∀ ip, (m.jump ip).execute i.op i.first i.second = (m.jump ip).push v) (l : Limits)
    (hsize : m.stack.size = l.stackSize) : (m.run l.steps).answer = l.popping v := by
  have hfirst : m.step = (m.jump (m.frame.ip + i.size)).push v := by
    rw [step_of_instr hi hcode.head, hpush]
  unfold Limits.popping
  by_cases h₀ : l.steps = 0
  · rw [if_pos h₀, h₀]
    rfl
  obtain ⟨n, hn⟩ := Nat.exists_eq_succ_of_ne_zero h₀
  rw [if_neg h₀, hn, Machine.run, hfirst, push]
  by_cases hroom : l.stackSize = 0
  · rw [if_pos hroom, if_neg (by rw [sp_jump, hsp]; show ¬ 0 < m.stack.size; omega)]
    rfl
  · rw [if_neg hroom, if_pos (by rw [sp_jump, hsp]; show 0 < m.stack.size; omega)]
    set m₁ : Machine := (m.jump (m.frame.ip + i.size)).pushed v with hm₁
    set m₂ : Machine := (m₁.jump (m.frame.ip + i.size + 1)).pop.2 with hm₂
    have hsecond : m₁.step = .next m₂ := by
      rw [step_of_instr (i := .pop) .nil (hcode.tail hi)]
      rfl
    have hthird : m₂.step = .done m₂ := step_at_end hc (Nat.le_of_eq hend)
    have hlast : m₂.lastPopped = v := by
      show (m.stack.setIfInBounds m.sp v).getD (m.sp + 1 - 1) .nil = v
      exact getD_setIfInBounds_self (by omega) v
    rcases n with _ | _ | n
    · rfl
    · show (run 1 m₁).answer = _
      rw [Machine.run, hsecond]
      rfl
    · show (run (n + 2) m₁).answer = _
      rw [Machine.run, hsecond]
      show (run (n + 1) m₂).answer = _
      rw [Machine.run, hthird, if_neg (by omega)]
      exact congrArg Except.ok hlast

end Machine

/-! ## Inputs that are just a name -/

/-- A name that was bound stands for one of the new slots. -/
lemma Scope.find?_defineGlobals_of_mem (s : Scope) {names : List String} {n : String}
    (h : n ∈ names) :
    ∃ i, s.definitions ≤ i ∧ (s.defineGlobals names).find? n = some ⟨n, .global, i⟩ := by
  induction names generalizing s with
  | nil => cases h
  | cons m ms ih =>
      rw [defineGlobals_cons]
      by_cases hn : n ∈ ms
      · obtain ⟨i, hi, hfound⟩ := ih (s.defineGlobal m) hn
        exact ⟨i, Nat.le_trans (Nat.le_succ _) hi, hfound⟩
      · obtain rfl : n = m := (List.mem_cons.mp h).resolve_right hn
        rw [find?_defineGlobals_of_not_mem _ hn, find?_defineGlobal, if_pos rfl]
        exact ⟨s.definitions, Nat.le_refl _, rfl⟩

lemma Symbol.fits_loadInstr (x : Symbol)
    (h : Compiler.overflow? x.loadInstr.op x.loadInstr.operands = none) :
    x.loadInstr.Fits := by
  have hlength : x.loadInstr.operands.length = x.loadInstr.op.widths.length := by
    unfold loadInstr
    cases x.kind <;> rfl
  exact Compiler.fits_of_overflow? h hlength

/-- The value of a symbol of the top level. -/
def Symbol.valueIn (globals : Array Value) (x : Symbol) : Value :=
  match x.kind with
  | .global => globals.getD x.index .nil
  | _ => ((Builtin.table[x.index]?).map Value.builtin).getD .nil

/-- Outside of functions a name stands for what it stands for there. -/
lemma SymbolTable.resolve_of_global {t : SymbolTable} (h : t.outer = []) (n : String) :
    t.resolve n = (t.findHere? n).map fun x => (x, t) := by
  obtain ⟨s, os⟩ := t
  cases h
  simp only [resolve, resolveIn, findHere?]
  cases s.find? n <;> rfl

namespace Compiler

lemma load_eq (x : Symbol) : load x = emit_ x.loadInstr.op x.loadInstr.operands := by
  unfold load Symbol.loadInstr
  cases x.kind <;> rfl

/-- How a name alone is compiled. -/
lemma compile_name {c : Compiler} (h : c.symbols.outer = []) (n : String) :
    (c.symbols.findHere? n = none ∧
      (c.compile [.expr (.ident n)]).1 = .error (.undefinedVariable n)) ∨
    ∃ x, c.symbols.findHere? n = some x ∧
      ((∃ k, overflow? x.loadInstr.op x.loadInstr.operands = some k ∧
          (c.compile [.expr (.ident n)]).1 = .error (.operandOverflow x.loadInstr.op k)) ∨
        overflow? x.loadInstr.op x.loadInstr.operands = none ∧
          c.compile [.expr (.ident n)] =
            (.ok (), { c with
              buffer := (c.buffer.emit x.loadInstr.op x.loadInstr.operands).emit .pop [] })) := by
  have hrun : Stmt.compileAll [.expr (.ident n)] c =
      EStateM.bind (EStateM.bind (EStateM.bind (resolve n) load) fun _ => emit_ .pop [])
        (fun _ => pure ()) c := rfl
  unfold compile
  rw [hrun]
  simp only [EStateM.bind, resolve, SymbolTable.resolve_of_global h]
  cases hx : c.symbols.findHere? n with
  | none => exact .inl ⟨rfl, rfl⟩
  | some x =>
      refine .inr ⟨x, rfl, ?_⟩
      simp only [Option.map_some, load_eq]
      cases ho : overflow? x.loadInstr.op x.loadInstr.operands with
      | some k =>
          refine .inl ⟨k, rfl, ?_⟩
          simp only [emit_, emit, bind, EStateM.bind, ho]
      | none =>
          refine .inr ⟨rfl, ?_⟩
          simp only [emit_, emit, bind, EStateM.bind, ho]
          rfl

end Compiler

namespace Session

/-- What comes of an input that is just a name. -/
def answer (s : Session) (n : String) : Except SessionError Value :=
  match s.symbols.findHere? n with
  | none => .error (.compile (.undefinedVariable n))
  | some x =>
    match Compiler.overflow? x.loadInstr.op x.loadInstr.operands with
    | some k => .error (.compile (.operandOverflow x.loadInstr.op k))
    | none => s.limits.popping (x.valueIn s.globals)

/-- A program that cannot be compiled. -/
lemma compile_of_error {s : Session} {source : String} {p : Program} {e : CompileError}
    (hp : Program.ofText source = .ok p) (he : (s.compiler.compile p).1 = .error e) :
    s.compile source = (.error (.compile e), s.withCompiler (s.compiler.compile p).2) := by
  unfold Session.compile
  unfold compiler at he ⊢
  rw [hp]
  dsimp only
  rw [he]
  rfl

/-- A program that can be compiled. -/
lemma compile_of_ok {s : Session} {source : String} {p : Program}
    (hp : Program.ofText source = .ok p) (hok : (s.compiler.compile p).1 = .ok ()) :
    s.compile source = (.ok (s.compiler.compile p).2.bytecode,
      s.withCompiler (s.compiler.compile p).2) := by
  unfold Session.compile
  unfold compiler at hok ⊢
  rw [hp]
  dsimp only
  rw [hok]
  rfl

lemma answer_of_ok {s s' : Session} {source : String} {b : Bytecode}
    (h : s.compile source = (.ok b, s')) :
    (s.eval source).1 = ((s'.machine b).run s'.limits.steps).answer := by
  rw [Session.eval, h]
  dsimp only
  simp only [← machine.eq_1]
  cases (s'.machine b).run s'.limits.steps <;> rfl

/-- **What a name gives hangs on its symbol and the globals only.** -/
theorem InOrder.eval_name {limits : Limits} {s : Session} (h : s.InOrder limits)
    (hl : limits.areFeasible = true) {t n : String}
    (ht : Program.ofText t = .ok [.expr (.ident n)]) : (s.eval t).1 = s.answer n := by
  have hcases := Compiler.compile_name (c := s.compiler) h.global n
  have hsymbols : s.compiler.symbols.findHere? n = s.symbols.findHere? n := rfl
  rw [hsymbols] at hcases
  unfold answer
  rcases hcases with ⟨hx, he⟩ | ⟨x, hx, ⟨k, ho, he⟩ | ⟨ho, hcode⟩⟩ <;> simp only [hx]
  · rw [eval_of_error (compile_of_error ht he)]
  · simp only [ho]
    rw [eval_of_error (compile_of_error ht he)]
  · simp only [ho]
    have hok : (s.compiler.compile [.expr (.ident n)]).1 = .ok () := by rw [hcode]
    have hsafe := h.safe_load hl hok
    rw [answer_of_ok (compile_of_ok ht hok)]
    rw [hcode] at hsafe ⊢
    set b := (s.compiler.buffer.emit x.loadInstr.op x.loadInstr.operands).emit .pop []
    have hfits := x.fits_loadInstr ho
    have htracks : b.Tracks [x.loadInstr, .pop] :=
      (Buffer.Tracks.empty.emit hfits).emit (i := .pop) .nil
    have hholds : b.code.Holds 0 [x.loadInstr, .pop] := .of_eq htracks.code
    refine Machine.answer_of_pushes hfits hholds ?_ rfl rfl (fun ip => ?_) s.limits
      Array.size_replicate
    · show b.code.size = 0 + x.loadInstr.size + 1
      rw [htracks.size, Nat.zero_add]
      rfl
    · rw [hsafe.execute_load hfits hholds.head]
      congr 1
      unfold Machine.denotes Symbol.valueIn
      have hfound : s.symbols.outermost.find? n = some x := by
        rw [SymbolTable.outermost_of_global h.global]
        exact hx
      rcases h.good.proper.outermost hfound with hk | ⟨hk, -⟩ <;> rw [hk] <;> rfl

/-! ## What is left of an input -/

/-- The program binds the name at the top level: by a `let`, or by an assignment if the name has no
slot. -/
def Rebinds (s : Session) (p : Program) (n : String) : Prop :=
  n ∈ (Stmt.mentionsAll p).lets ∨ n ∈ (Stmt.mentionsAll p).binds ∧ ¬ s.symbols.Owns n

/-- The program cannot be compiled; `q` is what there is of it up to the statement that stops it. -/
def StopsIn (s : Session) (p q : Program) : Prop :=
  ∃ xs st ys, p = xs ++ st :: ys ∧ q = xs ++ [st] ∧ (s.compiler.compile xs).1 = .ok () ∧
    ∃ e, (s.compiler.compile q).1 = .error e

/-- What stands behind the statement that stops a program does not matter. -/
lemma exists_stopsIn {s : Session} {p : Program} {e : CompileError}
    (he : (s.compiler.compile p).1 = .error e) :
    ∃ q, s.StopsIn p q ∧ s.compiler.compile q = s.compiler.compile p := by
  unfold Compiler.compile at he
  cases hrun : Stmt.compileAll p s.compiler with
  | ok u c =>
      rw [hrun] at he
      cases he
  | error e' c =>
      obtain ⟨xs, st, ys, rfl, ⟨c₁, hxs⟩, hlast⟩ := Stmt.compileAll_error hrun
      refine ⟨xs ++ [st], ⟨xs, st, ys, rfl, rfl, ?_, e', ?_⟩, ?_⟩
      · rw [Compiler.compile, hxs]
      · rw [Compiler.compile, hlast]
      · rw [Compiler.compile, Compiler.compile, hlast, hrun]

/-- A name gives what it gave, or it was bound and gives nil. -/
lemma Reached.answer_of_binds {limits : Limits} {s s' : Session} (h : Reached limits s)
    (hl : limits.areFeasible = true) {names : List String}
    (hnames : s'.symbols = ⟨s.symbols.current.defineGlobals names, []⟩)
    (hglobals : s'.globals = s.globals) (hlimits : s'.limits = s.limits) (n : String) :
    (n ∉ names → s'.answer n = s.answer n) ∧ ∀ v, n ∈ names → s'.answer n = .ok v → v = .nil := by
  refine ⟨fun hn => ?_, fun v hn hv => ?_⟩
  · have hsame : s'.symbols.findHere? n = s.symbols.findHere? n := by
      rw [hnames]
      exact Scope.find?_defineGlobals_of_not_mem _ hn
    rw [answer, answer, hsame, hglobals, hlimits]
  · obtain ⟨i, hi, hfound⟩ := Scope.find?_defineGlobals_of_mem s.symbols.current hn
    have hx : s'.symbols.findHere? n = some ⟨n, .global, i⟩ := by
      rw [hnames]
      exact hfound
    rw [answer, hx] at hv
    dsimp only at hv
    split at hv
    · cases hv
    · rw [Limits.eq_of_popping hv, hglobals]
      have hsize := (h.size_globals hl).1
      show s.globals.getD i .nil = .nil
      rw [Array.getD_eq_getD_getElem?, Array.getElem?_eq_none (by omega)]
      rfl

/-- **A rejected input disturbs names that it binds, and no others.** -/
theorem Reached.rejected_disturbs_bound_names_only {limits : Limits} {s : Session}
    (h : Reached limits s) (hl : limits.areFeasible = true) {source : String} {e : SessionError}
    (he : (s.eval source).1 = .error e) :
    (∀ x, e = .source x → (s.eval source).2 = s) ∧
    ∀ x, e = .compile x →
      (s.eval source).2.globals = s.globals ∧ (s.eval source).2.store = s.store ∧
      ∃ p q, Program.ofText source = .ok p ∧ s.StopsIn p q ∧
        ∀ t n, Program.ofText t = .ok [.expr (.ident n)] →
          (¬ s.Rebinds q n → ((s.eval source).2.eval t).1 = (s.eval t).1) ∧
          ∀ v, ((s.eval source).2.eval t).1 = .ok v →
            (s.eval t).1 = .ok v ∨ s.Rebinds q n ∧ v = .nil := by
  cases hp : Program.ofText source with
  | error x =>
      have hc : s.compile source = (.error (.source x), s) := by rw [Session.compile, hp]
      rw [eval_of_error hc] at he ⊢
      cases he
      exact ⟨fun _ _ => rfl, fun _ hx => by cases hx⟩
  | ok p =>
      cases hr : (s.compiler.compile p).1 with
      | ok u =>
          -- The input is run, so it was not rejected.
          rw [answer_of_ok (compile_of_ok hp hr)] at he
          refine ⟨fun x hx => ?_, fun x hx => ?_⟩ <;> subst hx
          · exact absurd he (Step.answer_ne _).1
          · exact absurd he (Step.answer_ne _).2
      | error x =>
          have hc := compile_of_error hp hr
          have h' : Reached limits (s.eval source).2 := h.eval source
          rw [eval_of_error hc] at he h' ⊢
          cases he
          obtain ⟨q, hq, hsame⟩ := exists_stopsIn hr
          obtain ⟨names, hnames, hbinds⟩ :=
            Compiler.symbols_compile (c := s.compiler) (h.inOrder hl).global q
          rw [hsame] at hnames
          refine ⟨fun _ hx => (by cases hx), fun _ _ => ⟨rfl, rfl, p, q, rfl, hq, fun t n ht => ?_⟩⟩
          set s' := s.withCompiler (s.compiler.compile p).2
          obtain ⟨hother, hbound⟩ :=
            h.answer_of_binds hl (show s'.symbols = _ from hnames) rfl rfl n
          rw [(h'.inOrder hl).eval_name hl ht, (h.inOrder hl).eval_name hl ht]
          refine ⟨fun hno => hother fun hn => hno (hbinds n hn), fun v hv => ?_⟩
          by_cases hn : n ∈ names
          · exact .inr ⟨hbinds n hn, hbound v hn hv⟩
          · exact .inl ((hother hn).symm.trans hv)

/-- After a variable was given a value. -/
def counting : Session :=
  ((start ⟨8, 4, 100⟩).eval "let a = 1").2

set_option maxRecDepth 100000 in
/-- A rejected input may take the value of a variable: the `let` has bound the name to a new slot
when its value turns out to be undefined. -/
theorem counting_lost_by_rejection :
    (counting.eval "a").1 = .ok (.integer 1) ∧
    (counting.eval "let a = missing").1 = .error (.compile (.undefinedVariable "missing")) ∧
    ((counting.eval "let a = missing").2.eval "a").1 = .ok .nil := by
  decide +kernel

/-- Whether the program is the name alone. -/
def isName (n : String) : Program → Bool
  | [.expr (.ident m)] => m == n
  | _ => false

lemma eq_of_isName {n : String} {p : Program} (h : isName n p = true) : p = [.expr (.ident n)] := by
  unfold isName at h
  split at h
  · rw [beq_iff_eq.mp h]
  · cases h

set_option maxRecDepth 100000 in
theorem counting_kept_by_rejection :
    (counting.eval "let b = a + missing").1 = .error (.compile (.undefinedVariable "missing")) ∧
    ((counting.eval "let b = a + missing").2.eval "a").1 = (counting.eval "a").1 := by
  have he : (counting.eval "let b = a + missing").1 =
      .error (.compile (.undefinedVariable "missing")) := by
    decide +kernel
  have htrees : (Program.ofText "a").toOption.any (isName "a") = true ∧
      (Program.ofText "let b = a + missing").toOption.all (fun p =>
        p.length == 1 && !(Stmt.mentionsAll p).lets.contains "a" &&
          !(Stmt.mentionsAll p).binds.contains "a") = true := by
    decide +kernel
  obtain ⟨-, hcompile⟩ :=
    Reached.rejected_disturbs_bound_names_only (Reached.start.eval _) (by decide) he
  obtain ⟨-, -, p, q, hp, ⟨xs, st, ys, rfl, rfl, -⟩, hnames⟩ := hcompile _ rfl
  cases hname : Program.ofText "a" with
  | error e =>
      rw [hname] at htrees
      cases htrees.1
  | ok a =>
      rw [hname, hp] at htrees
      obtain rfl := eq_of_isName htrees.1
      simp only [Except.toOption, Option.all_some, List.length_append, List.length_cons,
        Bool.and_eq_true, beq_iff_eq,
        Bool.not_eq_true', List.contains_eq_mem, decide_eq_false_iff_not] at htrees
      obtain ⟨-, ⟨hlength, hlets⟩, hbinds⟩ := htrees
      obtain rfl : ys = [] := List.length_eq_zero_iff.mp (by omega)
      refine ⟨he, (hnames "a" "a" hname).1 ?_⟩
      rintro (hlet | ⟨hbind, -⟩)
      · exact hlets hlet
      · exact hbinds hbind

end Session

end Marmoset
