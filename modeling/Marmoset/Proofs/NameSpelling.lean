import Marmoset.Proofs.EvaluationSteps
import Mathlib.Logic.Equiv.Basic

/-!
# The spelling of names

Compiled code knows names by slots and indexes only.  While it compiles, the compiler asks of two
names whether they are the same and looks at nothing else in them, so that a program whose names are
spelled in another way is compiled to the same code.  The one exception is the hash literal, whose
pairs are sorted by the texts of their keys.

* `Expr.rename`, `Stmt.rename`, `Compiler.rename` — every name spelled anew.
* `SymbolTable.resolve_rename` — a name is found where it was found before, and captured by the same
  scopes.
* `Compile.Renames` — two steps of the compiler do the same under different names.  It is closed
  under sequence, and there is one lemma for each kind of step.
* **`Stmt.renames_compileAll`** — so it is with the steps of a program and those of the renamed one.
-/

namespace Marmoset

/-! ## Trees -/

mutual

/-- The expression with every name spelled anew. -/
def Expr.rename (r : String → String) : Expr → Expr
  | .ident name => .ident (r name)
  | .array items => .array (Expr.renameAll r items)
  | .hash pairs => .hash (Expr.renamePairs r pairs)
  | .function name params body => .function (name.map r) (params.map r) (Stmt.renameAll r body)
  | .unary op right => .unary op (right.rename r)
  | .binary op left right => .binary op (left.rename r) (right.rename r)
  | .index left index => .index (left.rename r) (index.rename r)
  | .cond condition yes none => .cond (condition.rename r) (Stmt.renameAll r yes) none
  | .cond condition yes (some no) =>
    .cond (condition.rename r) (Stmt.renameAll r yes) (some (Stmt.renameAll r no))
  | .call callee args => .call (callee.rename r) (Expr.renameAll r args)
  | .integer n => .integer n
  | .float x => .float x
  | .string s => .string s
  | .boolean b => .boolean b
  | .nil => .nil
termination_by structural e => e

/-- The statement with every name spelled anew. -/
def Stmt.rename (r : String → String) : Stmt → Stmt
  | .define name value => .define (r name) (value.rename r)
  | .assign target value => .assign (target.rename r) (value.rename r)
  | .ret value => .ret (value.rename r)
  | .expr e => .expr (e.rename r)
  | .block body => .block (Stmt.renameAll r body)
termination_by structural s => s

def Expr.renameAll (r : String → String) : List Expr → List Expr
  | [] => []
  | e :: es => e.rename r :: Expr.renameAll r es
termination_by structural es => es

def Expr.renamePairs (r : String → String) : List (Expr × Expr) → List (Expr × Expr)
  | [] => []
  | (k, v) :: ps => (k.rename r, v.rename r) :: Expr.renamePairs r ps
termination_by structural ps => ps

def Stmt.renameAll (r : String → String) : List Stmt → List Stmt
  | [] => []
  | s :: ss => s.rename r :: Stmt.renameAll r ss
termination_by structural ss => ss

end

/-- The program with every name spelled anew. -/
def Program.rename (r : String → String) (p : Program) : Program :=
  Stmt.renameAll r p

/-- Whether the expression is no hash literal. -/
def Expr.isNoHash : Expr → Bool
  | .hash _ => false
  | _ => true

/-- Whether a program has no hash literal anywhere. -/
def Program.hasNoHash (p : Program) : Bool :=
  Stmt.everyOf Expr.isNoHash (fun _ => true) p

variable {r : String → String}

lemma Expr.length_renameAll (r : String → String) (es : List Expr) :
    (Expr.renameAll r es).length = es.length := by
  induction es with
  | nil => rfl
  | cons e es ih => rw [Expr.renameAll, List.length_cons, List.length_cons, ih]

/-! ## Names in scope -/

def Symbol.rename (r : String → String) (s : Symbol) : Symbol :=
  { s with name := r s.name }

namespace Scope

def rename (r : String → String) (s : Scope) : Scope :=
  { s with symbols := s.symbols.map (Symbol.rename r), free := s.free.map (Symbol.rename r) }

/-- **A name is found as before,** since no other name is spelled like it now. -/
lemma find?_rename (hr : Function.Injective r) (s : Scope) (n : String) :
    (s.rename r).find? (r n) = (s.find? n).map (Symbol.rename r) := by
  have hsame : ((fun x : Symbol => x.name == r n) ∘ Symbol.rename r) = fun x => x.name == n := by
    funext x
    simp [Symbol.rename, hr.eq_iff]
  rw [find?, rename, List.find?_map, hsame, find?]

/-- A capture takes up the symbol under its new name. -/
lemma capture_rename (s : Scope) (x : Symbol) :
    (s.rename r).capture (x.rename r) = ((s.capture x).1.rename r, (s.capture x).2.rename r) := by
  simp [capture, rename, Symbol.rename, bind]

end Scope

namespace SymbolTable

def rename (r : String → String) (t : SymbolTable) : SymbolTable :=
  ⟨t.current.rename r, t.outer.map (Scope.rename r)⟩

lemma findHere?_rename (hr : Function.Injective r) (t : SymbolTable) (n : String) :
    (t.rename r).findHere? (r n) = (t.findHere? n).map (Symbol.rename r) :=
  t.current.find?_rename hr n

/-- A name gets the slot that it got before. -/
lemma define_rename (t : SymbolTable) (n : String) :
    (t.rename r).define (r n) = ((t.define n).1.rename r, (t.define n).2.rename r) := by
  simp [define, rename, Scope.rename, Symbol.rename, Scope.bind]

/-- Parameters get the slots that they got before. -/
lemma defineAll_rename (t : SymbolTable) (ns : List String) :
    (ns.map r).foldl (fun t n => (t.define n).2) (t.rename r) =
      (ns.foldl (fun t n => (t.define n).2) t).rename r := by
  induction ns generalizing t with
  | nil => rfl
  | cons n ns ih =>
      rw [List.map_cons, List.foldl_cons, List.foldl_cons, define_rename]
      exact ih (t.define n).2

/-- A name that is captured on the way out is captured by the same functions. -/
lemma resolveIn_rename (hr : Function.Injective r) (n : String) (s : Scope) (outer : List Scope) :
    resolveIn (r n) (s.rename r) (outer.map (Scope.rename r)) =
      (resolveIn n s outer).map fun x =>
        (x.1.rename r, x.2.1.rename r, x.2.2.map (Scope.rename r)) := by
  induction outer generalizing s with
  | nil =>
      rw [List.map_nil, resolveIn, resolveIn, s.find?_rename hr]
      cases s.find? n with
      | none => rfl
      | some x => rfl
  | cons o os ih =>
      rw [List.map_cons, resolveIn, resolveIn, s.find?_rename hr, ih]
      cases s.find? n with
      | some x => rfl
      | none =>
          cases resolveIn n o os with
          | none => rfl
          | some x =>
              obtain ⟨x, o', os'⟩ := x
              have hkind : (x.rename r).kind = x.kind := rfl
              dsimp only [Option.map_none, Option.map_some]
              rw [s.capture_rename, hkind]
              split_ifs <;> rfl

/-- **A name stands for the same thing as before,** and is captured by the same scopes. -/
lemma resolve_rename (hr : Function.Injective r) (t : SymbolTable) (n : String) :
    (t.rename r).resolve (r n) = (t.resolve n).map fun x => (x.1.rename r, x.2.rename r) := by
  rw [resolve, resolve, rename, resolveIn_rename hr]
  cases resolveIn n t.current t.outer with
  | none => rfl
  | some x => rfl

end SymbolTable

def ScopeSummary.rename (r : String → String) (s : ScopeSummary) : ScopeSummary :=
  { s with free := s.free.map (Symbol.rename r) }

/-! ## Steps of the compiler -/

/-- The state of the compiler after the same steps on other names. -/
def Compiler.rename (r : String → String) (c : Compiler) : Compiler :=
  { c with symbols := c.symbols.rename r }

/-- The same error, in which names are spelled anew.  Nothing is said of the text of what cannot be
assigned to. -/
inductive CompileError.Renamed (r : String → String) : CompileError → CompileError → Prop where
  | undefinedVariable (n : String) : Renamed r (.undefinedVariable n) (.undefinedVariable (r n))
  | unknownUnary (op : String) : Renamed r (.unknownUnary op) (.unknownUnary op)
  | unknownBinary (op : String) : Renamed r (.unknownBinary op) (.unknownBinary op)
  | invalidTarget (text text' : String) : Renamed r (.invalidTarget text) (.invalidTarget text')
  | operandOverflow (op : Opcode) (n : Nat) :
      Renamed r (.operandOverflow op n) (.operandOverflow op n)

/-- Two outcomes, of which one is the other under the new names: `ρ` says what becomes of the
result. -/
inductive Compile.Renamed (r : String → String) {α : Type} (ρ : α → α) :
    EStateM.Result CompileError Compiler α → EStateM.Result CompileError Compiler α → Prop where
  | ok (a : α) (c : Compiler) : Renamed r ρ (.ok a c) (.ok (ρ a) (c.rename r))
  | error {e e' : CompileError} (c : Compiler) (h : e.Renamed r e') :
      Renamed r ρ (.error e c) (.error e' (c.rename r))

/-- From a state `x` does what `y` does from the renamed state. -/
def Compile.Renames (r : String → String) {α : Type} (ρ : α → α) (x y : Compile α) : Prop :=
  ∀ c : Compiler, Compile.Renamed r ρ (x c) (y (c.rename r))

namespace Compile.Renames

open Compiler

variable {α β : Type} {ρ : α → α} {σ : β → β}

/-- A result is renamed as it says. -/
lemma pure (a : α) : Renames r ρ (Pure.pure a) (Pure.pure (ρ a)) := fun c => .ok a c

/-- An error is renamed too. -/
lemma throw {e e' : CompileError} (h : e.Renamed r e') :
    Renames r ρ (MonadExcept.throw e : Compile α) (MonadExcept.throw e') := fun c => .error c h

/-- One step after the other. -/
lemma bind {x y : Compile α} {f g : α → Compile β} (hx : Renames r ρ x y)
    (hf : ∀ a, Renames r σ (f a) (g (ρ a))) :
    Renames r σ (x >>= f) (y >>= g) := by
  intro c
  have hc := hx c
  change Renamed r σ (EStateM.bind x f c) (EStateM.bind y g (c.rename r))
  unfold EStateM.bind
  cases hr : x c with
  | ok a c' =>
      rw [hr] at hc
      generalize y (c.rename r) = res at hc ⊢
      cases hc with
      | ok => exact hf a c'
  | error e c' =>
      rw [hr] at hc
      generalize y (c.rename r) = res at hc ⊢
      cases hc with
      | error _ he => exact .error c' he

/-! ### Steps that look at no name -/

/-- An instruction is written alike, since it has no names in it. -/
lemma emit (op : Opcode) (operands : List Nat) :
    Renames r id (emit op operands) (emit op operands) := by
  intro c
  unfold Compiler.emit
  cases overflow? op operands with
  | some n => exact .error c (.operandOverflow op n)
  | none => exact .ok _ { c with buffer := c.buffer.emit op operands }

lemma emit_ (op : Opcode) (operands : List Nat) :
    Renames r id (emit_ op operands) (emit_ op operands) :=
  (emit op operands).bind fun _ => .pure ()

/-- A jump is landed alike. -/
lemma land (position : Nat) (op : Opcode) : Renames r id (land position op) (land position op) := by
  intro c
  have hbuffer : (c.rename r).buffer = c.buffer := rfl
  simp only [Compiler.land, hbuffer]
  cases overflow? op [c.buffer.code.size] with
  | some n => exact .error c (.operandOverflow op n)
  | none => exact .ok () { c with buffer := c.buffer.patch position op [c.buffer.code.size] }

/-- Constants have no names in them. -/
lemma addConstant (k : Constant) : Renames r id (addConstant k) (addConstant k) := fun c =>
  .ok _ { c with constants := c.constants.push k }

lemma literal (k : Constant) : Renames r id (literal k) (literal k) :=
  (addConstant k).bind fun _ => emit_ _ _

/-- How a branch ends depends on its last instruction only. -/
lemma endBranch : Renames r id endBranch endBranch := by
  intro c
  have hbuffer : (c.rename r).buffer = c.buffer := rfl
  simp only [Compiler.endBranch, hbuffer]
  split_ifs with hpop
  · exact .ok () { c with buffer := c.buffer.dropLast }
  · exact emit_ .pushNil [] c

/-- So does how a function ends. -/
lemma endFunction : Renames r id endFunction endFunction := by
  intro c
  have hbuffer : (c.rename r).buffer = c.buffer := rfl
  simp only [Compiler.endFunction, hbuffer]
  generalize (if c.buffer.endsWith .pop then c.buffer.returnLast else c.buffer) = b
  split_ifs with hret
  · exact .ok () { c with buffer := b }
  · exact emit_ .returnNil [] { c with buffer := b }

/-! ### Steps that look up names -/

/-- A symbol is loaded by where it is and not by its name. -/
lemma load (s : Symbol) : Renames r id (load s) (load (s.rename r)) := by
  change Renames r id (Compiler.load s) (Compiler.load s)
  unfold Compiler.load
  cases s.kind <;> exact emit_ _ _

/-- So are those that a function captures. -/
lemma loadAll (ss : List Symbol) :
    Renames r id (loadAll ss) (loadAll (ss.map (Symbol.rename r))) := by
  induction ss with
  | nil => exact .pure ()
  | cons s ss ih => exact (load s).bind fun _ => ih

/-- And it is stored so. -/
lemma store (s : Symbol) : Renames r id (store s) (store (s.rename r)) := by
  change Renames r id (Compiler.store s) (Compiler.store s)
  unfold Compiler.store
  cases s.kind <;> exact emit_ _ _

/-- The new symbol has the new name and the old slot. -/
lemma define (n : String) : Renames r (Symbol.rename r) (define n) (define (r n)) := by
  intro c
  have hdefine : (c.rename r).symbols.define (r n) = _ := c.symbols.define_rename n
  unfold Compiler.define
  rw [hdefine]
  exact .ok (c.symbols.define n).1 { c with symbols := (c.symbols.define n).2 }

section

variable (hr : Function.Injective r)

include hr

/-- A name that is assigned to is found in its scope, or gets a slot there. -/
lemma assignable (n : String) : Renames r (Symbol.rename r) (assignable n) (assignable (r n)) := by
  intro c
  have hdefine := define (r := r) n c
  have hfind : (c.rename r).symbols.findHere? (r n) =
      (c.symbols.findHere? n).map (Symbol.rename r) :=
    c.symbols.findHere?_rename hr n
  unfold Compiler.assignable
  rw [hfind]
  cases c.symbols.findHere? n with
  | none => exact hdefine
  | some x =>
      have hkind : (x.rename r).kind = x.kind := rfl
      simp only [Option.map_some, hkind]
      split_ifs with howned
      · exact .ok x c
      · exact hdefine

/-- A name is found where it was before, or is unknown as before, and the error says its new name.
-/
lemma resolve (n : String) : Renames r (Symbol.rename r) (resolve n) (resolve (r n)) := by
  intro c
  have hfind : (c.rename r).symbols.resolve (r n) = _ := c.symbols.resolve_rename hr n
  unfold Compiler.resolve
  rw [hfind]
  cases c.symbols.resolve n with
  | none => exact .error c (.undefinedVariable n)
  | some x => exact .ok x.1 { c with symbols := x.2 }

end

/-! ### Functions -/

/-- The scope of a function starts with its own name and its parameters. -/
lemma enterFunction (name : Option String) (params : List String) :
    Renames r id (enterFunction name params) (enterFunction (name.map r) (params.map r)) := by
  intro c
  have key (t : SymbolTable) : Renamed r id
      (.ok () { c with
        symbols := params.foldl (fun t n => (t.define n).2) t, buffer := .empty,
        outer := c.buffer :: c.outer })
      (.ok () { c.rename r with
        symbols := (params.map r).foldl (fun t n => (t.define n).2) (t.rename r)
        buffer := .empty
        outer := c.buffer :: c.outer }) := by
    rw [t.defineAll_rename]
    exact .ok () _
  cases name with
  | none => exact key c.symbols.enter
  | some n => exact key (c.symbols.enter.defineFunctionName n).2

/-- What a function captured is listed in the same order. -/
lemma leaveFunction :
    Renames r (Prod.map id (ScopeSummary.rename r)) leaveFunction leaveFunction := by
  intro c
  obtain ⟨constants, ⟨current, scopes⟩, buffer, buffers⟩ := c
  cases scopes <;> cases buffers <;> exact .ok _ _

/-- A function has the same code, and captures the same symbols under their new names. -/
lemma function (name : Option String) (params : List String) {x y : Compile Unit}
    (h : Renames r id x y) :
    Renames r (Prod.map id (List.map (Symbol.rename r))) (function name params x)
      (function (name.map r) (params.map r) y) := by
  unfold Compiler.function
  rw [List.length_map]
  exact (enterFunction name params).bind fun _ => h.bind fun _ => endFunction.bind fun _ =>
    leaveFunction.bind fun s => .pure (_, s.2.free)

/-! ### Trees -/

/-- Expressions one after the other. -/
lemma exprs {es : List Expr} (h : ∀ e ∈ es, Renames r id e.compile (e.rename r).compile) :
    Renames r id (Expr.compileAll es) (Expr.compileAll (Expr.renameAll r es)) := by
  induction es with
  | nil => exact .pure ()
  | cons e es ih =>
      obtain ⟨he, hes⟩ := List.forall_mem_cons.mp h
      exact he.bind fun _ => ih hes

/-- Statements one after the other. -/
lemma stmts {ss : List Stmt} (h : ∀ s ∈ ss, Renames r id s.compile (s.rename r).compile) :
    Renames r id (Stmt.compileAll ss) (Stmt.compileAll (Stmt.renameAll r ss)) := by
  induction ss with
  | nil => exact .pure ()
  | cons s ss ih =>
      obtain ⟨hs, hss⟩ := List.forall_mem_cons.mp h
      exact hs.bind fun _ => ih hss

/-- Every kind of tree is compiled alike if its parts are; a hash is left out, since the texts of
its keys decide in which order it is compiled. -/
lemma closed (hr : Function.Injective r) {q : Stmt → Bool} :
    Tree.Closed
      (Expr.WithParts fun e => e.every Expr.isNoHash q = true →
        Renames r id e.compile (e.rename r).compile)
      (fun s => s.every Expr.isNoHash q = true → Renames r id s.compile (s.rename r).compile) where
  ident name := ⟨fun _ => (resolve hr name).bind fun s => load s, by simp⟩
  integer n := ⟨fun _ => literal _, by simp⟩
  float x := ⟨fun _ => literal _, by simp⟩
  string s := ⟨fun _ => literal _, by simp⟩
  boolean b := by
    cases b with
    | true => exact ⟨fun _ => emit_ _ _, by simp⟩
    | false => exact ⟨fun _ => emit_ _ _, by simp⟩
  nil := ⟨fun _ => emit_ _ _, by simp⟩
  array items ih := by
    refine ⟨fun he => ?_, by simp⟩
    have hitems := Expr.everyOf_iff.mp (Bool.and_eq_true_iff.mp he).2
    rw [Expr.rename, Expr.compile, Expr.compile, Expr.length_renameAll]
    exact (exprs fun e hmem => (ih e hmem).1 (hitems e hmem)).bind fun _ => emit_ _ _
  hash ps ih := by
    -- there is none
    refine ⟨fun he => ?_, by simp⟩
    cases (Bool.and_eq_true_iff.mp he).1
  function name params body ih := by
    refine ⟨fun he => ?_, by simp⟩
    have hbody := Stmt.everyOf_iff.mp (Bool.and_eq_true_iff.mp he).2
    refine (function name params (stmts fun s hs => ih s hs (hbody s hs))).bind fun x => ?_
    dsimp only [Prod.map]
    rw [List.length_map]
    exact (loadAll x.2).bind fun _ => (addConstant _).bind fun _ => emit_ _ _
  unary op right ih := by
    refine ⟨fun he => ?_, by simp⟩
    refine (ih.1 (Bool.and_eq_true_iff.mp he).2).bind fun _ => ?_
    cases Operator.unary? op with
    | some code => exact emit_ _ _
    | none => exact .throw (.unknownUnary op)
  binary op left right ih ih' := by
    refine ⟨fun he => ?_, by simp⟩
    obtain ⟨⟨-, hl⟩, hr⟩ := (Bool.and_eq_true_iff.mp he).imp_left Bool.and_eq_true_iff.mp
    rw [Expr.rename, Expr.compile, Expr.compile]
    split
    · exact .throw (.unknownBinary op)
    · exact (ih.1 hl).bind fun _ => (ih'.1 hr).bind fun _ => emit_ _ _
    · exact (ih'.1 hr).bind fun _ => (ih.1 hl).bind fun _ => emit_ _ _
  index left index ih ih' := by
    refine ⟨fun he => ?_, fun l i heq => ?_⟩
    · obtain ⟨⟨-, hl⟩, hi⟩ := (Bool.and_eq_true_iff.mp he).imp_left Bool.and_eq_true_iff.mp
      exact (ih.1 hl).bind fun _ => (ih'.1 hi).bind fun _ => emit_ _ _
    · cases heq
      exact ⟨ih.1, ih'.1⟩
  cond condition yes no ih ihyes ihno := by
    refine ⟨fun he => ?_, by simp⟩
    obtain ⟨hc, hyes, hno⟩ := Expr.every_cond he
    have hyes := stmts fun s hs => ihyes s hs (Stmt.everyOf_iff.mp hyes s hs)
    have hno := stmts fun s hs => ihno s hs (Stmt.everyOf_iff.mp hno s hs)
    cases no with
    | none =>
        exact (ih.1 hc).bind fun _ => (emit _ _).bind fun _ => hyes.bind fun _ =>
          endBranch.bind fun _ =>
          (emit _ _).bind fun _ => (land _ _).bind fun _ => (emit_ _ _).bind fun _ => land _ _
    | some no =>
        exact (ih.1 hc).bind fun _ => (emit _ _).bind fun _ => hyes.bind fun _ =>
          endBranch.bind fun _ =>
          (emit _ _).bind fun _ => (land _ _).bind fun _ => hno.bind fun _ =>
            endBranch.bind fun _ => land _ _
  call callee args ih ihargs := by
    refine ⟨fun he => ?_, by simp⟩
    obtain ⟨⟨-, hf⟩, hargs⟩ := (Bool.and_eq_true_iff.mp he).imp_left Bool.and_eq_true_iff.mp
    have hvalues := exprs fun e hmem => (ihargs e hmem).1 (Expr.everyOf_iff.mp hargs e hmem)
    rw [Expr.rename, Expr.compile, Expr.compile, Expr.length_renameAll]
    exact (ih.1 hf).bind fun _ => hvalues.bind fun _ => emit_ _ _
  define name value ih hs :=
    (define name).bind fun s => (ih.1 (Bool.and_eq_true_iff.mp hs).2).bind fun _ => store s
  assign target value ih ih' hs := by
    obtain ⟨⟨-, ht⟩, hv⟩ := (Bool.and_eq_true_iff.mp hs).imp_left Bool.and_eq_true_iff.mp
    cases target with
    | ident name => exact (assignable hr name).bind fun s => (ih'.1 hv).bind fun _ => store s
    | index left index =>
        obtain ⟨hl, hi⟩ := ih.2 left index rfl
        obtain ⟨⟨-, hl'⟩, hi'⟩ := (Bool.and_eq_true_iff.mp ht).imp_left Bool.and_eq_true_iff.mp
        exact (hl hl').bind fun _ => (hi hi').bind fun _ => (ih'.1 hv).bind fun _ => emit_ _ _
    | cond condition yes no => cases no <;> exact .throw (.invalidTarget _ _)
    | _ => exact .throw (.invalidTarget _ _)
  ret value ih hs := (ih.1 (Bool.and_eq_true_iff.mp hs).2).bind fun _ => emit_ _ _
  expr e ih hs := (ih.1 (Bool.and_eq_true_iff.mp hs).2).bind fun _ => emit_ _ _
  block body ih hs :=
    stmts fun s hmem => ih s hmem (Stmt.everyOf_iff.mp (Bool.and_eq_true_iff.mp hs).2 s hmem)

end Compile.Renames

/-- **A program without hash literals is compiled alike under other names,** from every state of the
compiler. -/
theorem Stmt.renames_compileAll (hr : Function.Injective r) {ss : List Stmt} {q : Stmt → Bool}
    (h : Stmt.everyOf Expr.isNoHash q ss = true) :
    Compile.Renames r id (Stmt.compileAll ss) (Stmt.compileAll (Stmt.renameAll r ss)) :=
  .stmts fun s hs => (Compile.Renames.closed hr).forall_stmt s (Stmt.everyOf_iff.mp h s hs)

/-! ## Programs -/

/-- The names of builtins stay as they are. -/
lemma Compiler.rename_fresh (hb : ∀ b : Builtin, r b.name = b.name) :
    Compiler.fresh.rename r = Compiler.fresh := by
  have key (bs : List (Builtin × Nat)) (t : SymbolTable) :
      (bs.foldl (fun t b => (t.defineBuiltin b.1.name b.2).2) t).rename r =
        bs.foldl (fun t b => (t.defineBuiltin b.1.name b.2).2) (t.rename r) := by
    induction bs generalizing t with
    | nil => rfl
    | cons b bs ih =>
        have hstep : (t.defineBuiltin b.1.name b.2).2.rename r =
            ((t.rename r).defineBuiltin b.1.name b.2).2 := by
          simp [SymbolTable.defineBuiltin, SymbolTable.bind, Scope.bind, SymbolTable.rename,
            Scope.rename, Symbol.rename, hb]
        rw [List.foldl_cons, List.foldl_cons, ih, hstep]
  exact congrArg (fun t => ofState t #[]) (key Builtin.table.zipIdx .empty)

/-- **The code of a program does not depend on how its names are spelled.**  Let a program have no
hash literal, and let all its names be spelled anew: names in expressions, names bound by `let`,
parameters and the names that functions know themselves by, so that different names stay different
and builtins keep theirs.  Then the renamed program can be compiled exactly if the program can, to
exactly the same bytecode; otherwise both fail in the same way. -/
theorem Program.compile_rename (hr : Function.Injective r) (hb : ∀ b : Builtin, r b.name = b.name)
    {p : Program} (hp : p.hasNoHash = true) :
    (∀ code, (p.rename r).compile = .ok code ↔ p.compile = .ok code) ∧
      ∀ e, p.compile = .error e → ∃ e', (p.rename r).compile = .error e' ∧ e.Renamed r e' := by
  have hrun := Stmt.renames_compileAll hr hp Compiler.fresh
  rw [Compiler.rename_fresh hb] at hrun
  unfold Program.compile Compiler.compile Program.rename
  generalize Stmt.compileAll p Compiler.fresh = x at hrun ⊢
  generalize Stmt.compileAll (Stmt.renameAll r p) Compiler.fresh = y at hrun ⊢
  cases hrun with
  | ok a c => exact ⟨fun code => Iff.rfl, by simp⟩
  | error c he => exact ⟨by simp, by simpa using he⟩

/-- A function with a parameter that is given twice, a capture through two functions, a name that
hides a builtin, and a call of itself. -/
def entwined : Program :=
  [.define "f" (.function (some "f") ["x", "x", "y"]
      [.define "g" (.function (some "g") []
        [.expr (.function none ["len"]
          [.expr (.call (.ident "f") [.ident "x", .ident "len", .ident "y"])])]),
       .assign (.ident "y") (.call (.ident "len") [.ident "y"]),
       .expr (.cond (.ident "y") [.expr (.ident "g")] (some [.ret (.ident "x")]))]),
    .expr (.call (.ident "f") [.integer 1, .string "x", .array [.ident "f"]])]

/-- The names `x` and `g` change places. -/
theorem Program.entwined_compile_rename :
    (Function.Injective (Equiv.swap "x" "g") ∧ (∀ b : Builtin, Equiv.swap "x" "g" b.name = b.name) ∧
        entwined.hasNoHash = true ∧ entwined.compile.isOk = true) ∧
      ∀ code, (entwined.rename (Equiv.swap "x" "g")).compile = .ok code ↔
        entwined.compile = .ok code := by
  have hb (b : Builtin) : Equiv.swap "x" "g" b.name = b.name := by
    cases b <;> exact Equiv.swap_apply_of_ne_of_ne (by decide) (by decide)
  have hp : entwined.hasNoHash = true := by decide +kernel
  exact ⟨⟨(Equiv.swap "x" "g").injective, hb, hp, by decide +kernel⟩,
    (Program.compile_rename (Equiv.swap "x" "g").injective hb hp).1⟩

end Marmoset
