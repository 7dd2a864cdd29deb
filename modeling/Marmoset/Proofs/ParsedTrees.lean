import Marmoset.Proofs.ErrorOrigins
import Marmoset.Proofs.Grammar

/-!
# Trees that were parsed

Not every tree comes from tokens.  In a tree that does, the operators are the ones of the language,
no statement is a block, and a function literal has a name where it is bound to one, and that name
only.

These are properties of what is read (`Phrase.Proper`), and reading makes trees of such parts only.
From them follows which errors cannot come up.

* **`Reads.proper`** — what is read is proper.
* **`Program.parsed_errors`** — what is known of a program that was parsed, in the compiler and in
  the evaluator.
-/

namespace Marmoset

/-! ## Function literals and their places -/

/-- A function literal in a tree. -/
structure FunctionLiteral where
  /-- What a `let` or an assignment binds it to, if it is the value there as it stands. -/
  bound : Option String
  /-- The name it has. -/
  name : Option String
deriving DecidableEq, Repr

mutual

/-- The function literals in an expression that is bound to `bound`. -/
def Expr.literals (bound : Option String) : Expr → List FunctionLiteral
  | .array items => Expr.literalsAll items
  | .hash pairs => Expr.literalsOfPairs pairs
  | .function name _ body => ⟨bound, name⟩ :: Stmt.literalsAll body
  | .unary _ right => right.literals none
  | .binary _ left right => left.literals none ++ right.literals none
  | .index left index => left.literals none ++ index.literals none
  | .cond condition yes none => condition.literals none ++ Stmt.literalsAll yes
  | .cond condition yes (some no) =>
    condition.literals none ++ Stmt.literalsAll yes ++ Stmt.literalsAll no
  | .call callee args => callee.literals none ++ Expr.literalsAll args
  | .ident _ | .integer _ | .float _ | .string _ | .boolean _ | .nil => []
termination_by structural e => e

/-- The function literals in a statement. -/
def Stmt.literals : Stmt → List FunctionLiteral
  | .define name value => value.literals (some name)
  | .assign (.ident name) value => value.literals (some name)
  | .assign target value => target.literals none ++ value.literals none
  | .ret value => value.literals none
  | .expr e => e.literals none
  | .block body => Stmt.literalsAll body
termination_by structural s => s

def Expr.literalsAll : List Expr → List FunctionLiteral
  | [] => []
  | e :: es => e.literals none ++ Expr.literalsAll es
termination_by structural es => es

def Expr.literalsOfPairs : List (Expr × Expr) → List FunctionLiteral
  | [] => []
  | (k, v) :: ps => k.literals none ++ v.literals none ++ Expr.literalsOfPairs ps
termination_by structural ps => ps

def Stmt.literalsAll : List Stmt → List FunctionLiteral
  | [] => []
  | s :: ss => s.literals ++ Stmt.literalsAll ss
termination_by structural ss => ss

end

/-! ## What is read -/

/-- Operators are known, there are no blocks, and function literals have the names they are bound
to.  The expression itself is not bound to a name. -/
structure Expr.Proper (e : Expr) : Prop where
  known : e.every isKnown Stmt.isPlain = true
  named : ∀ f ∈ e.literals none, f.name = f.bound

structure Stmt.Proper (s : Stmt) : Prop where
  known : s.every Expr.isKnown Stmt.isPlain = true
  named : ∀ f ∈ s.literals, f.name = f.bound

section

variable {es : List Expr} {ps : List (Expr × Expr)} {ss : List Stmt}

/-- The functions in proper expressions have the names they are bound to. -/
lemma Expr.named_of_all (h : ∀ e ∈ es, e.Proper) : ∀ f ∈ Expr.literalsAll es, f.name = f.bound := by
  induction es with
  | nil => simp [Expr.literalsAll]
  | cons e es ih =>
      obtain ⟨he, hes⟩ := List.forall_mem_cons.mp h
      exact List.forall_mem_append.mpr ⟨he.named, ih hes⟩

lemma Expr.named_of_pairs (h : ∀ p ∈ ps, p.1.Proper ∧ p.2.Proper) :
    ∀ f ∈ Expr.literalsOfPairs ps, f.name = f.bound := by
  induction ps with
  | nil => simp [Expr.literalsOfPairs]
  | cons p ps ih =>
      obtain ⟨⟨hk, hv⟩, hps⟩ := List.forall_mem_cons.mp h
      exact List.forall_mem_append.mpr ⟨List.forall_mem_append.mpr ⟨hk.named, hv.named⟩, ih hps⟩

lemma Stmt.named_of_all (h : ∀ s ∈ ss, s.Proper) : ∀ f ∈ Stmt.literalsAll ss, f.name = f.bound := by
  induction ss with
  | nil => simp [Stmt.literalsAll]
  | cons s ss ih =>
      obtain ⟨hs, hss⟩ := List.forall_mem_cons.mp h
      exact List.forall_mem_append.mpr ⟨hs.named, ih hss⟩

/-- Proper statements pass one by one. -/
lemma Stmt.everyOf_of_all (h : ∀ s ∈ ss, s.Proper) :
    Stmt.everyOf Expr.isKnown Stmt.isPlain ss = true :=
  Stmt.everyOf_iff.mpr fun s hs => (h s hs).known

end

namespace Expr.Proper

variable {e left right : Expr}

/-- A token that is an expression on its own holds no function. -/
lemma of_atom {t : Token} (h : t.atom? = some e) : e.Proper := by
  cases t with
  | ident | integer | float | string =>
      cases h
      exact ⟨rfl, List.forall_mem_nil _⟩
  | keyword k =>
      cases k with
      | trueWord | falseWord | nilWord =>
          cases h
          exact ⟨rfl, List.forall_mem_nil _⟩
      | _ => cases h
  | _ => cases h

/-- The items of an array are bound to no name. -/
lemma array {es : List Expr} (h : ∀ e ∈ es, e.Proper) : (Expr.array es).Proper where
  known := Bool.and_eq_true_iff.mpr ⟨rfl, Expr.everyOf_iff.mpr fun e he => (h e he).known⟩
  named := Expr.named_of_all h

/-- Neither are the keys and values of a hash. -/
lemma hash {ps : List (Expr × Expr)} (h : ∀ p ∈ ps, p.1.Proper ∧ p.2.Proper) :
    (Expr.hash ps).Proper where
  known := Bool.and_eq_true_iff.mpr
    ⟨rfl, Expr.everyPair_iff.mpr fun p hp => ⟨(h p hp).1.known, (h p hp).2.known⟩⟩
  named := Expr.named_of_pairs h

/-- A function that is not bound yet has no name. -/
lemma function (params : List String) {body : List Stmt} (h : ∀ s ∈ body, s.Proper) :
    (Expr.function none params body).Proper where
  known := Bool.and_eq_true_iff.mpr ⟨rfl, Stmt.everyOf_of_all h⟩
  named := List.forall_mem_cons.mpr ⟨rfl, Stmt.named_of_all h⟩

/-- A sign in front of an operand is a known operator. -/
lemma unary {s : Sign} (hs : s.isUnary = true) (h : right.Proper) :
    (Expr.unary s.text right).Proper where
  known := by
    have hop : (Operator.unary? s.text).isSome = true := by
      cases s <;> first | rfl | cases hs
    exact Bool.and_eq_true_iff.mpr ⟨hop, h.known⟩
  named := h.named

/-- A sign that joins two expressions is an operator, unless it opens a call or an index. -/
lemma binary {s : Sign} {power : Nat} (hs : power < s.power) (hparen : s ≠ .openParen)
    (hbracket : s ≠ .openBracket) (hl : left.Proper) (hr : right.Proper) :
    (Expr.binary s.text left right).Proper where
  known := by
    have hop : (Operator.binary? s.text).isSome = true := by
      cases s <;>
        first
          | rfl
          | exact absurd rfl hparen
          | exact absurd rfl hbracket
          | exact absurd hs (Nat.not_lt_zero _)
    exact Bool.and_eq_true_iff.mpr ⟨Bool.and_eq_true_iff.mpr ⟨hop, hl.known⟩, hr.known⟩
  named := List.forall_mem_append.mpr ⟨hl.named, hr.named⟩

lemma index (hl : left.Proper) (hi : right.Proper) : (Expr.index left right).Proper where
  known := Bool.and_eq_true_iff.mpr ⟨Bool.and_eq_true_iff.mpr ⟨rfl, hl.known⟩, hi.known⟩
  named := List.forall_mem_append.mpr ⟨hl.named, hi.named⟩

/-- A conditional without a second branch. -/
lemma cond {yes : List Stmt} (h : e.Proper) (hyes : ∀ s ∈ yes, s.Proper) :
    (Expr.cond e yes none).Proper where
  known :=
    Bool.and_eq_true_iff.mpr ⟨Bool.and_eq_true_iff.mpr ⟨rfl, h.known⟩, Stmt.everyOf_of_all hyes⟩
  named := List.forall_mem_append.mpr ⟨h.named, Stmt.named_of_all hyes⟩

/-- A conditional is proper if its condition and both branches are. -/
lemma condElse {yes no : List Stmt} (h : e.Proper) (hyes : ∀ s ∈ yes, s.Proper)
    (hno : ∀ s ∈ no, s.Proper) :
    (Expr.cond e yes (some no)).Proper where
  known := Bool.and_eq_true_iff.mpr ⟨Bool.and_eq_true_iff.mpr
    ⟨Bool.and_eq_true_iff.mpr ⟨rfl, h.known⟩, Stmt.everyOf_of_all hyes⟩, Stmt.everyOf_of_all hno⟩
  named := List.forall_mem_append.mpr
    ⟨List.forall_mem_append.mpr ⟨h.named, Stmt.named_of_all hyes⟩, Stmt.named_of_all hno⟩

/-- Neither callee nor arguments are bound to a name. -/
lemma call {args : List Expr} (h : e.Proper) (hargs : ∀ a ∈ args, a.Proper) :
    (Expr.call e args).Proper where
  known := Bool.and_eq_true_iff.mpr
    ⟨Bool.and_eq_true_iff.mpr ⟨rfl, h.known⟩, Expr.everyOf_iff.mpr fun a ha => (hargs a ha).known⟩
  named := List.forall_mem_append.mpr ⟨h.named, Expr.named_of_all hargs⟩

/-- What is bound to a name has the name if it is a function, and nothing else in it changes its
place. -/
lemma of_named (h : e.Proper) (n : String) :
    (e.named n).every isKnown Stmt.isPlain = true ∧ ∀ f ∈ (e.named n).literals (some n),
      f.name = f.bound := by
  cases e with
  | function name params body =>
      exact ⟨h.known, List.forall_mem_cons.mpr ⟨rfl, (List.forall_mem_cons.mp h.named).2⟩⟩
  | cond condition yes no =>
      cases no with
      | none => exact ⟨h.known, h.named⟩
      | some no => exact ⟨h.known, h.named⟩
  | _ => exact ⟨h.known, h.named⟩

end Expr.Proper

namespace Stmt.Proper

variable {value target : Expr}

/-- A function that is defined gets its name. -/
lemma define (n : String) (h : value.Proper) : (Stmt.define n (value.named n)).Proper :=
  ⟨Bool.and_eq_true_iff.mpr ⟨rfl, (h.of_named n).1⟩, (h.of_named n).2⟩

/-- So does one that is assigned to a name; a target that is no name gives none. -/
lemma assign (ht : target.Proper) (hv : value.Proper) :
    (Stmt.assign target (target.assignedTo value)).Proper := by
  have hother (h : (target.assignedTo value) = value) :
      (Stmt.assign target (target.assignedTo value)).every Expr.isKnown Stmt.isPlain = true := by
    rw [h]
    exact Bool.and_eq_true_iff.mpr ⟨Bool.and_eq_true_iff.mpr ⟨rfl, ht.known⟩, hv.known⟩
  cases target with
  | ident n =>
      exact ⟨Bool.and_eq_true_iff.mpr ⟨Bool.and_eq_true_iff.mpr ⟨rfl, ht.known⟩, (hv.of_named n).1⟩,
        (hv.of_named n).2⟩
  | _ => exact ⟨hother rfl, List.forall_mem_append.mpr ⟨ht.named, hv.named⟩⟩

end Stmt.Proper

/-- The trees of the phrase are proper. -/
def Phrase.Proper : Phrase → Prop
  | .expr _ e | .operand e => e.Proper
  | .more _ left e => left.Proper → e.Proper
  | .list _ es | .items _ es => ∀ e ∈ es, e.Proper
  | .pairs ps => ∀ p ∈ ps, p.1.Proper ∧ p.2.Proper
  | .parameters _ | .names _ => True
  | .block ss | .body ss | .program ss => ∀ s ∈ ss, s.Proper
  | .stmt s => s.Proper

/-- **What is read is proper.** -/
theorem Reads.proper {φ : Phrase} {c c' : Cursor} (h : Reads φ c c') : φ.Proper := by
  induction h with
  | expr _ _ ih ih' => exact ih' ih
  | stop _ => exact id
  | call _ _ _ _ ih ih' => exact fun hl => ih' (hl.call ih)
  | index _ _ _ _ _ ih ih' => exact fun hl => ih' (hl.index ih)
  | binary hpower hparen hbracket _ _ _ ih ih' =>
      exact fun hl => ih' (.binary hpower hparen hbracket hl ih)
  | atom ht _ => exact .of_atom ht
  | paren _ _ _ ih => exact ih
  | array _ _ ih => exact .array ih
  | hash _ _ ih => exact .hash ih
  | unary hs _ _ ih => exact .unary hs ih
  | cond _ _ _ _ _ _ ih ihyes => exact .cond ih ihyes
  | condElse _ _ _ _ _ _ _ ih ihyes ihno => exact .condElse ih ihyes ihno
  | function _ _ _ _ _ ih => exact .function _ ih
  | noItems _ | noPairs _ | endBody _ | endProgram _ => exact List.forall_mem_nil _
  | someItems _ _ ih => exact ih
  | lastItem _ _ _ ih => exact List.forall_mem_singleton.mpr ih
  | nextItem _ _ _ ih ih' => exact List.forall_mem_cons.mpr ⟨ih, ih'⟩
  | lastPair _ _ _ _ _ ihk ihv => exact List.forall_mem_singleton.mpr ⟨ihk, ihv⟩
  | nextPair _ _ _ _ _ _ ihk ihv ih => exact List.forall_mem_cons.mpr ⟨⟨ihk, ihv⟩, ih⟩
  | noNames _ | someNames _ _ _ | lastName _ _ | nextName _ _ _ _ => trivial
  | block _ _ ih => exact ih
  | skipInBody _ _ ih => exact ih
  | stmtInBody _ _ _ _ _ ih ih' => exact List.forall_mem_cons.mpr ⟨ih, ih'⟩
  | define _ _ _ _ ih => exact .define _ ih
  | ret _ _ ih => exact ⟨Bool.and_eq_true_iff.mpr ⟨rfl, ih.known⟩, ih.named⟩
  | assign _ _ _ _ _ ih ih' => exact .assign ih ih'
  | exprStmt _ _ _ _ ih => exact ⟨Bool.and_eq_true_iff.mpr ⟨rfl, ih.known⟩, ih.named⟩
  | skipInProgram _ _ ih => exact ih
  | stmtInProgram _ _ _ _ ih ih' => exact List.forall_mem_cons.mpr ⟨ih, ih'⟩

/-! ## Programs -/

/-- The compiler rejects a tree in which all operators are known for other reasons only. -/
lemma CompileError.Arises.of_isKnown {e : CompileError} {q : Stmt → Bool}
    (h : e.Arises Expr.isKnown q) :
    (∃ n, e = .undefinedVariable n) ∨ (∃ text, e = .invalidTarget text) ∨
      ∃ op n, e = .operandOverflow op n := by
  cases h with
  | name n => exact .inl ⟨n, rfl⟩
  | unary hp hop =>
      rw [Expr.isKnown, hop] at hp
      cases hp
  | binary hp hop =>
      rw [Expr.isKnown, hop] at hp
      cases hp
  | target _ _ => exact .inr (.inl ⟨_, rfl⟩)
  | overflow op n => exact .inr (.inr ⟨op, n, rfl⟩)

namespace Program

variable {ls : List Lexeme} {p : Program}

/-- So all statements of a parsed program are. -/
lemma proper_of_ofLexemes (h : ofLexemes ls = .ok p) : ∀ s ∈ p, s.Proper := by
  obtain ⟨ss, c', rfl, hr, -⟩ := Parser.reads_program h
  exact hr.proper

/-- **Operators that come from tokens are known.**  Let a program be parsed, from any tokens.  Then
whatever the compiler knows already it rejects the program for an unknown name, for a target that
nothing can be assigned to or for an operand that does not fit, and for nothing else.  The
evaluator, after any other parsed programs, never meets an unknown operator.  There is no block in
the program, and a function literal has a name exactly if it is bound to it as it stands. -/
theorem parsed_errors (h : ofLexemes ls = .ok p) :
    (∀ (c : Compiler) e, (c.compile p).1 = .error e →
      (∃ n, e = .undefinedVariable n) ∨ (∃ text, e = .invalidTarget text) ∨
      ∃ op n, e = .operandOverflow op n) ∧
    (∀ maxFrames ps, (∀ p' ∈ ps, ∃ ls', ofLexemes ls' = .ok p') → ∀ op,
      ((Evaluator.afterAll maxFrames ps).run p).1 ≠ .error (.unknownOperator op)) ∧
    Stmt.everyOf Expr.isKnown Stmt.isPlain p = true ∧
    ∀ f ∈ Stmt.literalsAll p, ∀ n, f.name = some n ↔ f.bound = some n := by
  have hproper := proper_of_ofLexemes h
  have hknown := Stmt.everyOf_of_all hproper
  refine ⟨fun c e he => (Compiler.arises_compile hknown he).of_isKnown,
    fun maxFrames ps hps op hop => ?_, hknown,
    fun f hf n => by rw [Stmt.named_of_all hproper f hf]⟩
  have hbodies := Evaluator.bodies_afterAll maxFrames fun p' hp' => by
    obtain ⟨ls', hls'⟩ := hps p' hp'
    exact Stmt.everyOf_of_all (proper_of_ofLexemes hls')
  exact ((Evaluator.arises_run hbodies hknown).2 _ hop).ne_unknownOperator op rfl

/-- Functions in all kinds of places: bound by a `let`, in parentheses, by an assignment, to an
element and in an array. -/
def nameless : List Lexeme :=
  Except.toOption
    (lex "let f = fn(x) { g = (fn() { !x }); [fn() { -1 <= 2 }] }; f[0] = fn() { 1 = fn() { } }")
    |>.getD []

set_option maxRecDepth 100000 in
/-- Only the first two functions are bound to a name, and have it. -/
theorem nameless_parsed :
    ∃ p, ofLexemes nameless = .ok p ∧
      Stmt.literalsAll p =
        [⟨some "f", some "f"⟩, ⟨some "g", some "g"⟩, ⟨none, none⟩, ⟨none, none⟩, ⟨none, none⟩] ∧
      (∀ (c : Compiler) e, (c.compile p).1 = .error e →
        (∃ n, e = .undefinedVariable n) ∨ (∃ text, e = .invalidTarget text) ∨
        ∃ op n, e = .operandOverflow op n) ∧
      (∀ maxFrames ps, (∀ p' ∈ ps, ∃ ls', ofLexemes ls' = .ok p') → ∀ op,
        ((Evaluator.afterAll maxFrames ps).run p).1 ≠ .error (.unknownOperator op)) ∧
      Stmt.everyOf Expr.isKnown Stmt.isPlain p = true ∧
      ∀ f ∈ Stmt.literalsAll p, ∀ n, f.name = some n ↔ f.bound = some n := by
  have hliterals : (ofLexemes nameless).toOption.map Stmt.literalsAll =
      some [⟨some "f", some "f"⟩, ⟨some "g", some "g"⟩, ⟨none, none⟩, ⟨none, none⟩,
        ⟨none, none⟩] := by
    decide +kernel
  cases h : ofLexemes nameless with
  | error e =>
      rw [h] at hliterals
      cases hliterals
  | ok p =>
      rw [h] at hliterals
      exact ⟨p, rfl, Option.some.inj hliterals, parsed_errors h⟩

end Program

end Marmoset
