import Marmoset.Proofs.ErrorOrigins
import Marmoset.Proofs.NameStanding

/-!
# What the compiler accepts and the evaluator still rejects

A program that can be compiled has no unknown operator and no target that nothing can be assigned
to, so that the evaluator never reports one.  Names are another matter.  The compiler takes a name
for known as soon as a binding of it stands before, also in a branch or in front of its own value
(`let a = a; a`), while the evaluator asks whether the binding was done.  So a name may be found
missing, but only where it is read in doubt (`Standing.doubtful`).

The scopes of the compiler have no name that no binding stands before (`Survey.Known`).  A function
is left without a trace in the scopes around it, except for names that come from further out
(`SymbolTable.KeepsOut`).

* **`Program.accepted_faults`** — what the evaluator reports of a program that can be compiled.
* `Program.accepted_not_found` — names do go missing in programs that can be compiled.
-/

namespace Marmoset

namespace SymbolTable

variable {n m : String} {t t' t'' : SymbolTable}

/-- No scope has the name. -/
def Lacks (n : String) (ss : List Scope) : Prop :=
  ∀ s ∈ ss, s.find? n = none

/-- The scopes around the current one get the name from further out only. -/
def KeepsOut (n : String) (t t' : SymbolTable) : Prop :=
  ∀ k, Lacks n (t.outer.drop k) → Lacks n (t'.outer.drop k)

/-- No scope of the table has the name. -/
def Lacking (n : String) (t : SymbolTable) : Prop :=
  Lacks n (t.current :: t.outer)

lemma KeepsOut.of_eq (h : t'.outer = t.outer) : KeepsOut n t t' := fun k hk => by rwa [h]

lemma KeepsOut.trans (h : KeepsOut n t t') (h' : KeepsOut n t' t'') : KeepsOut n t t'' :=
  fun k hk => h' k (h k hk)

/-- Resolving a name brings it only to scopes inside the one that has it. -/
lemma lacks_resolveIn {x : Symbol} {s s' : Scope} {os os' : List Scope}
    (h : resolveIn m s os = some (x, s', os')) :
    (∀ k, Lacks n (os.drop k) → Lacks n (os'.drop k)) ∧
      (Lacks n (s :: os) → m ≠ n ∧ Lacks n (s' :: os')) := by
  have hfound {s : Scope} {os : List Scope} {x : Symbol} (hx : s.find? m = some x)
      (hs : Lacks n (s :: os)) : m ≠ n := by
    rintro rfl
    cases hx.symm.trans (hs s List.mem_cons_self)
  induction os generalizing s s' os' x with
  | nil =>
      rcases resolveIn_cases h with ⟨hx, rfl, rfl⟩ | ⟨o, ol, o', ol', y, he, -⟩
      · exact ⟨fun _ hk => hk, fun hs => ⟨hfound hx hs, hs⟩⟩
      · cases he
  | cons o os ih =>
      rcases resolveIn_cases h with ⟨hx, rfl, rfl⟩ | ⟨o, ol, o', ol', y, he, rfl, -, ho, hy⟩
      · exact ⟨fun _ hk => hk, fun hs => ⟨hfound hx hs, hs⟩⟩
      · cases he
        obtain ⟨hout, hin⟩ := ih ho
        refine ⟨fun k hk => ?_, fun hs => ?_⟩
        · cases k with
          | zero => exact (hin hk).2
          | succ k => exact hout k hk
        · obtain ⟨hs, hos⟩ := List.forall_mem_cons.mp hs
          obtain ⟨hne, hos'⟩ := hin hos
          refine ⟨hne, List.forall_mem_cons.mpr ⟨?_, hos'⟩⟩
          rcases hy with ⟨-, -, rfl⟩ | ⟨-, -, rfl⟩
          · exact hs
          · have hname : y.name = m := name_of_resolveIn ho
            exact (Scope.find?_bind _ _ n).trans (by rw [if_neg (hname ▸ hne)]; exact hs)

/-- Defining another name does not help. -/
lemma Lacking.define (h : t.Lacking n) (hm : m ≠ n) : (t.define m).2.Lacking n := by
  obtain ⟨hs, hos⟩ := List.forall_mem_cons.mp h
  exact List.forall_mem_cons.mpr ⟨by rw [find?_define, if_neg hm]; exact hs, hos⟩

/-- Neither does assigning to another one. -/
lemma Lacking.assignable (h : t.Lacking n) (hm : m ≠ n) : (t.assignable m).2.Lacking n := by
  unfold SymbolTable.assignable
  split
  · split_ifs
    · exact h
    · exact h.define hm
  · exact h.define hm

/-- At the start of a function its own name and its parameters are known, and else what is known
around it. -/
lemma Lacking.entry (h : t.Lacking n) {name : Option String} {params : List String}
    (hname : name ≠ some n) (hparams : n ∉ params) : (t.entry name params).Lacking n := by
  obtain ⟨u, hu, houter, -, -, hfind⟩ := t.entry_eq name params
  refine List.forall_mem_cons.mpr ⟨?_, by rw [outer_entry]; exact h⟩
  rw [hu, find?_defineAll_of_notMem hparams, hfind, if_neg hname]

end SymbolTable

/-! ## The compiler keeps to the survey -/

open SymbolTable (Lacks Lacking KeepsOut)

/-- If the scopes lack the name wherever no binding of it stands before, the part does not read it
there, and they lack it behind the part wherever no binding stands before that. -/
def Survey.Known (n : String) (w : Survey) (t t' : SymbolTable) : Prop :=
  ∀ s, (s = .absent → t.Lacking n) → (∀ r ∈ (w s).1, r ≠ .absent) ∧
    ((w s).2 = .absent → t'.Lacking n)

namespace Survey.Known

variable {n m : String} {w w' : Survey} {t t₁ t' : SymbolTable}

lemma idle (n : String) (t : SymbolTable) : Known n .idle t t :=
  fun _ hs => ⟨by simp [Survey.idle], hs⟩

/-- A name that was resolved is one that some scope has. -/
lemma reading {x : Symbol} (h : t.resolve m = some (x, t')) : Known n (.reading (m == n)) t t' := by
  intro s hs
  have hlacks := (SymbolTable.lacks_resolveIn (n := n) (SymbolTable.resolve_eq_some h)).2
  refine ⟨fun r hr heq => ?_, fun heq => (hlacks (hs heq)).2⟩
  by_cases hm : m = n
  · subst hm
    have hr : r = s := by simpa [Survey.reading] using hr
    exact (hlacks (hs (hr ▸ heq))).1 rfl
  · rw [Survey.reading, beq_false_of_ne hm] at hr
    cases hr

/-- One part after the other. -/
lemma andThen (h : Known n w t t₁) (h' : Known n w' t₁ t') : Known n (w.andThen w') t t' := by
  intro s hs
  obtain ⟨hall, hafter⟩ := h s hs
  obtain ⟨hall', hafter'⟩ := h' _ hafter
  exact ⟨List.forall_mem_append.mpr ⟨hall, hall'⟩, hafter'⟩

/-- The compiler writes one branch after the other and knows in the second what the first binds. -/
lemma branches (h : Known n w t t₁) (h' : Known n w' t₁ t') : Known n (.branches w w') t t' := by
  intro s hs
  obtain ⟨hall, hafter⟩ := h s hs
  obtain ⟨hall', hafter'⟩ := h' (s.meet (w s).2) fun heq => hafter (Standing.meet_eq_absent heq).2
  exact ⟨List.forall_mem_append.mpr ⟨hall, hall'⟩,
    fun heq => hafter' (Standing.meet_eq_absent heq).2⟩

/-- A name is known before its value is compiled. -/
lemma binding (hm : m ≠ n → t.Lacking n → t₁.Lacking n) (h : Known n w t₁ t') :
    Known n (.binding (m == n) w) t t' := by
  intro s hs
  by_cases heq : m = n
  · rw [Survey.binding, heq, beq_self_eq_true, if_pos rfl]
    exact ⟨(h s.begun fun hb => absurd hb s.begun_ne_absent).1, fun hb => by cases hb⟩
  · rw [Survey.binding, beq_false_of_ne heq]
    exact h s fun hb => hm heq (hs hb)

/-- A function is left with the scopes around it, where no name was added but from further out. -/
lemma inside {name : Option String} {params : List String} (h : Known n w (t.entry name params) t₁)
    (hout : KeepsOut n (t.entry name params) t₁) {summary : ScopeSummary}
    (hleave : t₁.leave = some (summary, t')) :
    Known n (.inside (name == some n || params.contains n) w) t t' := by
  intro s hs
  refine ⟨(h _ fun hb => ?_).1, fun hb => ?_⟩
  · split_ifs at hb with hown
    rw [Bool.or_eq_true, not_or, beq_iff_eq, List.contains_iff_mem] at hown
    exact (hs hb).entry hown.1 hown.2
  · obtain ⟨o, os, ho, rfl, -⟩ := SymbolTable.leave_eq_some hleave
    have hlacks := hout 0 (by rw [SymbolTable.outer_entry]; exact hs hb)
    rw [ho] at hlacks
    exact hlacks

lemma last (h : Known n w t t') : Known n (.last w) t t' :=
  fun s hs => ⟨(h s hs).1, fun hb => by cases hb⟩

end Survey.Known

/-- How a name stands in a part. -/
def Part.survey (n : String) : Part → Survey
  | expr e => e.survey n
  | exprs es => Expr.surveyAll n es
  | pairs ps => .all (ps.map fun p => (p.1.survey n).andThen (p.2.survey n))
  | stmt s => s.survey n
  | stmts ss | branch ss => Stmt.surveyAll n ss

/-- A literal reads and binds nothing. -/
lemma Expr.survey_literal {e : Expr} (h : e.constant?.isSome = true ∨ e.immediate?.isSome = true)
    (n : String) :
    e.survey n = .idle := by
  cases e with
  | integer | float | string | boolean | nil => rfl
  | _ => rcases h with h | h <;> cases h

namespace Emits

variable {part : Part} {d d' : Draft} {pos : Nat} {is : List Instr}

/-- Scopes around the current one get a name from further out only. -/
theorem keepsOut (h : Emits part d pos is d') (n : String) : KeepsOut n d.symbols d'.symbols := by
  induction h with
  | ident resolved => exact (SymbolTable.lacks_resolveIn (SymbolTable.resolve_eq_some resolved)).1
  | constant _ | immediate _ | noExprs | noPairs | noStmts => exact .of_eq rfl
  | array _ ih | hash _ ih | unary _ _ ih | ret _ ih | expr _ ih | block _ ih | branch _ ih =>
      exact ih
  | function _ left _ _ _ _ _ ih =>
      obtain ⟨o, os, ho, rfl, -⟩ := SymbolTable.leave_eq_some left
      intro k hk
      have hlacks := ih (k + 1) (by rw [SymbolTable.outer_entry]; exact hk)
      rwa [ho] at hlacks
  | binary _ _ _ ih ih' | swapped _ _ _ ih ih' => exact ih.trans ih'
  | index _ _ ih ih' | call _ _ ih ih' | exprs _ _ ih ih' | stmts _ _ ih ih' => exact ih.trans ih'
  | cond _ _ _ ih ih' ih'' | pairs _ _ _ ih ih' ih'' | setIndex _ _ _ ih ih' ih'' =>
      exact (ih.trans ih').trans ih''
  | define _ ih => exact (KeepsOut.of_eq rfl).trans ih
  | assign _ ih => exact (KeepsOut.of_eq (SymbolTable.outer_assignable _ _)).trans ih

/-- **The compiler knows no name that no binding stands before.** -/
theorem known (h : Emits part d pos is d') (n : String) :
    (part.survey n).Known n d.symbols d'.symbols := by
  induction h with
  | ident resolved => exact .reading resolved
  | constant literal =>
      rw [Part.survey, Expr.survey_literal (.inl (by rw [literal]; rfl))]
      exact .idle n _
  | immediate literal =>
      rw [Part.survey, Expr.survey_literal (.inr (by rw [literal]; rfl))]
      exact .idle n _
  | noExprs | noPairs | noStmts => exact .idle n _
  | array _ ih | unary _ _ ih | expr _ ih | block _ ih | branch _ ih => exact ih
  | hash _ ih =>
      rw [Part.survey, Expr.survey_hash]
      exact ih
  | function hbody left _ _ _ _ _ ih => exact .inside ih (hbody.keepsOut n) left
  | binary known _ _ ih ih' =>
      rw [Part.survey, Expr.survey, known]
      exact ih.andThen ih'
  | swapped known _ _ ih ih' =>
      rw [Part.survey, Expr.survey, known]
      exact ih.andThen ih'
  | index _ _ ih ih' | call _ _ ih ih' | exprs _ _ ih ih' | stmts _ _ ih ih' => exact ih.andThen ih'
  | cond _ _ _ ih ih' ih'' =>
      rw [Part.survey, Expr.survey_cond]
      exact ih.andThen (ih'.branches ih'')
  | pairs _ _ _ ih ih' ih'' => exact (ih.andThen ih').andThen ih''
  | define _ ih => exact .binding (fun hm ht => ht.define hm) ih
  | assign _ ih => exact .binding (fun hm ht => ht.assignable hm) ih
  | setIndex _ _ _ ih ih' ih'' => exact ih.andThen (ih'.andThen ih'')
  | ret _ ih => exact ih.last

/-- **The compiler accepts known operators and targets only.** -/
theorem every (h : Emits part d pos is d') : part.every Expr.isKnown Stmt.isAssignable = true := by
  have hand {a b : Bool} (ha : a = true) (hb : b = true) : (a && b) = true :=
    Bool.and_eq_true_iff.mpr ⟨ha, hb⟩
  induction h with
  | ident _ | noExprs | noPairs | noStmts => rfl
  | @constant e _ _ _ literal =>
      cases e with
      | integer | float | string => rfl
      | _ => cases literal
  | @immediate e _ _ _ literal =>
      cases e with
      | boolean | nil => rfl
      | _ => cases literal
  | array _ ih | function _ _ _ _ _ _ _ ih | define _ ih | ret _ ih | expr _ ih | block _ ih =>
      exact hand rfl ih
  | hash _ ih =>
      have hpairs := Expr.everyPair_iff.mp ih
      exact hand rfl (Expr.everyPair_iff.mpr fun x hx => hpairs x (mem_sortedPairs.mpr hx))
  | unary known _ ih => exact hand (by rw [Expr.isKnown, known]; rfl) ih
  | binary known _ _ ih ih' => exact hand (hand (by rw [Expr.isKnown, known]; rfl) ih) ih'
  | swapped known _ _ ih ih' => exact hand (hand (by rw [Expr.isKnown, known]; rfl) ih') ih
  | index _ _ ih ih' | call _ _ ih ih' => exact hand (hand rfl ih) ih'
  | @cond _ _ no _ _ _ _ _ _ _ _ _ _ _ ih ih' ih'' =>
      cases no with
      | none => exact hand (hand rfl ih) ih'
      | some no => exact hand (hand (hand rfl ih) ih') ih''
  | exprs _ _ ih ih' | stmts _ _ ih ih' => exact hand ih ih'
  | pairs _ _ _ ih ih' ih'' => exact hand (hand ih ih') ih''
  | assign _ ih => exact hand (hand rfl rfl) ih
  | setIndex _ _ _ ih ih' ih'' => exact hand (hand rfl (hand (hand rfl ih) ih')) ih''
  | branch _ ih => exact ih

end Emits

/-! ## Programs -/

namespace Program

variable {p : Program}

/-- How a name stands in front of a program: the names of builtins are bound. -/
def standing (n : String) : Standing :=
  if (Builtin.ofName? n).isSome then .sure else .absent

/-- How a name stands wherever the program reads it. -/
def readings (n : String) (p : Program) : List Standing :=
  (Stmt.surveyAll n p (standing n)).1

/-- A new compiler knows no other names than those of builtins. -/
lemma lacking_fresh {n : String} (h : standing n = .absent) : Compiler.fresh.symbols.Lacking n := by
  refine List.forall_mem_singleton.mpr ?_
  cases hx : Compiler.fresh.symbols.current.find? n with
  | none => rfl
  | some x =>
      obtain ⟨b, hb, hname⟩ := Option.map_eq_some_iff.mp (find?_fresh hx).2
      have hfound : (Builtin.ofName? n).isSome = true :=
        List.find?_isSome.mpr ⟨b, List.mem_of_getElem? hb, beq_iff_eq.mpr hname⟩
      rw [standing, if_pos hfound] at h
      cases h

/-- The evaluator starts with the names of builtins bound. -/
lemma stands_fresh (n : String) (maxFrames : Nat) :
    (Evaluator.ofStore .empty maxFrames).store.Stands n
      (Evaluator.ofStore .empty maxFrames).environment
      (standing n) where
  inside := Nat.zero_lt_one
  stocked f hf := by
    change f ∈ (#[] : Array FunctionObject) at hf
    simp at hf
  knows h := by
    rw [standing] at h
    split_ifs at h with hbuiltin
    exact .inl hbuiltin

/-- A program that can be compiled has code. -/
lemma exists_emits (h : (Compiler.fresh.compile p).1 = .ok ()) :
    ∃ is d', Emits (.stmts p) Compiler.fresh.draft 0 is d' := by
  have hfresh : Compiler.fresh.Ready Builtin.table.length := Compiler.Reached.withBuiltins.ready
  obtain ⟨is, hem, -⟩ := hfresh.emits_of_ok .empty h
  exact ⟨is, _, hem⟩

/-- **What the evaluator reports of a program that can be compiled.**  With any limit of nested
calls it reports no unknown operator and no target that nothing can be assigned to.  It finds a name
missing only if the program reads the name in doubt: a binding of it stands before and need not have
been done, since it is in a branch, or since the name is read for the value that it is going to be
bound to. -/
theorem accepted_faults (h : (Compiler.fresh.compile p).1 = .ok ()) (maxFrames : Nat) {f : Fault}
    (hf : ((Evaluator.ofStore .empty maxFrames).run p).1 = .error f) :
    (∀ op, f ≠ .unknownOperator op) ∧ (∀ text, f ≠ .invalidTarget text) ∧
      ∀ n, f = .undefinedVariable n → .doubtful ∈ p.readings n := by
  obtain ⟨is, d', hem⟩ := exists_emits h
  have hbodies : (Evaluator.ofStore .empty maxFrames).store.Bodies Expr.isKnown Stmt.isAssignable :=
    Evaluator.bodies_afterAll maxFrames (List.forall_mem_nil _)
  have harises := (Evaluator.arises_run hbodies hem.every).2 f hf
  refine ⟨harises.ne_unknownOperator, harises.ne_invalidTarget, fun n hn => ?_⟩
  subst hn
  by_contra hdoubt
  -- Every reading is certain: the compiler rules out that no binding stands before.
  have hsure : ∀ r ∈ p.readings n, r = .sure := by
    intro r hr
    have habsent := (hem.known n (standing n) lacking_fresh).1 r hr
    cases r with
    | absent => exact absurd rfl habsent
    | doubtful => exact absurd hr hdoubt
    | sure => rfl
  exact Evaluator.finds_run (stands_fresh n maxFrames) hsure hf

/-- Whether the program can be compiled, while the evaluator finds the name missing. -/
def losesName (n : String) (p : Program) : Bool :=
  decide ((Compiler.fresh.compile p).1 = .ok ()) &&
    decide (((Evaluator.ofStore .empty 1024).run p).1 = .error (.undefinedVariable n))

lemma exists_of_losesName {text n : String} (h : (ofText text).toOption.any (losesName n) = true) :
    ∃ p, ofText text = .ok p ∧ (Compiler.fresh.compile p).1 = .ok () ∧
      ((Evaluator.ofStore .empty 1024).run p).1 = .error (.undefinedVariable n) := by
  cases hp : ofText text with
  | error e =>
      rw [hp] at h
      cases h
  | ok p =>
      rw [hp] at h
      obtain ⟨hcompile, hrun⟩ := Bool.and_eq_true_iff.mp h
      exact ⟨p, rfl, of_decide_eq_true hcompile, of_decide_eq_true hrun⟩

set_option maxRecDepth 100000 in
/-- Names do go missing in programs that can be compiled: one that is read for its own value, and
one that is bound in a branch that is not taken. -/
theorem accepted_not_found :
    (∃ p, ofText "let a = a; a" = .ok p ∧ (Compiler.fresh.compile p).1 = .ok () ∧
      ((Evaluator.ofStore .empty 1024).run p).1 = .error (.undefinedVariable "a")) ∧
    ∃ p, ofText "if (false) { let x = 1; } x" = .ok p ∧ (Compiler.fresh.compile p).1 = .ok () ∧
      ((Evaluator.ofStore .empty 1024).run p).1 = .error (.undefinedVariable "x") :=
  ⟨exists_of_losesName (by decide +kernel), exists_of_losesName (by decide +kernel)⟩

set_option maxRecDepth 100000 in
/-- The branch that binds the name is not taken, so it stays in doubt. -/
theorem passedBy_in_doubt :
    ∃ p, ofText "let f = fn(c) { if (c) { let x = 1; } x }; f(false)" = .ok p ∧
      (Compiler.fresh.compile p).1 = .ok () ∧
      ((Evaluator.ofStore .empty 1024).run p).1 = .error (.undefinedVariable "x") ∧
      .doubtful ∈ p.readings "x" := by
  have hloses : (ofText "let f = fn(c) { if (c) { let x = 1; } x }; f(false)").toOption.any
      (losesName "x") = true := by
    decide +kernel
  obtain ⟨p, hp, hcompile, hrun⟩ := exists_of_losesName hloses
  exact ⟨p, hp, hcompile, hrun, (accepted_faults hcompile 1024 hrun).2.2 "x" rfl⟩

set_option maxRecDepth 100000 in
/-- In the same program the other names are certain to be bound. -/
example : (ofText "let f = fn(c) { if (c) { let x = 1; } x }; f(false)").toOption.map
    (fun p => (p.readings "c", p.readings "f", p.readings "x")) =
      some ([.sure], [.sure], [.doubtful]) := by
  decide +kernel

end Program

end Marmoset
