import Marmoset.Proofs.DisciplinedPrograms
import Marmoset.Proofs.FunctionFree

/-!
# Closed expressions

A closed expression has no names but those of builtins, no function literals, and in its
conditionals nothing but expressions and returns.  As a program of one statement it binds nothing,
so that it is disciplined, and it makes no function, so that outcomes which match are equal.

* **`Expr.outcomes_equal_of_isClosed`** — both engines come to the same value or fault, with the
  same arrays and hashes in the same places, and print the same.
-/

namespace Marmoset

/-- Whether an expression may be in a closed one, whatever its parts are. -/
def Expr.isClosedAtTop : Expr → Bool
  | .ident n => (Builtin.ofName? n).isSome
  | .function _ _ _ => false
  | _ => true

/-- Whether a statement may be on a branch in a closed expression, whatever its parts are. -/
def Stmt.isExprOrRet : Stmt → Bool
  | .expr _ | .ret _ => true
  | _ => false

/-- Whether the expression is closed. -/
def Expr.isClosed (e : Expr) : Bool :=
  e.every Expr.isClosedAtTop Stmt.isExprOrRet

/-! ## Weaker conditions -/

/-- What holds of the expressions and statements that pass one test holds of a tree that passes it
throughout. -/
lemma Tree.closed_every {p p' : Expr → Bool} {q q' : Stmt → Bool}
    (hp : ∀ e, p e = true → p' e = true) (hq : ∀ s, q s = true → q' s = true) :
    Tree.Closed (fun e => e.every p q = true → e.every p' q' = true) fun s =>
      s.every p q = true → s.every p' q' = true where
  ident _ h := hp _ h
  integer _ h := hp _ h
  float _ h := hp _ h
  string _ h := hp _ h
  boolean _ h := hp _ h
  nil h := hp _ h
  array items ih h := by
    simp only [Expr.every, Bool.and_eq_true, Expr.everyOf_iff] at h ⊢
    exact ⟨hp _ h.1, fun e he => ih e he (h.2 e he)⟩
  hash pairs ih h := by
    simp only [Expr.every, Bool.and_eq_true, Expr.everyPair_iff] at h ⊢
    exact ⟨hp _ h.1, fun x hx => ⟨(ih x hx).1 (h.2 x hx).1, (ih x hx).2 (h.2 x hx).2⟩⟩
  function name params body ih h := by
    simp only [Expr.every, Bool.and_eq_true, Stmt.everyOf_iff] at h ⊢
    exact ⟨hp _ h.1, fun s hs => ih s hs (h.2 s hs)⟩
  unary op right ih h := by
    simp only [Expr.every, Bool.and_eq_true] at h ⊢
    exact ⟨hp _ h.1, ih h.2⟩
  binary op left right ih ih' h := by
    simp only [Expr.every, Bool.and_eq_true] at h ⊢
    exact ⟨⟨hp _ h.1.1, ih h.1.2⟩, ih' h.2⟩
  index left index ih ih' h := by
    simp only [Expr.every, Bool.and_eq_true] at h ⊢
    exact ⟨⟨hp _ h.1.1, ih h.1.2⟩, ih' h.2⟩
  cond condition yes no ih ihyes ihno h := by
    cases no with
    | none =>
        simp only [Expr.every, Bool.and_eq_true, Stmt.everyOf_iff] at h ⊢
        exact ⟨⟨hp _ h.1.1, ih h.1.2⟩, fun s hs => ihyes s hs (h.2 s hs)⟩
    | some no =>
        simp only [Expr.every, Bool.and_eq_true, Stmt.everyOf_iff] at h ⊢
        exact ⟨⟨⟨hp _ h.1.1.1, ih h.1.1.2⟩, fun s hs => ihyes s hs (h.1.2 s hs)⟩,
          fun s hs => ihno s hs (h.2 s hs)⟩
  call callee args ih ihargs h := by
    simp only [Expr.every, Bool.and_eq_true, Expr.everyOf_iff] at h ⊢
    exact ⟨⟨hp _ h.1.1, ih h.1.2⟩, fun e he => ihargs e he (h.2 e he)⟩
  define name value ih h := by
    simp only [Stmt.every, Bool.and_eq_true] at h ⊢
    exact ⟨hq _ h.1, ih h.2⟩
  assign target value ih ih' h := by
    simp only [Stmt.every, Bool.and_eq_true] at h ⊢
    exact ⟨⟨hq _ h.1.1, ih h.1.2⟩, ih' h.2⟩
  ret value ih h := by
    simp only [Stmt.every, Bool.and_eq_true] at h ⊢
    exact ⟨hq _ h.1, ih h.2⟩
  expr e ih h := by
    simp only [Stmt.every, Bool.and_eq_true] at h ⊢
    exact ⟨hq _ h.1, ih h.2⟩
  block body ih h := by
    simp only [Stmt.every, Bool.and_eq_true, Stmt.everyOf_iff] at h ⊢
    exact ⟨hq _ h.1, fun s hs => ih s hs (h.2 s hs)⟩

/-! ## Closed expressions bind nothing -/

/-- No name is bound. -/
def Mentions.BindsNothing (a : Mentions) : Prop :=
  a.binds = [] ∧ a.lets = []

lemma Mentions.BindsNothing.append {a b : Mentions} (ha : a.BindsNothing) (hb : b.BindsNothing) :
    (a ++ b).BindsNothing := by
  refine ⟨?_, ?_⟩
  · rw [binds_append, ha.1, hb.1, List.append_nil]
  · rw [lets_append, ha.2, hb.2, List.append_nil]

lemma Mentions.bindsNothing_empty : ({} : Mentions).BindsNothing :=
  ⟨rfl, rfl⟩

lemma Expr.bindsNothing_mentionsAll {es : List Expr} (h : ∀ e ∈ es, e.mentions.BindsNothing) :
    (Expr.mentionsAll es).BindsNothing := by
  induction es with
  | nil => exact Mentions.bindsNothing_empty
  | cons e es ih =>
      obtain ⟨he, hes⟩ := List.forall_mem_cons.mp h
      exact he.append (ih hes)

lemma Expr.bindsNothing_mentionsPairs {ps : List (Expr × Expr)}
    (h : ∀ x ∈ ps, x.1.mentions.BindsNothing ∧ x.2.mentions.BindsNothing) :
    (Expr.mentionsPairs ps).BindsNothing := by
  induction ps with
  | nil => exact Mentions.bindsNothing_empty
  | cons x ps ih =>
      obtain ⟨hx, hps⟩ := List.forall_mem_cons.mp h
      exact (hx.1.append hx.2).append (ih hps)

lemma Stmt.bindsNothing_mentionsAll {ss : List Stmt} (h : ∀ s ∈ ss, s.mentions.BindsNothing) :
    (Stmt.mentionsAll ss).BindsNothing := by
  induction ss with
  | nil => exact Mentions.bindsNothing_empty
  | cons s ss ih =>
      obtain ⟨hs, hss⟩ := List.forall_mem_cons.mp h
      exact hs.append (ih hss)

/-- Only statements bind names, and only some of them. -/
lemma Tree.closed_bindsNothing (p : Expr → Bool) :
    Tree.Closed (fun e => e.every p Stmt.isExprOrRet = true → e.mentions.BindsNothing)
      fun s => s.every p Stmt.isExprOrRet = true → s.mentions.BindsNothing where
  ident _ _ := ⟨rfl, rfl⟩
  integer _ _ := ⟨rfl, rfl⟩
  float _ _ := ⟨rfl, rfl⟩
  string _ _ := ⟨rfl, rfl⟩
  boolean _ _ := ⟨rfl, rfl⟩
  nil _ := ⟨rfl, rfl⟩
  array items ih h := by
    have hitems := Expr.everyOf_iff.mp (Bool.and_eq_true_iff.mp h).2
    exact Expr.bindsNothing_mentionsAll fun e he => ih e he (hitems e he)
  hash pairs ih h := by
    have hpairs := Expr.everyPair_iff.mp (Bool.and_eq_true_iff.mp h).2
    exact Expr.bindsNothing_mentionsPairs fun x hx =>
      ⟨(ih x hx).1 (hpairs x hx).1, (ih x hx).2 (hpairs x hx).2⟩
  function _ _ _ _ _ := ⟨rfl, rfl⟩
  unary op right ih h := ih (Bool.and_eq_true_iff.mp h).2
  binary op left right ih ih' h := by
    obtain ⟨⟨-, hl⟩, hr⟩ := (Bool.and_eq_true_iff.mp h).imp_left Bool.and_eq_true_iff.mp
    exact (ih hl).append (ih' hr)
  index left index ih ih' h := by
    obtain ⟨⟨-, hl⟩, hi⟩ := (Bool.and_eq_true_iff.mp h).imp_left Bool.and_eq_true_iff.mp
    exact (ih hl).append (ih' hi)
  cond condition yes no ih ihyes ihno h := by
    obtain ⟨hc, hyes, hno⟩ := Expr.every_cond h
    rw [Expr.mentions_cond]
    refine ((ih hc).append (Stmt.bindsNothing_mentionsAll fun s hs => ?_)).append
      (Stmt.bindsNothing_mentionsAll fun s hs => ?_)
    · exact ihyes s hs (Stmt.everyOf_iff.mp hyes s hs)
    · exact ihno s hs (Stmt.everyOf_iff.mp hno s hs)
  call callee args ih ihargs h := by
    obtain ⟨⟨-, hf⟩, hargs⟩ := (Bool.and_eq_true_iff.mp h).imp_left Bool.and_eq_true_iff.mp
    exact (ih hf).append
      (Expr.bindsNothing_mentionsAll fun e he => ihargs e he (Expr.everyOf_iff.mp hargs e he))
  define _ _ _ h := by cases h
  assign _ _ _ _ h := by cases h
  ret value ih h := ih h
  expr e ih h := ih h
  block _ _ h := by cases h

namespace Expr

variable {e : Expr}

lemma isDisciplined_of_isNoFunction {e : Expr} (h : e.isNoFunction = true) :
    e.isDisciplined = true := by
  cases e with
  | function _ _ _ => cases h
  | _ => rfl

/-- In a closed expression there are neither function literals nor blocks. -/
lemma everyOf_of_isClosed (h : e.isClosed = true) :
    Stmt.everyOf isNoFunction Stmt.isPlain [.expr e] = true := by
  have hfree : e.every isNoFunction Stmt.isPlain = true := by
    refine (Tree.closed_every (fun e he => ?_) fun s hs => ?_).forall_expr e h
    · cases e with
      | function _ _ _ => cases he
      | _ => rfl
    · cases s with
      | block _ => cases hs
      | _ => rfl
  exact Stmt.everyOf_iff.mpr fun s hs => by
    cases List.mem_singleton.mp hs
    exact hfree

/-- A closed expression is a disciplined program. -/
lemma disciplined_of_isClosed (h : e.isClosed = true) : Program.Disciplined [.expr e] := by
  obtain ⟨hbinds, hlets⟩ := (Tree.closed_bindsNothing isClosedAtTop).forall_expr e h
  have hmentions : (Stmt.mentionsAll [.expr e]).binds = [] := (List.append_nil _).trans hbinds
  have hbinds' : (Stmt.expr e).mentions.binds = [] := hbinds
  refine ⟨⟨⟨fun n _ hn => ?_, fun n hn => ?_, hlets, nofun⟩, trivial⟩, ?_⟩
  · rw [hmentions] at hn
    cases hn
  · rw [hbinds'] at hn
    cases hn
  · refine Stmt.everyOf_iff.mpr fun s hs => ?_
    exact (Tree.closed_every (fun _ => isDisciplined_of_isNoFunction) fun _ hq => hq).forall_stmt s
      (Stmt.everyOf_iff.mp (everyOf_of_isClosed h) s hs)

/-- **The engines agree exactly on closed expressions.**  If such an expression can be compiled and
the stack does not overflow, the machine comes to the very value or fault that the evaluator comes
to. -/
theorem outcomes_equal_of_isClosed {limits : Limits} (h : e.isClosed = true)
    (hl : limits.areFeasible = true) (hok : (Compiler.fresh.compile [.expr e]).1 = .ok ())
    (hstack : ∀ n m, (Program.machine [.expr e] limits).run n ≠ .fault .stackOverflow m) :
    ∃ n, ((Program.machine [.expr e] limits).run n).Equals (Program.evaluate [.expr e] limits) := by
  obtain ⟨n, hn⟩ :=
    (Site.performs_awaits (Program.site [.expr e] limits).callsAgree).program hl hok rfl hstack
      ((disciplined_of_isClosed h).awaits limits)
  exact ⟨n, hn.equals (Program.functions_evaluate (everyOf_of_isClosed h) limits)⟩

/-- A return from a branch in the middle of an array, behind a call that prints and operands that
are evaluated from right to left. -/
def escaping : Expr :=
  .array [.call (.ident "puts")
    [.binary "<" (.unary "-" (.integer 1)) (.call (.ident "len") [.string "ab"])],
    .cond (.binary "||" (.boolean false) (.binary "<=" (.integer 1) (.integer 2)))
      [.expr (.hash [(.string "k", .unary "!" .nil)]),
        .ret (.index (.array [.integer 7, .nil]) (.call (.ident "first") [.array [.integer 0]]))]
      (some [.expr (.call (.ident "puts") [.string "not reached"])]),
    .binary "+" (.boolean false) .nil]

set_option maxRecDepth 100000 in
theorem escaping_equal :
    escaping.isClosed = true ∧ (Compiler.fresh.compile [.expr escaping]).1 = .ok () ∧
      (∀ n m, (Program.machine [.expr escaping] ⟨64, 16, 1000⟩).run n ≠ .fault .stackOverflow m) ∧
      ∃ n, ((Program.machine [.expr escaping] ⟨64, 16, 1000⟩).run n).Equals
        (Program.evaluate [.expr escaping] ⟨64, 16, 1000⟩) := by
  have hclosed : escaping.isClosed = true := by decide +kernel
  have hok : (Compiler.fresh.compile [.expr escaping]).1 = .ok () := by decide +kernel
  have hdone : ((Program.machine [.expr escaping] ⟨64, 16, 1000⟩).run 1000).value? =
      some (.integer 7) := by
    decide +kernel
  have hstack (n : Nat) (m : Machine) :
      (Program.machine [.expr escaping] ⟨64, 16, 1000⟩).run n ≠ .fault .stackOverflow m :=
    Machine.run_ne_fault hdone n
  exact ⟨hclosed, hok, hstack, outcomes_equal_of_isClosed hclosed (by decide) hok hstack⟩

end Expr

end Marmoset
