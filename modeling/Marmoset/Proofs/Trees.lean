import Marmoset.Compiler
import Mathlib.Tactic.Common

/-!
# Induction over syntax trees

Expressions and statements hold each other, through lists, pairs and options.  `Tree.Closed` says of
a property of expressions and one of statements that each constructor hands them on from its parts,
and `Tree.Closed.forall_expr`, `Tree.Closed.forall_stmt` conclude that they hold of every tree.

The pairs of a hash literal are worked on in the order of the texts of their keys (`sortedPairs`);
sorting what is done for each pair comes to the same (`byText_pairs`).
-/

namespace Marmoset

/-- What holds of the parts of a tree holds of the tree. -/
structure Tree.Closed (P : Expr → Prop) (Q : Stmt → Prop) : Prop where
  ident : ∀ name, P (.ident name)
  integer : ∀ n, P (.integer n)
  float : ∀ x, P (.float x)
  string : ∀ s, P (.string s)
  boolean : ∀ b, P (.boolean b)
  nil : P .nil
  array : ∀ items, (∀ e ∈ items, P e) → P (.array items)
  hash : ∀ pairs, (∀ p ∈ pairs, P p.1 ∧ P p.2) → P (.hash pairs)
  function : ∀ name params body, (∀ s ∈ body, Q s) → P (.function name params body)
  unary : ∀ op right, P right → P (.unary op right)
  binary : ∀ op left right, P left → P right → P (.binary op left right)
  index : ∀ left index, P left → P index → P (.index left index)
  cond : ∀ condition yes no, P condition → (∀ s ∈ yes, Q s) → (∀ s ∈ no.getD [], Q s) →
    P (.cond condition yes no)
  call : ∀ callee args, P callee → (∀ e ∈ args, P e) → P (.call callee args)
  define : ∀ name value, P value → Q (.define name value)
  assign : ∀ target value, P target → P value → Q (.assign target value)
  ret : ∀ value, P value → Q (.ret value)
  expr : ∀ e, P e → Q (.expr e)
  block : ∀ body, (∀ s ∈ body, Q s) → Q (.block body)

namespace Tree.Closed

variable {P : Expr → Prop} {Q : Stmt → Prop}

mutual

theorem forall_expr (h : Tree.Closed P Q) : (e : Expr) → P e
  | .ident _ => h.ident _
  | .integer _ => h.integer _
  | .float _ => h.float _
  | .string _ => h.string _
  | .boolean _ => h.boolean _
  | .nil => h.nil
  | .array items => h.array items (forall_exprs h items)
  | .hash pairs => h.hash pairs (forall_pairs h pairs)
  | .function _ _ body => h.function _ _ body (forall_stmts h body)
  | .unary _ right => h.unary _ right (forall_expr h right)
  | .binary _ left right => h.binary _ left right (forall_expr h left) (forall_expr h right)
  | .index left index => h.index left index (forall_expr h left) (forall_expr h index)
  | .cond condition yes none =>
      h.cond condition yes none (forall_expr h condition) (forall_stmts h yes) (by simp)
  | .cond condition yes (some no) =>
      h.cond condition yes (some no) (forall_expr h condition) (forall_stmts h yes)
        (forall_stmts h no)
  | .call callee args => h.call callee args (forall_expr h callee) (forall_exprs h args)
termination_by structural e => e

theorem forall_stmt (h : Tree.Closed P Q) : (s : Stmt) → Q s
  | .define _ value => h.define _ value (forall_expr h value)
  | .assign target value => h.assign target value (forall_expr h target) (forall_expr h value)
  | .ret value => h.ret value (forall_expr h value)
  | .expr e => h.expr e (forall_expr h e)
  | .block body => h.block body (forall_stmts h body)
termination_by structural s => s

theorem forall_exprs (h : Tree.Closed P Q) : (es : List Expr) → ∀ e ∈ es, P e
  | [] => by simp
  | e :: es => List.forall_mem_cons.mpr ⟨forall_expr h e, forall_exprs h es⟩
termination_by structural es => es

theorem forall_pairs (h : Tree.Closed P Q) : (ps : List (Expr × Expr)) → ∀ p ∈ ps, P p.1 ∧ P p.2
  | [] => by simp
  | (k, v) :: ps => List.forall_mem_cons.mpr ⟨⟨forall_expr h k, forall_expr h v⟩, forall_pairs h ps⟩
termination_by structural ps => ps

theorem forall_stmts (h : Tree.Closed P Q) : (ss : List Stmt) → ∀ s ∈ ss, Q s
  | [] => by simp
  | s :: ss => List.forall_mem_cons.mpr ⟨forall_stmt h s, forall_stmts h ss⟩
termination_by structural ss => ss

end

end Tree.Closed

/-! ## Pairs of a hash literal -/

/-- The pairs in the order of the texts of their keys. -/
def sortedPairs (pairs : List (Expr × Expr)) : List (Expr × Expr) :=
  (byText (pairs.map fun p => (p.1.text, p))).map Prod.snd

/-- Sorting by text does not look at what comes with the texts. -/
lemma byText_map {α β : Type} (f : α → β) (xs : List (String × α)) :
    byText (xs.map (Prod.map id f)) = (byText xs).map (Prod.map id f) := by
  rw [byText, byText, List.map_mergeSort]
  intro a _ b _
  rfl

lemma perm_sortedPairs (pairs : List (Expr × Expr)) : (sortedPairs pairs).Perm pairs := by
  have h : (byText (pairs.map fun p => (p.1.text, p))).Perm (pairs.map fun p => (p.1.text, p)) :=
    List.mergeSort_perm _ _
  have h' := h.map Prod.snd
  rwa [List.map_map, show (Prod.snd ∘ fun p : Expr × Expr => (p.1.text, p)) = id from rfl,
    List.map_id] at h'

lemma mem_sortedPairs {p : Expr × Expr} {pairs : List (Expr × Expr)} :
    p ∈ sortedPairs pairs ↔ p ∈ pairs :=
  (perm_sortedPairs pairs).mem_iff

lemma length_sortedPairs (pairs : List (Expr × Expr)) : (sortedPairs pairs).length = pairs.length :=
  (perm_sortedPairs pairs).length_eq

/-- Sorting what is done for each pair is doing it for the sorted pairs. -/
lemma byText_pairs {α : Type} (f : Expr × Expr → α) (pairs : List (Expr × Expr)) :
    (byText (pairs.map fun p => (p.1.text, f p))).map Prod.snd = (sortedPairs pairs).map f := by
  have h : (pairs.map fun p => (p.1.text, f p)) =
      (pairs.map fun p => (p.1.text, p)).map (Prod.map id f) := by
    simp
  rw [h, byText_map, sortedPairs, List.map_map, List.map_map]
  rfl

lemma compilePairs_eq (pairs : List (Expr × Expr)) :
    Expr.compilePairs pairs = pairs.map fun p => (p.1.text, do p.1.compile; p.2.compile) := by
  induction pairs with
  | nil => rfl
  | cons p pairs ih =>
      rw [Expr.compilePairs, ih]
      rfl

/-! ## Programs with a value -/

/-- Whether the last statement of a program is an expression, whose value is that of the program. -/
def Program.endsInExpr (p : Program) : Bool :=
  match p.getLast? with
  | some (.expr _) => true
  | _ => false

lemma Program.exists_of_endsInExpr {p : Program} (h : p.endsInExpr = true) :
    ∃ ss e, p = ss ++ [.expr e] := by
  unfold endsInExpr at h
  split at h
  · rename_i e hlast
    obtain ⟨ss, hss⟩ := List.getLast?_eq_some_iff.mp hlast
    exact ⟨ss, e, hss⟩
  · cases h

end Marmoset
