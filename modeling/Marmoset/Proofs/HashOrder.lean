import Marmoset.Proofs.UnboundedEvaluation

/-!
# The order of the pairs of a hash literal

The pairs of a hash literal are compiled and evaluated in the order of the texts of their keys, and
those whose keys have the same text in the order of the source.  So the order of the source is seen
in nothing that the engines do, as long as pairs with the same text do not change places among each
other.

* `filter_byText` — sorting keeps the pairs with a given text as they are.
* **`byText_eq_of_filter_eq`** — the sorted list depends on nothing else.
* **`Expr.hash_order_unseen`** — two literals with the same pairs are compiled and evaluated alike.
-/

namespace Marmoset

/-! ## Sorting by text -/

section

variable {α : Type}

lemma byText_trans (a b c : String × α) (hab : decide (a.1 ≤ b.1) = true)
    (hbc : decide (b.1 ≤ c.1) = true) :
    decide (a.1 ≤ c.1) = true :=
  decide_eq_true (String.le_trans (of_decide_eq_true hab) (of_decide_eq_true hbc))

lemma byText_total (a b : String × α) : (decide (a.1 ≤ b.1) || decide (b.1 ≤ a.1)) = true := by
  rw [Bool.or_eq_true, decide_eq_true_eq, decide_eq_true_eq]
  exact String.le_total a.1 b.1

lemma pairwise_byText (xs : List (String × α)) : (byText xs).Pairwise fun a b => a.1 ≤ b.1 :=
  (List.pairwise_mergeSort byText_trans byText_total xs).imp of_decide_eq_true

/-- **Sorting is stable**: the pairs with a given text stay as they are. -/
lemma filter_byText (xs : List (String × α)) (t : String) :
    (byText xs).filter (fun x => x.1 == t) = xs.filter fun x => x.1 == t := by
  have htext {x : String × α} (hx : x ∈ xs.filter fun x => x.1 == t) : x.1 = t :=
    eq_of_beq (List.mem_filter.mp hx).2
  -- the pairs with this text are a part that is in order already, and such a part is not torn apart
  have hsorted : (xs.filter fun x => x.1 == t).Pairwise fun a b => decide (a.1 ≤ b.1) = true := by
    refine List.pairwise_of_forall_mem_list fun a ha b hb => decide_eq_true ?_
    have heq : a.1 = b.1 := (htext ha).trans (htext hb).symm
    exact heq ▸ String.le_refl a.1
  have hpart : (xs.filter fun x => x.1 == t).Sublist (byText xs) :=
    List.sublist_mergeSort byText_trans byText_total hsorted List.filter_sublist
  have hsub := hpart.filter fun x => x.1 == t
  rw [List.filter_filter] at hsub
  simp only [Bool.and_self] at hsub
  have hlength :=
    ((List.mergeSort_perm xs fun a b => decide (a.1 ≤ b.1)).filter fun x => x.1 == t).length_eq
  exact (hsub.eq_of_length hlength.symm).symm

lemma mem_iff_of_filter_eq {xs ys : List (String × α)}
    (h : ∀ t, xs.filter (fun x => x.1 == t) = ys.filter fun x => x.1 == t) (z : String × α) :
    z ∈ xs ↔ z ∈ ys := by
  have hz : (z ∈ xs.filter fun x => x.1 == z.1) ↔ z ∈ ys.filter fun x => x.1 == z.1 := by rw [h z.1]
  simpa using hz

/-- In a list that is in order no text comes before the first one. -/
lemma le_of_pairwise_cons {x y : String × α} {xs : List (String × α)}
    (h : (x :: xs).Pairwise fun a b => a.1 ≤ b.1) (hy : y ∈ x :: xs) : x.1 ≤ y.1 := by
  rcases List.mem_cons.mp hy with rfl | hy
  · exact String.le_refl _
  · exact (List.pairwise_cons.mp h).1 y hy

/-- A list in the order of its texts is known by its parts with the same text. -/
lemma eq_of_filter_eq {xs ys : List (String × α)} (hx : xs.Pairwise fun a b => a.1 ≤ b.1)
    (hy : ys.Pairwise fun a b => a.1 ≤ b.1)
    (h : ∀ t, xs.filter (fun x => x.1 == t) = ys.filter fun x => x.1 == t) : xs = ys := by
  have hmem := mem_iff_of_filter_eq h
  induction xs generalizing ys with
  | nil =>
      exact (List.eq_nil_iff_forall_not_mem.mpr fun z hz => List.not_mem_nil ((hmem z).mpr hz)).symm
  | cons x xs ih =>
      cases ys with
      | nil => exact absurd ((hmem x).mp List.mem_cons_self) List.not_mem_nil
      | cons y ys =>
          have htext : x.1 = y.1 :=
            String.le_antisymm (le_of_pairwise_cons hx ((hmem y).mpr List.mem_cons_self))
              (le_of_pairwise_cons hy ((hmem x).mp List.mem_cons_self))
          -- both lists begin with the part that has the least text
          have hheads := h x.1
          rw [List.filter_cons, List.filter_cons, if_pos (beq_self_eq_true x.1),
            if_pos (beq_iff_eq.mpr htext.symm)] at hheads
          obtain ⟨rfl, -⟩ := List.cons.inj hheads
          have hrest (t : String) : xs.filter (fun x => x.1 == t) = ys.filter fun x =>
            x.1 == t := by
            have ht := h t
            rw [List.filter_cons, List.filter_cons] at ht
            split_ifs at ht
            · exact (List.cons.inj ht).2
            · exact ht
          rw [ih (List.pairwise_cons.mp hx).2 (List.pairwise_cons.mp hy).2 hrest
            (mem_iff_of_filter_eq hrest)]

/-- **Sorting by text is canonical**: lists that have the same parts with the same text are sorted
to the same list. -/
theorem byText_eq_of_filter_eq {xs ys : List (String × α)}
    (h : ∀ t, xs.filter (fun x => x.1 == t) = ys.filter fun x => x.1 == t) :
    byText xs = byText ys :=
  eq_of_filter_eq (pairwise_byText xs) (pairwise_byText ys) fun t =>
    by rw [filter_byText, filter_byText, h t]

end

/-! ## Pairs in another order -/

/-- The same pairs in another order: those whose keys have the same text come in the same order
among each other. -/
structure Reordered (ps qs : List (Expr × Expr)) : Prop where
  perm : ps.Perm qs
  ties : ∀ t, ps.filter (fun p => p.1.text == t) = qs.filter fun p => p.1.text == t

namespace Reordered

variable {ps qs : List (Expr × Expr)}

/-- If no two keys have the same text any order will do. -/
lemma of_nodup (hperm : ps.Perm qs) (hd : (ps.map fun p => p.1.text).Nodup) : Reordered ps qs := by
  refine ⟨hperm, fun t => ?_⟩
  have hps : ps.Pairwise fun p q => p.1.text ≠ q.1.text := List.pairwise_map.mp hd
  have hqs : qs.Pairwise fun p q => p.1.text ≠ q.1.text :=
    (hperm.pairwise_iff fun hne => hne.symm).mp hps
  -- at most one pair has the text `t`
  refine (hperm.filter _).eq_of_pairwise (fun p q hp hq hne _ => absurd ?_ hne) (hps.filter _)
    (hqs.filter _)
  exact (eq_of_beq (List.mem_filter.mp hp).2).trans (eq_of_beq (List.mem_filter.mp hq).2).symm

/-- **The pairs are worked on in the same order.** -/
theorem byText_eq {α : Type} (h : Reordered ps qs) (f : Expr × Expr → α) :
    byText (ps.map fun p => (p.1.text, f p)) = byText (qs.map fun p => (p.1.text, f p)) := by
  refine byText_eq_of_filter_eq fun t => ?_
  rw [List.filter_map, List.filter_map]
  exact congrArg _ (h.ties t)

lemma sortedPairs_eq (h : Reordered ps qs) : sortedPairs ps = sortedPairs qs :=
  congrArg (List.map Prod.snd) (h.byText_eq fun p => p)

lemma compile_eq (h : Reordered ps qs) : (Expr.hash ps).compile = (Expr.hash qs).compile := by
  rw [Expr.compile, Expr.compile, compilePairs_eq, compilePairs_eq, h.byText_eq, h.perm.length_eq]

lemma eval_eq (h : Reordered ps qs) (call : Nat → List Value → Eval Value) (env : Nat) :
    (Expr.hash ps).eval call env = (Expr.hash qs).eval call env := by
  rw [Expr.eval, Expr.eval, Expr.evalPairs_eq, Expr.evalPairs_eq, h.byText_eq]

/-- The same for the evaluator that counts its calls. -/
lemma unbounded_eq (h : Reordered ps qs) (maxFrames limit env : Nat) :
    Unbounded.expr maxFrames limit env (.hash ps) =
      Unbounded.expr maxFrames limit env (.hash qs) := by
  cases limit with
  | zero => rfl
  | succ limit =>
      rw [Unbounded.expr, Unbounded.expr]
      simp only [h.sortedPairs_eq]

end Reordered

/-- **The order of the pairs is not seen.**  Let the pairs of two hash literals be the same in
another order, and either all texts of keys be different, or pairs with the same text of their keys
be in the same order among each other.  From every state of the compiler both literals have the same
outcome, code or error, and lead to the same state: code, constants, names and the last instructions
written.  From every store, in every environment and however deep calls are nested, both are
evaluated to the same value or exit, and leave the same store and the same output. -/
theorem Expr.hash_order_unseen {ps qs : List (Expr × Expr)}
    (h : ps.Perm qs ∧ (ps.map fun p => p.1.text).Nodup ∨ Reordered ps qs) :
    (∀ c : Compiler, (Expr.hash ps).compile c = (Expr.hash qs).compile c) ∧
      (∀ (maxFrames left env : Nat) (σ : Store),
        (Expr.hash ps).eval (Evaluator.callFunction maxFrames left) env σ =
          (Expr.hash qs).eval (Evaluator.callFunction maxFrames left) env σ) ∧
      ∀ (maxFrames limit env depth : Nat) (σ : Store),
        Unbounded.expr maxFrames limit env (.hash ps) (depth, σ) =
          Unbounded.expr maxFrames limit env (.hash qs) (depth, σ) := by
  have hre : Reordered ps qs := h.elim (fun hd => .of_nodup hd.1 hd.2) id
  exact ⟨fun c => congrFun hre.compile_eq c,
    fun maxFrames left env σ => congrFun (hre.eval_eq _ env) σ,
    fun maxFrames limit env depth σ => congrFun (hre.unbounded_eq maxFrames limit env) (depth, σ)⟩

/-- Three pairs, two of which have the same text: a string and a name. -/
def likeSpelled : List (Expr × Expr) :=
  [(.string "k", .call (.ident "puts") [.integer 1]), (.string "a", .array [.ident "k"]),
    (.ident "k", .function none ["x"] [.expr (.ident "x")])]

/-- The same pairs, of which the one between the others has come to the front. -/
def likeSpelledMoved : List (Expr × Expr) :=
  [(.string "a", .array [.ident "k"]), (.string "k", .call (.ident "puts") [.integer 1]),
    (.ident "k", .function none ["x"] [.expr (.ident "x")])]

theorem Expr.likeSpelled_order_unseen :
    Reordered likeSpelled likeSpelledMoved ∧
      (Expr.hash likeSpelled).compile Compiler.fresh =
        (Expr.hash likeSpelledMoved).compile Compiler.fresh ∧
      (Expr.hash likeSpelled).eval (Evaluator.callFunction 8 7) 0
        (Evaluator.ofStore .empty 8).store =
          (Expr.hash likeSpelledMoved).eval (Evaluator.callFunction 8 7) 0
          (Evaluator.ofStore .empty 8).store := by
  have hre : Reordered likeSpelled likeSpelledMoved := by
    refine ⟨.swap _ _ _, fun t => ?_⟩
    simp only [likeSpelled, likeSpelledMoved, List.filter_cons, Expr.text]
    by_cases hk : "k" = t
    · subst hk
      rfl
    · simp [hk]
  obtain ⟨hcompile, heval, -⟩ := Expr.hash_order_unseen (.inr hre)
  exact ⟨hre, hcompile _, heval _ _ _ _⟩

end Marmoset
