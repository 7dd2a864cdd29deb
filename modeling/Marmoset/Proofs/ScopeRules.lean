import Marmoset.Proofs.Discipline
import Marmoset.Proofs.NameLinks

/-!
# What the discipline allows a part of a scope

`Allowed` says of a part of a scope, given the names that are bound so far, that it uses these or
names from outside, and that it binds names that have a slot already and are not captured.  A part
within a statement is always like that.  `Due` says what is known of the statements of a scope that
are still to be done.

* **`Emits.captures`** — the code of a part that is allowed defines no name: the scope only
  captures.
* `Allowed.next` — so what comes behind it is still allowed.
* `Due.allowed`, **`Due.emits`** — from one statement of a scope to the next one.
-/

namespace Marmoset

/-! ## The names of a part -/

namespace Mentions

/-- The part mentions no more than another one. -/
structure Within (a b : Mentions) : Prop where
  uses : a.uses ⊆ b.uses
  captured : a.captured ⊆ b.captured
  binds : a.binds ⊆ b.binds
  lets : a.lets ⊆ b.lets

lemma Within.refl (a : Mentions) : a.Within a :=
  ⟨fun _ => id, fun _ => id, fun _ => id, fun _ => id⟩

lemma Within.trans {a b c : Mentions} (h : a.Within b) (h' : b.Within c) : a.Within c :=
  ⟨List.Subset.trans h.uses h'.uses, List.Subset.trans h.captured h'.captured,
    List.Subset.trans h.binds h'.binds, List.Subset.trans h.lets h'.lets⟩

variable (a b : Mentions)

lemma within_left : a.Within (a ++ b) :=
  ⟨List.subset_append_left _ _, List.subset_append_left _ _, List.subset_append_left _ _,
    List.subset_append_left _ _⟩

/-- Each of two parts mentions no more than both. -/
lemma within_right : b.Within (a ++ b) :=
  ⟨List.subset_append_right _ _, List.subset_append_right _ _, List.subset_append_right _ _,
    List.subset_append_right _ _⟩

@[simp] lemma append_empty : a ++ ({} : Mentions) = a := by
  show Mentions.mk _ _ _ _ = a
  simp only [List.append_nil]

end Mentions

namespace Part

/-- The names that a part mentions. -/
def mentions : Part → Mentions
  | .expr e => e.mentions
  | .exprs es => Expr.mentionsAll es
  | .pairs ps => Expr.mentionsPairs ps
  | .stmt s => s.mentions
  | .stmts ss | .branch ss => Stmt.mentionsAll ss

/-- All expressions in the part, and all statements, are of some kind. -/
def every (p : Expr → Bool) (q : Stmt → Bool) : Part → Bool
  | .expr e => e.every p q
  | .exprs es => Expr.everyOf p q es
  | .pairs ps => Expr.everyPair p q ps
  | .stmt s => s.every p q
  | .stmts ss | .branch ss => Stmt.everyOf p q ss

/-- All functions in the part have their scopes in order, and there are no blocks. -/
abbrev inOrder (part : Part) : Bool :=
  part.every Expr.isDisciplined Stmt.isPlain

end Part

/-- The statement itself passes. -/
lemma Stmt.of_every {p : Expr → Bool} {q : Stmt → Bool} {s : Stmt} (h : s.every p q = true) :
    q s = true := by
  cases s <;> simp_all [Stmt.every]

/-- All statements of a list pass if each does. -/
lemma Stmt.everyOf_iff {p : Expr → Bool} {q : Stmt → Bool} {ss : List Stmt} :
    Stmt.everyOf p q ss = true ↔ ∀ s ∈ ss, s.every p q = true := by
  induction ss with
  | nil => simp [Stmt.everyOf]
  | cons s ss ih => simp only [Stmt.everyOf, Bool.and_eq_true, ih, List.forall_mem_cons]

/-- A conditional without a second branch is like one with an empty one. -/
lemma Expr.mentions_cond (condition : Expr) (yes : List Stmt) (no : Option (List Stmt)) :
    (Expr.cond condition yes no).mentions =
      condition.mentions ++ Stmt.mentionsAll yes ++ Stmt.mentionsAll (no.getD []) := by
  cases no with
  | none =>
      rw [Expr.mentions]
      exact (Mentions.append_empty _).symm
  | some no => rfl

/-- Where a conditional passes its parts do. -/
lemma Expr.every_cond {p : Expr → Bool} {q : Stmt → Bool} {condition : Expr} {yes : List Stmt}
    {no : Option (List Stmt)} (h : (Expr.cond condition yes no).every p q = true) :
    condition.every p q = true ∧ Stmt.everyOf p q yes = true ∧
      Stmt.everyOf p q (no.getD []) = true := by
  cases no with
  | none =>
      simp only [Expr.every, Bool.and_eq_true] at h
      exact ⟨h.1.2, h.2, rfl⟩
  | some no =>
      simp only [Expr.every, Bool.and_eq_true] at h
      exact ⟨h.1.1.2, h.1.2, h.2⟩

/-- A name is mentioned in pairs if it is in one of them. -/
lemma Expr.mem_mentionsPairs {f : Mentions → List String} (hnil : f {} = [])
    (happ : ∀ a b, f (a ++ b) = f a ++ f b) {n : String} {ps : List (Expr × Expr)} :
    n ∈ f (Expr.mentionsPairs ps) ↔ ∃ p ∈ ps, n ∈ f p.1.mentions ∨ n ∈ f p.2.mentions := by
  induction ps with
  | nil => simp [Expr.mentionsPairs, hnil]
  | cons p ps ih =>
      obtain ⟨k, v⟩ := p
      simp only [Expr.mentionsPairs, happ, List.mem_append, ih, List.mem_cons, exists_eq_or_imp]

/-- The order of the pairs does not matter. -/
lemma Expr.mentionsPairs_sorted (pairs : List (Expr × Expr)) :
    (Expr.mentionsPairs (sortedPairs pairs)).Within (Expr.mentionsPairs pairs) := by
  have key (f : Mentions → List String) (hnil : f {} = []) (happ : ∀ a b, f (a ++ b) = f a ++ f b) :
      f (Expr.mentionsPairs (sortedPairs pairs)) ⊆ f (Expr.mentionsPairs pairs) := by
    intro n hn
    rw [Expr.mem_mentionsPairs hnil happ] at hn ⊢
    obtain ⟨p, hp, h⟩ := hn
    exact ⟨p, mem_sortedPairs.mp hp, h⟩
  exact ⟨key Mentions.uses rfl fun _ _ => rfl, key Mentions.captured rfl fun _ _ => rfl,
    key Mentions.binds rfl fun _ _ => rfl, key Mentions.lets rfl fun _ _ => rfl⟩

lemma Expr.everyPair_iff {p : Expr → Bool} {q : Stmt → Bool} {ps : List (Expr × Expr)} :
    Expr.everyPair p q ps = true ↔ ∀ x ∈ ps, x.1.every p q = true ∧ x.2.every p q = true := by
  induction ps with
  | nil => simp [Expr.everyPair]
  | cons x ps ih =>
      obtain ⟨k, v⟩ := x
      simp only [Expr.everyPair, Bool.and_eq_true, ih, List.forall_mem_cons]

/-- Sorting the pairs loses none. -/
lemma Expr.everyPair_sorted {p : Expr → Bool} {q : Stmt → Bool} {pairs : List (Expr × Expr)}
    (h : Expr.everyPair p q pairs = true) : Expr.everyPair p q (sortedPairs pairs) = true :=
  Expr.everyPair_iff.mpr fun x hx => Expr.everyPair_iff.mp h x (mem_sortedPairs.mp hx)

/-! ## Parts that define nothing -/

/-- The current scope has a slot for the name. -/
def SymbolTable.Owns (t : SymbolTable) (n : String) : Prop :=
  ∃ x, t.current.find? n = some x ∧ x.kind.owned = true

/-- A capture takes no slot away. -/
lemma SymbolTable.Owns.captures {t t' : SymbolTable} {n : String} (h : t.Owns n)
    (hc : t.current.Captures t'.current) : t'.Owns n := by
  obtain ⟨x, hx, ho⟩ := h
  exact ⟨x, hc.keeps hx, ho⟩

/-- What is captured has no slot. -/
lemma SymbolTable.Owns.of_captures {t t' : SymbolTable} {n : String} (h : t'.Owns n)
    (hc : t.current.Captures t'.current) : t.Owns n := by
  obtain ⟨x, hx, ho⟩ := h
  rcases hc.adds hx with hx | ⟨-, hk⟩
  · exact ⟨x, hx, ho⟩
  · rw [hk] at ho
    cases ho

/-- A definition makes a slot for its name. -/
lemma SymbolTable.owns_define {t : SymbolTable} {m n : String} :
    (t.define n).2.Owns m ↔ n = m ∨ t.Owns m := by
  rcases eq_or_ne n m with rfl | hne
  · exact iff_of_true ⟨_, t.find?_of_define n⟩ (.inl rfl)
  · simp only [Owns, find?_define, hne, if_false, false_or]

/-- An assignment makes a slot if there is none. -/
lemma SymbolTable.owns_assignable {t : SymbolTable} {m n : String} :
    (t.assignable n).2.Owns m ↔ n = m ∨ t.Owns m := by
  rcases t.assignable_cases n with ⟨x, hx, ho, heq⟩ | ⟨-, heq⟩ <;> rw [heq]
  · refine ⟨.inr, ?_⟩
    rintro (rfl | h)
    · exact ⟨x, hx, ho⟩
    · exact h
  · exact owns_define

@[simp] lemma SymbolTable.outer_assignable (t : SymbolTable) (n : String) :
    (t.assignable n).2.outer = t.outer := by
  rcases t.assignable_cases n with ⟨_, -, -, heq⟩ | ⟨-, heq⟩ <;> rw [heq]
  rfl

/-- An assignment to a name that has a slot stores there. -/
lemma SymbolTable.Owns.assignable {t : SymbolTable} {n : String} (h : t.Owns n) :
    (t.assignable n).2 = t := by
  obtain ⟨x, hx, ho⟩ := h
  rcases t.assignable_cases n with ⟨y, -, -, heq⟩ | ⟨hno, -⟩
  · rw [heq]
  · rw [hno x hx] at ho
    cases ho

/-- **A part that has no `let` and assigns to names with a slot defines nothing.** -/
theorem Emits.captures {part : Part} {d d' : Draft} {pos : Nat} {is : List Instr}
    (h : Emits part d pos is d') (hl : ∀ n, n ∉ part.mentions.lets)
    (hb : ∀ n ∈ part.mentions.binds, d.symbols.Owns n) :
    d.symbols.current.Captures d'.symbols.current := by
  -- one part behind another one
  have step {a b : Mentions} {d d₁ d' : Draft} (hl : ∀ n, n ∉ (a ++ b).lets)
      (hb : ∀ n ∈ (a ++ b).binds, d.symbols.Owns n)
      (ih : (∀ n, n ∉ a.lets) → (∀ n ∈ a.binds, d.symbols.Owns n) →
        d.symbols.current.Captures d₁.symbols.current)
      (ih' : (∀ n, n ∉ b.lets) → (∀ n ∈ b.binds, d₁.symbols.Owns n) →
        d₁.symbols.current.Captures d'.symbols.current) :
        d.symbols.current.Captures d'.symbols.current := by
    have h₁ := ih (fun n hn => hl n (List.mem_append_left _ hn))
      (fun n hn => hb n (List.mem_append_left _ hn))
    exact h₁.trans (ih' (fun n hn => hl n (List.mem_append_right _ hn))
      (fun n hn => (hb n (List.mem_append_right _ hn)).captures h₁))
  induction h with
  | ident resolved => exact (SymbolTable.resolve_captures resolved).1
  | constant _ | immediate _ | noExprs | noPairs | noStmts => exact .refl _
  | array _ ih | unary _ _ ih | ret _ ih | expr _ ih | block _ ih | branch _ ih => exact ih hl hb
  | hash _ ih =>
      have hw := Expr.mentionsPairs_sorted
      exact ih (fun n hn => hl n ((hw _).lets hn)) (fun n hn => hb n ((hw _).binds hn))
  | function hbody left _ _ _ _ _ _ =>
      exact (SymbolTable.captures_of_leave hbody.grows.outer left).1
  | binary _ _ _ ih ih' | index _ _ ih ih' | call _ _ ih ih' | exprs _ _ ih ih'
  | stmts _ _ ih ih' =>
      exact step hl hb ih ih'
  | swapped _ _ _ ih ih' =>
      refine step (fun n hn => hl n ?_) (fun n hn => hb n ?_) ih ih'
      · exact List.mem_append.mpr (List.mem_append.mp hn).symm
      · exact List.mem_append.mpr (List.mem_append.mp hn).symm
  | cond _ _ _ ih ih' ih'' =>
      rw [Part.mentions, Expr.mentions_cond] at hl hb
      exact step hl hb (fun hl hb => step hl hb ih ih') ih''
  | pairs _ _ _ ih ih' ih'' | setIndex _ _ _ ih ih' ih'' =>
      exact step hl hb (fun hl hb => step hl hb ih ih') ih''
  | @define name _ _ _ _ _ _ _ => exact absurd List.mem_cons_self (hl name)
  | @assign name _ d _ _ _ _ ih =>
      have hown : (d.symbols.assignable name).2 = d.symbols :=
        (hb name List.mem_cons_self).assignable
      rw [hown] at ih
      exact ih hl fun n hn => hb n (List.mem_cons_of_mem _ hn)

/-- What the discipline allows a part of a scope, where the names `known` are bound. -/
structure Allowed (sc : ScopeNames) (t : SymbolTable) (known : List String) (a : Mentions) :
    Prop where
  uses : ∀ n ∈ a.uses, n ∈ known ∨ (n ∉ sc.bound ∧ n ∈ sc.free)
  captured : t.outer ≠ [] → ∀ n ∈ a.captured, n ∈ sc.frozen
  binds : ∀ n ∈ a.binds, t.Owns n ∧ n ∉ sc.frozen
  lets : ∀ n, n ∉ a.lets

namespace Allowed

variable {sc : ScopeNames} {t : SymbolTable} {known : List String} {a b : Mentions}

/-- What is allowed for a part is allowed for what is in it. -/
lemma within (h : Allowed sc t known b) (hw : a.Within b) : Allowed sc t known a :=
  ⟨fun n hn => h.uses n (hw.uses hn), fun ho n hn => h.captured ho n (hw.captured hn),
    fun n hn => h.binds n (hw.binds hn), fun n hn => h.lets n (hw.lets hn)⟩

/-- What is allowed is allowed behind a part. -/
lemma next (h : Allowed sc t known a) {t' : SymbolTable} (hc : t.current.Captures t'.current)
    (ho : List.Forall₂ Scope.Captures t.outer t'.outer) : Allowed sc t' known a where
  uses := h.uses
  captured hne := h.captured fun heq => hne (by rw [heq, List.forall₂_nil_left_iff] at ho; exact ho)
  binds n hn := ⟨(h.binds n hn).1.captures hc, (h.binds n hn).2⟩
  lets := h.lets

/-- The code of an allowed part defines nothing. -/
lemma emits {part : Part} {d d' : Draft} {pos : Nat} {is : List Instr}
    (ha : Allowed sc d.symbols known part.mentions) (h : Emits part d pos is d') :
    d.symbols.current.Captures d'.symbols.current :=
  h.captures ha.lets fun n hn => (ha.binds n hn).1

end Allowed

/-! ## The statements of a scope -/

/-- The target of a binding is among what it binds. -/
lemma Stmt.mem_binds_of_target? {s : Stmt} {n : String} (h : s.target? = some n) :
    n ∈ s.mentions.binds := by
  cases s with
  | define name value =>
      cases h
      exact List.mem_cons_self
  | assign target value =>
      cases target with
      | ident name =>
          cases h
          exact List.mem_cons_self
      | _ => cases h
  | ret _ | expr _ | block _ => cases h

/-- What is known of the statements of a scope that are still to be done, where the names `known`
are bound. -/
structure Due (sc : ScopeNames) (t : SymbolTable) (known : List String) (ss : List Stmt) :
    Prop where
  order : InOrder sc.bound known ss
  uses : ∀ n ∈ (Stmt.mentionsAll ss).uses, n ∈ sc.bound ∨ n ∈ sc.free
  captured : t.outer ≠ [] → (Stmt.mentionsAll ss).captured ⊆ sc.frozen
  binds : (Stmt.mentionsAll ss).binds ⊆ sc.bound
  once : ∀ n ∈ sc.frozen, (n ∈ known → n ∉ (Stmt.mentionsAll ss).binds) ∧
    (Stmt.mentionsAll ss).binds.count n ≤ 1
  owned : ∀ n ∈ known, n ∈ (Stmt.mentionsAll ss).binds → t.Owns n
  fresh : ∀ n, t.Owns n → n ∈ known

namespace Due

variable {sc : ScopeNames} {t t' : SymbolTable} {known : List String} {s : Stmt} {ss : List Stmt}
  {n : String}
  {e : Expr}

lemma mem_binds (hn : n ∈ s.mentions.binds) : n ∈ (Stmt.mentionsAll (s :: ss)).binds :=
  List.mem_append_left _ hn

/-- A captured name is bound once at most. -/
lemma not_frozen (h : Due sc t known (s :: ss)) (hn : n ∈ s.mentions.binds) (hk : n ∈ known) :
    n ∉ sc.frozen :=
  fun hz => (h.once n hz).1 hk (mem_binds hn)

/-- A part of the next statement, where the table has a slot for the name that the statement
binds. -/
lemma part (h : Due sc t known (s :: ss)) {a : Mentions} (hw : a.Within s.mentions)
    (hl : a.lets = []) (ht : ∀ n ∈ a.binds, s.target? = some n → t'.Owns n ∧ n ∉ sc.frozen)
    (hk : ∀ n, t.Owns n → t'.Owns n) (ho : t'.outer = t.outer) : Allowed sc t' known a where
  uses n hn := by
    have hn' := hw.uses hn
    by_cases hb : n ∈ sc.bound
    · exact .inl (h.order.1.uses n hn' hb)
    · exact .inr ⟨hb, (h.uses n (List.mem_append_left _ hn')).resolve_left hb⟩
  captured hne n hn := h.captured (ho ▸ hne) (List.mem_append_left _ (hw.captured hn))
  binds n hn := by
    have hn' := hw.binds hn
    rcases h.order.1.binds n hn' with htarget | hknown
    · exact ht n hn htarget
    · exact ⟨hk n (h.owned n hknown (mem_binds hn')), h.not_frozen hn' hknown⟩
  lets n := by
    rw [hl]
    exact List.not_mem_nil

/-- The next statement as a whole, if it binds nothing new. -/
lemma allowed (h : Due sc t known (s :: ss)) (hs : s.target? = none) :
    Allowed sc t known s.mentions := by
  refine h.part (.refl _) ?_ (fun n _ hn => ?_) (fun _ => id) rfl
  · rw [h.order.1.lets]
    cases s with
    | define _ _ => cases hs
    | _ => rfl
  · rw [hs] at hn
    cases hn

/-- A captured name is not bound again in its own binding. -/
lemma not_frozen_of_target (h : Due sc t known (s :: ss)) {a : Mentions}
    (hb : s.mentions.binds = n :: a.binds) (hn : n ∈ a.binds) : n ∉ sc.frozen := by
  intro hz
  have hcount := (h.once n hz).2
  rw [Stmt.mentionsAll, Mentions.binds_append, hb, List.cons_append, List.count_cons_self,
    List.count_append] at hcount
  have hpos := List.count_pos_iff.mpr hn
  omega

/-- The value of a `let`. -/
lemma define (h : Due sc t known (.define n e :: ss)) :
    Allowed sc (t.define n).2 known e.mentions := by
  have hlets : [n] ++ e.mentions.lets = [n] := h.order.1.lets
  refine h.part (Mentions.within_right _ _) (List.append_right_eq_self.mp hlets) (fun m hm ht => ?_)
    (fun m hm => ?_) rfl
  · cases ht
    exact ⟨SymbolTable.owns_define.mpr (.inl rfl), h.not_frozen_of_target rfl hm⟩
  · exact SymbolTable.owns_define.mpr (.inr hm)

/-- The value of an assignment. -/
lemma assign (h : Due sc t known (.assign (.ident n) e :: ss)) :
    Allowed sc (t.assignable n).2 known e.mentions := by
  have hlets : e.mentions.lets = [] := h.order.1.lets
  refine h.part (Mentions.within_right { binds := [n] } _) hlets (fun m hm ht => ?_)
    (fun m hm => ?_)
    (t.outer_assignable n)
  · cases ht
    exact ⟨SymbolTable.owns_assignable.mpr (.inl rfl), h.not_frozen_of_target rfl hm⟩
  · exact SymbolTable.owns_assignable.mpr (.inr hm)

/-- From one statement to the next one: the table has got a slot for what the statement binds, and
has captured names. -/
lemma next {t₁ : SymbolTable} (h : Due sc t known (s :: ss))
    (howns : ∀ n, t₁.Owns n ↔ s.target? = some n ∨ t.Owns n) (hc : t₁.current.Captures t'.current)
    (ho : t'.outer = [] ↔ t.outer = []) : Due sc t' (s.target?.toList ++ known) ss where
  order := h.order.2
  uses n hn := h.uses n (List.mem_append_right _ hn)
  captured hne n hn := h.captured (fun h0 => hne (ho.mpr h0)) (List.mem_append_right _ hn)
  binds n hn := h.binds (List.mem_append_right _ hn)
  once n hz := by
    obtain ⟨hknown, hcount⟩ := h.once n hz
    rw [Stmt.mentionsAll, Mentions.binds_append, List.count_append] at hcount
    refine ⟨fun hmem hbind => ?_, by omega⟩
    rcases List.mem_append.mp hmem with htarget | hmem
    · have h₁ := List.count_pos_iff.mpr (Stmt.mem_binds_of_target? (Option.mem_toList.mp htarget))
      have h₂ := List.count_pos_iff.mpr hbind
      omega
    · exact hknown hmem (List.mem_append_right _ hbind)
  owned n hmem hbind := by
    refine SymbolTable.Owns.captures ((howns n).mpr ?_) hc
    rcases List.mem_append.mp hmem with htarget | hmem
    · exact .inl (Option.mem_toList.mp htarget)
    · exact .inr (h.owned n hmem (List.mem_append_right _ hbind))
  fresh n hown := by
    rcases (howns n).mp (hown.of_captures hc) with htarget | hown
    · exact List.mem_append_left _ (Option.mem_toList.mpr htarget)
    · exact List.mem_append_right _ (h.fresh n hown)

/-- **What is due behind a statement.** -/
theorem emits {d d' : Draft} {pos : Nat} {is : List Instr} (h : Due sc d.symbols known (s :: ss))
    (hem : Emits (.stmt s) d pos is d') (hs : s.isPlain = true) :
    Due sc d'.symbols (s.target?.toList ++ known) ss := by
  have houter := hem.grows.outer_eq_nil.symm
  have hsame (ht : s.target? = none) : Due sc d'.symbols (s.target?.toList ++ known) ss := by
    refine h.next (fun n => ?_) ((h.allowed ht).emits hem) houter
    rw [ht]
    simp
  cases hem with
  | define hvalue =>
      refine h.next (fun m => ?_) (h.define.emits hvalue) houter
      rw [SymbolTable.owns_define, Stmt.target?, Option.some.injEq]
  | assign hvalue =>
      refine h.next (fun m => ?_) (h.assign.emits hvalue) houter
      rw [SymbolTable.owns_assignable, Stmt.target?, Option.some.injEq]
  | setIndex _ _ _ | ret _ | expr _ => exact hsame rfl
  | block _ => cases hs

end Due

end Marmoset
