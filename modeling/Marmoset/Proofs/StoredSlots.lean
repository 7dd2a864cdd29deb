import Marmoset.Proofs.NamesInUse
import Marmoset.Proofs.Simulation

/-!
# Slots that were stored to

At the top level a `let` gives its name a new slot before its value is evaluated, and so does the
first assignment to a name.  The evaluator binds the name only afterwards, and not at all if the
statement is on a branch that is not taken.  Until a value is stored to the new slot, the machine
finds nothing there, while the evaluator still has the value that the name had before.

`Slots` keeps track of this for each name.  As long as no name is read whose slot was not stored to,
the engines agree.

* **`Emits.gains`** — which slots there are behind a part of a program.
* **`Site.tracks_storedTo`** — code that reads slots only after they were stored to runs as it is
  evaluated.
-/

namespace Marmoset

open Joint (Arrived)

/-! ## New slots -/

/-- `t'` is what `t` becomes while a part that mentions `a` is compiled. -/
structure SymbolTable.Gains (a : Mentions) (t t' : SymbolTable) : Prop where
  definitions : t.current.definitions ≤ t'.current.definitions
  lets : a.lets ⊆ a.binds
  owns : ∀ {n}, t'.Owns n ↔ n ∈ a.binds ∨ t.Owns n
  /-- Only a `let` gives another slot to a name that has one. -/
  keeps : ∀ {n x}, t.current.find? n = some x → x.kind.owned = true → n ∉ a.lets →
    t'.current.find? n = some x
  /-- New slots are behind the old ones. -/
  news : ∀ {n x}, t'.current.find? n = some x → x.kind.owned = true →
    t.current.find? n = some x ∨ t.current.definitions ≤ x.index
  others : ∀ {n x}, t'.current.find? n = some x → x.kind.owned = false →
    t.current.find? n = some x ∨ x.kind = .free

namespace SymbolTable.Gains

variable {a b : Mentions} {t t₁ t' : SymbolTable}

lemma trans (h : Gains a t t₁) (h' : Gains b t₁ t') : Gains (a ++ b) t t' where
  definitions := Nat.le_trans h.definitions h'.definitions
  lets := List.append_subset.mpr ⟨List.Subset.trans h.lets (List.subset_append_left _ _),
    List.Subset.trans h'.lets (List.subset_append_right _ _)⟩
  owns {n} := by
    rw [h'.owns, h.owns, Mentions.binds_append, List.mem_append, ← or_assoc,
      or_comm (a := n ∈ b.binds)]
  keeps hx ho hn := by
    rw [Mentions.lets_append, List.mem_append, not_or] at hn
    exact h'.keeps (h.keeps hx ho hn.1) ho hn.2
  news hx ho := by
    rcases h'.news hx ho with hx | hle
    · exact h.news hx ho
    · exact .inr (Nat.le_trans h.definitions hle)
  others hx ho := by
    rcases h'.others hx ho with hx | hk
    · exact h.others hx ho
    · exact .inr hk

/-- The order of the names does not matter. -/
lemma congr (h : Gains a t t') (hb : ∀ n, n ∈ a.binds ↔ n ∈ b.binds)
    (hl : ∀ n, n ∈ a.lets ↔ n ∈ b.lets) :
    Gains b t t' :=
  { h with
    lets := fun n hn => (hb n).mp (h.lets ((hl n).mpr hn))
    owns := h.owns.trans (or_congr_left (hb _))
    keeps := fun hx ho hn => h.keeps hx ho fun hmem => hn ((hl _).mp hmem) }

/-- What only captures makes no slots. -/
lemma of_captures (h : t.current.Captures t'.current) (hb : a.binds = []) (hl : a.lets = []) :
    Gains a t t' where
  definitions := Nat.le_of_eq h.definitions.symm
  lets := by
    rw [hl]
    exact List.nil_subset _
  owns {n} := by
    rw [hb]
    simp only [List.not_mem_nil, false_or]
    exact ⟨fun hn => hn.of_captures h, fun hn => hn.captures h⟩
  keeps hx _ _ := h.keeps hx
  news hx ho := by
    rcases h.adds hx with hx | ⟨-, hk⟩
    · exact .inl hx
    · rw [hk] at ho
      cases ho
  others hx _ := (h.adds hx).imp_right And.right

lemma define (t : SymbolTable) (n : String) :
    Gains { binds := [n], lets := [n] } t (t.define n).2 where
  definitions := Nat.le_succ _
  lets _ := id
  owns {m} := by
    rw [owns_define, List.mem_singleton, eq_comm]
  keeps {m x} hx _ hm := by
    have hne : n ≠ m := fun heq => hm (List.mem_singleton.mpr heq.symm)
    rw [find?_define, if_neg hne]
    exact hx
  news {m x} hx _ := by
    rw [find?_define] at hx
    split_ifs at hx
    · cases hx
      exact .inr (Nat.le_refl _)
    · exact .inl hx
  others {m x} hx ho := by
    rw [find?_define] at hx
    split_ifs at hx
    · cases hx
      rw [(t.find?_of_define n).2] at ho
      cases ho
    · exact .inl hx

lemma assignable (t : SymbolTable) (n : String) : Gains { binds := [n] } t (t.assignable n).2 := by
  have howns {m : String} : (t.assignable n).2.Owns m ↔ m ∈ [n] ∨ t.Owns m := by
    rw [owns_assignable, List.mem_singleton, eq_comm]
  rcases t.assignable_cases n with ⟨y, hy, ho, heq⟩ | ⟨hno, heq⟩
  · rw [heq] at howns ⊢
    exact ⟨Nat.le_refl _, List.nil_subset _, howns, fun hx _ _ => hx, fun hx _ => .inl hx,
      fun hx _ => .inl hx⟩
  · rw [heq] at howns ⊢
    refine { define t n with lets := List.nil_subset _, owns := howns, keeps := fun hx ho _ => ?_ }
    refine (define t n).keeps hx ho fun hm => ?_
    cases List.mem_singleton.mp hm
    rw [hno _ hx] at ho
    cases ho

end SymbolTable.Gains

open SymbolTable (Gains) in
/-- **The slots behind a part.** -/
theorem Emits.gains {part : Part} {d d' : Draft} {pos : Nat} {is : List Instr}
    (h : Emits part d pos is d') :
    Gains part.mentions d.symbols d'.symbols := by
  induction h with
  | ident resolved => exact .of_captures (SymbolTable.resolve_captures resolved).1 rfl rfl
  | @constant e _ _ _ literal | @immediate e _ _ _ literal =>
      have hnone : e.mentions = {} := by
        cases e with
        | integer _ | float _ | string _ | boolean _ | nil => rfl
        | _ => cases literal
      rw [Part.mentions, hnone]
      exact .of_captures (.refl _) rfl rfl
  | noExprs | noPairs | noStmts => exact .of_captures (.refl _) rfl rfl
  | array _ ih | unary _ _ ih | ret _ ih | expr _ ih | block _ ih | branch _ ih => exact ih
  | @hash pairs _ _ _ _ _ ih =>
      have hsame {f : Mentions → List String} (hnil : f {} = [])
          (happ : ∀ a b, f (a ++ b) = f a ++ f b) (n : String) :
          n ∈ f (Expr.mentionsPairs (sortedPairs pairs)) ↔ n ∈ f (Expr.mentionsPairs pairs) := by
        simp only [Expr.mem_mentionsPairs hnil happ, mem_sortedPairs]
      exact ih.congr (hsame rfl fun _ _ => rfl) (hsame rfl fun _ _ => rfl)
  | function hbody left _ _ _ _ _ _ =>
      exact .of_captures (SymbolTable.captures_of_leave hbody.grows.outer left).1 rfl rfl
  | binary _ _ _ ih ih' | index _ _ ih ih' | call _ _ ih ih' | exprs _ _ ih ih'
  | stmts _ _ ih ih' =>
      exact ih.trans ih'
  | swapped _ _ _ ih ih' =>
      have hsame (xs ys : List String) (n : String) : n ∈ xs ++ ys ↔ n ∈ ys ++ xs :=
        List.mem_append.trans (or_comm.trans List.mem_append.symm)
      exact (ih.trans ih').congr (hsame _ _) (hsame _ _)
  | cond _ _ _ ih ih' ih'' =>
      rw [Part.mentions, Expr.mentions_cond]
      exact (ih.trans ih').trans ih''
  | pairs _ _ _ ih ih' ih'' | setIndex _ _ _ ih ih' ih'' => exact (ih.trans ih').trans ih''
  | @define name _ d _ _ _ _ ih => exact (Gains.define d.symbols name).trans ih
  | @assign name _ d _ _ _ _ ih => exact (Gains.assignable d.symbols name).trans ih

/-! ## What is known of slots -/

/-- What is known of the slot of a name: there may be none yet, and if there is one, then a value
may have been stored to it or not. -/
abbrev Slots := String → Option Bool

namespace Slots

/-- Before the first statement no name has a slot. -/
def start : Slots := fun _ => none

/-- Names get slots, and nothing is stored to them yet. -/
def gain (k : Slots) (a : Mentions) : Slots := fun n =>
  if n ∈ a.lets ∨ n ∈ a.binds ∧ k n = none then some false else k n

/-- The value of a name is stored to the slot that the name got before the value was evaluated.  By
now it may have another one. -/
def store (k : Slots) (n : String) (value : Expr) : Slots := fun m =>
  if m = n then some (!value.mentions.lets.contains n) else k m

/-- What is read is there, or is a builtin. -/
def reads (k : Slots) (n : String) : Bool :=
  k n != some false

variable {k : Slots} {a : Mentions} {n m : String}

lemma isSome_gain (hl : a.lets ⊆ a.binds) :
    (k.gain a n).isSome = true ↔ n ∈ a.binds ∨ (k n).isSome = true := by
  unfold gain
  split_ifs with h
  · exact iff_of_true rfl (h.elim (fun h => .inl (hl h)) fun h => .inl h.1)
  · rw [not_or, not_and] at h
    refine ⟨.inr, ?_⟩
    rintro (hb | hk)
    · exact Option.isSome_iff_ne_none.mpr (h.2 hb)
    · exact hk

lemma gain_eq_true (h : k.gain a n = some true) : n ∉ a.lets ∧ k n = some true := by
  unfold gain at h
  split_ifs at h with hn
  · cases h
  · exact ⟨(not_or.mp hn).1, h⟩

end Slots

/-- The name that a statement gives a slot to. -/
def Stmt.slot : Stmt → Mentions
  | .define n _ => { binds := [n], lets := [n] }
  | .assign (.ident n) _ => { binds := [n] }
  | _ => {}

/-- Names are read from slots that were stored to.  None but `names` are bound, and there are no
functions. -/
def storedTo (names : List String) : Tracking Slots where
  reads k n := k.reads n = true
  makes _ _ := False
  opens s k k' := k' = k.gain s.slot ∧ s.slot.binds ⊆ names
  closes s k k' := ∃ n e, s.binding? = some (n, e) ∧ k' = k.store n e
  skips ss k k' := k' = k.gain (Stmt.mentionsAll ss) ∧ (Stmt.mentionsAll ss).binds ⊆ names

/-! ## Agreement -/

namespace Joint

/-- The engines agree at the top level, where `t` is the table of the compiler: a name that is bound
has a slot, and a slot that was stored to holds the value of its name. -/
structure Stored (names : List String) (t : SymbolTable) (k : Slots) (b : Joint) : Prop where
  core : b.Core
  slots : ∀ n, b.world.slots n = none
  bound : (b.world.scopes 0).bound = names
  frozen : (b.world.scopes 0).frozen = []
  outer : t.outer = []
  owns : ∀ {n}, (k n).isSome = true ↔ t.Owns n
  named : ∀ {n}, t.Owns n → n ∈ names
  others : ∀ {n x}, t.current.find? n = some x → x.kind.owned = false →
    x.kind = .builtin ∧ Builtin.table[x.index]?.map Builtin.name = some n
  bindings : ∀ {n v}, boundTo b.store.environments 0 n = some v → t.Owns n
  values : ∀ {n x}, k n = some true → t.current.find? n = some x →
    ∃ v, boundTo b.store.environments 0 n = some v ∧
    (b.machine.getGlobal x.index).Like b.store.functions.size v

variable {names : List String} {t t' : SymbolTable} {k k' : Slots} {b : Joint} {n : String}
  {x : Symbol} {a : Mentions}

lemma stable_stored : Stable (Stored names t k) where
  core h := h.core
  undisturbed := by
    intro b b' h ha hu _ hcore
    have hscopes := (hu.later 0).scopes 0 ha.core.top
    have hnames (n : String) : boundTo b'.store.environments 0 n =
        boundTo b.store.environments 0 n :=
      (hu.later 1).others 0 ha.core.top Nat.zero_ne_one n
    refine ⟨hcore, fun n => ?_, ?_, ?_, ha.outer, ha.owns, ha.named, ha.others, fun {n v} hv => ?_,
      fun {n x} hk hx => ?_⟩
    · rw [(hu.later 1).kept Nat.one_ne_zero]
      exact ha.slots n
    · rw [hscopes]
      exact ha.bound
    · rw [hscopes]
      exact ha.frozen
    · exact ha.bindings ((hnames n).symm.trans hv)
    · obtain ⟨v, hv, hlike⟩ := ha.values hk hx
      refine ⟨v, (hnames n).trans hv, ?_⟩
      rw [Machine.getGlobal, hu.globals]
      exact hlike.mono hu.made

namespace Stored

/-- More names get slots. -/
lemma gain (ha : b.Stored names t k) (hg : SymbolTable.Gains a t t')
    (hp : t'.Proper Builtin.table.length) (ho : t'.outer = []) (hb : a.binds ⊆ names) :
    b.Stored names t' (k.gain a) where
  core := ha.core
  slots := ha.slots
  bound := ha.bound
  frozen := ha.frozen
  outer := ho
  owns := by
    intro n
    rw [Slots.isSome_gain hg.lets, hg.owns, ha.owns]
  named hn := (hg.owns.mp hn).elim (fun h => hb h) ha.named
  others {n x} hx hk := by
    rcases hg.others hx hk with hx | hfree
    · exact ha.others hx hk
    · -- the top level has nothing to capture
      rw [SymbolTable.Proper, ho] at hp
      rcases hp n x hx with hkind | ⟨hkind, -⟩ <;> rw [hfree] at hkind <;> cases hkind
  bindings hv := hg.owns.mpr (.inr (ha.bindings hv))
  values {n x} hk hx := by
    obtain ⟨hl, hk⟩ := Slots.gain_eq_true hk
    obtain ⟨y, hy, hown⟩ := ha.owns.mp (by rw [hk]; rfl)
    cases hx.symm.trans (hg.keeps hy hown hl)
    exact ha.values hk hy

/-- **What a name is resolved to stands for what it is bound to.** -/
lemma ident (ha : b.Stored names t k) (hp : t.Proper Builtin.table.length)
    (hx : t.current.find? n = some x) (hk : k.reads n = true) :
    ∃ v, Eval.lookup 0 n b.store = .ok v b.store ∧
      (b.machine.denotes x).Like b.store.functions.size v := by
  rw [SymbolTable.Proper, ha.outer] at hp
  rcases hp n x hx with hglobal | ⟨hbuiltin, -⟩
  · have hown : t.Owns n := ⟨x, hx, by rw [hglobal]; rfl⟩
    have htrue : k n = some true := by
      obtain ⟨stored, hstored⟩ := Option.isSome_iff_exists.mp (ha.owns.mpr hown)
      rw [Slots.reads, hstored] at hk
      cases stored with
      | true => exact hstored
      | false => cases hk
    obtain ⟨v, hv, hlike⟩ := ha.values htrue hx
    refine ⟨v, ?_, ?_⟩
    · rw [Eval.lookup, Store.lookup_of_boundTo hv]
    · simp only [Machine.denotes, hglobal]
      exact hlike
  · obtain ⟨-, hname⟩ := ha.others hx (by rw [hbuiltin]; rfl)
    obtain ⟨c, hc, hname⟩ := Builtin.ofName?_of_table hname
    refine ⟨.builtin c, ?_, ?_⟩
    · have hnone : boundTo b.store.environments 0 n = none := by
        refine Option.eq_none_iff_forall_ne_some.mpr fun v hv => ?_
        obtain ⟨y, hy, hown⟩ := ha.bindings hv
        cases hx.symm.trans hy
        rw [hbuiltin] at hown
        cases hown
      simp only [Eval.lookup, Store.lookup_top ha.core.fits, hnone, hname]
    · simp only [Machine.denotes, hbuiltin, ha.core.builtins, hc, Option.map_some, Option.getD_some]
      exact .plain rfl

/-- **A value is stored under a name of the top level**, to the slot `x` that the name had when `t`
was the table. -/
theorem store {e : Expr} {v v' : Value} (ha : b.Stored names t' k)
    (hg : SymbolTable.Gains e.mentions t t') (hs : t.current.Sound)
    (hx : t.current.find? n = some x) (hk : x.kind = .global)
    (hv : v'.Like b.store.functions.size v) (h : Nat) :
    let b' : Joint := ⟨b.world, b.machine.stored x v', b.store.bind 0 n v⟩
    b.Keeps 0 h b' ∧ b'.Stored names t' (k.store n e) := by
  have hox : x.kind.owned = true := by
    rw [hk]
    rfl
  have hown : t'.Owns n := hg.owns.mpr (.inr ⟨x, hx, hox⟩)
  have hlater : Later 0 b.world b.world b.store.environments (b.store.bind 0 n v).environments := by
    refine .bind v rfl (fun _ _ h => h) (fun _ => rfl) ha.core.top fun hz => ?_
    rw [ha.frozen] at hz
    cases hz
  have hbound (m : String) := Store.boundTo_bind ha.core.top n v 0 m
  refine ⟨⟨.refl _, rfl, rfl, rfl, fun hne => absurd rfl hne, fun i _ _ => ?_, Nat.le_refl _,
    hlater⟩, ?_⟩
  · exact Machine.getD_stored _ _ _ i (.inr hk)
  · refine ⟨?_, ha.slots, ha.bound, ha.frozen, ha.outer, fun {m} => ?_, ha.named, ha.others,
      fun {m w} hw => ?_,
      fun {m y} hm hy => ?_⟩
    · refine ha.core.bind hlater rfl ha.core.top ?_ rfl rfl rfl fun {m g} hm => ?_
      · rw [ha.bound]
        exact ha.named hown
      · cases (ha.slots m).symm.trans hm
    · unfold Slots.store
      split_ifs with heq
      · rw [heq]
        exact iff_of_true rfl hown
      · exact ha.owns
    · have hw' := (hbound m).symm.trans hw
      split_ifs at hw' with heq
      · rw [heq.2]
        exact hown
      · exact ha.bindings hw'
    · simp only [Machine.getGlobal_stored _ _ _ hk]
      unfold Slots.store at hm
      split_ifs at hm with heq
      · -- the name still has the slot that it had before its value was evaluated
        subst heq
        have hlets : m ∉ e.mentions.lets := by simpa using hm
        cases hy.symm.trans (hg.keeps hx hox hlets)
        exact ⟨v, (hbound m).trans (if_pos ⟨rfl, rfl⟩), by rwa [if_pos rfl]⟩
      · obtain ⟨w, hw, hlike⟩ := ha.values hm hy
        refine ⟨w, (hbound m).trans ((if_neg fun h => heq h.2).trans hw), ?_⟩
        have hne : x.index ≠ y.index := by
          obtain ⟨z, hz, hoz⟩ := ha.owns.mp (by rw [hm]; rfl)
          cases hy.symm.trans hz
          rcases hg.news hy hoz with hy' | hle
          · exact fun hidx => heq (hs.apart hx hy' hox hoz hidx).symm
          · exact Nat.ne_of_lt (Nat.lt_of_lt_of_le (hs.below hx hox) hle)
        rw [if_neg hne]
        exact hlike

end Stored

end Joint

/-! ## Runs -/

/-- The slot of a statement is new, or is the one that its name has. -/
lemma SymbolTable.gains_of_slotFor {t t' : SymbolTable} {s : Stmt} {x : Symbol}
    (hx : t.slotFor s = some (x, t')) :
    Gains s.slot t t' := by
  unfold slotFor at hx
  split at hx
  · cases hx
    exact .define t _
  · rename_i n _
    have heq : (t.assignable n).2 = t' := congrArg Prod.snd (Option.some.inj hx)
    rw [← heq]
    exact .assignable t n
  · cases hx

lemma SymbolTable.outer_of_slotFor {t t' : SymbolTable} {s : Stmt} {x : Symbol}
    (hx : t.slotFor s = some (x, t')) :
    t'.outer = t.outer := by
  unfold slotFor at hx
  split at hx
  · cases hx
    rfl
  · rename_i n _
    have heq : (t.assignable n).2 = t' := congrArg Prod.snd (Option.some.inj hx)
    rw [← heq]
    exact t.outer_assignable n
  · cases hx

namespace Site

/-- **Code that reads slots only after they were stored to runs as it is evaluated.** -/
theorem tracks_storedTo {c : Site} (hc : c.env = 0) (names : List String) :
    c.Tracks (storedTo names) (Joint.Stored names) where
  stable _ _ := Joint.stable_stored
  ident := by
    intro d x pos n t k b hr hn hst
    have ha := hst.agrees
    have hfind : d.symbols.current.find? n = some x ∧ t = d.symbols := by
      rcases SymbolTable.resolveIn_cases (SymbolTable.resolve_eq_some hr) with ⟨hx, hs, hos⟩
        | ⟨_, _, _, _, _, hos, -⟩
      · exact ⟨hx, by cases t; cases hs; cases hos; rfl⟩
      · rw [ha.outer] at hos
        cases hos
    obtain ⟨hx, rfl⟩ := hfind
    obtain ⟨v, hv, hlike⟩ := ha.ident hst.good.proper hx hn
    rw [← hc] at hv
    obtain rfl := hst.ip
    exact .load Joint.stable_stored ha hst.safe (hst.fits _ List.mem_cons_self) hst.code hv hlike
  function := by
    intro d d' pos is name params body k b _ hmakes _
    exact hmakes.elim
  opens := by
    rintro d t s x k k' b hgood hx ⟨rfl, hb⟩ ha
    refine ha.gain (SymbolTable.gains_of_slotFor hx) (hgood.slotFor hx).proper ?_ hb
    rw [SymbolTable.outer_of_slotFor hx, ha.outer]
  closes := by
    rintro s d d' x b₀ b n e t is pos k k₁ k₂ k' h v hgood hx hs - hem -
      ⟨n', e', hs', rfl⟩ ha₀ - hst hat
    cases hs.symm.trans hs'
    obtain ⟨hfind, ho⟩ := SymbolTable.find?_of_slotFor hx hs
    have hgood' := hgood.slotFor hx
    have hk : x.kind = .global := (hgood'.proper.kind_of_owned hfind ho).mpr ha₀.outer
    have ha := Joint.stable_stored.moved hst.agrees (pos + extent is + x.storeInstr.size) h
    refine hst.storing hat ho b.world fun _ => ?_
    rw [hc]
    exact ha.store hem.gains hgood'.sound.head hfind hk hat.head h
  skips := by
    rintro d d' ss pos is k k' b hgood hem ⟨rfl, hb⟩ ha
    exact ha.gain hem.gains (hem.good hgood).1.proper (hem.grows.outer_eq_nil.mp ha.outer) hb

end Site

end Marmoset
