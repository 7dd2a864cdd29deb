import Marmoset.Proofs.Emission
import Marmoset.Proofs.Likeness

/-!
# What is alike in the two stores

The two engines make arrays and hashes at the same places and with the same elements, up to
functions.  `Store.Like` says so of the store of the machine and that of the evaluator, and that the
machine's closures are the compiled functions of the evaluator, one by one behind the closure of the
main stream.  What they print differs only where a function is written out (`Shown`).

* `Store.Like.getIndex`, `Store.Like.setIndex`, `Store.Like.buildHash` — the operations on
  containers.
* **`Store.Like.call`** — builtins answer alike and print alike.
* `Store.Like.textOf` — so do the texts of values; how deep the two stores look into them does not
  matter.
-/

namespace Marmoset

/-! ## Arrays and bindings -/

lemma rel_map {α α' β β' : Type} {R : α → β → Prop} {R' : α' → β' → Prop} {f : α → α'} {g : β → β'}
    {a : Option α} {b : Option β} (h : Option.Rel R a b) (hfg : ∀ a b, R a b → R' (f a) (g b)) :
    Option.Rel R' (a.map f) (b.map g) := by
  cases h with
  | some h => exact .some (hfg _ _ h)
  | none => exact .none

lemma rel_getD {α β : Type} {R : α → β → Prop} {a : Option α} {b : Option β} {c : α} {d : β}
    (h : Option.Rel R a b) (hcd : R c d) : R (a.getD c) (b.getD d) := by
  cases h with
  | some h => exact h
  | none => exact hcd

/-- The arrays have the same size, and their elements are related one by one. -/
def Pointwise {α β : Type} (R : α → β → Prop) (xs : Array α) (ys : Array β) : Prop :=
  ∀ i : Nat, Option.Rel R xs[i]? ys[i]?

namespace Pointwise

variable {α β : Type} {R R' : α → β → Prop} {xs : Array α} {ys : Array β}

lemma mono (h : Pointwise R xs ys) (hR : ∀ a b, R a b → R' a b) : Pointwise R' xs ys := by
  intro i
  have hi := rel_map (h i) hR
  rwa [Option.map_id', Option.map_id'] at hi

/-- Arrays that are related pointwise have the same size, since an index beyond one is beyond the
other. -/
lemma size_eq (h : Pointwise R xs ys) : xs.size = ys.size := by
  rcases Nat.lt_trichotomy xs.size ys.size with hlt | heq | hlt
  · have hi := h xs.size
    rw [Array.getElem?_eq_none (Nat.le_refl _), Array.getElem?_eq_getElem hlt] at hi
    cases hi
  · exact heq
  · have hi := h ys.size
    rw [Array.getElem?_eq_none (Nat.le_refl _), Array.getElem?_eq_getElem hlt] at hi
    cases hi

lemma empty : Pointwise R #[] #[] := by
  intro i
  simp only [Array.getElem?_empty]
  exact .none

/-- What is added at the end is related as well. -/
lemma push (h : Pointwise R xs ys) {a : α} {b : β} (hab : R a b) :
    Pointwise R (xs.push a) (ys.push b) := by
  intro i
  rw [Array.getElem?_push, Array.getElem?_push, h.size_eq]
  split_ifs
  · exact .some hab
  · exact h i

lemma getD (h : Pointwise R xs ys) {a : α} {b : β} (hab : R a b) (i : Nat) :
    R (xs.getD i a) (ys.getD i b) := by
  rw [Array.getD_eq_getD_getElem?, Array.getD_eq_getD_getElem?]
  exact rel_getD (h i) hab

/-- Any stretch of two related arrays is related. -/
lemma extract (h : Pointwise R xs ys) (start stop : Nat) :
    Pointwise R (xs.extract start stop) (ys.extract start stop) := by
  intro i
  rw [Array.getElem?_extract, Array.getElem?_extract, h.size_eq]
  split_ifs
  · exact h _
  · exact .none

/-- Writing related elements at the same place keeps arrays related; beyond the end nothing happens
in either. -/
lemma setIfInBounds (h : Pointwise R xs ys) {a : α} {b : β} (hab : R a b) (i : Nat) :
    Pointwise R (xs.setIfInBounds i a) (ys.setIfInBounds i b) := by
  intro j
  rw [Array.getElem?_setIfInBounds, Array.getElem?_setIfInBounds, h.size_eq]
  split_ifs
  · exact .some hab
  · exact .none
  · exact h j

/-- So does changing the element at a place on either side. -/
lemma modify (h : Pointwise R xs ys) {f : α → α} {g : β → β} (hfg : ∀ a b, R a b → R (f a) (g b))
    (i : Nat) :
    Pointwise R (xs.modify i f) (ys.modify i g) := by
  intro j
  rw [Array.getElem?_modify, Array.getElem?_modify]
  split_ifs
  · exact rel_map (h j) hfg
  · exact h j

/-- As lists the arrays are related member by member. -/
lemma forall₂ (h : Pointwise R xs ys) : List.Forall₂ R xs.toList ys.toList := by
  rw [List.forall₂_iff_get]
  refine ⟨by simpa using h.size_eq, fun i hi hi' => ?_⟩
  have hab := h i
  simp only [Array.length_toList] at hi hi'
  rw [Array.getElem?_eq_getElem hi, Array.getElem?_eq_getElem hi'] at hab
  cases hab with
  | some hab => simpa using hab

lemma of_forall₂ {as : List α} {bs : List β} (h : List.Forall₂ R as bs) :
    Pointwise R as.toArray bs.toArray := by
  induction h with
  | nil => exact .empty
  | @cons a b as bs hab _ ih =>
      intro i
      cases i with
      | zero => simpa using Option.Rel.some hab
      | succ i => simpa using ih i

end Pointwise

/-- The same keys in the same order, with values that are alike. -/
def Bindings.Like (n : Nat) (b b' : Bindings HashKey Value) : Prop :=
  List.Forall₂ (fun p q => p.1 = q.1 ∧ Value.Like n p.2 q.2) b.entries b'.entries

namespace Bindings.Like

variable {n n' : Nat} {b b' : Bindings HashKey Value}

/-- Values that are alike stay alike when more functions are made. -/
lemma mono (h : b.Like n b') (hn : n ≤ n') : b.Like n' b' :=
  List.Forall₂.imp (fun _ _ h => ⟨h.1, h.2.mono hn⟩) h

/-- The same key finds values that are alike, or nothing in either. -/
lemma find? (h : b.Like n b') (key : HashKey) :
    Option.Rel (Value.Like n) (b.find? key) (b'.find? key) := by
  obtain ⟨es⟩ := b
  obtain ⟨es'⟩ := b'
  unfold Bindings.Like at h
  unfold Bindings.find?
  dsimp only at h ⊢
  induction h with
  | nil => exact .none
  | @cons p q _ _ hpq _ ih =>
      obtain ⟨k, v⟩ := p
      obtain ⟨k', v'⟩ := q
      obtain ⟨rfl, hv⟩ := hpq
      rw [Bindings.findIn, Bindings.findIn]
      split_ifs
      · exact .some hv
      · exact ih

/-- Inserting values that are alike under the same key keeps the bindings alike. -/
lemma insert (h : b.Like n b') (key : HashKey) {v v' : Value} (hv : v.Like n v') :
    (b.insert key v).Like n (b'.insert key v') := by
  obtain ⟨es⟩ := b
  obtain ⟨es'⟩ := b'
  unfold Bindings.Like Bindings.insert at *
  dsimp only at h ⊢
  induction h with
  | nil => exact .cons ⟨rfl, hv⟩ .nil
  | @cons p q _ _ hpq hrest ih =>
      obtain ⟨k, w⟩ := p
      obtain ⟨k', w'⟩ := q
      obtain ⟨rfl, hw⟩ := hpq
      rw [Bindings.insertIn, Bindings.insertIn]
      split_ifs
      · exact .cons ⟨rfl, hv⟩ hrest
      · exact .cons ⟨rfl, hw⟩ ih

end Bindings.Like

/-! ## Texts -/

section

variable {T : String → String → Prop} (same : ∀ t, T t t)
  (append : ∀ {a a' b b'}, T a a' → T b b' → T (a ++ b) (a' ++ b'))

include same append

/-- Texts joined by commas are related as they are. -/
lemma commas_rel {xs ys : List String} (h : List.Forall₂ T xs ys) : T (commas xs) (commas ys) := by
  unfold commas
  induction h with
  | nil => exact same _
  | @cons a a' xs ys ha hrest ih =>
      cases hrest with
      | nil => simpa using ha
      | cons hb hrest' =>
          rw [String.intercalate_cons_cons, String.intercalate_cons_cons]
          exact append (append ha (same _)) ih

end

/-- A text of the machine and one of the evaluator, where these functions were made. -/
inductive Shown (fs : Array FunctionObject) : String → String → Prop where
  | same (t : String) : Shown fs t t
  | kind (h : 0 < fs.size) : Shown fs Kind.closure.name Kind.function.name
  | function {i : Nat} {f : FunctionObject} (h : fs[i]? = some f) :
      Shown fs ("Closure" ++ View.addressText (i + 1))
        ("fn(" ++ commas f.params ++ ") " ++ Stmt.blockText f.body)
  | append {a a' b b' : String} (h : Shown fs a a') (h' : Shown fs b b') :
      Shown fs (a ++ b) (a' ++ b')

namespace Shown

variable {fs fs' : Array FunctionObject} {a a' : String}

/-- Texts stay related when more functions are made. -/
lemma mono (h : Shown fs a a') (hf : fs.toList <+: fs'.toList) : Shown fs' a a' := by
  induction h with
  | same t => exact .same t
  | kind h => exact .kind (Nat.lt_of_lt_of_le h (by simpa using hf.length_le))
  | function h => exact .function (by
      rw [← Array.getElem?_toList] at h ⊢
      obtain ⟨rest, hrest⟩ := hf
      rw [← hrest, List.getElem?_append_left (List.getElem?_eq_some_iff.mp h).1, h])
  | append _ _ ih ih' => exact .append ih ih'

/-- Without functions the texts are equal. -/
lemma eq_of_empty (h : Shown #[] a a') : a = a' := by
  induction h with
  | same t => rfl
  | kind h => exact absurd h (Nat.lt_irrefl 0)
  | function h => simp at h
  | append _ _ ih ih' => rw [ih, ih']

/-- Messages that are alike are texts that are related. -/
lemma message {a a' : String} (h : Message.Like fs.size a a') : Shown fs a a' := by
  cases h with
  | same _ => exact .same _
  | kind p h => exact .append (.same p) (.kind h)

end Shown

/-! ## Stores -/

/-- The store of the machine and that of the evaluator. -/
structure Store.Like (s σ : Store) : Prop where
  arrays : Pointwise (Pointwise (Value.Like σ.functions.size)) s.arrays σ.arrays
  hashes : Pointwise (Bindings.Like σ.functions.size) s.hashes σ.hashes
  closures : s.closures.size = σ.functions.size + 1
  functions : ∀ i f, σ.functions[i]? = some f →
    ∃ c, s.closures[i + 1]? = some c ∧ CompilesTo f.name f.params f.body c.fn
  printed : Shown σ.functions s.printed σ.printed

/-- The store has the functions and names of another one. -/
structure Store.Beside (s s' : Store) : Prop where
  closures : s'.closures = s.closures
  functions : s'.functions = s.functions
  environments : s'.environments = s.environments

lemma Store.Beside.refl (s : Store) : s.Beside s := ⟨rfl, rfl, rfl⟩

namespace Store.Like

variable {s σ : Store} {v v' w w' : Value}

/-- What arrays at the same place hold is alike. -/
lemma array (h : s.Like σ) (ref : Nat) :
    Pointwise (Value.Like σ.functions.size) (s.array ref) (σ.array ref) :=
  h.arrays.getD .empty ref

/-- So is what hashes at the same place hold. -/
lemma hash (h : s.Like σ) (ref : Nat) : (s.hash ref).Like σ.functions.size (σ.hash ref) :=
  h.hashes.getD .nil ref

/-- A new array has the same place in both stores. -/
lemma newArray (h : s.Like σ) {items items' : Array Value}
    (hi : Pointwise (Value.Like σ.functions.size) items items') :
    (s.newArray items).1.Like σ.functions.size (σ.newArray items').1 ∧
      (s.newArray items).2.Like (σ.newArray items').2 := by
  refine ⟨?_, h.arrays.push hi, h.hashes, h.closures, h.functions, h.printed⟩
  rw [Store.newArray, Store.newArray, h.arrays.size_eq]
  exact .plain rfl

/-- So has a new hash. -/
lemma newHash (h : s.Like σ) {b b' : Bindings HashKey Value} (hb : b.Like σ.functions.size b') :
    (s.newHash b).1.Like σ.functions.size (σ.newHash b').1 ∧
      (s.newHash b).2.Like (σ.newHash b').2 := by
  refine ⟨?_, h.arrays, h.hashes.push hb, h.closures, h.functions, h.printed⟩
  rw [Store.newHash, Store.newHash, h.hashes.size_eq]
  exact .plain rfl

/-- A function that is made by both. -/
lemma newFunction (h : s.Like σ) {f : FunctionObject} {c : Closure}
    (hc : CompilesTo f.name f.params f.body c.fn) :
    (s.newClosure c).2.Like (σ.newFunction f).2 := by
  have hn : σ.functions.size ≤ (σ.functions.push f).size := by simp
  have hf : σ.functions.toList <+: (σ.functions.push f).toList := by simp
  refine ⟨?_, ?_, ?_, ?_, h.printed.mono hf⟩
  · exact h.arrays.mono fun _ _ hxs => hxs.mono fun _ _ hv => hv.mono hn
  · exact h.hashes.mono fun _ _ hb => hb.mono hn
  · show (s.closures.push c).size = (σ.functions.push f).size + 1
    rw [Array.size_push, Array.size_push, h.closures]
  · intro i g hg
    show ∃ d, (s.closures.push c)[i + 1]? = some d ∧ _
    change (σ.functions.push f)[i]? = some g at hg
    rw [Array.getElem?_push] at hg
    rw [Array.getElem?_push, h.closures]
    split_ifs at hg with hi
    · cases hg
      exact ⟨c, if_pos (by omega), hc⟩
    · obtain ⟨d, hd, hcomp⟩ := h.functions i g hg
      exact ⟨d, (if_neg (by omega)).trans hd, hcomp⟩

/-- Printing related texts keeps the stores alike. -/
lemma print (h : s.Like σ) {a a' : String} (ha : Shown σ.functions a a') :
    (s.print a).Like (σ.print a') :=
  ⟨h.arrays, h.hashes, h.closures, h.functions, .append (.append h.printed ha) (.same _)⟩

/-- Indexing finds values that are alike, or meets faults that are alike. -/
lemma getIndex (h : s.Like σ) (hv : v.Like σ.functions.size v') (hw : w.Like σ.functions.size w') :
    Alike σ.functions.size (Value.Like σ.functions.size) (s.getIndex v w) (σ.getIndex v' w') := by
  have hkind := hv.kind
  cases hv with
  | plain hp =>
      cases v with
      | array ref =>
          cases hw with
          | plain hw =>
              cases w with
              | integer i =>
                  simp only [Store.getIndex]
                  cases Store.position? i with
                  | none => exact Value.Like.plain rfl
                  | some k => exact (h.array ref).getD (.plain rfl) k
              | _ => exact .indexNotSupported hkind
          | function _ => exact .indexNotSupported hkind
          | error _ => exact .indexNotSupported hkind
      | hash ref =>
          simp only [Store.getIndex, hw.hashKey?]
          cases w.hashKey? with
          | none => exact .unusableHashKey hw.kind
          | some k => exact rel_getD ((h.hash ref).find? k) (.plain rfl)
      | _ => exact .indexNotSupported hkind
  | function _ => exact .indexNotSupported hkind
  | error _ => exact .indexNotSupported hkind

/-- Writing to an index changes both stores alike, and neither functions nor names in them. -/
lemma setIndex (h : s.Like σ) (hv : v.Like σ.functions.size v') (hw : w.Like σ.functions.size w')
    {x x' : Value} (hx : x.Like σ.functions.size x') :
    Alike σ.functions.size (fun s' σ' => s'.Like σ' ∧ s.Beside s' ∧ σ.Beside σ') (s.setIndex v w x)
      (σ.setIndex v' w' x') := by
  have hkind := hv.kind
  cases hv with
  | plain hp =>
      cases v with
      | array ref =>
          cases hw with
          | plain hw =>
              cases w with
              | integer i =>
                  simp only [Store.setIndex, (h.array ref).size_eq]
                  cases Store.position? i with
                  | none => exact Fault.Like.same _
                  | some k =>
                      dsimp only
                      split_ifs
                      · exact ⟨⟨h.arrays.modify (fun _ _ hr => hr.setIfInBounds hx k) ref,
                          h.hashes, h.closures,
                          h.functions, h.printed⟩, ⟨rfl, rfl, rfl⟩, ⟨rfl, rfl, rfl⟩⟩
                      · exact Fault.Like.same _
              | _ => exact .indexNotSupported hkind
          | function _ => exact .indexNotSupported hkind
          | error _ => exact .indexNotSupported hkind
      | hash ref =>
          simp only [Store.setIndex, hw.hashKey?]
          cases w.hashKey? with
          | none => exact .unusableHashKey hw.kind
          | some k =>
              exact ⟨⟨h.arrays, h.hashes.modify (fun _ _ hr => hr.insert k hx) ref, h.closures,
                h.functions, h.printed⟩, ⟨rfl, rfl, rfl⟩, ⟨rfl, rfl, rfl⟩⟩
      | _ => exact .indexNotSupported hkind
  | function _ => exact .indexNotSupported hkind
  | error _ => exact .indexNotSupported hkind

/-- Keys and values that are alike are paired up alike; a key that is none is refused in both. -/
lemma pairUp {n : Nat} {b b' : Bindings HashKey Value} (hb : b.Like n b') {vs vs' : List Value}
    (h : List.Forall₂ (Value.Like n) vs vs') :
    Alike n (Bindings.Like n) (Store.pairUp b vs) (Store.pairUp b' vs') := by
  induction b, vs using Store.pairUp.induct generalizing b' vs' with
  | case1 b key value rest k hk ih =>
      cases h with
      | cons hkey h =>
          cases h with
          | cons hvalue hrest =>
              rw [Store.pairUp, Store.pairUp, hkey.hashKey?, hk]
              exact ih (hb.insert k hvalue) hrest
  | case2 b key value rest hk =>
      cases h with
      | cons hkey h =>
          cases h with
          | cons hvalue hrest =>
              rw [Store.pairUp, Store.pairUp, hkey.hashKey?, hk]
              exact .unusableHashKey hkey.kind
  | case3 b vs hne =>
      cases h with
      | nil => exact hb
      | cons hkey h =>
          cases h with
          | nil => exact hb
          | cons _ _ => exact absurd rfl (hne _ _ _)

/-- So a hash is built of them in both stores, or refused in both. -/
lemma buildHash (h : s.Like σ) {vs vs' : List Value}
    (hvs : List.Forall₂ (Value.Like σ.functions.size) vs vs') :
    Alike σ.functions.size
      (fun r r' => r.1.Like σ.functions.size r'.1 ∧ r.2.Like r'.2 ∧ s.Beside r.2 ∧ σ.Beside r'.2)
      (s.buildHash vs) (σ.buildHash vs') := by
  have hempty : Bindings.Like σ.functions.size .empty .empty := .nil
  have hpairs := pairUp hempty hvs
  unfold Store.buildHash
  cases hp : Store.pairUp .empty vs with
  | ok pairs =>
      cases hp' : Store.pairUp .empty vs' with
      | ok pairs' =>
          rw [hp, hp'] at hpairs
          have hnew := h.newHash hpairs
          exact ⟨hnew.1, hnew.2, ⟨rfl, rfl, rfl⟩, ⟨rfl, rfl, rfl⟩⟩
      | error f =>
          rw [hp, hp'] at hpairs
          exact hpairs.elim
  | error f =>
      cases hp' : Store.pairUp .empty vs' with
      | ok pairs' =>
          rw [hp, hp'] at hpairs
          exact hpairs.elim
      | error f' =>
          rw [hp, hp'] at hpairs
          exact hpairs

/-! ### Texts of values -/

/-- The places of all arrays and hashes. -/
def containers (s : Store) : List Container :=
  (List.range s.arrays.size).map .array ++ (List.range s.hashes.size).map .hash

/-- How many containers are not among these. -/
def unopened (s : Store) (within : List Container) : Nat :=
  ((containers s).filter fun c => !within.contains c).length

lemma array_mem_containers {ref : Nat} (h : ref < s.arrays.size) :
    Container.array ref ∈ containers s :=
  List.mem_append_left _ (List.mem_map.mpr ⟨ref, List.mem_range.mpr h, rfl⟩)

lemma hash_mem_containers {ref : Nat} (h : ref < s.hashes.size) :
    Container.hash ref ∈ containers s :=
  List.mem_append_right _ (List.mem_map.mpr ⟨ref, List.mem_range.mpr h, rfl⟩)

/-- With each container that is opened one less is left. -/
lemma unopened_lt {c : Container} {within : List Container} (hc : c ∈ containers s)
    (hw : c ∉ within) :
    unopened s (c :: within) < unopened s within := by
  have hsplit : ((containers s).filter fun d => !(c :: within).contains d) =
      ((containers s).filter fun d => !within.contains d).filter fun d => !(d == c) := by
    rw [List.filter_filter]
    refine List.filter_congr fun d _ => ?_
    rw [List.contains_cons, Bool.not_or]
  rw [unopened, unopened, hsplit, List.length_filter_lt_length_iff_exists]
  exact ⟨c, List.mem_filter.mpr ⟨hc, by simpa using hw⟩, by simp⟩

lemma texts_eq (vs : List View) : View.texts vs = vs.map View.text := by
  induction vs with
  | nil => rfl
  | cons v vs ih => rw [View.texts, List.map_cons, ih]

lemma pairTexts_eq (ps : List (HashKey × View)) :
    View.pairTexts ps = ps.map fun p => p.1.text ++ ": " ++ p.2.text := by
  induction ps with
  | nil => rfl
  | cons p ps ih => rw [View.pairTexts, List.map_cons, ih]

section

variable {T : String → String → Prop} (same : ∀ t, T t t)
  (append : ∀ {a a' b b'}, T a a' → T b b' → T (a ++ b) (a' ++ b')) {V : Value → Value → Prop}
  (harray : ∀ ref, List.Forall₂ V (s.array ref).toList (σ.array ref).toList)
  (hhash : ∀ ref, List.Forall₂ (fun p q => p.1 = q.1 ∧ V p.2 q.2) (s.hash ref).entries
    (σ.hash ref).entries)
  (hvalue : ∀ {v v'}, V v v' → (∃ ref, v = .array ref ∧ v' = .array ref) ∨
    (∃ ref, v = .hash ref ∧ v' = .hash ref) ∨
    ∀ f f' within, T (s.viewWithin (f + 1) within v).text (σ.viewWithin (f' + 1) within v').text)

include same append harray hhash hvalue

/-- The texts of related values inside the same containers.  Each container that is opened is a new
one, so that it is enough to look deeper than there are containers left. -/
lemma viewText_rel (k : Nat) : ∀ {within : List Container} {fuel fuel' : Nat} {v v' : Value},
    unopened s within ≤ k → k < fuel → k < fuel' → V v v' →
      T (s.viewWithin fuel within v).text (σ.viewWithin fuel' within v').text := by
  induction k using Nat.strongRecOn with
  | ind k ih =>
      intro within fuel fuel' v v' hk hf hf' hv
      obtain ⟨f, rfl⟩ := Nat.exists_eq_succ_of_ne_zero (Nat.ne_of_gt (Nat.zero_lt_of_lt hf))
      obtain ⟨f', rfl⟩ := Nat.exists_eq_succ_of_ne_zero (Nat.ne_of_gt (Nat.zero_lt_of_lt hf'))
      -- inside a container that is opened
      have hinside {c : Container} {w w' : Value} (hc : c ∈ containers s) (hw : c ∉ within)
          (hrel : V w w') :
          T (s.viewWithin f (c :: within) w).text (σ.viewWithin f' (c :: within) w').text := by
        have hlt := unopened_lt hc hw
        exact ih _ (by omega) (Nat.le_refl _) (by omega) (by omega) hrel
      rcases hvalue hv with ⟨ref, rfl, rfl⟩ | ⟨ref, rfl, rfl⟩ | htext
      · simp only [Store.viewWithin]
        cases hi : within.idxOf? (.array ref) with
        | some i => exact same _
        | none =>
            have hw := List.idxOf?_eq_none_iff.mp hi
            have hitems := harray ref
            simp only [View.text, texts_eq, List.map_map]
            refine append (append (same _) (commas_rel same append ?_)) (same _)
            rw [List.forall₂_map_left_iff, List.forall₂_map_right_iff]
            by_cases hr : ref < s.arrays.size
            · exact hitems.imp fun _ _ hrel => hinside (array_mem_containers hr) hw hrel
            · have hempty : s.array ref = #[] := by
                simp [Store.array, hr]
              rw [hempty] at hitems ⊢
              generalize (σ.array ref).toList = es at hitems ⊢
              cases hitems
              exact .nil
      · simp only [Store.viewWithin]
        cases hi : within.idxOf? (.hash ref) with
        | some i => exact same _
        | none =>
            have hw := List.idxOf?_eq_none_iff.mp hi
            have hpairs := hhash ref
            simp only [View.text, pairTexts_eq, List.map_map]
            refine append (append (same _) (commas_rel same append ?_)) (same _)
            rw [List.forall₂_map_left_iff, List.forall₂_map_right_iff]
            by_cases hr : ref < s.hashes.size
            · refine hpairs.imp fun p q hpq => ?_
              obtain ⟨hkey, hrel⟩ := hpq
              simp only [Function.comp_apply, hkey]
              exact append (same _) (hinside (hash_mem_containers hr) hw hrel)
            · have hempty : s.hash ref = .empty := by
                simp [Store.hash, hr]
              rw [hempty] at hpairs ⊢
              generalize (σ.hash ref).entries = es at hpairs ⊢
              cases hpairs
              exact .nil
      · exact htext f f' within

/-- The texts of related values, in stores with as many containers. -/
lemma textOf_rel (ha : s.arrays.size = σ.arrays.size) (hh : s.hashes.size = σ.hashes.size)
    {v v' : Value} (hv : V v v') : T (s.textOf v) (σ.textOf v') := by
  have hcount : unopened s [] = s.arrays.size + s.hashes.size := by
    simp [unopened, containers]
  have hdepth (s : Store) : s.arrays.size + s.hashes.size < s.viewDepth := by
    have hpos : 0 < s.closures.size + 1 := Nat.succ_pos _
    have := Nat.le_mul_of_pos_right (s.arrays.size + s.hashes.size + 1) hpos
    rw [Store.viewDepth]
    omega
  refine viewText_rel same append harray hhash hvalue (s.arrays.size + s.hashes.size)
    (Nat.le_of_eq hcount) (hdepth s)
    ?_ hv
  rw [ha, hh]
  exact hdepth σ

end

/-- Values that are alike have texts that are alike. -/
lemma textOf (h : s.Like σ) (hv : v.Like σ.functions.size v') :
    Shown σ.functions (s.textOf v) (σ.textOf v') := by
  refine textOf_rel .same .append (fun ref => (h.array ref).forall₂) h.hash (fun {v v'} hv => ?_)
    h.arrays.size_eq
    h.hashes.size_eq hv
  cases hv with
  | plain hp =>
      cases v with
      | array ref => exact .inl ⟨ref, rfl, rfl⟩
      | hash ref => exact .inr (.inl ⟨ref, rfl, rfl⟩)
      | _ => first | (cases hp; done) | exact .inr (.inr fun _ _ _ => .same _)
  | @function i hi =>
      obtain ⟨f, hfn⟩ : ∃ f, σ.functions[i]? = some f := ⟨_, Array.getElem?_eq_getElem hi⟩
      obtain ⟨c, hc, -⟩ := h.functions i f hfn
      refine .inr (.inr fun _ _ _ => ?_)
      simp only [Store.viewWithin, hc, hfn, View.text]
      exact .function hfn
  | error hm => exact .inr (.inr fun _ _ _ => .append (.same _) (.message hm))

/-! ### Builtins -/

/-- What is printed of values that are alike is related, one after the other. -/
lemma printAll {n : Nat} {vs vs' : List Value} (hvs : List.Forall₂ (Value.Like n) vs vs')
    (h : s.Like σ) (hn : σ.functions.size = n) :
    (Builtin.printAll s vs).Like (Builtin.printAll σ vs') ∧ s.Beside (Builtin.printAll s vs) ∧
      σ.Beside (Builtin.printAll σ vs') := by
  induction hvs generalizing s σ with
  | nil => exact ⟨h, .refl s, .refl σ⟩
  | cons hv _ ih =>
      rw [← hn] at hv
      obtain ⟨hlike, hs, hσ⟩ := ih (h.print (h.textOf hv)) hn
      exact ⟨hlike, ⟨hs.closures, hs.functions, hs.environments⟩,
        ⟨hσ.closures, hσ.functions, hσ.environments⟩⟩

/-- A complaint about the kind of a value. -/
lemma complaint {n : Nat} (p : String) (hv : v.Like n v') :
    (Value.error (p ++ v.kind.name)).Like n (.error (p ++ v'.kind.name)) :=
  .error (.of_kind p hv.kind)

/-- A complaint about the number of arguments counts the same in both. -/
lemma wrongArity {n : Nat} (wanted : Nat) {vs vs' : List Value}
    (h : List.Forall₂ (Value.Like n) vs vs') :
    (Builtin.wrongArity wanted vs.length).Like n (Builtin.wrongArity wanted vs'.length) := by
  rw [h.length_eq]
  exact .error (.of_number _ _)

/-- Values that are alike have the same length, or none. -/
lemma callLen (h : s.Like σ) (hv : v.Like σ.functions.size v') :
    (Builtin.callLen s v).Like σ.functions.size (Builtin.callLen σ v') := by
  have hother := complaint "argument to `len` not supported, got " hv
  cases hv with
  | plain hp =>
      cases v with
      | array ref =>
          simp only [Builtin.callLen, (h.array ref).size_eq]
          exact .plain rfl
      | string t => exact .plain rfl
      | _ => first | (cases hp; done) | exact hother
  | function _ => exact hother
  | error _ => exact hother

/-- What a builtin does to two stores that are alike. -/
def Answers (s σ : Store) (r r' : Value × Store) : Prop :=
  r.1.Like σ.functions.size r'.1 ∧ r.2.Like r'.2 ∧ s.Beside r.2 ∧ σ.Beside r'.2

/-- An answer that changes nothing. -/
lemma answers (h : s.Like σ) (hv : v.Like σ.functions.size v') : Answers s σ (v, s) (v', σ) :=
  ⟨hv, h, .refl s, .refl σ⟩

/-- A new array is an answer that is alike. -/
lemma answers_newArray (h : s.Like σ) {items items' : Array Value}
    (hi : Pointwise (Value.Like σ.functions.size) items items') :
    Answers s σ (s.newArray items) (σ.newArray items') :=
  ⟨(h.newArray hi).1, (h.newArray hi).2, ⟨rfl, rfl, rfl⟩, ⟨rfl, rfl, rfl⟩⟩

/-- The first member of arrays that are alike is alike. -/
lemma callFirst (h : s.Like σ) (hv : v.Like σ.functions.size v') :
    Answers s σ (Builtin.call .first s [v]) (Builtin.call .first σ [v']) := by
  have hother := h.answers (complaint "argument to `first` must be Array, got " hv)
  cases hv with
  | plain hp =>
      cases v with
      | array ref => exact h.answers ((h.array ref).getD (.plain rfl) 0)
      | _ => first | (cases hp; done) | exact hother
  | function _ => exact hother
  | error _ => exact hother

/-- So is the last one. -/
lemma callLast (h : s.Like σ) (hv : v.Like σ.functions.size v') :
    Answers s σ (Builtin.call .last s [v]) (Builtin.call .last σ [v']) := by
  have hother := h.answers (complaint "argument to `last` must be Array, got " hv)
  cases hv with
  | plain hp =>
      cases v with
      | array ref =>
          refine h.answers ?_
          rw [Array.back?_eq_getElem?, Array.back?_eq_getElem?, (h.array ref).size_eq]
          exact rel_getD (h.array ref _) (.plain rfl)
      | _ => first | (cases hp; done) | exact hother
  | function _ => exact hother
  | error _ => exact hother

/-- So is an array of all but the first member. -/
lemma callRest (h : s.Like σ) (hv : v.Like σ.functions.size v') :
    Answers s σ (Builtin.callRest s v) (Builtin.callRest σ v') := by
  have hother := h.answers (complaint "argument to `rest` must be Array, got " hv)
  cases hv with
  | plain hp =>
      cases v with
      | array ref =>
          have hempty : (s.array ref).isEmpty = (σ.array ref).isEmpty := by
            rw [Array.isEmpty, Array.isEmpty, (h.array ref).size_eq]
          have hdrop : Pointwise (Value.Like σ.functions.size) ((s.array ref).drop 1)
              ((σ.array ref).drop 1) := by
            rw [Array.drop_eq_extract, Array.drop_eq_extract, (h.array ref).size_eq]
            exact (h.array ref).extract _ _
          simp only [Builtin.callRest, hempty]
          split_ifs
          · exact h.answers (.plain rfl)
          · exact h.answers_newArray hdrop
      | _ => first | (cases hp; done) | exact hother
  | function _ => exact hother
  | error _ => exact hother

/-- So is an array with one member more. -/
lemma callPush (h : s.Like σ) (hv : v.Like σ.functions.size v') (hw : w.Like σ.functions.size w') :
    Answers s σ (Builtin.callPush s v w) (Builtin.callPush σ v' w') := by
  have hother := h.answers (complaint "first argument to `push` must be Array, got " hv)
  cases hv with
  | plain hp =>
      cases v with
      | array ref => exact h.answers_newArray ((h.array ref).push hw)
      | _ => first | (cases hp; done) | exact hother
  | function _ => exact hother
  | error _ => exact hother

/-- With more than one argument these two complain, and look at none of them. -/
lemma call_many {b : Builtin} (hb : b = .first ∨ b = .last) (s : Store) (v w : Value)
    (vs : List Value) :
    b.call s (v :: w :: vs) = (Builtin.wrongArity 1 (v :: w :: vs).length, s) := by
  rcases hb with rfl | rfl <;> cases v <;> rfl

/-- **Builtins answer alike.** -/
theorem call (h : s.Like σ) (b : Builtin) {vs vs' : List Value}
    (hvs : List.Forall₂ (Value.Like σ.functions.size) vs vs') :
    Answers s σ (b.call s vs) (b.call σ vs') := by
  have harity (wanted : Nat) := h.answers (wrongArity wanted hvs)
  cases b with
  | puts => exact ⟨.plain rfl, printAll hvs h rfl⟩
  | push =>
      cases hvs with
      | nil => exact harity 2
      | cons hv hvs =>
          cases hvs with
          | nil => exact harity 2
          | cons hw hvs =>
              cases hvs with
              | nil => exact h.callPush hv hw
              | cons _ _ => exact harity 2
  | len =>
      cases hvs with
      | nil => exact harity 1
      | cons hv hvs =>
          cases hvs with
          | nil => exact h.answers (h.callLen hv)
          | cons _ _ => exact harity 1
  | first =>
      cases hvs with
      | nil => exact harity 1
      | cons hv hvs =>
          cases hvs with
          | nil => exact h.callFirst hv
          | cons _ _ =>
              rw [call_many (.inl rfl), call_many (.inl rfl)]
              exact harity 1
  | last =>
      cases hvs with
      | nil => exact harity 1
      | cons hv hvs =>
          cases hvs with
          | nil => exact h.callLast hv
          | cons _ _ =>
              rw [call_many (.inr rfl), call_many (.inr rfl)]
              exact harity 1
  | rest =>
      cases hvs with
      | nil => exact harity 1
      | cons hv hvs =>
          cases hvs with
          | nil => exact h.callRest hv
          | cons _ _ => exact harity 1

end Store.Like

end Marmoset
