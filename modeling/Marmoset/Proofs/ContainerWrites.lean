import Marmoset.Proofs.FunctionFree

/-!
# Writing to containers

Arrays and hashes are places in the store that any number of values refer to, also the containers
themselves.  A write through one of these values is seen through all of them, and nothing else is
seen to change.

* `Value.SamePlace` — two containers with an index each that mean the same element or entry.
* `Store.Writes` — what there is to say of a write that was done.
* **`Store.index_read_over_write`** — every write either is one of these or changes nothing.

A hash that is built from keys and values by turns comes to the same as writing the pairs one after
the other to an empty hash.

* `Store.assignAll_newHash` — the two ways, from any hash that is built so far.
* **`Store.buildHash_assigns`** — so it is with the whole hash, whose keys stand in the order of
  their first occurrence with the values of their last one.
-/

namespace Marmoset

/-! ## The order of keys -/

namespace Bindings

variable {κ α : Type} [DecidableEq κ]

/-- The keys in their order. -/
def keys (b : Bindings κ α) : List κ :=
  b.entries.map Prod.fst

lemma findIn_eq_none {k : κ} {es : List (κ × α)} : findIn k es = none ↔ k ∉ es.map Prod.fst := by
  induction es with
  | nil => simp [findIn]
  | cons e es ih =>
      rw [findIn, List.map_cons, List.mem_cons, not_or]
      split_ifs with h
      · simp [h]
      · rw [ih]
        exact ⟨fun hes => ⟨Ne.symm h, hes⟩, fun hes => hes.2⟩

/-- What is not found is no key. -/
lemma find?_eq_none {b : Bindings κ α} {k : κ} : b.find? k = none ↔ k ∉ b.keys :=
  findIn_eq_none

/-- A key that is not bound yet comes last. -/
lemma entries_insert_of_not_mem {b : Bindings κ α} {k : κ} (a : α) (h : k ∉ b.keys) :
    (b.insert k a).entries = b.entries ++ [(k, a)] := by
  obtain ⟨es⟩ := b
  change k ∉ es.map Prod.fst at h
  change insertIn k a es = es ++ [(k, a)]
  induction es with
  | nil => rfl
  | cons e es ih =>
      rw [List.map_cons, List.mem_cons, not_or] at h
      rw [insertIn, if_neg (Ne.symm h.1), ih h.2, List.cons_append]

/-- A key that is bound keeps its place. -/
lemma keys_insert_of_mem {b : Bindings κ α} {k : κ} (a : α) (h : k ∈ b.keys) :
    (b.insert k a).keys = b.keys := by
  obtain ⟨es⟩ := b
  change k ∈ es.map Prod.fst at h
  change (insertIn k a es).map Prod.fst = es.map Prod.fst
  induction es with
  | nil => cases h
  | cons e es ih =>
      rw [insertIn]
      split_ifs with he
      · rfl
      · have hes : k ∈ es.map Prod.fst := (List.mem_cons.mp h).resolve_left fun hk => he hk.symm
        rw [List.map_cons, List.map_cons, ih hes]

/-- A new key comes last. -/
lemma keys_insert_of_not_mem {b : Bindings κ α} {k : κ} (a : α) (h : k ∉ b.keys) :
    (b.insert k a).keys = b.keys ++ [k] := by
  rw [keys, entries_insert_of_not_mem a h, List.map_append]
  rfl

/-- Where no key is bound twice every entry is found. -/
lemma find?_of_mem {b : Bindings κ α} (hd : b.keys.Nodup) {e : κ × α} (he : e ∈ b.entries) :
    b.find? e.1 = some e.2 := by
  obtain ⟨es⟩ := b
  change (es.map Prod.fst).Nodup at hd
  change findIn e.1 es = some e.2
  change e ∈ es at he
  induction es with
  | nil => cases he
  | cons d es ih =>
      obtain ⟨hd₁, hd₂⟩ := List.nodup_cons.mp hd
      rw [findIn]
      rcases List.mem_cons.mp he with rfl | he
      · rw [if_pos rfl]
      · have hne : d.1 ≠ e.1 := fun h => hd₁ (h ▸ List.mem_map_of_mem he)
        rw [if_neg hne, ih hd₂ he]

/-- No key is bound twice after an insertion. -/
lemma nodup_insert {b : Bindings κ α} (hb : b.keys.Nodup) (k : κ) (a : α) :
    (b.insert k a).keys.Nodup := by
  by_cases hk : k ∈ b.keys
  · rwa [keys_insert_of_mem a hk]
  · rw [keys_insert_of_not_mem a hk]
    refine List.nodup_append.mpr ⟨hb, by simp, fun x hx y hy hxy => hk ?_⟩
    rwa [← List.mem_singleton.mp hy, ← hxy]

/-- Binds keys one after the other. -/
def insertAll (b : Bindings κ α) (es : List (κ × α)) : Bindings κ α :=
  es.foldl (fun b e => b.insert e.1 e.2) b

lemma nodup_insertAll {b : Bindings κ α} (hb : b.keys.Nodup) (es : List (κ × α)) :
    (b.insertAll es).keys.Nodup := by
  induction es generalizing b with
  | nil => exact hb
  | cons e es ih => exact ih (nodup_insert hb e.1 e.2)

/-- New keys come in the order of their first occurrence. -/
lemma keys_insertAll (b : Bindings κ α) (es : List (κ × α)) :
    (b.insertAll es).keys = b.keys ++ ((es.map Prod.fst).removeAll b.keys).eraseDups := by
  induction es generalizing b with
  | nil => simp [insertAll, List.removeAll]
  | cons e es ih =>
      obtain ⟨k, a⟩ := e
      change ((b.insert k a).insertAll es).keys = b.keys ++
        ((k :: es.map Prod.fst).removeAll b.keys).eraseDups
      rw [ih]
      by_cases hk : k ∈ b.keys
      · have hsame : (k :: es.map Prod.fst).removeAll b.keys =
            (es.map Prod.fst).removeAll b.keys := by
          simp [List.removeAll, hk]
        rw [keys_insert_of_mem a hk, hsame]
      · have hfirst : (k :: es.map Prod.fst).removeAll b.keys = k ::
            (es.map Prod.fst).removeAll b.keys := by
          simp [List.removeAll, hk]
        have hrest : (es.map Prod.fst).removeAll (b.keys ++ [k]) =
            ((es.map Prod.fst).removeAll b.keys).filter fun x => !x == k := by
          simp [List.removeAll, List.filter_filter, Bool.and_comm, beq_eq_decide]
        rw [keys_insert_of_not_mem a hk, hfirst, List.eraseDups_cons, hrest, List.append_assoc,
          List.singleton_append]

/-- A key is bound to what it was bound to last. -/
lemma find?_insertAll (b : Bindings κ α) (es : List (κ × α)) (k : κ) :
    (b.insertAll es).find? k = (es.reverse.lookup k).or (b.find? k) := by
  induction es generalizing b with
  | nil => rfl
  | cons e es ih =>
      change ((b.insert e.1 e.2).insertAll es).find? k = _
      rw [ih, List.reverse_cons, List.lookup_append, Option.or_assoc, find?_insert]
      congr 1
      rw [List.lookup_cons, List.lookup_nil]
      by_cases hk : e.1 = k
      · simp [hk]
      · simp [hk, beq_false_of_ne (Ne.symm hk)]

end Bindings

/-! ## Elements and entries -/

namespace Store

variable {s s' : Store} {left index v : Value}

/-- The container that the value is, if it is one, is in the store. -/
def Has (s : Store) : Value → Prop
  | .array ref => ref < s.arrays.size
  | .hash ref => ref < s.hashes.size
  | _ => True

/-- An integer is a position if it is not negative. -/
lemma position?_eq_some {i : Int64} {n : Nat} : position? i = some n ↔ i.toInt = n := by
  unfold position?
  split_ifs with h
  · rw [Option.some.injEq]
    omega
  · simp only [false_iff]
    omega

/-- Different integers are different positions. -/
lemma position?_inj {i j : Int64} {n : Nat} (hi : position? i = some n)
    (hj : position? j = some n) : i = j :=
  Int64.toInt.inj ((position?_eq_some.mp hi).trans (position?_eq_some.mp hj).symm)

/-- Only one array changes, at one place. -/
lemma array_setElement (s : Store) (ref i : Nat) (v : Value) (r : Nat) :
    (s.setElement ref i v).array r = if ref = r then (s.array r).setIfInBounds i v
      else s.array r := by
  simp only [array, setElement, Array.getD_eq_getD_getElem?, Array.getElem?_modify]
  split_ifs with h
  · cases s.arrays[r]? with
    | none => rfl
    | some items => rfl
  · rfl

/-- Only one hash changes. -/
lemma hash_setEntry {ref : Nat} (h : ref < s.hashes.size) (key : HashKey) (v : Value) (r : Nat) :
    (s.setEntry ref key v).hash r = if ref = r then (s.hash r).insert key v else s.hash r := by
  simp only [hash, setEntry, Array.getD_eq_getD_getElem?, Array.getElem?_modify]
  split_ifs with hr
  · subst hr
    rw [Array.getElem?_eq_getElem h]
    rfl
  · rfl

/-- **What a write that was done comes down to**: an element of an array or an entry of a hash is
set. -/
lemma setIndex_eq_ok (h : s.setIndex left index v = .ok s') :
    (∃ ref i n, left = .array ref ∧ index = .integer i ∧ position? i = some n ∧
      n < (s.array ref).size ∧ s' = s.setElement ref n v) ∨
      ∃ ref k, left = .hash ref ∧ index.hashKey? = some k ∧ s' = s.setEntry ref k v := by
  unfold setIndex at h
  split at h
  · next ref i =>
      split at h
      · next n hn =>
          split_ifs at h with hlt
          cases h
          exact .inl ⟨ref, i, n, rfl, rfl, hn, hlt, rfl⟩
      · cases h
  · next ref =>
      split at h
      · next k hk =>
          cases h
          exact .inr ⟨ref, k, rfl, hk, rfl⟩
      · cases h
  · cases h

end Store

/-! ## Reads after a write -/

namespace Value

/-- The containers are the same, as `==` sees it, and the indexes are the same key. -/
def SamePlace (a i b j : Value) : Prop :=
  a.identical b = true ∧ i.hashKey? = j.hashKey?

/-- An array is known by its place. -/
lemma identical_array {a : Value} {ref : Nat} :
    a.identical (.array ref) = true ↔ a = .array ref := by
  cases a <;> simp [identical]

lemma identical_hash {a : Value} {ref : Nat} : a.identical (.hash ref) = true ↔ a = .hash ref := by
  cases a <;> simp [identical]

lemma hashKey?_eq_integer {i : Value} {n : Int64} :
    i.hashKey? = some (.integer n) ↔ i = .integer n := by
  constructor
  · intro h
    cases i with
    | integer m =>
        cases h
        rfl
    | _ => cases h
  · rintro rfl
    rfl

end Value

namespace Store

open Value

variable {s s' : Store} {left index v : Value}

/-- What there is to say of `left[index] = v` that leads from `s` to `s'`. -/
structure Writes (s : Store) (left index v : Value) (s' : Store) : Prop where
  /-- The value is read back through every alias. -/
  read : ∀ a i, SamePlace a i left index → s'.getIndex a i = .ok v
  /-- All else is read as before. -/
  others : ∀ a i, ¬ SamePlace a i left index → s'.getIndex a i = s.getIndex a i
  /-- No array changes its length, and no array but `left` changes at all. -/
  lengths : ∀ ref, (s'.array ref).size = (s.array ref).size
  arrays : ∀ ref, left ≠ .array ref → s'.array ref = s.array ref
  /-- No hash but `left` changes. -/
  hashes : ∀ ref, left ≠ .hash ref → s'.hash ref = s.hash ref
  /-- A key that was absent is put at the end. -/
  grown : ∀ ref k, left = .hash ref → index.hashKey? = some k → (s.hash ref).find? k = none →
    (s'.hash ref).entries = (s.hash ref).entries ++ [(k, v)]
  /-- A key that was there keeps its place, and so do all others. -/
  kept : ∀ ref k, left = .hash ref → index.hashKey? = some k → (s.hash ref).find? k ≠ none →
    (s'.hash ref).keys = (s.hash ref).keys
  /-- No container is made or lost, and nothing else in the store changes. -/
  rest : s'.arrays.size = s.arrays.size ∧ s'.hashes.size = s.hashes.size ∧
    s' = { s with arrays := s'.arrays, hashes := s'.hashes }

/-- An element of an array is set. -/
lemma writes_setElement {ref n : Nat} {i : Int64} (hi : position? i = some n)
    (hn : n < (s.array ref).size) :
    s.Writes (.array ref) (.integer i) v (s.setElement ref n v) where
  read a j h := by
    obtain ⟨ha, hj⟩ := h
    obtain rfl := identical_array.mp ha
    obtain rfl := hashKey?_eq_integer.mp hj
    simp [getIndex, hi, array_setElement, Array.getD_eq_getD_getElem?, hn]
  others a j h := by
    cases a with
    | array r =>
        cases j with
        | integer j =>
            simp only [getIndex, array_setElement]
            split_ifs with hr
            · -- the same array, so that the index is another one
              subst hr
              have hij : j ≠ i := fun hij => h ⟨identical_array.mpr rfl, hij ▸ rfl⟩
              cases hj : position? j with
              | none => rfl
              | some m =>
                  have hnm : n ≠ m := fun hnm => hij (position?_inj hj (hnm ▸ hi))
                  simp [Array.getD_eq_getD_getElem?, hnm]
            · rfl
        | _ => rfl
    | _ => rfl
  lengths r := by
    rw [array_setElement]
    split_ifs
    · exact Array.size_setIfInBounds
    · rfl
  arrays r h := by
    rw [array_setElement, if_neg]
    exact fun hr => h (hr ▸ rfl)
  hashes r _ := rfl
  grown r k h := by cases h
  kept r k h := by cases h
  rest := ⟨Array.size_modify, rfl, rfl⟩

/-- An entry of a hash is set. -/
lemma writes_setEntry {ref : Nat} {k : HashKey} (hk : index.hashKey? = some k)
    (href : ref < s.hashes.size) :
    s.Writes (.hash ref) index v (s.setEntry ref k v) where
  read a j h := by
    obtain ⟨ha, hj⟩ := h
    obtain rfl := identical_hash.mp ha
    simp [getIndex, hj, hk, hash_setEntry href]
  others a j h := by
    cases a with
    | hash r =>
        simp only [getIndex, hash_setEntry href]
        cases hj : j.hashKey? with
        | none => rfl
        | some k' =>
            split_ifs with hr
            · -- the same hash, so that the key is another one
              subst hr
              have hkk : k ≠ k' := fun hkk => h ⟨identical_hash.mpr rfl, by rw [hj, hk, hkk]⟩
              simp [hkk]
            · rfl
    | array r => cases j <;> rfl
    | _ => rfl
  lengths r := rfl
  arrays r _ := rfl
  hashes r h := by
    rw [hash_setEntry href, if_neg]
    exact fun hr => h (hr ▸ rfl)
  grown r k' h hk' habsent := by
    cases h
    obtain rfl : k' = k := Option.some.inj (hk'.symm.trans hk)
    rw [hash_setEntry href, if_pos rfl]
    exact Bindings.entries_insert_of_not_mem v (Bindings.find?_eq_none.mp habsent)
  kept r k' h hk' hpresent := by
    cases h
    obtain rfl : k' = k := Option.some.inj (hk'.symm.trans hk)
    rw [hash_setEntry href, if_pos rfl]
    exact Bindings.keys_insert_of_mem v
      (not_not.mp fun habsent => hpresent (Bindings.find?_eq_none.mpr habsent))
  rest := ⟨rfl, Array.size_modify, rfl⟩

/-- Whatever was written to, it is one of the two. -/
lemma writes_of_setIndex (hleft : s.Has left) (h : s.setIndex left index v = .ok s') :
    s.Writes left index v s' := by
  obtain ⟨ref, i, n, rfl, rfl, hi, hn, rfl⟩ | ⟨ref, k, rfl, hk, rfl⟩ := setIndex_eq_ok h
  · exact writes_setElement hi hn
  · exact writes_setEntry hk hleft

/-- What can be written can be read. -/
lemma getIndex_of_setIndex (h : s.setIndex left index v = .ok s') :
    ∃ w, s.getIndex left index = .ok w := by
  obtain ⟨ref, i, n, rfl, rfl, hi, -, -⟩ | ⟨ref, k, rfl, hk, -⟩ := setIndex_eq_ok h
  · exact ⟨(s.array ref).getD n .nil, by rw [getIndex, hi]⟩
  · exact ⟨((s.hash ref).find? k).getD .nil, by simp only [getIndex, hk]⟩

/-- The index is an integer outside the array. -/
def Outside (s : Store) (left index : Value) : Prop :=
  ∃ ref i, left = .array ref ∧ index = .integer i ∧ ¬ (0 ≤ i.toInt ∧ i.toInt < (s.array ref).size)

/-- **What can be read can be written,** but for positions outside an array. -/
lemma read_not_written (s : Store) (left index v : Value) :
    ((∃ w, s.getIndex left index = .ok w) ∧ ∃ f, s.setIndex left index v = .error f) ↔
      s.Outside left index := by
  constructor
  · rintro ⟨⟨w, hget⟩, f, hset⟩
    cases left with
    | array ref =>
        cases index with
        | integer i =>
            refine ⟨ref, i, rfl, rfl, fun hin => ?_⟩
            obtain ⟨n, hn⟩ := Int.eq_ofNat_of_zero_le hin.1
            have hlt : n < (s.array ref).size := by omega
            simp only [setIndex, position?_eq_some.mpr hn, if_pos hlt, reduceCtorEq] at hset
        | _ => cases hget
    | hash ref =>
        cases hk : index.hashKey? with
        | none => simp only [getIndex, hk, reduceCtorEq] at hget
        | some k => simp only [setIndex, hk, reduceCtorEq] at hset
    | _ => cases hget
  · rintro ⟨ref, i, rfl, rfl, hout⟩
    simp only [getIndex, setIndex]
    cases hi : position? i with
    | none => exact ⟨⟨_, rfl⟩, _, rfl⟩
    | some n =>
        have hn := position?_eq_some.mp hi
        have hlt : ¬ n < (s.array ref).size := by omega
        exact ⟨⟨_, rfl⟩, _, if_neg hlt⟩

/-- The machine does to the store what the evaluator does, with the three values that it pops. -/
lemma store_setIndex (m : Machine) :
    m.setIndex.machine.store =
      (Eval.setIndex m.pop.2.pop.2.pop.1 m.pop.2.pop.1 m.pop.1).after m.store := by
  have hstore : m.pop.2.pop.2.pop.2.store = m.store := rfl
  unfold Machine.setIndex Eval.after Eval.setIndex
  simp only [hstore]
  cases m.store.setIndex m.pop.2.pop.2.pop.1 m.pop.2.pop.1 m.pop.1 with
  | ok s' => rfl
  | error f => rfl

/-- **A write is read back through every alias, and through nothing else.**  Let a value be written
to an index of `left`, in any store, whose containers may be shared and may contain themselves.
Either the write fails and the store stays as it is, or it does all that `Writes` says and could
have been read before.  What can be read can also be written, but for integers outside an array.
The machine leaves the store as the evaluator does. -/
theorem index_read_over_write (s : Store) (left index v : Value) (hleft : s.Has left) :
    (∀ x s', Eval.setIndex left index v s = .error x s' → s' = s) ∧
      (∀ s', Eval.setIndex left index v s = .ok () s' →
        s.Writes left index v s' ∧ ∃ w, s.getIndex left index = .ok w) ∧
      (((∃ w, s.getIndex left index = .ok w) ∧ ∃ f, s.setIndex left index v = .error f) ↔
        s.Outside left index) ∧
      ∀ m : Machine, m.store = s →
        (m.pop.2.pop.2.pop.1, m.pop.2.pop.1, m.pop.1) = (left, index, v) →
        m.setIndex.machine.store = (Eval.setIndex left index v).after s := by
  refine ⟨fun x s' h => ?_, fun s' h => ?_, s.read_not_written left index v, fun m hm hpop => ?_⟩
  · unfold Eval.setIndex at h
    split at h
    · cases h
    · cases h
      rfl
  · unfold Eval.setIndex at h
    split at h
    · next hset =>
        cases h
        exact ⟨writes_of_setIndex hleft hset, getIndex_of_setIndex hset⟩
    · cases h
  · cases hm
    cases hpop
    exact store_setIndex m

/-- An array that contains itself and a hash, which contains the array under the key `-0.0`. -/
def entangled : Store :=
  { empty with
    arrays := #[#[.array 0, .hash 0]]
    hashes := #[⟨[(.float ⟨0x8000000000000000⟩, .array 0)]⟩] }

/-- The key `0.0` is another one than `-0.0`. -/
theorem entangled_read_over_write :
    entangled.Has (.hash 0) ∧ ¬ entangled.Outside (.hash 0) (.float ⟨0⟩) ∧
      ∃ s', Eval.setIndex (.hash 0) (.float ⟨0⟩) (.hash 0) entangled = .ok () s' ∧
        entangled.Writes (.hash 0) (.float ⟨0⟩) (.hash 0) s' ∧ (s'.hash 0).size = 2 := by
  have hleft : entangled.Has (.hash 0) := Nat.zero_lt_one
  obtain ⟨-, hok, hout, -⟩ := index_read_over_write entangled (.hash 0) (.float ⟨0⟩) (.hash 0) hleft
  refine ⟨hleft, fun h => ?_, _, rfl, (hok _ rfl).1, rfl⟩
  obtain ⟨-, f, hf⟩ := hout.mpr h
  cases hf

/-! ## Hashes from keys and values by turns -/

/-- The complete pairs of a list of keys and values by turns. -/
def pairsOf : List Value → List (Value × Value)
  | key :: value :: rest => (key, value) :: pairsOf rest
  | _ => []

/-- Writes the pairs to `left` one after the other. -/
def assignAll (left : Value) (pairs : List (Value × Value)) (s : Store) : Except Fault Store :=
  pairs.foldlM (fun s p => s.setIndex left p.1 p.2) s

/-- The keys that the pairs have, with their values. -/
def entriesOf (pairs : List (Value × Value)) : List (HashKey × Value) :=
  pairs.filterMap fun p => p.1.hashKey?.map fun k => (k, p.2)

/-- The first pair whose key cannot be one. -/
def firstUnusable (pairs : List (Value × Value)) : Option (Value × Value) :=
  pairs.find? fun p => p.1.hashKey?.isNone

/-- The pair that stops the building has a key that is none. -/
lemma firstUnusable_hashKey? {pairs : List (Value × Value)} {p : Value × Value}
    (h : firstUnusable pairs = some p) :
    p.1.hashKey? = none := by
  unfold firstUnusable at h
  simpa using List.find?_some h

/-- Binding a key of a new hash is making it with the key bound. -/
lemma setEntry_newHash (s : Store) (b : Bindings HashKey Value) (k : HashKey) (v : Value) :
    (s.newHash b).2.setEntry s.hashes.size k v = (s.newHash (b.insert k v)).2 := by
  have hpush : (s.hashes.push b).modify s.hashes.size (fun pairs => pairs.insert k v) =
      s.hashes.push (b.insert k v) := by
    apply Array.ext_getElem?
    intro i
    rw [Array.getElem?_modify]
    by_cases hi : s.hashes.size = i
    · subst hi
      simp
    · simp [Array.getElem?_push, hi, Ne.symm hi]
  simp only [newHash, setEntry, hpush]

/-- **Building goes on as assigning does.** -/
lemma assignAll_newHash (s : Store) (b : Bindings HashKey Value) (items : List Value) :
    assignAll (.hash s.hashes.size) (pairsOf items) (s.newHash b).2 =
      (pairUp b items).map fun b' => (s.newHash b').2 := by
  induction b, items using pairUp.induct with
  | case1 b key value rest k hk ih =>
      have hset : (s.newHash b).2.setIndex (.hash s.hashes.size) key value =
          .ok (s.newHash (b.insert k value)).2 := by
        simp only [setIndex, hk, setEntry_newHash]
      rw [pairUp, hk, ← ih, assignAll, pairsOf, List.foldlM_cons, hset]
      rfl
  | case2 b key value rest hk =>
      have hset : (s.newHash b).2.setIndex (.hash s.hashes.size) key value =
          .error (.unusableHashKey key.kind) := by
        simp only [setIndex, hk]
      rw [pairUp, hk, assignAll, pairsOf, List.foldlM_cons, hset]
      rfl
  | case3 b items hitems =>
      rw [pairUp, pairsOf]
      · rfl
      · exact hitems
      · exact hitems

lemma buildHash_eq (s : Store) (items : List Value) :
    s.buildHash items = (pairUp .empty items).map fun b => s.newHash b := by
  unfold buildHash
  cases pairUp .empty items with
  | ok b => rfl
  | error f => rfl

/-- Building fails at the first key that cannot be one. -/
lemma pairUp_eq_error {b : Bindings HashKey Value} {items : List Value} {f : Fault} :
    pairUp b items = .error f ↔
      (firstUnusable (pairsOf items)).map (fun p => Fault.unusableHashKey p.1.kind) = some f := by
  induction b, items using pairUp.induct with
  | case1 b key value rest k hk ih =>
      rw [pairUp, hk, pairsOf, firstUnusable, List.find?_cons_of_neg (by simp [hk])]
      exact ih
  | case2 b key value rest hk =>
      rw [pairUp, hk, pairsOf, firstUnusable, List.find?_cons_of_pos (by simp [hk])]
      simp
  | case3 b items hitems =>
      rw [pairUp, pairsOf]
      · simp [firstUnusable]
      · exact hitems
      · exact hitems

/-- What is built is what is there with the keys bound in turn. -/
lemma pairUp_eq_ok {b b' : Bindings HashKey Value} {items : List Value}
    (h : pairUp b items = .ok b') :
    b' = b.insertAll (entriesOf (pairsOf items)) := by
  induction b, items using pairUp.induct with
  | case1 b key value rest k hk ih =>
      rw [pairUp, hk] at h
      have hentries : entriesOf (pairsOf (key :: value :: rest)) = (k, value) ::
          entriesOf (pairsOf rest) := by
        simp [pairsOf, entriesOf, hk]
      rw [ih h, hentries]
      rfl
  | case2 b key value rest hk =>
      rw [pairUp, hk] at h
      cases h
  | case3 b items hitems =>
      rw [pairUp] at h
      · cases h
        rw [pairsOf]
        · rfl
        · exact hitems
      · exact hitems

/-- **A hash is built as if its pairs were assigned.**  Take the complete pairs of the items,
without an odd last item.  Building gives what writing them from left to right to an empty hash
gives, with the same fault if there is one.  It fails exactly if some key cannot be one, and names
the kind of the first such key.  Otherwise the hash has an entry for each key, in the order of their
first occurrences, and each entry has the value of the last occurrence. -/
theorem buildHash_assigns (s : Store) (items : List Value) :
    s.buildHash items =
        (assignAll (s.newHash .empty).1 (pairsOf items) (s.newHash .empty).2).map
          (fun s' => ((s.newHash .empty).1, s')) ∧
      ((∃ f, s.buildHash items = .error f) ↔ ∃ p ∈ pairsOf items, p.1.hashKey? = none) ∧
      (∀ f, s.buildHash items = .error f ↔
        (firstUnusable (pairsOf items)).map (fun p => Fault.unusableHashKey p.1.kind) = some f) ∧
      ∀ h s', s.buildHash items = .ok (h, s') → ∃ ref, h = .hash ref ∧
        (s'.hash ref).keys = ((entriesOf (pairsOf items)).map Prod.fst).eraseDups ∧
        ∀ e ∈ (s'.hash ref).entries, (entriesOf (pairsOf items)).reverse.lookup e.1 = some e.2 := by
  have hfault (f : Fault) : s.buildHash items = .error f ↔
      (firstUnusable (pairsOf items)).map (fun p => Fault.unusableHashKey p.1.kind) = some f := by
    rw [← pairUp_eq_error (b := .empty), buildHash_eq]
    cases pairUp .empty items with
    | ok b => simp [Except.map]
    | error f' => simp [Except.map]
  refine ⟨?_, ?_, hfault, fun h s' hok => ?_⟩
  · rw [buildHash_eq]
    change _ = (assignAll (.hash s.hashes.size) _ _).map _
    rw [assignAll_newHash]
    cases pairUp .empty items with
    | ok b => rfl
    | error f => rfl
  · simp only [hfault]
    constructor
    · rintro ⟨f, hf⟩
      obtain ⟨p, hp, -⟩ := Option.map_eq_some_iff.mp hf
      exact ⟨p, List.mem_of_find?_eq_some hp, firstUnusable_hashKey? hp⟩
    · rintro ⟨p, hp, hk⟩
      have hsome : (firstUnusable (pairsOf items)).isSome = true :=
        List.find?_isSome.mpr ⟨p, hp, Option.isNone_iff_eq_none.mpr hk⟩
      obtain ⟨q, hq⟩ := Option.isSome_iff_exists.mp hsome
      exact ⟨_, congrArg (Option.map _) hq⟩
  · rw [buildHash_eq] at hok
    cases hb : pairUp .empty items with
    | error f =>
        rw [hb] at hok
        cases hok
    | ok b =>
        rw [hb] at hok
        have hnew : s.newHash b = (h, s') := Except.ok.inj hok
        obtain rfl : (s.newHash b).1 = h := congrArg Prod.fst hnew
        obtain rfl : (s.newHash b).2 = s' := congrArg Prod.snd hnew
        obtain rfl := pairUp_eq_ok hb
        refine ⟨s.hashes.size, rfl, ?_, fun e he => ?_⟩
        · rw [hash_newHash, Bindings.keys_insertAll]
          simp [Bindings.keys, Bindings.empty]
        · rw [hash_newHash] at he
          have hempty : (Bindings.empty : Bindings HashKey Value).keys.Nodup := List.nodup_nil
          have hfind := Bindings.find?_of_mem (Bindings.nodup_insertAll hempty _) he
          rwa [Bindings.find?_insertAll, Bindings.find?_empty, Option.or_none] at hfind

/-- Three pairs, two of which have the same key, and an item without a partner. -/
def repeated : List Value :=
  [.string "a", .integer 1, .nil, .array 0, .string "a", .boolean true, .hash 0]

/-- The second pair with the key takes the place of the first, and the odd item is dropped. -/
theorem repeated_assigns :
    (empty.buildHash repeated).isOk = true ∧
      ∀ h s', empty.buildHash repeated = .ok (h, s') → ∃ ref, h = .hash ref ∧
        (s'.hash ref).keys = [.string "a", .nil] ∧
        ∀ e ∈ (s'.hash ref).entries,
          [(.string "a", .boolean true), (.nil, .array 0), (.string "a", .integer 1)].lookup
            e.1 = some e.2 :=
  ⟨rfl, (buildHash_assigns empty repeated).2.2.2⟩

end Store

end Marmoset
