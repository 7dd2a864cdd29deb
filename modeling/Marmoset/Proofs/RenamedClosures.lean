import Marmoset.Proofs.SharedStores
import Marmoset.Proofs.StoredValues

/-!
# Closures at other places

Two stores that hold the same, but for the places of closures.  `Value.renamed ρ` is a value where
the closure that was at `i` is at `ρ i`, and `Store.Renamed ρ` says of two stores that all values in
the second one are those of the first one, renamed.  No program can see the difference as long as
`ρ` keeps closures apart; only texts show places, and texts that are the same but for these are
`Readdressed`.

* **`Value.binary_renamed`**, `Value.unary_renamed` — operators do not see where closures are.
* `Store.Renamed.getIndex`, `Store.Renamed.setIndex`, `Store.Renamed.buildHash` — nor do operations
  on containers.
* `Store.Renamed.textOf` — the texts of a value.
* **`Store.Renamed.call`** — builtins answer and print the same.
-/

namespace Marmoset

/-! ## Values -/

namespace Value

/-- The value where the closure at each place `i` is at place `ρ i`. -/
def renamed (ρ : Nat → Nat) : Value → Value
  | .closure ref => .closure (ρ ref)
  | v => v

variable {ρ : Nat → Nat} {v w : Value}

@[simp] lemma kind_renamed (v : Value) : (v.renamed ρ).kind = v.kind := by
  cases v <;> rfl

@[simp] lemma truthy_renamed (v : Value) : (v.renamed ρ).truthy = v.truthy := by
  cases v <;> rfl

@[simp] lemma hashKey?_renamed (v : Value) : (v.renamed ρ).hashKey? = v.hashKey? := by
  cases v <;> rfl

@[simp] lemma isPlain_renamed (v : Value) : (v.renamed ρ).isPlain = v.isPlain := by
  cases v <;> rfl

/-- Only closures are at another place. -/
lemma renamed_of_isPlain (h : v.isPlain = true) : v.renamed ρ = v := by
  cases v <;> first | rfl | cases h

/-- Arithmetic refuses closures, wherever they are. -/
lemma arithmetic_renamed (op : Opcode) (v w : Value) :
    arithmetic op (v.renamed ρ) (w.renamed ρ) = (arithmetic op v w).map (renamed ρ) := by
  by_cases hplain : v.isPlain = true ∧ w.isPlain = true
  · rw [renamed_of_isPlain hplain.1, renamed_of_isPlain hplain.2]
    cases hr : arithmetic op v w with
    | ok r => rw [Except.map, renamed_of_isPlain (isPlain_of_arithmetic hr)]
    | error f => rfl
  · have hodd : v.isPlain = false ∨ w.isPlain = false := by
      rwa [not_and_or, Bool.not_eq_true, Bool.not_eq_true] at hplain
    rw [arithmetic_of_not_plain op hodd, arithmetic_of_not_plain op (by simpa using hodd),
      kind_renamed, kind_renamed]
    rfl

/-- Closures at different places are told apart. -/
lemma identical_renamed (hρ : Function.Injective ρ) (v w : Value) :
    (v.renamed ρ).identical (w.renamed ρ) = v.identical w := by
  cases v with
  | closure i =>
      cases w with
      | closure j => simp [renamed, identical, hρ.eq_iff]
      | _ => rfl
  | _ => cases w <;> rfl

/-- Comparing tells closures apart by their places, and no two places become one. -/
lemma compare?_renamed (hρ : Function.Injective ρ) (op : Opcode) (v w : Value) :
    compare? op (v.renamed ρ) (w.renamed ρ) = compare? op v w := by
  have hsame := identical_renamed hρ v w
  cases v with
  | closure i =>
      cases w <;> first | rfl | (simp only [compare?, renamed] at hsame ⊢; rw [hsame]; rfl)
  | _ => cases w <;> rfl

/-- The result of a logical operator is one of its operands. -/
lemma logical_renamed (op : Opcode) (v w : Value) :
    logical op (v.renamed ρ) (w.renamed ρ) = (logical op v w).renamed ρ := by
  simp only [logical, truthy_renamed]
  split_ifs <;> rfl

/-- **Binary operators do not see where closures are.** -/
theorem binary_renamed (hρ : Function.Injective ρ) (op : Opcode) (v w : Value) :
    binary op (v.renamed ρ) (w.renamed ρ) = (binary op v w).map (renamed ρ) := by
  have hcompare : compare op (v.renamed ρ) (w.renamed ρ) = (compare op v w).map (renamed ρ) := by
    unfold compare
    rw [compare?_renamed hρ, kind_renamed, kind_renamed]
    cases compare? op v w <;> rfl
  cases op with
  | equal | notEqual | greater | greaterEqual => exact hcompare
  | and | or => exact congrArg Except.ok (logical_renamed _ v w)
  | div => exact arithmetic_renamed .div v w
  | _ => exact arithmetic_renamed _ v w

/-- An operator in front of a value makes no closures. -/
lemma unary_renamed (op : Opcode) (v : Value) :
    unary op (v.renamed ρ) = (unary op v).map (renamed ρ) := by
  have hnot : (v.renamed ρ).not = v.not.renamed ρ := by
    rw [Value.not, truthy_renamed]
    rfl
  have hnegate : (v.renamed ρ).negate = v.negate.map (renamed ρ) := by
    cases v <;> rfl
  cases op with
  | bang => exact congrArg Except.ok hnot
  | _ => exact hnegate

/-- The value, if it is a closure, is at one of the first `n` places. -/
def Below (n : Nat) (v : Value) : Prop :=
  ∀ ref, v = .closure ref → ref < n

/-- Only the places of closures matter. -/
lemma renamed_congr {ρ' : Nat → Nat} {n : Nat} (h : ∀ i < n, ρ' i = ρ i) (hv : v.Below n) :
    v.renamed ρ' = v.renamed ρ := by
  cases v with
  | closure ref => exact congrArg Value.closure (h ref (hv ref rfl))
  | _ => rfl

end Value

/-- The closure with renamed captures. -/
def Closure.renamed (ρ : Nat → Nat) (c : Closure) : Closure :=
  ⟨c.fn, c.free.map (Value.renamed ρ)⟩

namespace Bindings

/-- The same keys with renamed values. -/
def renamed (ρ : Nat → Nat) (b : Bindings HashKey Value) : Bindings HashKey Value :=
  ⟨b.entries.map fun p => (p.1, p.2.renamed ρ)⟩

variable {ρ : Nat → Nat}

/-- Keys are found where they were. -/
lemma find?_renamed (b : Bindings HashKey Value) (key : HashKey) :
    (b.renamed ρ).find? key = (b.find? key).map (Value.renamed ρ) := by
  obtain ⟨es⟩ := b
  unfold find? renamed
  induction es with
  | nil => rfl
  | cons e es ih =>
      simp only [List.map_cons, findIn] at ih ⊢
      split_ifs
      · rfl
      · exact ih

/-- A new pair is put in where it was. -/
lemma insert_renamed (b : Bindings HashKey Value) (key : HashKey) (v : Value) :
    (b.renamed ρ).insert key (v.renamed ρ) = (b.insert key v).renamed ρ := by
  obtain ⟨es⟩ := b
  unfold insert renamed
  congr 1
  induction es with
  | nil => rfl
  | cons e es ih =>
      simp only [List.map_cons, insertIn] at ih ⊢
      split_ifs
      · rfl
      · rw [ih]
        rfl

end Bindings

/-! ## Texts -/

/-- Two texts that are the same but for the places of closures, where those of the first text are
below `n`. -/
inductive Readdressed (ρ : Nat → Nat) (n : Nat) : String → String → Prop where
  | same (t : String) : Readdressed ρ n t t
  | closure {i : Nat} (h : i < n) :
      Readdressed ρ n ("Closure" ++ View.addressText i) ("Closure" ++ View.addressText (ρ i))
  | append {a a' b b' : String} (h : Readdressed ρ n a a') (h' : Readdressed ρ n b b') :
      Readdressed ρ n (a ++ b) (a' ++ b')

namespace Readdressed

variable {ρ ρ' : Nat → Nat} {n n' : Nat} {a a' : String}

/-- More closures may be there, as long as the old ones keep their places. -/
lemma mono (h : Readdressed ρ n a a') (hn : n ≤ n') (hρ : ∀ i < n, ρ' i = ρ i) :
    Readdressed ρ' n' a a' := by
  induction h with
  | same t => exact .same t
  | @closure i hi =>
      rw [← hρ i hi]
      exact .closure (Nat.lt_of_lt_of_le hi hn)
  | append _ _ ih ih' => exact .append ih ih'

end Readdressed

/-! ## Stores -/

/-- All values of the second store are those of the first one, with closures at other places.  The
first closure of a store is that of the main stream and is no value. -/
structure Store.Renamed (ρ : Nat → Nat) (σ s : Store) : Prop where
  arrays : s.arrays = σ.arrays.map (Array.map (Value.renamed ρ))
  hashes : s.hashes = σ.hashes.map (Bindings.renamed ρ)
  closures : ∀ i c, 0 < i → σ.closures[i]? = some c → s.closures[ρ i]? = some (c.renamed ρ)
  functions : s.functions = σ.functions
  printed : Readdressed ρ σ.closures.size σ.printed s.printed

/-- Both operations succeed with related results, or both stop with the same fault. -/
inductive SameFault {α : Type} (R : α → α → Prop) : Except Fault α → Except Fault α → Prop where
  | ok {a a' : α} (h : R a a') : SameFault R (.ok a) (.ok a')
  | error (f : Fault) : SameFault R (.error f) (.error f)

namespace Store.Renamed

variable {ρ : Nat → Nat} {σ s : Store} {v w : Value}

/-- The items of an array. -/
lemma array (h : σ.Renamed ρ s) (ref : Nat) :
    s.array ref = (σ.array ref).map (Value.renamed ρ) := by
  rw [Store.array, Store.array, h.arrays, Array.getD_eq_getD_getElem?, Array.getD_eq_getD_getElem?,
    Array.getElem?_map]
  cases σ.arrays[ref]? with
  | none => exact Array.map_empty.symm
  | some items => rfl

/-- What is at a position of an array, or nil. -/
lemma getD_array (h : σ.Renamed ρ s) (ref i : Nat) :
    (s.array ref).getD i .nil = ((σ.array ref).getD i .nil).renamed ρ := by
  rw [h.array, Array.getD_eq_getD_getElem?, Array.getD_eq_getD_getElem?, Array.getElem?_map]
  cases (σ.array ref)[i]? <;> rfl

/-- The pairs of a hash. -/
lemma hash (h : σ.Renamed ρ s) (ref : Nat) : s.hash ref = (σ.hash ref).renamed ρ := by
  rw [Store.hash, Store.hash, h.hashes, Array.getD_eq_getD_getElem?, Array.getD_eq_getD_getElem?,
    Array.getElem?_map]
  cases σ.hashes[ref]? <;> rfl

/-- A new array is at the same place. -/
lemma newArray (h : σ.Renamed ρ s) (items : Array Value) :
    (s.newArray (items.map (Value.renamed ρ))).1 = (σ.newArray items).1 ∧
      (σ.newArray items).2.Renamed ρ (s.newArray (items.map (Value.renamed ρ))).2 := by
  refine ⟨?_, ?_, h.hashes, h.closures, h.functions, h.printed⟩
  · rw [Store.newArray, Store.newArray, h.arrays, Array.size_map]
  · simp only [Store.newArray, h.arrays, Array.map_push]

/-- So is a new hash. -/
lemma newHash (h : σ.Renamed ρ s) (pairs : Bindings HashKey Value) :
    (s.newHash (pairs.renamed ρ)).1 = (σ.newHash pairs).1 ∧
      (σ.newHash pairs).2.Renamed ρ (s.newHash (pairs.renamed ρ)).2 := by
  refine ⟨?_, h.arrays, ?_, h.closures, h.functions, h.printed⟩
  · rw [Store.newHash, Store.newHash, h.hashes, Array.size_map]
  · simp only [Store.newHash, h.hashes, Array.map_push]

/-- A new closure, if its place is as it should be. -/
lemma newClosure (h : σ.Renamed ρ s) (hnext : ρ σ.closures.size = s.closures.size) (c : Closure) :
    (s.newClosure (c.renamed ρ)).1 = (σ.newClosure c).1.renamed ρ ∧
      (σ.newClosure c).2.Renamed ρ (s.newClosure (c.renamed ρ)).2 := by
  refine ⟨congrArg Value.closure hnext.symm, h.arrays, h.hashes, fun i d hi hd => ?_,
    h.functions, h.printed.mono (by simp [Store.newClosure]) fun _ _ => rfl⟩
  simp only [Store.newClosure, Array.getElem?_push] at hd ⊢
  split_ifs at hd with heq
  · cases hd
    rw [if_pos (by rw [heq, hnext])]
  · have hold := h.closures i d hi hd
    rw [if_neg (Nat.ne_of_lt (Array.getElem?_eq_some_iff.mp hold).1), hold]

/-- Only the places of the closures that there are matter. -/
lemma congr (h : σ.Renamed ρ s) (hall : σ.All (Value.Below σ.closures.size))
    {ρ' : Nat → Nat} (hρ : ∀ i < σ.closures.size, ρ' i = ρ i) : σ.Renamed ρ' s where
  arrays := by
    rw [h.arrays]
    refine Array.map_congr_left fun items hitems => Array.map_congr_left fun v hv => ?_
    exact (Value.renamed_congr hρ (hall.arrays items hitems v hv)).symm
  hashes := by
    rw [h.hashes]
    refine Array.map_congr_left fun pairs hpairs => ?_
    unfold Bindings.renamed
    congr 1
    refine List.map_congr_left fun p hp => ?_
    rw [Value.renamed_congr hρ (hall.hashes pairs hpairs p hp)]
  closures i c hi hc := by
    have hfree : c.renamed ρ' = c.renamed ρ := by
      unfold Closure.renamed
      congr 1
      exact Array.map_congr_left fun v hv =>
        Value.renamed_congr hρ (hall.closures c (Array.mem_of_getElem? hc) v hv)
    rw [hρ i (Array.getElem?_eq_some_iff.mp hc).1, hfree]
    exact h.closures i c hi hc
  functions := h.functions
  printed := h.printed.mono (Nat.le_refl _) hρ

/-- Indexing finds the same value, or the same fault. -/
lemma getIndex (h : σ.Renamed ρ s) (v w : Value) :
    s.getIndex (v.renamed ρ) (w.renamed ρ) = (σ.getIndex v w).map (Value.renamed ρ) := by
  cases v with
  | array ref =>
      cases w with
      | integer i =>
          simp only [Store.getIndex, Value.renamed]
          cases Store.position? i with
          | none => rfl
          | some k => exact congrArg Except.ok (h.getD_array ref k)
      | _ => rfl
  | hash ref =>
      show s.getIndex (.hash ref) (w.renamed ρ) = _
      simp only [Store.getIndex, Value.hashKey?_renamed, Value.kind_renamed, h.hash,
        Bindings.find?_renamed]
      cases w.hashKey? with
      | none => rfl
      | some k =>
          simp only [Except.map]
          cases (σ.hash ref).find? k <;> rfl
  | _ => rfl

/-- The two stores after an operation that makes no closures. -/
def Keeps (ρ : Nat → Nat) (σ s σ' s' : Store) : Prop :=
  σ'.Renamed ρ s' ∧ σ'.closures = σ.closures ∧ s'.closures = s.closures

/-- The values and stores that two operations give. -/
def Answers (ρ : Nat → Nat) (σ s : Store) (r r' : Value × Store) : Prop :=
  r'.1 = r.1.renamed ρ ∧ Keeps ρ σ s r.2 r'.2

/-- Writing to an index does the same in both stores, or has the same fault. -/
lemma setIndex (h : σ.Renamed ρ s) (v w x : Value) :
    SameFault (Keeps ρ σ s) (σ.setIndex v w x)
      (s.setIndex (v.renamed ρ) (w.renamed ρ) (x.renamed ρ)) := by
  cases v with
  | array ref =>
      cases w with
      | integer i =>
          show SameFault _ _ (s.setIndex (.array ref) (.integer i) (x.renamed ρ))
          simp only [Store.setIndex, h.array, Array.size_map]
          cases Store.position? i with
          | none => exact .error _
          | some k =>
              dsimp only
              split_ifs
              · refine .ok ⟨⟨?_, h.hashes, h.closures, h.functions, h.printed⟩, rfl, rfl⟩
                refine Array.ext_getElem? fun j => ?_
                simp only [Store.setElement, h.arrays, Array.getElem?_modify, Array.getElem?_map]
                split_ifs
                · simp [Function.comp_def, Array.map_setIfInBounds]
                · rfl
              · exact .error _
      | _ => exact .error _
  | hash ref =>
      show SameFault _ _ (s.setIndex (.hash ref) (w.renamed ρ) (x.renamed ρ))
      simp only [Store.setIndex, Value.hashKey?_renamed, Value.kind_renamed]
      cases w.hashKey? with
      | none => exact .error _
      | some k =>
          refine .ok ⟨⟨h.arrays, ?_, h.closures, h.functions, h.printed⟩, rfl, rfl⟩
          refine Array.ext_getElem? fun j => ?_
          simp only [Store.setEntry, h.hashes, Array.getElem?_modify, Array.getElem?_map]
          split_ifs
          · simp [Function.comp_def, Bindings.insert_renamed]
          · rfl
  | _ => exact .error _

/-- Keys and values are paired up alike. -/
lemma pairUp (b : Bindings HashKey Value) (vs : List Value) :
    Store.pairUp (b.renamed ρ) (vs.map (Value.renamed ρ)) =
      (Store.pairUp b vs).map (Bindings.renamed ρ) := by
  induction b, vs using Store.pairUp.induct with
  | case1 b key value rest k hk ih =>
      simp only [List.map_cons, Store.pairUp, Value.hashKey?_renamed, hk, Bindings.insert_renamed]
      exact ih
  | case2 b key value rest hk =>
      simp only [List.map_cons, Store.pairUp, Value.hashKey?_renamed, hk, Value.kind_renamed]
      rfl
  | case3 vs b hne =>
      rcases vs with _ | ⟨v, _ | ⟨w, vs⟩⟩
      · rfl
      · rfl
      · exact absurd rfl (hne v w vs)

/-- A hash is built alike, or a key is refused. -/
lemma buildHash (h : σ.Renamed ρ s) (vs : List Value) :
    SameFault (Answers ρ σ s) (σ.buildHash vs) (s.buildHash (vs.map (Value.renamed ρ))) := by
  have hpairs := pairUp (ρ := ρ) .empty vs
  have hempty : Bindings.empty.renamed ρ = .empty := rfl
  unfold Store.buildHash
  rw [← hempty, hpairs, hempty]
  cases Store.pairUp .empty vs with
  | ok pairs => exact .ok ⟨(h.newHash pairs).1, (h.newHash pairs).2, rfl, rfl⟩
  | error f => exact .error f

/-! ### Builtins -/

/-- An answer that changes nothing. -/
lemma answers (h : σ.Renamed ρ s) (hv : w = v.renamed ρ) : Answers ρ σ s (v, σ) (w, s) :=
  ⟨hv, h, rfl, rfl⟩

/-- A builtin may answer with a new array. -/
lemma answers_newArray (h : σ.Renamed ρ s) (items : Array Value) :
    Answers ρ σ s (σ.newArray items) (s.newArray (items.map (Value.renamed ρ))) :=
  ⟨(h.newArray items).1, (h.newArray items).2, rfl, rfl⟩

section

variable (h : σ.Renamed ρ s) (hall : σ.All (Value.Below σ.closures.size))

include h hall

/-- The texts of a value. -/
lemma textOf (hv : v.Below σ.closures.size) :
    Readdressed ρ σ.closures.size (σ.textOf v) (s.textOf (v.renamed ρ)) := by
  refine Store.Like.textOf_rel (V := fun v v' => v' = v.renamed ρ ∧ v.Below σ.closures.size)
    .same .append
    (fun ref => ?_) (fun ref => ?_) ?_ ?_ ?_ ⟨rfl, hv⟩
  · rw [h.array, Array.toList_map, List.forall₂_map_right_iff]
    exact List.forall₂_same.mpr fun w hw => ⟨rfl, hall.array ref w (Array.mem_def.mpr hw)⟩
  · rw [h.hash, Bindings.renamed, List.forall₂_map_right_iff]
    exact List.forall₂_same.mpr fun p hp => ⟨rfl, rfl, hall.hash ref p hp⟩
  · rintro v _ ⟨rfl, hv⟩
    cases v with
    | array ref => exact .inl ⟨ref, rfl, rfl⟩
    | hash ref => exact .inr (.inl ⟨ref, rfl, rfl⟩)
    | closure ref =>
        refine .inr (.inr fun f f' within => ?_)
        have htext (s : Store) (f ref : Nat) :
            (s.viewWithin (f + 1) within (.closure ref)).text = "Closure" ++
              View.addressText ref := by
          rw [Store.viewWithin]
          cases s.closures[ref]? <;> rfl
        rw [Value.renamed, htext, htext]
        exact .closure (hv ref rfl)
    | function ref =>
        refine .inr (.inr fun f f' within => ?_)
        show Readdressed _ _ _ (s.viewWithin (f' + 1) within (.function ref)).text
        rw [Store.viewWithin, Store.viewWithin, h.functions]
        exact .same _
    | _ => exact .inr (.inr fun _ _ _ => .same _)
  · rw [h.arrays, Array.size_map]
  · rw [h.hashes, Array.size_map]

/-- All that is printed differs only in the places of closures. -/
lemma printAll {vs : List Value} (hvs : ∀ v ∈ vs, v.Below σ.closures.size) :
    Keeps ρ σ s (Builtin.printAll σ vs) (Builtin.printAll s (vs.map (Value.renamed ρ))) := by
  induction vs generalizing σ s with
  | nil => exact ⟨h, rfl, rfl⟩
  | cons v vs ih =>
      obtain ⟨hv, hvs⟩ := List.forall_mem_cons.mp hvs
      have hprinted : (σ.print (σ.textOf v)).Renamed ρ (s.print (s.textOf (v.renamed ρ))) :=
        ⟨h.arrays, h.hashes, h.closures, h.functions,
          .append (.append h.printed (h.textOf hall hv)) (.same _)⟩
      exact ih hprinted (hall.print _) hvs

/-- **Builtins answer and print the same.** -/
theorem call (b : Builtin) {vs : List Value} (hvs : ∀ v ∈ vs, v.Below σ.closures.size) :
    Answers ρ σ s (b.call σ vs) (b.call s (vs.map (Value.renamed ρ))) := by
  have harity (wanted : Nat) : Answers ρ σ s (Builtin.wrongArity wanted vs.length, σ)
      (Builtin.wrongArity wanted (vs.map (Value.renamed ρ)).length, s) := by
    rw [List.length_map]
    exact h.answers rfl
  cases b with
  | puts => exact ⟨rfl, h.printAll hall hvs⟩
  | push =>
      match vs with
      | [] | [_] | _ :: _ :: _ :: _ => exact harity 2
      | [v, w] =>
          cases v with
          | array ref =>
              show Answers ρ σ s (σ.newArray ((σ.array ref).push w))
                (s.newArray ((s.array ref).push (w.renamed ρ)))
              rw [h.array, ← Array.map_push]
              exact h.answers_newArray _
          | _ => exact h.answers rfl
  | len =>
      match vs with
      | [] | _ :: _ :: _ => exact harity 1
      | [v] =>
          refine h.answers ?_
          cases v with
          | array ref =>
              show Builtin.callLen s (.array ref) = _
              rw [Builtin.callLen, h.array, Array.size_map]
              rfl
          | _ => rfl
  | first =>
      match vs with
      | [] => exact harity 1
      | v :: w :: vs =>
          rw [List.map_cons, List.map_cons, Store.Like.call_many (.inl rfl),
            Store.Like.call_many (.inl rfl)]
          exact harity 1
      | [v] =>
          cases v with
          | array ref => exact h.answers (h.getD_array ref 0)
          | _ => exact h.answers rfl
  | last =>
      match vs with
      | [] => exact harity 1
      | v :: w :: vs =>
          rw [List.map_cons, List.map_cons, Store.Like.call_many (.inr rfl),
            Store.Like.call_many (.inr rfl)]
          exact harity 1
      | [v] =>
          cases v with
          | array ref =>
              refine h.answers ?_
              rw [Array.back?_eq_getElem?, Array.back?_eq_getElem?, ← Array.getD_eq_getD_getElem?,
                ← Array.getD_eq_getD_getElem?, h.array ref, Array.size_map, ← h.array ref]
              exact h.getD_array ref _
          | _ => exact h.answers rfl
  | rest =>
      match vs with
      | [] | _ :: _ :: _ => exact harity 1
      | [v] =>
          cases v with
          | array ref =>
              show Answers ρ σ s (Builtin.callRest σ (.array ref)) (Builtin.callRest s (.array ref))
              rw [Builtin.callRest, Builtin.callRest, h.array, Array.isEmpty, Array.isEmpty,
                Array.size_map]
              split_ifs
              · exact h.answers rfl
              · rw [Array.drop_eq_extract, Array.drop_eq_extract, Array.size_map,
                  ← Array.map_extract]
                exact h.answers_newArray _
          | _ => exact h.answers rfl

end

end Store.Renamed

end Marmoset
