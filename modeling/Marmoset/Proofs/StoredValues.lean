import Marmoset.Builtin.Call
import Marmoset.Value.Operators
import Mathlib.Tactic.Common

/-!
# What a store holds

`Store.All P` says that every value in a store satisfies `P`.  The operators and builtins only hand
on values that they were given or found in the store, and otherwise make values that are no
functions; so if `P` holds of everything that is no function, they keep `Store.All P` and answer
with values that satisfy `P`.
-/

namespace Marmoset

/-- Whether the value is a function that is written in the language. -/
def Value.isFunction : Value → Bool
  | .compiled _ _ | .closure _ | .function _ => true
  | _ => false

/-- Every value in the store satisfies `P`. -/
structure Store.All (P : Value → Prop) (s : Store) : Prop where
  arrays : ∀ items ∈ s.arrays, ∀ v ∈ items, P v
  hashes : ∀ pairs ∈ s.hashes, ∀ p ∈ pairs.entries, P p.2
  closures : ∀ c ∈ s.closures, ∀ v ∈ c.free, P v

variable {P Q : Value → Prop} {s s' : Store}

/-- After an insertion there are the old pairs and one with the new value. -/
lemma Bindings.mem_insertIn {κ α : Type} [DecidableEq κ] {key : κ} {a : α} {es : List (κ × α)}
    {p : κ × α} (h : p ∈ Bindings.insertIn key a es) : p ∈ es ∨ p.2 = a := by
  induction es with
  | nil => exact .inr (by rw [List.mem_singleton.mp h])
  | cons e es ih =>
      obtain ⟨k, b⟩ := e
      rw [Bindings.insertIn] at h
      split_ifs at h
      · rcases List.mem_cons.mp h with rfl | h
        · exact .inr rfl
        · exact .inl (List.mem_cons_of_mem _ h)
      · rcases List.mem_cons.mp h with rfl | h
        · exact .inl (by simp)
        · rcases ih h with h | h
          · exact .inl (List.mem_cons_of_mem _ h)
          · exact .inr h

/-- What is found is in the list. -/
lemma Bindings.mem_of_findIn {κ α : Type} [DecidableEq κ] {key : κ} {a : α} {es : List (κ × α)}
    (h : Bindings.findIn key es = some a) : ∃ p ∈ es, p.2 = a := by
  induction es with
  | nil => cases h
  | cons e es ih =>
      obtain ⟨k, b⟩ := e
      rw [Bindings.findIn] at h
      split_ifs at h
      · exact ⟨(k, b), by simp, Option.some.inj h⟩
      · obtain ⟨p, hp, hpa⟩ := ih h
        exact ⟨p, List.mem_cons_of_mem _ hp, hpa⟩

lemma mem_of_mem_extract {α : Type} {xs : Array α} {i j : Nat} {a : α} (h : a ∈ xs.extract i j) :
    a ∈ xs := by
  obtain ⟨k, hk, rfl⟩ := Array.mem_extract_iff_getElem.mp h
  exact Array.getElem_mem _

namespace Store.All

/-- Less may be asked for. -/
lemma mono (h : s.All P) (hPQ : ∀ v, P v → Q v) : s.All Q where
  arrays items hi v hv := hPQ v (h.arrays items hi v hv)
  hashes pairs hb p hp := hPQ p.2 (h.hashes pairs hb p hp)
  closures c hc v hv := hPQ v (h.closures c hc v hv)

/-- The elements of an array. -/
lemma array (h : s.All P) (ref : Nat) : ∀ v ∈ s.array ref, P v := by
  intro v hv
  unfold Store.array at hv
  rw [Array.getD_eq_getD_getElem?] at hv
  cases hr : s.arrays[ref]? with
  | none => rw [hr] at hv; simp at hv
  | some items =>
      rw [hr] at hv
      exact h.arrays items (Array.mem_of_getElem? hr) v hv

/-- The values of a hash. -/
lemma hash (h : s.All P) (ref : Nat) : ∀ p ∈ (s.hash ref).entries, P p.2 := by
  intro p hp
  unfold Store.hash at hp
  rw [Array.getD_eq_getD_getElem?] at hp
  cases hr : s.hashes[ref]? with
  | none => rw [hr] at hp; simp [Bindings.empty] at hp
  | some pairs =>
      rw [hr] at hp
      exact h.hashes pairs (Array.mem_of_getElem? hr) p hp

/-- A new array holds what it is made of. -/
lemma newArray (h : s.All P) {items : Array Value} (hi : ∀ v ∈ items, P v) :
    (s.newArray items).2.All P where
  arrays xs hx v hv := by
    rcases Array.mem_push.mp hx with hx | rfl
    · exact h.arrays xs hx v hv
    · exact hi v hv
  hashes := h.hashes
  closures := h.closures

/-- So does a new hash. -/
lemma newHash (h : s.All P) {pairs : Bindings HashKey Value} (hp : ∀ p ∈ pairs.entries, P p.2) :
    (s.newHash pairs).2.All P where
  arrays := h.arrays
  hashes b hb p hmem := by
    rcases Array.mem_push.mp hb with hb | rfl
    · exact h.hashes b hb p hmem
    · exact hp p hmem
  closures := h.closures

/-- So does a new closure. -/
lemma newClosure (h : s.All P) {c : Closure} (hc : ∀ v ∈ c.free, P v) :
    (s.newClosure c).2.All P where
  arrays := h.arrays
  hashes := h.hashes
  closures d hd v hv := by
    rcases Array.mem_push.mp hd with hd | rfl
    · exact h.closures d hd v hv
    · exact hc v hv

lemma print (h : s.All P) (line : String) : (s.print line).All P :=
  ⟨h.arrays, h.hashes, h.closures⟩

lemma reserve (h : s.All P) (n : Nat) : (s.reserve n).2.All P :=
  ⟨h.arrays, h.hashes, h.closures⟩

/-- One item is replaced. -/
lemma setElement (h : s.All P) (ref i : Nat) {v : Value} (hv : P v) :
    (s.setElement ref i v).All P where
  arrays xs hx w hw := by
    obtain ⟨n, hn⟩ := Array.mem_iff_getElem?.mp hx
    simp only [Store.setElement, Array.getElem?_modify] at hn
    split_ifs at hn
    · obtain ⟨items, hitems, rfl⟩ := Option.map_eq_some_iff.mp hn
      obtain ⟨k, hk⟩ := Array.mem_iff_getElem?.mp hw
      rw [Array.getElem?_setIfInBounds] at hk
      split_ifs at hk
      · cases hk
        exact hv
      · exact h.arrays items (Array.mem_of_getElem? hitems) w (Array.mem_of_getElem? hk)
    · exact h.arrays xs (Array.mem_of_getElem? hn) w hw
  hashes := h.hashes
  closures := h.closures

/-- One pair is added or replaced. -/
lemma setEntry (h : s.All P) (ref : Nat) (key : HashKey) {v : Value} (hv : P v) :
    (s.setEntry ref key v).All P where
  arrays := h.arrays
  hashes b hb p hp := by
    obtain ⟨n, hn⟩ := Array.mem_iff_getElem?.mp hb
    simp only [Store.setEntry, Array.getElem?_modify] at hn
    split_ifs at hn
    · obtain ⟨pairs, hpairs, rfl⟩ := Option.map_eq_some_iff.mp hn
      rcases Bindings.mem_insertIn hp with hp | rfl
      · exact h.hashes pairs (Array.mem_of_getElem? hpairs) p hp
      · exact hv
    · exact h.hashes b (Array.mem_of_getElem? hn) p hp
  closures := h.closures

end Store.All

/-! ## Operators and builtins -/

/-- Whether a fault means that the code is broken, rather than the program. -/
def Fault.isInternal : Fault → Bool
  | .undefinedOpcode _ _ | .truncatedInstruction _ _ | .undefinedConstant _ | .notAFunction _
  | .undefinedBuiltin _ | .undefinedFree _ | .stackUnderflow => true
  | _ => false

/-- An operation gives something with `P`, or a fault of the program. -/
def Gives {α : Type} (P : α → Prop) : Except Fault α → Prop
  | .ok a => P a
  | .error f => f.isInternal = false

/-- The store still holds values with `P`, and has the same closures. -/
def Store.Keeps (P : Value → Prop) (s s' : Store) : Prop :=
  s'.All P ∧ s'.closures = s.closures

section

variable (hP : ∀ v : Value, v.isFunction = false → P v)

include hP

/-- Arithmetic gives numbers and texts, and refuses the rest. -/
lemma Value.gives_arithmetic (op : Opcode) (left right : Value) :
    Gives P (Value.arithmetic op left right) := by
  simp only [Value.arithmetic]
  split
  · split
    · split
      · exact hP _ rfl
      · rfl
    · rfl
  · split
    · split
      · exact hP _ rfl
      · rfl
    · split
      · exact hP _ rfl
      · rfl
    · rfl

/-- Comparing gives a truth value, and refuses what cannot be compared. -/
lemma Value.gives_compare (op : Opcode) (left right : Value) :
    Gives P (Value.compare op left right) := by
  unfold Value.compare
  split
  · exact hP _ rfl
  · rfl

/-- Only the logical operators give one of their operands. -/
lemma Value.gives_binary (op : Opcode) {left right : Value} (hl : P left) (hr : P right) :
    Gives P (Value.binary op left right) := by
  have hlogical : P (Value.logical op left right) := by
    simp only [Value.logical]
    split_ifs <;> assumption
  cases op with
  | equal | notEqual | greater | greaterEqual => exact gives_compare hP _ left right
  | and | or => exact hlogical
  | div => exact gives_arithmetic hP .div left right
  | _ => exact gives_arithmetic hP _ left right

/-- In front of a value an operator gives a number or a truth value. -/
lemma Value.gives_unary (op : Opcode) (v : Value) : Gives P (Value.unary op v) := by
  have hnegate : Gives P v.negate := by
    cases v <;> first | exact hP _ rfl | rfl
  cases op with
  | bang => exact hP _ rfl
  | _ => exact hnegate

/-- What is found by an index was in the store. -/
lemma Store.All.gives_getIndex (h : s.All P) (left index : Value) :
    Gives P (s.getIndex left index) := by
  unfold Store.getIndex
  split
  · split
    · next ref i _ n _ =>
        show P ((s.array ref).getD n .nil)
        rw [Array.getD_eq_getD_getElem?]
        cases hn : (s.array ref)[n]? with
        | none => exact hP _ rfl
        | some v => exact h.array ref v (Array.mem_of_getElem? hn)
    · exact hP _ rfl
  · split
    · next ref key k _ =>
        show P (((s.hash ref).find? k).getD .nil)
        cases hk : (s.hash ref).find? k with
        | none => exact hP _ rfl
        | some v =>
            obtain ⟨p, hp, rfl⟩ := Bindings.mem_of_findIn hk
            exact h.hash ref p hp
    · rfl
  · rfl

/-- A builtin answers with what it was given, what is in the store, or something new of these. -/
lemma Builtin.call_keeps (h : s.All P) (b : Builtin) {args : List Value} (ha : ∀ v ∈ args, P v) :
    P (b.call s args).1 ∧ s.Keeps P (b.call s args).2 := by
  have hprint (vs : List Value) {s : Store} (h : s.All P) : s.Keeps P (printAll s vs) := by
    induction vs generalizing s with
    | nil => exact ⟨h, rfl⟩
    | cons v vs ih => exact ih (h.print _)
  unfold Builtin.call
  split
  · exact ⟨hP _ rfl, hprint _ h⟩
  · refine ⟨hP _ ?_, h, rfl⟩
    unfold Builtin.callLen
    split <;> rfl
  · next ref =>
      refine ⟨?_, h, rfl⟩
      rw [Array.getD_eq_getD_getElem?]
      cases hn : (s.array ref)[0]? with
      | none => exact hP _ rfl
      | some v => exact h.array ref v (Array.mem_of_getElem? hn)
  · exact ⟨hP _ rfl, h, rfl⟩
  · next ref =>
      refine ⟨?_, h, rfl⟩
      cases hn : (s.array ref).back? with
      | none => exact hP _ rfl
      | some v => exact h.array ref v (Array.mem_of_back? hn)
  · exact ⟨hP _ rfl, h, rfl⟩
  · unfold Builtin.callRest
    split
    · next ref =>
        simp only
        split_ifs
        · exact ⟨hP _ rfl, h, rfl⟩
        · refine ⟨hP _ rfl, h.newArray fun v hv => h.array ref v ?_, rfl⟩
          rw [Array.drop_eq_extract] at hv
          exact mem_of_mem_extract hv
    · exact ⟨hP _ rfl, h, rfl⟩
  · next v item =>
      unfold Builtin.callPush
      split
      · next ref =>
          refine ⟨hP _ rfl, h.newArray fun w hw => ?_, rfl⟩
          rcases Array.mem_push.mp hw with hw | rfl
          · exact h.array ref w hw
          · exact ha _ (by simp)
      · exact ⟨hP _ rfl, h, rfl⟩
  · exact ⟨hP _ rfl, h, rfl⟩
  · exact ⟨hP _ rfl, h, rfl⟩

/-- A hash is made of what is given, unless a key cannot be used. -/
lemma Store.All.gives_buildHash (h : s.All P) {items : List Value} (hi : ∀ v ∈ items, P v) :
    Gives (fun r : Value × Store => P r.1 ∧ s.Keeps P r.2) (s.buildHash items) := by
  have key (acc : Bindings HashKey Value) (hacc : ∀ p ∈ acc.entries, P p.2) (items : List Value)
      (hi : ∀ v ∈ items, P v) :
      Gives (fun b : Bindings HashKey Value => ∀ p ∈ b.entries, P p.2)
        (Store.pairUp acc items) := by
    induction acc, items using Store.pairUp.induct with
    | case1 acc key value rest k hk ih =>
        rw [Store.pairUp, hk]
        refine ih (fun p hp => ?_) (fun v hv => hi v (by simp [hv]))
        rcases Bindings.mem_insertIn hp with hp | rfl
        · exact hacc p hp
        · exact hi _ (by simp)
    | case2 acc key value rest hk =>
        rw [Store.pairUp, hk]
        rfl
    | case3 acc items hne =>
        rw [Store.pairUp]
        · exact hacc
        · exact hne
  have hpairs := key .empty (by simp [Bindings.empty]) items hi
  unfold Store.buildHash
  cases hb : Store.pairUp .empty items with
  | error f => rw [hb] at hpairs; exact hpairs
  | ok pairs =>
      rw [hb] at hpairs
      exact ⟨hP _ rfl, h.newHash hpairs, rfl⟩

end

/-- What is written to an index was given. -/
lemma Store.All.gives_setIndex (h : s.All P) (left index : Value) {v : Value} (hv : P v) :
    Gives (s.Keeps P) (s.setIndex left index v) := by
  unfold Store.setIndex
  split
  · split
    · split_ifs
      · exact ⟨h.setElement _ _ hv, rfl⟩
      · rfl
    · rfl
  · split
    · exact ⟨h.setEntry _ _ hv, rfl⟩
    · rfl
  · rfl

end Marmoset
