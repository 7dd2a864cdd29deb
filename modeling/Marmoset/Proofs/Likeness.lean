import Marmoset.Builtin.Call
import Marmoset.Value.Operators
import Mathlib.Tactic.Common
import Mathlib.Data.List.Forall2

/-!
# What is alike in the two engines

The machine makes closures and the evaluator makes functions, each counted from its own start: the
machine's first closure is the main stream.  All else is the same in both, arrays and hashes at the
same places.  So `Value.Like n`, where `n` functions were made so far, says that two values are the
same or the same function, and `Fault.Like n` that two faults differ at most in what they call a
function.

An error value may hold a message that names the kind of a function.  Two messages are alike if they
are equal and name none, or if one says "Closure" where the other says "Function" (`Message.Like`);
so comparing them comes to the same in both engines.

* **`Value.Like.binary`**, `Value.Like.unary` — operators give what is alike.
-/

namespace Marmoset

/-! ## Messages -/

/-- The message of the machine and that of the evaluator. -/
inductive Message.Like (n : Nat) : String → String → Prop where
  | same {m : String} (h : ∀ p, m ≠ p ++ Kind.closure.name ∧
      m ≠ p ++ Kind.function.name) : Like n m m
  | kind (p : String) (h : 0 < n) : Like n (p ++ Kind.closure.name) (p ++ Kind.function.name)

namespace Message.Like

variable {n n' : Nat} {a a' b b' : String}

/-- More functions may be there. -/
lemma mono (h : Like n a a') (hn : n ≤ n') : Like n' a a' := by
  cases h with
  | same h => exact .same h
  | kind p h => exact .kind p (Nat.lt_of_lt_of_le h hn)

/-- Without functions messages are equal. -/
lemma eq_of_zero (h : Like 0 a a') : a = a' := by
  cases h with
  | same _ => rfl
  | kind p h => exact absurd h (Nat.lt_irrefl 0)

/-- Equal messages are alike to equal ones. -/
lemma eq_iff (ha : Like n a a') (hb : Like n b b') : a = b ↔ a' = b' := by
  cases ha with
  | same ha =>
      cases hb with
      | same _ => rfl
      | kind q _ => exact iff_of_false (ha q).1 (ha q).2
  | kind p _ =>
      cases hb with
      | same hb => exact iff_of_false (fun h => (hb p).1 h.symm) (fun h => (hb p).2 h.symm)
      | kind q _ => rw [String.append_left_inj, String.append_left_inj]

/-- What a text ends in. -/
lemma ends_of_append_eq {xs ys zs ws : List Char} (h : xs ++ ys = zs ++ ws) (k : Nat)
    (hy : k ≤ ys.length) (hw : k ≤ ws.length) : ys.reverse.take k = ws.reverse.take k := by
  have hr := congrArg (fun l => l.reverse.take k) h
  simp only [List.reverse_append] at hr
  rwa [List.take_append_of_le_length (by simpa using hy),
    List.take_append_of_le_length (by simpa using hw)] at hr

/-- A message that ends in another way than the two words does not name a function. -/
lemma of_end (p : String) {s : String} (hlen : 2 ≤ s.toList.length)
    (hc : s.toList.reverse.take 2 ≠ ['e', 'r']) (hf : s.toList.reverse.take 2 ≠ ['n', 'o']) :
    Like n (p ++ s) (p ++ s) := by
  refine .same fun q => ⟨fun h => hc ?_, fun h => hf ?_⟩
  · have h' := congrArg String.toList h
    rw [String.toList_append, String.toList_append] at h'
    exact ends_of_append_eq h' 2 hlen (by decide)
  · have h' := congrArg String.toList h
    rw [String.toList_append, String.toList_append] at h'
    exact ends_of_append_eq h' 2 hlen (by decide)

/-- A message that ends in a number does not name a function. -/
lemma of_number (p : String) (k : Nat) : Like n (p ++ toString k) (p ++ toString k) := by
  have key (q w : String) (hw : w.toList ≠ []) (hd : (w.toList.any Char.isDigit) = false)
      (h : p ++ toString k = q ++ w) : False := by
    have h' := congrArg String.toList h
    rw [String.toList_append, String.toList_append] at h'
    have hdigits : (toString k).toList = Nat.toDigits 10 k := String.toList_ofList
    rw [hdigits] at h'
    have hlast := congrArg List.getLast? h'
    rw [List.getLast?_append_of_ne_nil _ hw,
      List.getLast?_append_of_ne_nil _ Nat.toDigits_ne_nil] at hlast
    obtain ⟨c, hc⟩ := Option.ne_none_iff_exists'.mp (mt List.getLast?_eq_none_iff.mp hw)
    have hdigit :=
      Nat.isDigit_of_mem_toDigits (by decide) (by decide) (List.mem_of_getLast? (hlast.trans hc))
    rw [List.any_eq_false] at hd
    exact hd c (List.mem_of_getLast? hc) hdigit
  exact .same fun q => ⟨key q _ (by decide) (by decide), key q _ (by decide) (by decide)⟩

end Message.Like

/-! ## Values -/

/-- Whether the value is neither a function of the language nor an error. -/
def Value.isPlain : Value → Bool
  | .compiled _ _ | .closure _ | .function _ | .error _ => false
  | _ => true

/-- The value of the machine and that of the evaluator. -/
inductive Value.Like (n : Nat) : Value → Value → Prop where
  | plain {v : Value} (h : v.isPlain = true) : Like n v v
  | function {i : Nat} (h : i < n) : Like n (.closure (i + 1)) (.function i)
  | error {a b : String} (h : Message.Like n a b) : Like n (.error a) (.error b)

/-- The kinds of such values. -/
inductive Kind.Like (n : Nat) : Kind → Kind → Prop where
  | same {k : Kind} (h : k ≠ .compiled ∧ k ≠ .closure ∧ k ≠ .function) : Like n k k
  | function (h : 0 < n) : Like n .closure .function

/-- The fault of the machine and that of the evaluator. -/
inductive Fault.Like (n : Nat) : Fault → Fault → Prop where
  | same (f : Fault) : Like n f f
  | notCallable {k k' : Kind} (h : Kind.Like n k k') : Like n (.notCallable k) (.notCallable k')
  | unsupportedBinary {k k' l l' : Kind} (op : Opcode) (h : Kind.Like n k k')
      (h' : Kind.Like n l l') :
      Like n (.unsupportedBinary op k l) (.unsupportedBinary op k' l')
  | unsupportedNegation {k k' : Kind} (h : Kind.Like n k k') :
      Like n (.unsupportedNegation k) (.unsupportedNegation k')
  | unknownComparison {k k' l l' : Kind} (op : Opcode) (h : Kind.Like n k k')
      (h' : Kind.Like n l l') :
      Like n (.unknownComparison op k l) (.unknownComparison op k' l')
  | unusableHashKey {k k' : Kind} (h : Kind.Like n k k') :
      Like n (.unusableHashKey k) (.unusableHashKey k')
  | indexNotSupported {k k' : Kind} (h : Kind.Like n k k') :
      Like n (.indexNotSupported k) (.indexNotSupported k')

/-- A message about the kind of a value. -/
lemma Message.Like.of_kind {n : Nat} {k k' : Kind} (p : String) (h : Kind.Like n k k') :
    Message.Like n (p ++ k.name) (p ++ k'.name) := by
  cases h with
  | same h =>
      obtain ⟨h₁, h₂, h₃⟩ := h
      cases k <;> first | contradiction | exact .of_end p (by decide) (by decide) (by decide)
  | function h => exact .kind p h

/-- Without functions kinds are equal. -/
lemma Kind.Like.eq_of_zero {k k' : Kind} (h : Kind.Like 0 k k') : k = k' := by
  cases h with
  | same _ => rfl
  | function h => exact absurd h (Nat.lt_irrefl 0)

/-- Without functions faults are equal. -/
lemma Fault.Like.eq_of_zero {f f' : Fault} (h : Fault.Like 0 f f') : f = f' := by
  cases h with
  | same f => rfl
  | notCallable h | unsupportedNegation h | unusableHashKey h | indexNotSupported h =>
      rw [h.eq_of_zero]
  | unsupportedBinary op h h' | unknownComparison op h h' => rw [h.eq_of_zero, h'.eq_of_zero]

namespace Value.Like

variable {n n' : Nat} {v v' w w' : Value}

/-- More functions may be there. -/
lemma mono (h : Like n v v') (hn : n ≤ n') : Like n' v v' := by
  cases h with
  | plain h => exact .plain h
  | function h => exact .function (Nat.lt_of_lt_of_le h hn)
  | error h => exact .error (h.mono hn)

/-- Without functions values are equal. -/
lemma eq_of_zero (h : Like 0 v v') : v = v' := by
  cases h with
  | plain _ => rfl
  | function h => exact absurd h (Nat.not_lt_zero _)
  | error h => rw [h.eq_of_zero]

/-! ### What can be seen of a value -/

/-- Values that are alike are of kinds that are alike. -/
lemma kind (h : Like n v v') : Kind.Like n v.kind v'.kind := by
  cases h with
  | plain h => cases v <;> first | (cases h; done) | exact .same ⟨nofun, nofun, nofun⟩
  | function h => exact .function (Nat.zero_lt_of_lt h)
  | error _ => exact .same ⟨nofun, nofun, nofun⟩

lemma truthy (h : Like n v v') : v'.truthy = v.truthy := by
  cases h <;> rfl

/-- Functions and errors are no keys, so keys are the same. -/
lemma hashKey? (h : Like n v v') : v'.hashKey? = v.hashKey? := by
  cases h <;> rfl

lemma isFloat (h : Like n v v') : v'.isFloat = v.isFloat := by
  cases h <;> rfl

/-- Functions are the same if their numbers are, in both engines. -/
lemma identical (h : Like n v v') (hw : Like n w w') : v'.identical w' = v.identical w := by
  cases h with
  | plain h =>
      cases hw with
      | plain _ => rfl
      | function _ => cases v <;> first | rfl | cases h
      | error _ => cases v <;> first | rfl | cases h
  | @function i _ =>
      cases hw with
      | plain hw => cases w <;> first | rfl | cases hw
      | @function j _ => simp [Value.identical]
      | error _ => rfl
  | error h =>
      cases hw with
      | plain hw => cases w <;> first | rfl | cases hw
      | function _ => rfl
      | error hw =>
          rw [Value.identical, Value.identical, Bool.eq_iff_iff, beq_iff_eq, beq_iff_eq]
          exact (h.eq_iff hw).symm

/-- The two are one plain value, or neither is plain. -/
lemma plain_or (h : Like n v v') :
    (v' = v ∧ v.isPlain = true) ∨ (v.isPlain = false ∧ v'.isPlain = false) := by
  cases h with
  | plain h => exact .inl ⟨rfl, h⟩
  | function _ => exact .inr ⟨rfl, rfl⟩
  | error _ => exact .inr ⟨rfl, rfl⟩

end Value.Like

/-! ## Operators -/

/-- Two outcomes of an operation. -/
def Alike {α : Type} (n : Nat) (R : α → α → Prop) : Except Fault α → Except Fault α → Prop
  | .ok a, .ok a' => R a a'
  | .error f, .error f' => Fault.Like n f f'
  | _, _ => False

/-- Either both operations succeed or both have a fault. -/
lemma Alike.cases {α : Type} {n : Nat} {R : α → α → Prop} {r r' : Except Fault α}
    (h : Alike n R r r') :
    (∃ a a', r = .ok a ∧ r' = .ok a' ∧ R a a') ∨ ∃ f f', r = .error f ∧ r' = .error f' ∧
      Fault.Like n f f' := by
  cases r with
  | ok a =>
      cases r' with
      | ok a' => exact .inl ⟨a, a', rfl, rfl, h⟩
      | error f' => exact h.elim
  | error f =>
      cases r' with
      | ok a' => exact h.elim
      | error f' => exact .inr ⟨f, f', rfl, rfl, h⟩

namespace Value

variable {n : Nat} {v v' w w' : Value}

lemma asDouble?_of_not_plain (h : v.isPlain = false) : v.asDouble? = none := by
  cases v <;> first | rfl | cases h

/-- Only plain values can be calculated with. -/
lemma arithmetic_of_not_plain (op : Opcode) (h : v.isPlain = false ∨ w.isPlain = false) :
    arithmetic op v w = .error (.unsupportedBinary op v.kind w.kind) := by
  unfold arithmetic
  rcases h with h | h
  · cases v <;> first | (simp only [asDouble?]; split <;> rfl) | cases h
  · cases w <;> first | (cases v <;> simp only [asDouble?] <;> split <;> rfl) | cases h

/-- Calculations have plain results. -/
lemma isPlain_of_arithmetic {op : Opcode} {r : Value} (h : arithmetic op v w = .ok r) :
    r.isPlain = true := by
  simp only [arithmetic] at h
  split at h
  · split at h
    · split at h <;> cases h
      rfl
    · cases h
  · split at h
    · split at h <;> cases h
      rfl
    · split at h <;> cases h
      rfl
    · cases h

namespace Like

/-- Either both calculate with the same plain values, or both refuse. -/
lemma arithmetic (op : Opcode) (h : Like n v v') (hw : Like n w w') :
    Alike n (Like n) (arithmetic op v w) (Value.arithmetic op v' w') := by
  have hodd (h₁ : v.isPlain = false ∨ w.isPlain = false)
      (h₂ : v'.isPlain = false ∨ w'.isPlain = false) :
      Alike n (Like n) (Value.arithmetic op v w) (Value.arithmetic op v' w') := by
    rw [arithmetic_of_not_plain op h₁, arithmetic_of_not_plain op h₂]
    exact .unsupportedBinary op h.kind hw.kind
  rcases h.plain_or with ⟨rfl, -⟩ | ⟨h₁, h₂⟩
  · rcases hw.plain_or with ⟨rfl, -⟩ | ⟨h₁, h₂⟩
    · cases hr : Value.arithmetic op v' w' with
      | ok r => exact .plain (isPlain_of_arithmetic hr)
      | error f => exact .same f
    · exact hodd (.inr h₁) (.inr h₂)
  · exact hodd (.inl h₁) (.inl h₂)

/-- Comparisons have the same results. -/
lemma compare? (op : Opcode) (h : Like n v v') (hw : Like n w w') :
    Value.compare? op v' w' = Value.compare? op v w := by
  have key {v w : Value} (hn : v.isPlain = false ∨ w.isPlain = false) :
      Value.compare? op v w =
        if v.isFloat || w.isFloat then none
        else if op = .equal then some (v.identical w)
        else if op = .notEqual then some (!v.identical w)
        else none := by
    unfold Value.compare?
    split
    · rcases hn with hn | hn <;> cases hn
    · split
      next hx hy =>
        rcases hn with hn | hn
        · cases (asDouble?_of_not_plain hn).symm.trans hx
        · cases (asDouble?_of_not_plain hn).symm.trans hy
      next => cases op <;> rfl
  have hodd (h₁ : v.isPlain = false ∨ w.isPlain = false)
      (h₂ : v'.isPlain = false ∨ w'.isPlain = false) :
      Value.compare? op v' w' = Value.compare? op v w := by
    rw [key h₁, key h₂, h.isFloat, hw.isFloat, h.identical hw]
  rcases h.plain_or with ⟨rfl, -⟩ | ⟨h₁, h₂⟩
  · rcases hw.plain_or with ⟨rfl, -⟩ | ⟨h₁, h₂⟩
    · rfl
    · exact hodd (.inr h₁) (.inr h₂)
  · exact hodd (.inl h₁) (.inl h₂)

lemma compare (op : Opcode) (h : Like n v v') (hw : Like n w w') :
    Alike n (Like n) (Value.compare op v w) (Value.compare op v' w') := by
  unfold Value.compare
  rw [h.compare? op hw]
  cases Value.compare? op v w with
  | some b => exact .plain rfl
  | none => exact .unknownComparison op h.kind hw.kind

/-- A logical operator gives one of its operands, the same one in both engines. -/
lemma logical (op : Opcode) (h : Like n v v') (hw : Like n w w') :
    Like n (Value.logical op v w) (Value.logical op v' w') := by
  simp only [Value.logical, h.truthy]
  split_ifs
  all_goals first | exact h | exact hw

/-- **Binary operators give what is alike.** -/
theorem binary (op : Opcode) (h : Like n v v') (hw : Like n w w') :
    Alike n (Like n) (Value.binary op v w) (Value.binary op v' w') := by
  cases op with
  | equal | notEqual | greater | greaterEqual => exact h.compare _ hw
  | and => exact h.logical .and hw
  | or => exact h.logical .or hw
  | div => exact h.arithmetic .div hw
  | _ => exact h.arithmetic _ hw

/-- Unary operators give what is alike. -/
lemma unary (op : Opcode) (h : Like n v v') :
    Alike n (Like n) (Value.unary op v) (Value.unary op v') := by
  have hnot : Like n v.not v'.not := by
    rw [Value.not, Value.not, h.truthy]
    exact .plain rfl
  have hnegate : Alike n (Like n) v.negate v'.negate := by
    rcases h.plain_or with ⟨rfl, -⟩ | ⟨h₁, h₂⟩
    · cases v' <;> first | exact Like.plain rfl | exact Fault.Like.same _
    · have hv : v.negate = .error (.unsupportedNegation v.kind) := by
        cases v <;> first | rfl | cases h₁
      have hv' : v'.negate = .error (.unsupportedNegation v'.kind) := by
        cases v' <;> first | rfl | cases h₂
      rw [hv, hv']
      exact .unsupportedNegation h.kind
  cases op with
  | bang => exact hnot
  | _ => exact hnegate

end Like

end Value

end Marmoset
