/-!
# Bindings

A list of keys with what they are bound to, each key at most once.  Binding a key again keeps its
place and replaces what it is bound to.  The keys of a hash are bound this way, and their order can
be seen.
-/

namespace Marmoset

/-- Keys and what they are bound to, in the order in which they were first bound. -/
structure Bindings (κ α : Type) where
  entries : List (κ × α)
deriving DecidableEq, Repr, Inhabited

namespace Bindings

variable {κ α : Type} [DecidableEq κ]

def empty : Bindings κ α := ⟨[]⟩

def findIn (key : κ) : List (κ × α) → Option α
  | [] => none
  | (k, a) :: rest => if k = key then some a else findIn key rest

def insertIn (key : κ) (a : α) : List (κ × α) → List (κ × α)
  | [] => [(key, a)]
  | (k, b) :: rest => if k = key then (k, a) :: rest else (k, b) :: insertIn key a rest

/-- What `key` is bound to. -/
def find? (b : Bindings κ α) (key : κ) : Option α :=
  findIn key b.entries

/-- Binds `key` to `a`. -/
def insert (b : Bindings κ α) (key : κ) (a : α) : Bindings κ α :=
  ⟨insertIn key a b.entries⟩

def contains (b : Bindings κ α) (key : κ) : Bool :=
  (b.find? key).isSome

/-- The number of keys. -/
def size (b : Bindings κ α) : Nat :=
  b.entries.length

@[simp]
theorem find?_empty (key : κ) : (empty : Bindings κ α).find? key = none := rfl

theorem findIn_insertIn (key other : κ) (a : α) (es : List (κ × α)) :
    findIn other (insertIn key a es) = if key = other then some a else findIn other es := by
  induction es with
  | nil => simp [insertIn, findIn]
  | cons e es ih =>
    obtain ⟨k, b⟩ := e
    by_cases hk : k = key
    · subst hk
      by_cases ho : k = other <;> simp [insertIn, findIn, ho]
    · by_cases ho : k = other
      · subst ho
        simp [insertIn, findIn, hk, Ne.symm hk]
      · simp [insertIn, findIn, hk, ho, ih]

/-- Binding a key changes what that key is bound to, and nothing else. -/
@[simp]
theorem find?_insert (b : Bindings κ α) (key other : κ) (a : α) :
    (b.insert key a).find? other = if key = other then some a else b.find? other :=
  findIn_insertIn key other a b.entries

end Bindings

end Marmoset
