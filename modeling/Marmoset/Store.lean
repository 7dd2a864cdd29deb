import Marmoset.Bindings
import Marmoset.Tree
import Marmoset.Value

/-!
# The store

Everything that has a place: arrays, hashes, functions of either engine, and the environments in
which the evaluator keeps names.  Each kind has a table of its own, and a place is an index into it;
places are never freed, so a table only grows.  The store also holds what was printed.
-/

namespace Marmoset

/-- A compiled function with the values it captured. -/
structure Closure where
  fn : CompiledFunction
  free : Array Value
deriving DecidableEq, Repr, Inhabited

/-- A function literal with the environment in which it was evaluated. -/
structure FunctionObject where
  name : Option String
  params : List String
  body : List Stmt
  environment : Nat
deriving Inhabited

/-- The names bound by one call, or at the top level, and the environment around them. -/
structure Environment where
  /-- The names with their values, the latest first. -/
  names : List (String × Value)
  outer : Option Nat
deriving DecidableEq, Repr, Inhabited

/-- What the engines share. -/
structure Store where
  arrays : Array (Array Value)
  hashes : Array (Bindings HashKey Value)
  closures : Array Closure
  functions : Array FunctionObject
  environments : Array Environment
  /-- How many compiled functions got an identity of their own. -/
  identities : Nat
  /-- The text printed so far. -/
  printed : String
deriving Inhabited

namespace Store

def empty : Store := ⟨#[], #[], #[], #[], #[], 0, ""⟩

/-! ## Arrays and hashes -/

def array (s : Store) (ref : Nat) : Array Value :=
  s.arrays.getD ref #[]

def hash (s : Store) (ref : Nat) : Bindings HashKey Value :=
  s.hashes.getD ref .empty

def newArray (s : Store) (items : Array Value) : Value × Store :=
  let ref := s.arrays.size
  (.array ref, { s with arrays := s.arrays.push items })

def newHash (s : Store) (pairs : Bindings HashKey Value) : Value × Store :=
  let ref := s.hashes.size
  (.hash ref, { s with hashes := s.hashes.push pairs })

/-- Puts a value in the place of an element of an array. -/
def setElement (s : Store) (ref i : Nat) (v : Value) : Store :=
  { s with arrays := s.arrays.modify ref fun items => items.setIfInBounds i v }

/-- Binds a key of a hash. -/
def setEntry (s : Store) (ref : Nat) (key : HashKey) (v : Value) : Store :=
  { s with hashes := s.hashes.modify ref fun pairs => pairs.insert key v }

/-- A new array holds what it was made of. -/
@[simp]
theorem array_newArray (s : Store) (items : Array Value) :
    (s.newArray items).2.array s.arrays.size = items := by
  simp [newArray, array]

/-- The arrays made before a new one are as they were. -/
theorem array_newArray_of_lt (s : Store) (items : Array Value) {ref : Nat}
    (h : ref < s.arrays.size) :
    (s.newArray items).2.array ref = s.array ref := by
  simp [newArray, array, Array.getElem?_push, Nat.ne_of_lt h]

/-- A new hash holds what it was made of. -/
@[simp]
theorem hash_newHash (s : Store) (pairs : Bindings HashKey Value) :
    (s.newHash pairs).2.hash s.hashes.size = pairs := by
  simp [newHash, hash]

/-! ## Functions -/

def newClosure (s : Store) (c : Closure) : Value × Store :=
  let ref := s.closures.size
  (.closure ref, { s with closures := s.closures.push c })

def newFunction (s : Store) (f : FunctionObject) : Value × Store :=
  let ref := s.functions.size
  (.function ref, { s with functions := s.functions.push f })

/-- Reserves identities for `n` compiled functions and gives the first of them. -/
def reserve (s : Store) (n : Nat) : Nat × Store :=
  let first := s.identities
  (first, { s with identities := s.identities + n })

/-! ## Environments -/

def newEnvironment (s : Store) (outer : Option Nat) : Nat × Store :=
  let ref := s.environments.size
  (ref, { s with environments := s.environments.push ⟨[], outer⟩ })

/-- Binds a name in an environment. -/
def bind (s : Store) (env : Nat) (name : String) (v : Value) : Store :=
  { s with environments := s.environments.modify env fun e =>
      { e with names := (name, v) :: e.names } }

/-- Looks for a name in an environment and then further out, in at most `fuel` environments. -/
def lookupWithin (s : Store) (name : String) : (fuel : Nat) → (env : Nat) → Option Value
  | 0, _ => none
  | fuel + 1, env =>
    match s.environments[env]? with
    | none => none
    | some e =>
      match e.names.lookup name with
      | some v => some v
      | none =>
        match e.outer with
        | none => none
        | some outer => lookupWithin s name fuel outer

/-- What a name is bound to.  The environment around another one is older, so that at most `env + 1`
have to be looked at. -/
def lookup (s : Store) (env : Nat) (name : String) : Option Value :=
  s.lookupWithin name (env + 1) env

/-- Whether a name is bound in the environment itself. -/
def bindsHere (s : Store) (env : Nat) (name : String) : Bool :=
  match s.environments[env]? with
  | none => false
  | some e => (e.names.lookup name).isSome

/-! ## Output -/

/-- Prints a line. -/
def print (s : Store) (line : String) : Store :=
  { s with printed := s.printed ++ line ++ "\n" }

end Store

end Marmoset
