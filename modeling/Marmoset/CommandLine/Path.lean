/-!
# Paths

A path is a list of names with slashes between them; a place is where it leads.  The program runs in
a directory that may lie anywhere below the root, so places are counted from the root or from that
directory, and it cannot be told whether a place of one kind is the same as a place of the other.
-/

namespace Marmoset

/-- What a place is counted from. -/
inductive Base where
  | root
  /-- The directory that is so many levels above the one the program runs in. -/
  | above (levels : Nat)
deriving DecidableEq, Repr, Inhabited

/-- A place among the files: the names that lead to it from its base, the last one first. -/
structure Place where
  base : Base
  names : List String
deriving DecidableEq, Repr, Inhabited

namespace Place

def root : Place := ⟨.root, []⟩

/-- The directory that the program runs in. -/
def here : Place := ⟨.above 0, []⟩

def child (p : Place) (name : String) : Place :=
  { p with names := name :: p.names }

/-- The directory that holds the place.  The root is its own. -/
def parent : Place → Place
  | ⟨base, _ :: names⟩ => ⟨base, names⟩
  | ⟨.root, []⟩ => root
  | ⟨.above n, []⟩ => ⟨.above (n + 1), []⟩

@[simp]
theorem parent_child (p : Place) (name : String) : (p.child name).parent = p := rfl

/-- Whether a name stands for a directory that is already known: this one or the one above. -/
def isDots (name : String) : Bool :=
  name = "." || name = ".."

/-- Where a name leads. -/
def step (p : Place) (name : String) : Place :=
  if name = "." then p
  else if name = ".." then p.parent
  else p.child name

/-- Whether `p` is a directory on the way to `q`. -/
def isAbove (p q : Place) : Bool :=
  p.base = q.base && p.names.isSuffixOf q.names && p ≠ q

/-- A device by its name. -/
def device (name : String) : Place := ⟨.root, [name, "dev"]⟩

end Place

/-- A path as it is written. -/
structure Path where
  absolute : Bool
  /-- The names in front of the last one. -/
  way : List String
  /-- The last name.  The root has none. -/
  last : Option String
  /-- Whether a slash follows the last name, so that only a directory can be meant. -/
  slashed : Bool
deriving DecidableEq, Repr, Inhabited

namespace Path

def ofText (text : String) : Path :=
  let parts := text.splitOn "/"
  let names := parts.filter (· ≠ "")
  { absolute := text.startsWith "/"
    way := names.dropLast
    last := names.getLast?
    slashed := parts.getLast? = some "" }

def start (p : Path) : Place :=
  if p.absolute then .root else .here

/-- Where the path leads if nothing is in the way. -/
def place (p : Path) : Place :=
  (p.way ++ p.last.toList).foldl Place.step p.start

end Path

end Marmoset
