/-!
# Scopes

While a program is compiled, every name stands for a symbol: a slot or an index, and the kind of
place that it counts.  Each function has a scope of its own inside the scope of the function around
it, and the outermost scope is the global one.

A name of an enclosing function is captured: `SymbolTable.resolve` gives each scope between its
definition and its use a free symbol for it, and `free` lists what each scope captures, as the scope
around it knows it.  `SymbolTable.plan` says beforehand which scopes those will be.
-/

namespace Marmoset

/-- The kind of place a symbol stands for. -/
inductive SymbolKind where
  | global
  /-- A parameter or a name bound in a function. -/
  | local
  | builtin
  /-- Captured from an enclosing function. -/
  | free
  /-- The name of the function itself. -/
  | function
deriving DecidableEq, Repr, Inhabited

namespace SymbolKind

/-- Whether the place can be reached from inside every function without being captured. -/
def reachable : SymbolKind → Bool
  | global | builtin => true
  | _ => false

/-- Whether the place is a slot of the scope itself, so that an assignment can overwrite it. -/
def owned : SymbolKind → Bool
  | global | .local => true
  | _ => false

end SymbolKind

/-- What a name stands for. -/
structure Symbol where
  name : String
  kind : SymbolKind
  index : Nat
deriving DecidableEq, Repr, Inhabited

/-- The names of one function, or of the top level. -/
structure Scope where
  /-- The symbols bound so far, the latest first. -/
  symbols : List Symbol
  /-- What is captured, in the order of capture, each as the enclosing scope knows it. -/
  free : List Symbol
  /-- The number of slots in use. -/
  definitions : Nat
deriving DecidableEq, Repr, Inhabited

namespace Scope

def empty : Scope := ⟨[], [], 0⟩

/-- What a name stands for: the latest symbol that has it. -/
def find? (s : Scope) (name : String) : Option Symbol :=
  s.symbols.find? fun symbol => symbol.name == name

/-- Binds the name of a symbol to it. -/
def bind (s : Scope) (symbol : Symbol) : Scope :=
  { s with symbols := symbol :: s.symbols }

/-- Captures a symbol of the enclosing scope. -/
def capture (s : Scope) (outer : Symbol) : Symbol × Scope :=
  let symbol : Symbol := ⟨outer.name, .free, s.free.length⟩
  (symbol, { s.bind symbol with free := s.free ++ [outer] })

/-- Binding a name changes what that name stands for, and nothing else. -/
@[simp]
theorem find?_bind (s : Scope) (symbol : Symbol) (name : String) :
    (s.bind symbol).find? name = if symbol.name = name then some symbol else s.find? name := by
  by_cases h : symbol.name = name <;> simp [bind, find?, h]

end Scope

/-- The scope that is being compiled, and those around it from the inside out. -/
structure SymbolTable where
  current : Scope
  outer : List Scope
deriving DecidableEq, Repr, Inhabited

/-- How a name will be resolved. -/
structure Resolution where
  /-- The symbol in the nearest scope that has the name. -/
  symbol : Symbol
  /-- The depth of that scope. -/
  depth : Nat
  /-- The depths of the scopes that have to capture it, from the outside in. -/
  captures : List Nat
deriving DecidableEq, Repr, Inhabited

/-- What is known of a scope when it is left. -/
structure ScopeSummary where
  free : List Symbol
  definitions : Nat
deriving DecidableEq, Repr, Inhabited

namespace SymbolTable

def empty : SymbolTable := ⟨.empty, []⟩

/-- How many functions are around the current place. -/
def depth (t : SymbolTable) : Nat :=
  t.outer.length

/-- Enters the scope of a function. -/
def enter (t : SymbolTable) : SymbolTable :=
  ⟨.empty, t.current :: t.outer⟩

/-- Leaves the scope of a function; the global scope is never left. -/
def leave (t : SymbolTable) : Option (ScopeSummary × SymbolTable) :=
  match t.outer with
  | [] => none
  | s :: ss => some (⟨t.current.free, t.current.definitions⟩, ⟨s, ss⟩)

/-- Leaves all functions. -/
def resetToGlobal (t : SymbolTable) : SymbolTable :=
  match t.outer.getLast? with
  | none => t
  | some s => ⟨s, []⟩

/-- Binds a symbol in the current scope. -/
def bind (t : SymbolTable) (symbol : Symbol) : SymbolTable :=
  { t with current := t.current.bind symbol }

/-- Binds a name to the next slot of the current scope, even if it has one. -/
def define (t : SymbolTable) (name : String) : Symbol × SymbolTable :=
  let kind := if t.outer.isEmpty then SymbolKind.global else .local
  let symbol : Symbol := ⟨name, kind, t.current.definitions⟩
  (symbol, { t with
    current := { t.current.bind symbol with definitions := t.current.definitions + 1 } })

/-- Binds a name to a builtin. -/
def defineBuiltin (t : SymbolTable) (name : String) (index : Nat) : Symbol × SymbolTable :=
  let symbol : Symbol := ⟨name, .builtin, index⟩
  (symbol, t.bind symbol)

/-- Binds the name of the function that is being compiled. -/
def defineFunctionName (t : SymbolTable) (name : String) : Symbol × SymbolTable :=
  let symbol : Symbol := ⟨name, .function, 0⟩
  (symbol, t.bind symbol)

/-- What the name stands for in the current scope itself. -/
def findHere? (t : SymbolTable) (name : String) : Option Symbol :=
  t.current.find? name

/-- The nearest of the scopes that has the name, given from the inside out: its symbol and the
number of scopes around it. -/
def nearest (name : String) : List Scope → Option (Symbol × Nat)
  | [] => none
  | s :: ss =>
    match s.find? name with
    | some symbol => some (symbol, ss.length)
    | none => nearest name ss

/-- How `name` will be resolved; nothing changes. -/
def plan (t : SymbolTable) (name : String) : Option Resolution :=
  match nearest name (t.current :: t.outer) with
  | none => none
  | some (symbol, depth) =>
    let between := (List.range (t.depth - depth)).map (depth + 1 + ·)
    some ⟨symbol, depth, if symbol.kind.reachable then [] else between⟩

/-- Finds a name from the inside out and captures it on the way back where that is needed. -/
def resolveIn (name : String) (s : Scope) : List Scope → Option (Symbol × Scope × List Scope)
  | [] => (s.find? name).map fun symbol => (symbol, s, [])
  | outer :: outers =>
    match s.find? name with
    | some symbol => some (symbol, s, outer :: outers)
    | none =>
      match resolveIn name outer outers with
      | none => none
      | some (symbol, outer', outers') =>
        if symbol.kind.reachable then some (symbol, s, outer' :: outers')
        else
          let (mine, s') := s.capture symbol
          some (mine, s', outer' :: outers')

/-- What `name` stands for in the current scope, which may capture it. -/
def resolve (t : SymbolTable) (name : String) : Option (Symbol × SymbolTable) :=
  match resolveIn name t.current t.outer with
  | none => none
  | some (symbol, s, outer) => some (symbol, ⟨s, outer⟩)

end SymbolTable

end Marmoset
