import Marmoset.Proofs.Emission

/-!
# Programs that bind before they use

The machine gives a name a slot when its first binding is compiled, and captures the values of names
when a function is made; the evaluator looks names up when it meets them.  Both come to the same
where every scope binds its names before it uses them and leaves alone what its functions have
captured.

* `Mentions` — the names that a part of a program uses and binds in its scope.
* `Stmt.InOrder`, `InOrder` — statements that use no name of their scope before its first binding.
* `Disciplined` — a function whose scope is in order.
* **`Program.Disciplined`** — a program all of whose scopes are.
-/

namespace Marmoset

/-- The names that a part of a scope is about. -/
structure Mentions where
  /-- The names that occur and are not bound by a function around them, in the part or in a function
  in it. -/
  uses : List String := []
  /-- Those that occur in a function. -/
  captured : List String := []
  /-- The names bound by `let` and by assignments, in the order of the text. -/
  binds : List String := []
  /-- Those bound by `let`. -/
  lets : List String := []
deriving DecidableEq, Repr, Inhabited

namespace Mentions

instance : Append Mentions where
  append a b := ⟨a.uses ++ b.uses, a.captured ++ b.captured, a.binds ++ b.binds, a.lets ++ b.lets⟩

variable (a b : Mentions)

@[simp] lemma uses_append : (a ++ b).uses = a.uses ++ b.uses := rfl

@[simp] lemma captured_append : (a ++ b).captured = a.captured ++ b.captured := rfl

@[simp] lemma binds_append : (a ++ b).binds = a.binds ++ b.binds := rfl

@[simp] lemma lets_append : (a ++ b).lets = a.lets ++ b.lets := rfl

/-- What a function with this inside mentions: the names that it does not bind itself. -/
def ofFunction (name : Option String) (params : List String) (inside : Mentions) : Mentions :=
  let free := inside.uses.filter fun n => !(name.toList ++ params ++ inside.binds).contains n
  { uses := free, captured := free }

end Mentions

mutual

/-- The names that an expression mentions. -/
def Expr.mentions : Expr → Mentions
  | .ident name => { uses := [name] }
  | .array items => Expr.mentionsAll items
  | .hash pairs => Expr.mentionsPairs pairs
  | .function name params body => (Stmt.mentionsAll body).ofFunction name params
  | .unary _ right => right.mentions
  | .binary _ left right => left.mentions ++ right.mentions
  | .index left index => left.mentions ++ index.mentions
  | .cond condition yes none => condition.mentions ++ Stmt.mentionsAll yes
  | .cond condition yes (some no) =>
    condition.mentions ++ Stmt.mentionsAll yes ++ Stmt.mentionsAll no
  | .call callee args => callee.mentions ++ Expr.mentionsAll args
  | _ => {}
termination_by structural e => e

/-- The names that a statement mentions. -/
def Stmt.mentions : Stmt → Mentions
  | .define name value => { binds := [name], lets := [name] } ++ value.mentions
  | .assign (.ident name) value => { binds := [name] } ++ value.mentions
  | .assign (.index left index) value => left.mentions ++ index.mentions ++ value.mentions
  | .assign _ value => value.mentions
  | .ret value => value.mentions
  | .expr e => e.mentions
  | .block body => Stmt.mentionsAll body
termination_by structural s => s

def Expr.mentionsAll : List Expr → Mentions
  | [] => {}
  | e :: es => e.mentions ++ Expr.mentionsAll es
termination_by structural es => es

def Expr.mentionsPairs : List (Expr × Expr) → Mentions
  | [] => {}
  | (k, v) :: ps => k.mentions ++ v.mentions ++ Expr.mentionsPairs ps
termination_by structural ps => ps

def Stmt.mentionsAll : List Stmt → Mentions
  | [] => {}
  | s :: ss => s.mentions ++ Stmt.mentionsAll ss
termination_by structural ss => ss

end

mutual

/-- Whether all expressions and statements in an expression pass, itself included. -/
def Expr.every (p : Expr → Bool) (q : Stmt → Bool) : Expr → Bool
  | .array items => p (.array items) && Expr.everyOf p q items
  | .hash pairs => p (.hash pairs) && Expr.everyPair p q pairs
  | .function name params body => p (.function name params body) && Stmt.everyOf p q body
  | .unary op right => p (.unary op right) && right.every p q
  | .binary op left right => p (.binary op left right) && left.every p q && right.every p q
  | .index left index => p (.index left index) && left.every p q && index.every p q
  | .cond condition yes none =>
    p (.cond condition yes none) && condition.every p q && Stmt.everyOf p q yes
  | .cond condition yes (some no) =>
    p (.cond condition yes (some no)) && condition.every p q && Stmt.everyOf p q yes &&
      Stmt.everyOf p q no
  | .call callee args => p (.call callee args) && callee.every p q && Expr.everyOf p q args
  | e => p e
termination_by structural e => e

/-- Whether all expressions and statements in a statement pass, itself included. -/
def Stmt.every (p : Expr → Bool) (q : Stmt → Bool) : Stmt → Bool
  | .define name value => q (.define name value) && value.every p q
  | .assign target value => q (.assign target value) && target.every p q && value.every p q
  | .ret value => q (.ret value) && value.every p q
  | .expr e => q (.expr e) && e.every p q
  | .block body => q (.block body) && Stmt.everyOf p q body
termination_by structural s => s

def Expr.everyOf (p : Expr → Bool) (q : Stmt → Bool) : List Expr → Bool
  | [] => true
  | e :: es => e.every p q && Expr.everyOf p q es
termination_by structural es => es

def Expr.everyPair (p : Expr → Bool) (q : Stmt → Bool) : List (Expr × Expr) → Bool
  | [] => true
  | (k, v) :: ps => k.every p q && v.every p q && Expr.everyPair p q ps
termination_by structural ps => ps

def Stmt.everyOf (p : Expr → Bool) (q : Stmt → Bool) : List Stmt → Bool
  | [] => true
  | s :: ss => s.every p q && Stmt.everyOf p q ss
termination_by structural ss => ss

end

/-! ## Scopes in order -/

namespace Stmt

/-- The name that a statement binds once it is done. -/
def target? : Stmt → Option String
  | .define name _ => some name
  | .assign (.ident name) _ => some name
  | _ => none

/-- The name that a statement binds by `let`. -/
def let? : Stmt → Option String
  | .define name _ => some name
  | _ => none

/-- The statement, which stands directly in a scope that binds the names `bound`, may come where
`known` are bound so far: it uses a name of the scope only if it is known, its conditionals bind
known names or the one that the statement binds itself, and it has no `let` but one of its own for a
new name. -/
structure InOrder (bound known : List String) (s : Stmt) : Prop where
  uses : ∀ n ∈ s.mentions.uses, n ∈ bound → n ∈ known
  binds : ∀ n ∈ s.mentions.binds, s.target? = some n ∨ n ∈ known
  lets : s.mentions.lets = s.let?.toList
  first : ∀ n ∈ s.let?.toList, n ∉ known

instance (bound known : List String) (s : Stmt) : Decidable (s.InOrder bound known) :=
  decidable_of_iff
    ((∀ n ∈ s.mentions.uses, n ∈ bound → n ∈ known) ∧
      (∀ n ∈ s.mentions.binds, s.target? = some n ∨ n ∈ known) ∧
      s.mentions.lets = s.let?.toList ∧ ∀ n ∈ s.let?.toList, n ∉ known)
    ⟨fun ⟨h₁, h₂, h₃, h₄⟩ => ⟨h₁, h₂, h₃, h₄⟩, fun ⟨h₁, h₂, h₃, h₄⟩ => ⟨h₁, h₂, h₃, h₄⟩⟩

end Stmt

/-- The names that are known after statements. -/
def knownAfter (known : List String) : List Stmt → List String
  | [] => known
  | s :: ss => knownAfter (s.target?.toList ++ known) ss

/-- Each of the statements of a scope comes where it may. -/
def InOrder (bound : List String) : (known : List String) → List Stmt → Prop
  | _, [] => True
  | known, s :: ss => s.InOrder bound known ∧ InOrder bound (s.target?.toList ++ known) ss

instance decidableInOrder (bound : List String) :
    (known : List String) → (ss : List Stmt) → Decidable (InOrder bound known ss)
  | _, [] => .isTrue trivial
  | known, s :: ss =>
    haveI := decidableInOrder bound (s.target?.toList ++ known) ss
    inferInstanceAs
      (Decidable (s.InOrder bound known ∧ InOrder bound (s.target?.toList ++ known) ss))

/-- The names that a function binds: its own name, its parameters, and those of its statements. -/
def boundNames (name : Option String) (params : List String) (body : List Stmt) : List String :=
  name.toList ++ params ++ (Stmt.mentionsAll body).binds

/-- A function whose scope is in order.  Its parameters are distinct and its own name is not bound
again by its statements, nor is any name that occurs in a function inside it. -/
structure Disciplined (name : Option String) (params : List String) (body : List Stmt) : Prop where
  order : InOrder (boundNames name params body) (name.toList ++ params) body
  distinct : params.Nodup
  own : ∀ n ∈ name.toList, n ∉ (Stmt.mentionsAll body).binds
  captured : ∀ n ∈ (Stmt.mentionsAll body).captured,
    (params ++ (Stmt.mentionsAll body).binds).count n ≤ 1

instance (name : Option String) (params : List String) (body : List Stmt) :
    Decidable (Disciplined name params body) :=
  decidable_of_iff
    (InOrder (boundNames name params body) (name.toList ++ params) body ∧ params.Nodup ∧
      (∀ n ∈ name.toList, n ∉ (Stmt.mentionsAll body).binds) ∧
      ∀ n ∈ (Stmt.mentionsAll body).captured, (params ++ (Stmt.mentionsAll body).binds).count n ≤ 1)
    ⟨fun ⟨h₁, h₂, h₃, h₄⟩ => ⟨h₁, h₂, h₃, h₄⟩, fun ⟨h₁, h₂, h₃, h₄⟩ => ⟨h₁, h₂, h₃, h₄⟩⟩

/-- Whether the expression, if it is a function, has a scope in order. -/
def Expr.isDisciplined : Expr → Bool
  | .function name params body => decide (Disciplined name params body)
  | _ => true

/-- Whether the statement is no block. -/
def Stmt.isPlain : Stmt → Bool
  | .block _ => false
  | _ => true

/-- All functions in the statements have their scopes in order, and there are no blocks. -/
abbrev Stmt.scopesInOrder (ss : List Stmt) : Bool :=
  Stmt.everyOf Expr.isDisciplined Stmt.isPlain ss

/-- A program without blocks, each scope of which is in order.  At the top level names may be bound
again even if functions use them. -/
structure Program.Disciplined (p : Program) : Prop where
  order : InOrder (Stmt.mentionsAll p).binds [] p
  scopes : Stmt.scopesInOrder p = true

instance (p : Program) : Decidable p.Disciplined :=
  decidable_of_iff (InOrder (Stmt.mentionsAll p).binds [] p ∧ Stmt.scopesInOrder p = true)
    ⟨fun ⟨h₁, h₂⟩ => ⟨h₁, h₂⟩, fun ⟨h₁, h₂⟩ => ⟨h₁, h₂⟩⟩

end Marmoset
