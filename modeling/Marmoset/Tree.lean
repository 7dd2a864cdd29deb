import Marmoset.Decimal.Text

/-!
# Syntax trees

A program is a list of statements.  Operators are kept as they are spelled: which spellings mean
something is for the compiler and the evaluator to say, and a tree that was not made by the parser
may hold any.

Every tree has a canonical text.  It is what the interpreter shows for a function, and the pairs of
a hash literal are ordered by the text of their keys.
-/

namespace Marmoset

mutual

/-- What has a value. -/
inductive Expr where
  | ident (name : String)
  | integer (n : Int64)
  | float (x : Double)
  | string (s : String)
  | boolean (b : Bool)
  | nil
  | array (items : List Expr)
  /-- The pairs stand in source order. -/
  | hash (pairs : List (Expr × Expr))
  /-- A function that is bound to a name knows that name, so that its body can refer to it. -/
  | function (name : Option String) (params : List String) (body : List Stmt)
  | unary (op : String) (right : Expr)
  | binary (op : String) (left right : Expr)
  | index (left index : Expr)
  | cond (condition : Expr) (yes : List Stmt) (no : Option (List Stmt))
  | call (callee : Expr) (args : List Expr)

/-- What is done for its effect. -/
inductive Stmt where
  /-- `let name = value` binds the name in the current scope. -/
  | define (name : String) (value : Expr)
  /-- `target = value`; only names and index expressions can be assigned. -/
  | assign (target value : Expr)
  | ret (value : Expr)
  | expr (e : Expr)
  | block (body : List Stmt)

end

instance : Inhabited Expr := ⟨.nil⟩

instance : Inhabited Stmt := ⟨.block []⟩

/-- The top-level statements in source order. -/
abbrev Program := List Stmt

/-- The texts joined by commas. -/
def commas (texts : List String) : String :=
  ", ".intercalate texts

mutual

/-- The canonical text of an expression.  Operators are fully parenthesised. -/
def Expr.text : Expr → String
  | .ident name => name
  | .integer n => toString n.toInt
  | .float x => x.text
  | .string s => s
  | .boolean b => if b then "true" else "false"
  | .nil => "nil"
  | .array items => "[" ++ commas (Expr.texts items) ++ "]"
  | .hash pairs => "\x7b" ++ commas (Expr.pairTexts pairs) ++ "\x7d"
  | .function name params body =>
    "fn" ++ (match name with | some n => "<" ++ n ++ ">" | none => "") ++ "(" ++
      commas params ++ ") " ++ String.join (Stmt.texts body)
  | .unary op right => "(" ++ op ++ right.text ++ ")"
  | .binary op left right => "(" ++ left.text ++ " " ++ op ++ " " ++ right.text ++ ")"
  | .index left index => "(" ++ left.text ++ "[" ++ index.text ++ "])"
  | .cond condition yes none => "if" ++ condition.text ++ " " ++ String.join (Stmt.texts yes)
  | .cond condition yes (some no) =>
    "if" ++ condition.text ++ " " ++ String.join (Stmt.texts yes) ++ "else " ++
      String.join (Stmt.texts no)
  | .call callee args => callee.text ++ "(" ++ commas (Expr.texts args) ++ ")"
termination_by structural e => e

/-- The canonical text of a statement.  An expression stands bare, the others end in a semicolon. -/
def Stmt.text : Stmt → String
  | .define name value => "let " ++ name ++ " = " ++ value.text ++ ";"
  | .assign target value => target.text ++ " = " ++ value.text ++ ";"
  | .ret value => "return " ++ value.text ++ ";"
  | .expr e => e.text
  | .block body => String.join (Stmt.texts body)
termination_by structural s => s

def Expr.texts : List Expr → List String
  | [] => []
  | e :: es => e.text :: Expr.texts es
termination_by structural es => es

def Expr.pairTexts : List (Expr × Expr) → List String
  | [] => []
  | (k, v) :: ps => (k.text ++ ":" ++ v.text) :: Expr.pairTexts ps
termination_by structural ps => ps

def Stmt.texts : List Stmt → List String
  | [] => []
  | s :: ss => s.text :: Stmt.texts ss
termination_by structural ss => ss

end

/-- Pairs in the order of their texts; pairs with the same text keep their order.  The pairs of a
hash literal are compiled and evaluated in the order of the texts of their keys. -/
def byText {α : Type} (pairs : List (String × α)) : List (String × α) :=
  pairs.mergeSort fun a b => decide (a.1 ≤ b.1)

/-- The text of a block: its statements one after the other. -/
def Stmt.blockText (body : List Stmt) : String :=
  String.join (Stmt.texts body)

/-- The canonical text of a program. -/
def Program.text (p : Program) : String :=
  Stmt.blockText p

end Marmoset
