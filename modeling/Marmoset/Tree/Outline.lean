import Marmoset.Text.Outline
import Marmoset.Text.Quoted
import Marmoset.Tree

/-!
# Outlines of trees

The outline of a program names every node and every part of it.
-/

namespace Marmoset

open Text (Outline quoted)

namespace TreeOutline

def quotedLeaf (s : String) : Outline :=
  .leaf (quoted s)

/-- An outline of something that may be missing. -/
def optional : Option Outline → Outline
  | none => .leaf "None"
  | some o => .tuple "Some" [o]

/-- The statements of a block. -/
def blockOutline (statements : List Outline) : Outline :=
  .record "BlockStatement" [("statements", .list statements)]

end TreeOutline

open TreeOutline

mutual

def Expr.outline : Expr → Outline
  | .ident name => .tuple "Identifier" [quotedLeaf name]
  | .integer n => .tuple "Integer" [.leaf (toString n.toInt)]
  | .float x => .tuple "Float" [.leaf x.literal]
  | .string s => .tuple "String" [quotedLeaf s]
  | .boolean b => .tuple "Boolean" [.leaf (if b then "true" else "false")]
  | .nil => .leaf "Nil"
  | .array items => .tuple "Array" [.list (Expr.outlines items)]
  | .hash pairs => .tuple "Hash" [.list (Expr.pairOutlines pairs)]
  | .function name params body =>
    .tuple "Function" [.record "FunctionLiteral"
      [("name", optional (name.map quotedLeaf)),
       ("parameters", .list (params.map quotedLeaf)),
       ("body", blockOutline (Stmt.outlines body))]]
  | .unary op right => .record "Prefix" [("operator", quotedLeaf op), ("right", right.outline)]
  | .binary op left right =>
    .record "Infix" [("operator", quotedLeaf op), ("left", left.outline), ("right", right.outline)]
  | .index left index => .record "Index" [("left", left.outline), ("index", index.outline)]
  | .cond condition yes none =>
    .record "If"
      [("condition", condition.outline), ("consequence", blockOutline (Stmt.outlines yes)),
       ("alternative", optional none)]
  | .cond condition yes (some no) =>
    .record "If"
      [("condition", condition.outline), ("consequence", blockOutline (Stmt.outlines yes)),
       ("alternative", optional (some (blockOutline (Stmt.outlines no))))]
  | .call callee args =>
    .record "Call" [("function", callee.outline), ("arguments", .list (Expr.outlines args))]
termination_by structural e => e

def Stmt.outline : Stmt → Outline
  | .define name value => .record "Let" [("name", quotedLeaf name), ("value", value.outline)]
  | .assign target value => .record "Assign" [("target", target.outline), ("value", value.outline)]
  | .ret value => .tuple "Return" [value.outline]
  | .expr e => .tuple "Expression" [e.outline]
  | .block body => .tuple "Block" [blockOutline (Stmt.outlines body)]
termination_by structural s => s

def Expr.outlines : List Expr → List Outline
  | [] => []
  | e :: es => e.outline :: Expr.outlines es
termination_by structural es => es

def Expr.pairOutlines : List (Expr × Expr) → List Outline
  | [] => []
  | (k, v) :: ps => .tuple "" [k.outline, v.outline] :: Expr.pairOutlines ps
termination_by structural ps => ps

def Stmt.outlines : List Stmt → List Outline
  | [] => []
  | s :: ss => s.outline :: Stmt.outlines ss
termination_by structural ss => ss

end

/-- The outline of a program. -/
def Program.outline (p : Program) : Outline :=
  .record "Program" [("statements", .list (Stmt.outlines p))]

end Marmoset
