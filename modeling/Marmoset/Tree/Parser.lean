import Marmoset.Token.Lexer
import Marmoset.Tree

/-!
# From tokens to trees

Statements are told apart by their first token; expressions are read by operator precedence.  A
`Cursor` is what is still ahead.  Every function that reads something says in its type that the
cursor it leaves behind has fewer tokens ahead (`Parsed`), which is why reading ends: a function
calls another one either further on, or at the same place but lower in a fixed order.

Loops carry the number of tokens that were ahead when they began and the items read so far, last one
first.

Reading stops at the first fault (`ParseFailure`), which is reported at the place of the cursor.
-/

namespace Marmoset

/-- Where a name is required. -/
inductive NamePlace where
  | afterLet
  | inParameters
deriving DecidableEq, Repr, Inhabited

/-- Why the tokens are no program. -/
inductive ParseFault where
  | expected (wanted : Sign) (got : Token)
  | expectedName (place : NamePlace) (got : Token)
  | endInBlock
  | endForExpression
  | noExpression (got : Token)
deriving DecidableEq, Repr, Inhabited

namespace ParseFault

def message : ParseFault → String
  | expected wanted got => "expected '" ++ wanted.text ++ "', got '" ++ got.text ++ "'"
  | expectedName .afterLet got => "expected identifier after 'let', got '" ++ got.text ++ "'"
  | expectedName .inParameters got =>
    "expected identifier in parameter list, got '" ++ got.text ++ "'"
  | endInBlock => "unexpected EOF, expected '\x7d'"
  | endForExpression => "unexpected EOF, expected an expression"
  | noExpression got => "unexpected '" ++ got.text ++ "', expected an expression"

end ParseFault

/-- A fault and its place. -/
structure ParseError where
  fault : ParseFault
  pos : Pos
deriving DecidableEq, Repr, Inhabited

namespace ParseError

def message (e : ParseError) : String :=
  e.fault.message

def text (e : ParseError) : String :=
  e.pos.text ++ ": " ++ e.message

end ParseError

/-- The lexemes ahead, and the place of the last one passed. -/
structure Cursor where
  ahead : List Lexeme
  last : Pos
deriving DecidableEq, Repr, Inhabited

/-- The number of tokens ahead. -/
def Cursor.left (c : Cursor) : Nat :=
  c.ahead.length

/-- What was read, and a cursor with fewer than `bound` tokens ahead. -/
structure Parsed (α : Type) (bound : Nat) where
  value : α
  rest : Cursor
  within : rest.left < bound

/-- The first fault, and the cursor at which reading stopped. -/
structure ParseFailure where
  fault : ParseFault
  cursor : Cursor
deriving DecidableEq, Repr, Inhabited

/-- A result of reading, or where it failed. -/
abbrev Parse (α : Type) (bound : Nat) := Except ParseFailure (Parsed α bound)

namespace Cursor

/-- The cursor before the first of `ls`.  Comments are not looked at. -/
def ofLexemes (ls : List Lexeme) : Cursor :=
  ⟨ls.filter fun l => !l.token.isComment, Pos.start⟩

/-- The next token; after the last one it is the end of the text. -/
def peek (c : Cursor) : Token :=
  match c.ahead with
  | [] => .eof
  | l :: _ => l.token

/-- The place of the next token, or of the last one if none is ahead. -/
def place (c : Cursor) : Pos :=
  match c.ahead with
  | [] => c.last
  | l :: _ => l.pos

/-- The cursor after the next token. -/
def next (c : Cursor) : Cursor :=
  match c.ahead with
  | [] => c
  | l :: ls => ⟨ls, l.pos⟩

/-- A failure at this place. -/
def fail (c : Cursor) (fault : ParseFault) : ParseFailure :=
  ⟨fault, c⟩

/-- What is ahead of a cursor: the end, which is either marked or where the tokens run out, or a
token and the cursor after it. -/
inductive Ahead (c : Cursor) where
  | stop
  | token (t : Token) (rest : Cursor) (shorter : rest.left < c.left)

/-- Looks at what is ahead. -/
def look (c : Cursor) : Ahead c :=
  match c with
  | ⟨[], _⟩ => .stop
  | ⟨l :: ls, _⟩ => if l.token = .eof then .stop else .token l.token ⟨ls, l.pos⟩ (by simp [left])

theorem left_next_lt {c : Cursor} (h : c.peek ≠ .eof) : c.next.left < c.left := by
  obtain ⟨ahead, last⟩ := c
  cases ahead with
  | nil => exact absurd rfl h
  | cons l ls => simp [next, left]

theorem left_next_le (c : Cursor) : c.next.left ≤ c.left := by
  obtain ⟨ahead, last⟩ := c
  cases ahead <;> simp [next, left]

/-- Passes the sign `s`, which has to come next. -/
def expect (c : Cursor) (s : Sign) : Parse Unit c.left :=
  if h : c.peek = .sign s then .ok ⟨(), c.next, left_next_lt (by simp [h])⟩
  else .error (c.fail (.expected s c.peek))

/-- Passes a name, which has to come next. -/
def name (c : Cursor) (place : NamePlace) : Parse String c.left :=
  match c.look with
  | .token (.ident n) rest h => .ok ⟨n, rest, h⟩
  | _ => .error (c.fail (.expectedName place c.peek))

/-- Passes a semicolon if one comes next. -/
def skipSemicolon (c : Cursor) : Cursor :=
  if c.peek = .sign .semicolon then c.next else c

theorem left_skipSemicolon_le (c : Cursor) : c.skipSemicolon.left ≤ c.left := by
  unfold skipSemicolon
  split
  · exact left_next_le c
  · exact Nat.le_refl _

end Cursor

/-- The error that is reported. -/
def ParseFailure.error (f : ParseFailure) : ParseError :=
  ⟨f.fault, f.cursor.place⟩

/-- How tightly a sign binds what stands on its left; zero if it joins nothing. -/
def Sign.power : Sign → Nat
  | .either => 1
  | .both => 2
  | .equal | .notEqual => 3
  | .less | .greater | .lessEqual | .greaterEqual => 4
  | .plus | .minus => 5
  | .star | .slash => 6
  | .openParen => 8
  | .openBracket => 9
  | _ => 0

/-- How tightly a sign in front of an expression binds it. -/
def Sign.unaryPower : Nat := 7

/-- Whether a sign can stand in front of an expression as its operator. -/
def Sign.isUnary : Sign → Bool
  | .bang | .minus => true
  | _ => false

/-- The expression that a token is on its own. -/
def Token.atom? : Token → Option Expr
  | .ident name => some (.ident name)
  | .integer n => some (.integer n)
  | .float x => some (.float x)
  | .string s => some (.string s)
  | .keyword .trueWord => some (.boolean true)
  | .keyword .falseWord => some (.boolean false)
  | .keyword .nilWord => some .nil
  | _ => none

/-- The same expression; a function learns the name it is bound to. -/
def Expr.named (name : String) : Expr → Expr
  | .function _ params body => .function (some name) params body
  | e => e

/-- The value of `target = value`: a function that is assigned to a name learns that name. -/
def Expr.assignedTo (target value : Expr) : Expr :=
  match target with
  | .ident name => value.named name
  | _ => value

namespace Parser

open Cursor

/-- A statement ends where it ends, or after one semicolon. -/
def ended {bound : Nat} (s : Stmt) (c : Cursor) (h : c.left < bound) : Parsed Stmt bound :=
  ⟨s, c.skipSemicolon, Nat.lt_of_le_of_lt c.left_skipSemicolon_le h⟩

/-- The names of a parameter list after its opening parenthesis, one at least. -/
def names (acc : List String) (bound : Nat) (c : Cursor) (h : c.left ≤ bound) :
    Parse (List String) bound := do
  let ⟨n, c₁, h₁⟩ ← c.name .inParameters
  have := c₁.left_next_le
  if c₁.peek = .sign .comma then names (n :: acc) bound c₁.next (by omega)
  else
    let ⟨_, c₂, h₂⟩ ← c₁.expect .closeParen
    return ⟨(n :: acc).reverse, c₂, by omega⟩
termination_by c.left

/-- A parameter list after its opening parenthesis. -/
def parameters (c : Cursor) : Parse (List String) c.left :=
  if h : c.peek = .sign .closeParen then .ok ⟨[], c.next, left_next_lt (by simp [h])⟩
  else names [] c.left c (Nat.le_refl _)

mutual

/-- An expression whose operators all bind tighter than `power`. -/
def expression (power : Nat) (c : Cursor) : Parse Expr c.left := do
  let ⟨left, c₁, h₁⟩ ← operand c
  climb power left c.left c₁ h₁
termination_by 4 * c.left + 1

/-- Goes on from an expression as long as a sign follows that binds tighter than `power`. -/
def climb (power : Nat) (left : Expr) (bound : Nat) (c : Cursor) (h : c.left < bound) :
    Parse Expr bound :=
  match c.look with
  | .token (.sign s) rest hr =>
    if s.power ≤ power then .ok ⟨left, c, h⟩
    else
      match s with
      | .openParen => do
        let ⟨args, c₁, h₁⟩ ← list .closeParen rest
        climb power (.call left args) bound c₁ (by omega)
      | .openBracket => do
        let ⟨index, c₁, h₁⟩ ← expression 0 rest
        let ⟨_, c₂, h₂⟩ ← c₁.expect .closeBracket
        climb power (.index left index) bound c₂ (by omega)
      | s => do
        let ⟨right, c₁, h₁⟩ ← expression s.power rest
        climb power (.binary s.text left right) bound c₁ (by omega)
  | _ => .ok ⟨left, c, h⟩
termination_by 4 * c.left

/-- What an expression starts with: a literal, a name, or anything that opens with a token of its
own. -/
def operand (c : Cursor) : Parse Expr c.left :=
  match c.look with
  | .stop => .error (c.fail .endForExpression)
  | .token t rest h =>
    match t.atom?, t with
    | some e, _ => .ok ⟨e, rest, h⟩
    | none, .sign .openParen => do
      let ⟨inner, c₁, h₁⟩ ← expression 0 rest
      let ⟨_, c₂, h₂⟩ ← c₁.expect .closeParen
      return ⟨inner, c₂, by omega⟩
    | none, .sign .openBracket => do
      let ⟨items, c₁, h₁⟩ ← list .closeBracket rest
      return ⟨.array items, c₁, by omega⟩
    | none, .sign .openBrace => do
      let ⟨pairs, c₁, h₁⟩ ← pairs [] c.left rest h
      return ⟨.hash pairs, c₁, h₁⟩
    | none, .sign s =>
      if s.isUnary then do
        let ⟨right, c₁, h₁⟩ ← expression Sign.unaryPower rest
        return ⟨.unary s.text right, c₁, by omega⟩
      else .error (c.fail (.noExpression (.sign s)))
    | none, .keyword .ifWord => do
      let ⟨e, c₁, h₁⟩ ← conditional rest
      return ⟨e, c₁, by omega⟩
    | none, .keyword .fnWord => do
      let ⟨e, c₁, h₁⟩ ← function rest
      return ⟨e, c₁, by omega⟩
    | none, t => .error (c.fail (.noExpression t))
termination_by 4 * c.left

/-- A conditional after its first word. -/
def conditional (c : Cursor) : Parse Expr c.left := do
  let ⟨_, c₁, h₁⟩ ← c.expect .openParen
  let ⟨condition, c₂, h₂⟩ ← expression 0 c₁
  let ⟨_, c₃, h₃⟩ ← c₂.expect .closeParen
  let ⟨yes, c₄, h₄⟩ ← block c₃
  if c₄.peek = .keyword .elseWord then
    have := c₄.left_next_le
    let ⟨no, c₅, h₅⟩ ← block c₄.next
    return ⟨.cond condition yes (some no), c₅, by omega⟩
  else
    return ⟨.cond condition yes none, c₄, by omega⟩
termination_by 4 * c.left + 3

/-- A function after its first word. -/
def function (c : Cursor) : Parse Expr c.left := do
  let ⟨_, c₁, h₁⟩ ← c.expect .openParen
  let ⟨names, c₂, h₂⟩ ← parameters c₁
  let ⟨body, c₃, h₃⟩ ← block c₂
  return ⟨.function none names body, c₃, by omega⟩
termination_by 4 * c.left + 3

/-- Expressions between commas up to and including the sign `close`, after the opening one. -/
def list (close : Sign) (c : Cursor) : Parse (List Expr) c.left :=
  if h : c.peek = .sign close then .ok ⟨[], c.next, left_next_lt (by simp [h])⟩
  else items close [] c.left c (Nat.le_refl _)
termination_by 4 * c.left + 3

/-- The items of a list, one at least. -/
def items (close : Sign) (acc : List Expr) (bound : Nat) (c : Cursor) (h : c.left ≤ bound) :
    Parse (List Expr) bound := do
  let ⟨e, c₁, h₁⟩ ← expression 0 c
  have := c₁.left_next_le
  if c₁.peek = .sign .comma then items close (e :: acc) bound c₁.next (by omega)
  else
    let ⟨_, c₂, h₂⟩ ← c₁.expect close
    return ⟨(e :: acc).reverse, c₂, by omega⟩
termination_by 4 * c.left + 2

/-- The pairs of a hash up to and including its closing brace.  A comma may follow the last pair. -/
def pairs (acc : List (Expr × Expr)) (bound : Nat) (c : Cursor) (h : c.left < bound) :
    Parse (List (Expr × Expr)) bound :=
  if c.peek = .sign .closeBrace then
    .ok ⟨acc.reverse, c.next, Nat.lt_of_le_of_lt c.left_next_le h⟩
  else do
    let ⟨key, c₁, h₁⟩ ← expression 0 c
    let ⟨_, c₂, h₂⟩ ← c₁.expect .colon
    let ⟨value, c₃, h₃⟩ ← expression 0 c₂
    if c₃.peek = .sign .closeBrace then pairs ((key, value) :: acc) bound c₃ (by omega)
    else
      let ⟨_, c₄, h₄⟩ ← c₃.expect .comma
      pairs ((key, value) :: acc) bound c₄ (by omega)
termination_by 4 * c.left + 2

/-- Statements between braces. -/
def block (c : Cursor) : Parse (List Stmt) c.left := do
  let ⟨_, c₁, h₁⟩ ← c.expect .openBrace
  body [] c.left c₁ h₁
termination_by 4 * c.left

/-- The statements of a block up to and including its closing brace. -/
def body (acc : List Stmt) (bound : Nat) (c : Cursor) (h : c.left < bound) :
    Parse (List Stmt) bound :=
  match c.look with
  | .stop => .error (c.fail .endInBlock)
  | .token (.sign .closeBrace) rest hr => .ok ⟨acc.reverse, rest, by omega⟩
  | .token (.sign .semicolon) rest hr => body acc bound rest (by omega)
  | .token _ _ _ => do
    let ⟨s, c₁, h₁⟩ ← statement c
    body (s :: acc) bound c₁ (by omega)
termination_by 4 * c.left + 3

/-- A statement and the semicolon that may end it. -/
def statement (c : Cursor) : Parse Stmt c.left :=
  match c.look with
  | .token (.keyword .letWord) rest hr => do
    let ⟨name, c₁, h₁⟩ ← rest.name .afterLet
    let ⟨_, c₂, h₂⟩ ← c₁.expect .assign
    let ⟨value, c₃, h₃⟩ ← expression 0 c₂
    return ended (.define name (value.named name)) c₃ (by omega)
  | .token (.keyword .returnWord) rest hr => do
    let ⟨value, c₁, h₁⟩ ← expression 0 rest
    return ended (.ret value) c₁ (by omega)
  | _ => do
    let ⟨e, c₁, h₁⟩ ← expression 0 c
    if c₁.peek = .sign .assign then
      have := c₁.left_next_le
      let ⟨value, c₂, h₂⟩ ← expression 0 c₁.next
      return ended (.assign e (e.assignedTo value)) c₂ (by omega)
    else
      return ended (.expr e) c₁ h₁
termination_by 4 * c.left + 2

end

/-- The statements up to the end of the text, which is not passed. -/
def statements (acc : List Stmt) (bound : Nat) (c : Cursor) (h : c.left < bound) :
    Parse Program bound :=
  match c.look with
  | .stop => .ok ⟨acc.reverse, c, h⟩
  | .token (.sign .semicolon) rest hr => statements acc bound rest (by omega)
  | .token _ _ _ => do
    let ⟨s, c₁, h₁⟩ ← statement c
    statements (s :: acc) bound c₁ (by omega)
termination_by c.left

/-- The program that begins with the statements read so far, or the error to report. -/
def program (acc : List Stmt) (c : Cursor) : Except ParseError Program :=
  match statements acc (c.left + 1) c (Nat.lt_succ_self _) with
  | .ok p => .ok p.value
  | .error f => .error f.error

end Parser

/-- The program that the lexemes make up.  They need not end with the end of the text. -/
def Program.ofLexemes (ls : List Lexeme) : Except ParseError Program :=
  Parser.program [] (Cursor.ofLexemes ls)

/-- What stops a text from being a program. -/
inductive SyntaxError where
  | lexer (e : LexError)
  | parser (e : ParseError)
deriving DecidableEq, Repr, Inhabited

namespace SyntaxError

/-- The error at its place, without the stage it comes from. -/
def cause : SyntaxError → String
  | lexer e => e.text
  | parser e => e.text

def text : SyntaxError → String
  | lexer e => "lexer error: " ++ e.text
  | parser e => "parse error: " ++ e.text

end SyntaxError

/-- The program that a text spells. -/
def Program.ofText (source : String) : Except SyntaxError Program :=
  match lex source with
  | .error e => .error (.lexer e)
  | .ok ls =>
    match Program.ofLexemes ls with
    | .error e => .error (.parser e)
    | .ok p => .ok p

end Marmoset
