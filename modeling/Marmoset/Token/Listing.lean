import Marmoset.Token

/-!
# Token listings

One line per token: its place, its kind in capitals, and the token itself, either as it is spelled
or as an outline that names the token's form.  A line may be coloured for a terminal.
-/

namespace Marmoset

namespace Keyword

/-- The name of the keyword in outlines. -/
def label : Keyword → String
  | fnWord => "Fn"
  | letWord => "Let"
  | trueWord => "True"
  | falseWord => "False"
  | ifWord => "If"
  | elseWord => "Else"
  | returnWord => "Return"
  | nilWord => "Nil"

def all : List Keyword :=
  [fnWord, letWord, trueWord, falseWord, ifWord, elseWord, returnWord, nilWord]

end Keyword

namespace Sign

/-- The name of the sign in outlines. -/
def label : Sign → String
  | assign => "Assign"
  | plus => "Plus"
  | minus => "Minus"
  | star => "Star"
  | slash => "Slash"
  | bang => "Bang"
  | equal => "Eq"
  | notEqual => "NotEq"
  | less => "Lt"
  | greater => "Gt"
  | lessEqual => "LtEq"
  | greaterEqual => "GtEq"
  | both => "And"
  | either => "Or"
  | comma => "Comma"
  | semicolon => "Semicolon"
  | colon => "Colon"
  | openParen => "LParen"
  | closeParen => "RParen"
  | openBrace => "LBrace"
  | closeBrace => "RBrace"
  | openBracket => "LBracket"
  | closeBracket => "RBracket"

def all : List Sign :=
  [assign, plus, minus, star, slash, bang, equal, notEqual, less, greater, lessEqual, greaterEqual,
   both, either, comma, semicolon, colon, openParen, closeParen, openBrace, closeBrace, openBracket,
   closeBracket]

/-- The kind of the sign in listings. -/
def kind : Sign → String
  | openParen | closeParen => "PAREN"
  | openBracket | closeBracket => "BRACKET"
  | openBrace | closeBrace => "BRACE"
  | comma | semicolon | colon => "PUNCT"
  | assign => "ASSIGN"
  | plus | minus | star | slash | bang | both | either => "OP"
  | equal | notEqual | less | lessEqual | greater | greaterEqual => "CMP"

end Sign

namespace Token

/-- The form of a token and what it holds, as outlines write it. -/
def outline : Token → String
  | integer n => "Integer(" ++ toString n.toInt ++ ")"
  | float x => "Float(" ++ x.literal ++ ")"
  | string s => "String(" ++ Text.quoted s ++ ")"
  | ident name => "Ident(" ++ Text.quoted name ++ ")"
  | keyword k => k.label
  | sign s => s.label
  | comment t => "Comment(" ++ Text.quoted t ++ ")"
  | eof => "Eof"

/-- The kind of the token in listings. -/
def kind : Token → String
  | comment _ => "COMMENT"
  | eof => "EOF"
  | integer _ => "INT"
  | float _ => "FLOAT"
  | string _ => "STRING"
  | keyword .trueWord | keyword .falseWord => "BOOL"
  | keyword .nilWord => "NIL"
  | keyword _ => "KEYWORD"
  | ident _ => "IDENT"
  | sign s => s.kind

/-- The number of the terminal colour in which the token is shown: 2 dims, 0 is the usual colour. -/
def colour : Token → String
  | comment _ | eof => "2"
  | string _ => "32"
  | integer _ | float _ => "36"
  | keyword .trueWord | keyword .falseWord | keyword .nilWord => "36"
  | keyword _ => "34"
  | ident _ => "33"
  | sign s =>
    match s.kind with
    | "ASSIGN" | "OP" | "CMP" => "35"
    | _ => "0"

/-- How listings are laid out. -/
structure Listing where
  /-- Lines are coloured for a terminal. -/
  coloured : Bool
  /-- Tokens are shown as outlines and not as they are spelled. -/
  outlined : Bool
deriving DecidableEq, Repr, Inhabited

namespace Listing

/-- A number with at least two digits. -/
def twoDigits (n : Nat) : String :=
  if n < 10 then "0" ++ toString n else toString n

/-- `s` filled with blanks on the right up to eight characters. -/
def column (s : String) : String :=
  s ++ String.ofList (List.replicate (8 - s.length) ' ')

/-- The line of one lexeme. -/
def line (style : Listing) (l : Lexeme) : String :=
  let escape := fun (code : String) => if style.coloured then "\x1b[" ++ code ++ "m" else ""
  "[" ++ twoDigits l.pos.line ++ ":" ++ twoDigits l.pos.col ++ "] " ++ escape l.token.colour ++
    column l.token.kind ++ " " ++ (if style.outlined then l.token.outline else l.token.text) ++
    escape "0" ++ "\n"

/-- The lines of all lexemes. -/
def render (style : Listing) (ls : List Lexeme) : String :=
  String.join (ls.map style.line)

end Listing

end Token

end Marmoset
