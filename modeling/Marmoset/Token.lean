import Marmoset.Decimal.Text
import Marmoset.Text.Quoted

/-!
# Tokens

The words of the language: literals, names, keywords, signs, comments, and the end of the text.
Each token has one spelling, `Token.text`, which error messages quote; a lexeme is a token at a
place.
-/

namespace Marmoset

/-- A place in a text.  Lines and columns count from one, columns in characters. -/
structure Pos where
  line : Nat
  col : Nat
deriving DecidableEq, Repr, Inhabited

namespace Pos

/-- The place of the first character. -/
def start : Pos := ⟨1, 1⟩

/-- The place after `c` when `c` stands at `p`. -/
def advance (p : Pos) (c : Char) : Pos :=
  if c = '\n' then ⟨p.line + 1, 1⟩ else ⟨p.line, p.col + 1⟩

/-- The place after the characters `cs` when the first of them stands at `p`. -/
def after (p : Pos) (cs : List Char) : Pos :=
  cs.foldl advance p

def text (p : Pos) : String :=
  toString p.line ++ ":" ++ toString p.col

end Pos

/-- The reserved words. -/
inductive Keyword where
  | fnWord
  | letWord
  | trueWord
  | falseWord
  | ifWord
  | elseWord
  | returnWord
  | nilWord
deriving DecidableEq, Repr, Inhabited

namespace Keyword

def text : Keyword → String
  | fnWord => "fn"
  | letWord => "let"
  | trueWord => "true"
  | falseWord => "false"
  | ifWord => "if"
  | elseWord => "else"
  | returnWord => "return"
  | nilWord => "nil"

/-- The keyword spelled `word`, if there is one. -/
def ofText? (word : String) : Option Keyword :=
  if word = "fn" then some fnWord
  else if word = "let" then some letWord
  else if word = "true" then some trueWord
  else if word = "false" then some falseWord
  else if word = "if" then some ifWord
  else if word = "else" then some elseWord
  else if word = "return" then some returnWord
  else if word = "nil" then some nilWord
  else none

end Keyword

/-- Operators and punctuation. -/
inductive Sign where
  | assign | plus | minus | star | slash | bang
  | equal | notEqual | less | greater | lessEqual | greaterEqual
  | both | either
  | comma | semicolon | colon
  | openParen | closeParen | openBrace | closeBrace | openBracket | closeBracket
deriving DecidableEq, Repr, Inhabited

namespace Sign

def text : Sign → String
  | assign => "="
  | plus => "+"
  | minus => "-"
  | star => "*"
  | slash => "/"
  | bang => "!"
  | equal => "=="
  | notEqual => "!="
  | less => "<"
  | greater => ">"
  | lessEqual => "<="
  | greaterEqual => ">="
  | both => "&&"
  | either => "||"
  | comma => ","
  | semicolon => ";"
  | colon => ":"
  | openParen => "("
  | closeParen => ")"
  | openBrace => "\x7b"
  | closeBrace => "\x7d"
  | openBracket => "["
  | closeBracket => "]"

end Sign

/-- A word of the language.  `eof` is the end of the text. -/
inductive Token where
  | integer (n : Int64)
  | float (x : Double)
  | string (s : String)
  | ident (name : String)
  | keyword (k : Keyword)
  | sign (s : Sign)
  | comment (text : String)
  | eof
deriving DecidableEq, Repr, Inhabited

namespace Token

/-- The spelling of a token; strings stand between quotes as they are. -/
def text : Token → String
  | integer n => toString n.toInt
  | float x => x.text
  | string s => "\"" ++ s ++ "\""
  | ident name => name
  | keyword k => k.text
  | sign s => s.text
  | comment t => "// " ++ t
  | eof => "EOF"

def isComment : Token → Bool
  | comment _ => true
  | _ => false

end Token

/-- A token where it stands. -/
structure Lexeme where
  token : Token
  pos : Pos
deriving DecidableEq, Repr, Inhabited

end Marmoset
