import Marmoset.Text.Classes
import Marmoset.Token

/-!
# Cutting text into tokens

`lex` cuts a text into lexemes and ends them with one `eof`, or reports the first place where no
token can be read.  Its heart is `scan`, which reads the one token that starts with a given
character and says how many of the following characters belong to it; `lexFrom` walks over the text,
calls `scan` at each character that starts a token, and passes over the characters that token owns.
-/

namespace Marmoset

/-- Why no token can be read. -/
inductive LexFault where
  | unknownEscape (c : Char)
  | endInEscape
  | unterminatedString
  | missingHexDigits
  | hexTooLarge (digits : String)
  | integerTooLarge (digits : String)
  | unexpected (c : Char)
deriving DecidableEq, Repr, Inhabited

namespace LexFault

def message : LexFault → String
  | unknownEscape c => "unknown escape sequence: \\" ++ String.singleton c
  | endInEscape => "unexpected EOF in escape sequence"
  | unterminatedString => "unterminated string literal"
  | missingHexDigits => "expected hex digits after 0x"
  | hexTooLarge digits => "invalid hex number: 0x" ++ digits
  | integerTooLarge digits => "invalid integer: " ++ digits
  | unexpected c => "unexpected character: '" ++ String.singleton c ++ "'"

end LexFault

/-- A fault and its place. -/
structure LexError where
  fault : LexFault
  pos : Pos
deriving DecidableEq, Repr, Inhabited

namespace LexError

def message (e : LexError) : String :=
  e.fault.message

def text (e : LexError) : String :=
  e.pos.text ++ ": " ++ e.message

end LexError

namespace Token

/-- Whether a name may start with `c`. -/
def isNameStart (c : Char) : Bool :=
  Text.Alphabetic.contains c || c == '_'

/-- Whether a name may go on with `c`. -/
def isNamePart (c : Char) : Bool :=
  Text.Alphabetic.contains c || Text.Numeric.contains c || c == '_'

def isHexDigit (c : Char) : Bool :=
  c.isDigit || ('a' ≤ c && c ≤ 'f') || ('A' ≤ c && c ≤ 'F')

/-- The value of a digit, decimal or hexadecimal in either case. -/
def digitValue (c : Char) : Nat :=
  if c.isDigit then c.toNat - '0'.toNat
  else if 'a' ≤ c then c.toNat - 'a'.toNat + 10
  else c.toNat - 'A'.toNat + 10

/-- The number that `digits` spell in the given base. -/
def numberOf (base : Nat) (digits : List Char) : Nat :=
  digits.foldl (fun n c => n * base + digitValue c) 0

/-- The greatest integer of the language, plus one: the 63rd power of two. -/
def integerBound : Nat := 0x8000000000000000

/-- What a scan finds: a token and the number of characters it takes after the first one, or a fault
and the number of characters, the first one included, that stand before its place. -/
abbrev Scan := Except (LexFault × Nat) (Token × Nat)

/-- What the character after a backslash stands for. -/
def unescape (c : Char) : Option Char :=
  if c = 'n' then some '\n'
  else if c = 't' then some '\t'
  else if c = 'r' then some '\r'
  else if c = '\\' then some '\\'
  else if c = '"' then some '"'
  else if c = '0' then some '\x00'
  else none

/-- The rest of a string literal.  `acc` holds the characters read so far, last one first, and `n`
is the number of characters taken for them after the opening quote. -/
def scanString (acc : List Char) (n : Nat) : List Char → Scan
  | [] => .error (.unterminatedString, 0)
  | '\\' :: [] => .error (.endInEscape, n + 2)
  | '\\' :: c :: cs =>
    match unescape c with
    | some d => scanString (d :: acc) (n + 2) cs
    | none => .error (.unknownEscape c, n + 2)
  | c :: cs =>
    if c = '"' then .ok (.string (String.ofList acc.reverse), n + 1)
    else scanString (c :: acc) (n + 1) cs

/-- A hexadecimal literal, whose mark `0x` is already read; `cs` follows the mark. -/
def scanHex (cs : List Char) : Scan :=
  let digits := cs.takeWhile isHexDigit
  if digits.isEmpty then .error (.missingHexDigits, 0)
  else if numberOf 16 digits < integerBound then
    .ok (.integer (Int64.ofNat (numberOf 16 digits)), 1 + digits.length)
  else .error (.hexTooLarge (String.ofList digits), 0)

/-- A decimal literal.  A point belongs to it only when a digit follows. -/
def scanDecimal (c : Char) (cs : List Char) : Scan :=
  let whole := cs.takeWhile Char.isDigit
  let fraction :=
    match cs.dropWhile Char.isDigit with
    | '.' :: rest => rest.takeWhile Char.isDigit
    | _ => []
  if fraction.isEmpty then
    if numberOf 10 (c :: whole) < integerBound then
      .ok (.integer (Int64.ofNat (numberOf 10 (c :: whole))), whole.length)
    else .error (.integerTooLarge (String.ofList (c :: whole)), 0)
  else
    .ok (.float (Double.ofDecimal (numberOf 10 (c :: whole ++ fraction)) fraction.length),
      whole.length + 1 + fraction.length)

/-- A number that starts with the digit `c`. -/
def scanNumber (c : Char) (cs : List Char) : Scan :=
  match c, cs with
  | '0', 'x' :: rest => scanHex rest
  | '0', 'X' :: rest => scanHex rest
  | _, _ => scanDecimal c cs

/-- A name or keyword that starts with `c`. -/
def scanWord (c : Char) (cs : List Char) : Token × Nat :=
  let more := cs.takeWhile isNamePart
  let word := String.ofList (c :: more)
  (match Keyword.ofText? word with
    | some k => .keyword k
    | none => .ident word, more.length)

/-- A comment; `cs` follows its first slash. -/
def scanComment (cs : List Char) : Token × Nat :=
  let line := cs.takeWhile (· ≠ '\n')
  (.comment (String.ofList (Text.trim (line.drop 1))), line.length)

/-- The sign that `c` starts, and how many characters of it come after `c`: two characters win over
one. -/
def signAt (c : Char) (next : Option Char) : Option (Sign × Nat) :=
  match c with
  | '=' => if next = some '=' then some (.equal, 1) else some (.assign, 0)
  | '!' => if next = some '=' then some (.notEqual, 1) else some (.bang, 0)
  | '<' => if next = some '=' then some (.lessEqual, 1) else some (.less, 0)
  | '>' => if next = some '=' then some (.greaterEqual, 1) else some (.greater, 0)
  | '&' => if next = some '&' then some (.both, 1) else none
  | '|' => if next = some '|' then some (.either, 1) else none
  | '+' => some (.plus, 0)
  | '-' => some (.minus, 0)
  | '*' => some (.star, 0)
  | '/' => some (.slash, 0)
  | ',' => some (.comma, 0)
  | ';' => some (.semicolon, 0)
  | ':' => some (.colon, 0)
  | '(' => some (.openParen, 0)
  | ')' => some (.closeParen, 0)
  | '\x7b' => some (.openBrace, 0)
  | '\x7d' => some (.closeBrace, 0)
  | '[' => some (.openBracket, 0)
  | ']' => some (.closeBracket, 0)
  | _ => none

/-- The token that starts with `c`, where `cs` follows. -/
def scan (c : Char) (cs : List Char) : Scan :=
  if c = '/' ∧ cs.head? = some '/' then .ok (scanComment cs)
  else if c = '"' then scanString [] 0 cs
  else if c.isDigit then scanNumber c cs
  else if isNameStart c then .ok (scanWord c cs)
  else
    match signAt c cs.head? with
    | some (s, n) => .ok (.sign s, n)
    | none => .error (.unexpected c, 0)

/-- Walks over the text.  `owed` characters still belong to the last token; `acc` holds the lexemes
found, last one first. -/
def lexFrom (acc : List Lexeme) (pos : Pos) (owed : Nat) : List Char → Except LexError (List Lexeme)
  | [] => .ok (⟨.eof, pos⟩ :: acc).reverse
  | c :: cs =>
    match owed with
    | n + 1 => lexFrom acc (pos.advance c) n cs
    | 0 =>
      if Text.isBlank c then lexFrom acc (pos.advance c) 0 cs
      else
        match scan c cs with
        | .ok (t, n) => lexFrom (⟨t, pos⟩ :: acc) (pos.advance c) n cs
        | .error (fault, n) => .error ⟨fault, pos.after ((c :: cs).take n)⟩

end Token

/-- The lexemes of a text, comments included, ending with `eof`. -/
def lex (source : String) : Except LexError (List Lexeme) :=
  Token.lexFrom [] Pos.start 0 source.toList

/-- The lexemes of a text without its comments. -/
def lexClean (source : String) : Except LexError (List Lexeme) :=
  (lex source).map fun ls => ls.filter fun l => !l.token.isComment

end Marmoset
