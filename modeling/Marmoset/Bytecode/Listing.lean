import Marmoset.Bytecode
import Marmoset.Decimal.Text
import Marmoset.Text.Quoted

/-!
# Listings of bytecode

A stream is listed one instruction a line, with its offset and its operands in hexadecimal.  A whole
program is listed with its constants and the streams of its functions; there, the targets of jumps
are marked.
-/

namespace Marmoset

/-- A number with at least four digits. -/
def fourDigits (n : Nat) : String :=
  let digits := Nat.toDigits 10 n
  String.ofList (List.replicate (4 - digits.length) '0' ++ digits)

namespace Instruction.Line

/-- An operand in hexadecimal with capital digits. -/
def operandText (n : Nat) : String :=
  " 0x" ++ String.ofList ((Nat.toDigits 16 n).map Char.toUpper)

def text : Line → String
  | instruction offset op operands =>
    fourDigits offset ++ " " ++ op.name ++ String.join (operands.map operandText) ++ "\n"
  | undefined offset byte =>
    fourDigits offset ++ " ERROR: opcode " ++ toString byte.toNat ++ " undefined\n"
  | truncated offset op => fourDigits offset ++ " ERROR: truncated operands for " ++ op.name ++ "\n"

/-- Where the line may jump to. -/
def target? : Line → Option Nat
  | instruction _ .jump operands => operands.head?
  | instruction _ .jumpNotTruthy operands => operands.head?
  | _ => none

end Instruction.Line

namespace Code

/-- The lines of a stream. -/
def lines (code : Code) : List Instruction.Line :=
  Instruction.decode code.toList

/-- One line per instruction. -/
def text (code : Code) : String :=
  String.join (code.lines.map Instruction.Line.text)

def rule : String :=
  "════════════════════════════════════════\n"

/-- A stream under a heading, with the targets of jumps marked. -/
def listing (name : String) (code : Code) : String :=
  let targets := code.lines.filterMap Instruction.Line.target?
  let marked := fun (line : Instruction.Line) =>
    if targets.contains line.offset then
      "      ┌──────────────────────────────────\n► " ++ line.text
    else "  " ++ line.text
  rule ++ " " ++ name ++ "\n " ++ toString code.size ++ " bytes\n" ++ rule ++
    String.join (code.lines.map marked) ++ "\n"

end Code

namespace Constant

def listing : Constant → String
  | integer n => "INTEGER     " ++ toString n.toInt
  | float x => "FLOAT       " ++ x.text
  | string s => "STRING      " ++ Text.quoted s
  | function f =>
    "FUNCTION    params=" ++ toString f.params.toNat ++ " locals=" ++ toString f.locals.toNat

end Constant

namespace Bytecode

/-- The lines of the pool, and an empty one; nothing if the pool is empty. -/
def poolListing (b : Bytecode) : String :=
  if b.constants.isEmpty then ""
  else
    "constants:\n" ++
      String.join (b.constants.toList.zipIdx.map fun (c, i) =>
        "  [" ++ fourDigits i ++ "] " ++ c.listing ++ "\n") ++ "\n"

/-- The streams of the functions in the pool. -/
def functionListings (b : Bytecode) : List String :=
  b.constants.toList.zipIdx.filterMap fun (c, i) =>
    match c with
    | .function f => some (f.code.listing ("fn[" ++ toString i ++ "]"))
    | _ => none

/-- The whole program: its stream, its pool, and the streams of its functions. -/
def listing (b : Bytecode) : String :=
  "=== BYTECODE PROGRAM ===\n\n" ++ b.code.listing "main" ++ b.poolListing ++
    String.join b.functionListings

end Bytecode

end Marmoset
