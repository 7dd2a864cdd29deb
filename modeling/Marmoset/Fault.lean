import Marmoset.Bytecode.Listing
import Marmoset.Value

/-!
# Faults

What stops a program while it runs.
-/

namespace Marmoset

/-- How an operator is spelled in the source; other instructions have their name. -/
def Opcode.symbol : Opcode → String
  | .add => "+"
  | .sub => "-"
  | .mul => "*"
  | .div => "/"
  | .equal => "=="
  | .notEqual => "!="
  | .greater => ">"
  | .greaterEqual => ">="
  | .and => "&&"
  | .or => "||"
  | .minus => "-"
  | .bang => "!"
  | op => op.name

/-- Why a run stops. -/
inductive Fault where
  | stackOverflow
  | stackUnderflow
  | frameOverflow (limit : Nat)
  | notCallable (kind : Kind)
  | wrongArgumentCount (wanted got : Nat)
  | unsupportedBinary (op : Opcode) (left right : Kind)
  | unsupportedNegation (kind : Kind)
  | unknownComparison (op : Opcode) (left right : Kind)
  | unusableHashKey (kind : Kind)
  | indexNotSupported (kind : Kind)
  | arrayIndexOutOfRange (index : Int64)
  /-- A closure was to be made of a constant that is no function. -/
  | notAFunction (text : String)
  | undefinedOpcode (byte : UInt8) (offset : Nat)
  | truncatedInstruction (op : Opcode) (offset : Nat)
  | undefinedConstant (index : Nat)
  | undefinedBuiltin (index : Nat)
  | undefinedFree (index : Nat)
  | undefinedVariable (name : String)
  | unknownOperator (op : String)
  | invalidTarget (text : String)
deriving DecidableEq, Repr, Inhabited

namespace Fault

def message : Fault → String
  | stackOverflow => "stack overflow"
  | stackUnderflow => "stack underflow"
  | frameOverflow limit => "frame overflow: more than " ++ toString limit ++ " nested calls"
  | notCallable kind => "calling non-function and non-built-in: type " ++ kind.name
  | wrongArgumentCount wanted got =>
    "wrong number of arguments: want=" ++ toString wanted ++ ", got=" ++ toString got
  | unsupportedBinary op left right =>
    "unsupported types for binary operation " ++ op.symbol ++ ": " ++ left.name ++
      " and " ++ right.name
  | unsupportedNegation kind => "unsupported type for negation: " ++ kind.name
  | unknownComparison op left right =>
    "unknown operator " ++ op.symbol ++ ": " ++ left.name ++ " and " ++ right.name
  | unusableHashKey kind => "unusable as hash key: " ++ kind.name
  | indexNotSupported kind => "index operator not supported: " ++ kind.name
  | arrayIndexOutOfRange index => "array index " ++ toString index.toInt ++ " out of range"
  | notAFunction text => "not a function: " ++ text
  | undefinedOpcode byte offset =>
    "opcode " ++ toString byte.toNat ++ " undefined at " ++ fourDigits offset
  | truncatedInstruction op offset =>
    "truncated operands for " ++ op.name ++ " at " ++ fourDigits offset
  | undefinedConstant index => "constant " ++ toString index ++ " out of range"
  | undefinedBuiltin index => "undefined builtin " ++ toString index
  | undefinedFree index => "free variable " ++ toString index ++ " out of range"
  | undefinedVariable name => "identifier not found: " ++ name
  | unknownOperator op => "unknown operator: " ++ op
  | invalidTarget text => "cannot assign to '" ++ text ++ "'"

end Fault

end Marmoset
