import Marmoset.Double
import Marmoset.Instruction.Encoding

/-!
# Bytecode

A compiled program is a stream of instructions and the pool of constants that it and all its
functions refer to.  The instructions of a function are a stream of their own.
-/

namespace Marmoset

/-- A stream of encoded instructions. -/
abbrev Code := Array UInt8

namespace Code

/-- Appends the bytes of an instruction. -/
def append (code : Code) (bytes : List UInt8) : Code :=
  bytes.foldl Array.push code

/-- Puts bytes in the place of those from `position` on. -/
def overwrite (code : Code) (position : Nat) : List UInt8 → Code
  | [] => code
  | b :: bytes => overwrite (code.setIfInBounds position b) (position + 1) bytes

/-- Keeps at most the first `length` bytes. -/
def truncate (code : Code) (length : Nat) : Code :=
  code.shrink length

end Code

/-- A number of things as a machine word; what is beyond all words counts as the greatest. -/
def wordCount (n : Nat) : UInt64 :=
  .ofNatClamp n

/-- The body of a function.  Its parameters are the first of its locals. -/
structure CompiledFunction where
  code : Code
  locals : UInt64
  params : UInt64
deriving DecidableEq, Repr, Inhabited

/-- An entry of the pool. -/
inductive Constant where
  | integer (n : Int64)
  | float (x : Double)
  | string (s : String)
  | function (f : CompiledFunction)
deriving DecidableEq, Repr, Inhabited

/-- A compiled program. -/
structure Bytecode where
  code : Code
  constants : Array Constant
deriving DecidableEq, Repr, Inhabited

end Marmoset
