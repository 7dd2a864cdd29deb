import Marmoset.Instruction.Opcode

/-!
# Instructions as bytes

`encode` writes one instruction; `decode` walks over a stream of bytes and says what stands where.
The walk passes over a byte that is no opcode and goes on after it, and it ends at an instruction
whose operands are cut off.
-/

namespace Marmoset

namespace Instruction

/-- An operand as bytes, the high one first.  What does not fit is cut off. -/
def encodeOperand : Width → Nat → List UInt8
  | .byte, n => [n.toUInt8]
  | .word, n => [(n / 256).toUInt8, n.toUInt8]

/-- An instruction as bytes.  Operands without a place are left out, and so are places without an
operand. -/
def encode (op : Opcode) (operands : List Nat) : List UInt8 :=
  op.toByte :: (List.zipWith encodeOperand op.widths operands).flatten

/-- Operands of the given sizes at the front of `bytes`, if all are there. -/
def readOperands : List Width → List UInt8 → Option (List Nat)
  | [], _ => some []
  | .byte :: ws, b :: bytes => (readOperands ws bytes).map (b.toNat :: ·)
  | .word :: ws, high :: low :: bytes =>
    (readOperands ws bytes).map ((high.toNat * 256 + low.toNat) :: ·)
  | _ :: _, _ => none

/-- What stands at an offset of a stream. -/
inductive Line where
  | instruction (offset : Nat) (op : Opcode) (operands : List Nat)
  | undefined (offset : Nat) (byte : UInt8)
  | truncated (offset : Nat) (op : Opcode)
deriving DecidableEq, Repr, Inhabited

namespace Line

def offset : Line → Nat
  | instruction n _ _ => n
  | undefined n _ => n
  | truncated n _ => n

end Line

/-- The walk from `offset` on; `owed` bytes still belong to the last instruction. -/
def decodeFrom (offset owed : Nat) : List UInt8 → List Line
  | [] => []
  | b :: bytes =>
    match owed with
    | n + 1 => decodeFrom (offset + 1) n bytes
    | 0 =>
      match Opcode.ofByte? b with
      | none => .undefined offset b :: decodeFrom (offset + 1) 0 bytes
      | some op =>
        match readOperands op.widths bytes with
        | some operands =>
          .instruction offset op operands :: decodeFrom (offset + 1) op.operandBytes bytes
        | none => [.truncated offset op]

/-- The lines of a stream of instructions. -/
def decode (bytes : List UInt8) : List Line :=
  decodeFrom 0 0 bytes

end Instruction

end Marmoset
