import Marmoset.Bytecode

/-!
# Code under construction

A buffer holds the instructions of one function, or of the top level, while they are written.  It
remembers its last two instructions: whether a block ends in the value of an expression is seen from
a `pop` at the end of its code, which is then taken back.
-/

namespace Marmoset

/-- An instruction that was written, and where. -/
structure Emitted where
  op : Opcode
  position : Nat
deriving DecidableEq, Repr, Inhabited

/-- Instructions under construction. -/
structure Buffer where
  code : Code
  last : Option Emitted
  previous : Option Emitted
deriving DecidableEq, Repr, Inhabited

namespace Buffer

def empty : Buffer := ⟨#[], none, none⟩

/-- Writes an instruction at the end. -/
def emit (b : Buffer) (op : Opcode) (operands : List Nat) : Buffer :=
  let position := b.code.size
  let previous := b.last
  { code := b.code.append (Instruction.encode op operands), last := some ⟨op, position⟩, previous }

/-- Writes an instruction over another one of the same length. -/
def patch (b : Buffer) (position : Nat) (op : Opcode) (operands : List Nat) : Buffer :=
  { b with code := b.code.overwrite position (Instruction.encode op operands) }

/-- Whether the last instruction has this opcode. -/
def endsWith (b : Buffer) (op : Opcode) : Bool :=
  match b.last with
  | some e => e.op == op
  | none => false

/-- Takes the last instruction back. -/
def dropLast (b : Buffer) : Buffer :=
  match b.last with
  | some e =>
    let previous := b.previous
    { code := b.code.truncate e.position, last := previous, previous := none }
  | none => b

/-- Puts `returnValue` in the place of the last instruction, which is as long. -/
def returnLast (b : Buffer) : Buffer :=
  match b.last with
  | some e => { b.patch e.position .returnValue [] with last := some ⟨.returnValue, e.position⟩ }
  | none => b

end Buffer

end Marmoset
