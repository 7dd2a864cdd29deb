import Marmoset.Instruction.Opcode

/-!
# Operators as they are spelled

The instruction that carries out an operator of the source.
-/

namespace Marmoset

namespace Operator

/-- The instruction of a binary operator, and whether its operands change places: the machine has no
instruction for "less", so `a < b` becomes `b > a`. -/
def binary? (op : String) : Option (Opcode × Bool) :=
  if op = "+" then some (.add, false)
  else if op = "-" then some (.sub, false)
  else if op = "*" then some (.mul, false)
  else if op = "/" then some (.div, false)
  else if op = "==" then some (.equal, false)
  else if op = "!=" then some (.notEqual, false)
  else if op = ">" then some (.greater, false)
  else if op = ">=" then some (.greaterEqual, false)
  else if op = "<" then some (.greater, true)
  else if op = "<=" then some (.greaterEqual, true)
  else if op = "&&" then some (.and, false)
  else if op = "||" then some (.or, false)
  else none

/-- The instruction of a unary operator. -/
def unary? (op : String) : Option Opcode :=
  if op = "!" then some .bang
  else if op = "-" then some .minus
  else none

end Operator

end Marmoset
