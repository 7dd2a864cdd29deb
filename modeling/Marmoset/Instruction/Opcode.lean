/-!
# Opcodes

The instructions of the machine.  Each has a byte, which is part of the file format, a name in
listings, a label in error messages, and operands of one or two bytes.
-/

namespace Marmoset

/-- An instruction without its operands. -/
inductive Opcode where
  /-- Pushes a constant of the pool. -/
  | constant
  /-- Drops the top of the stack. -/
  | pop
  | add
  | sub
  | mul
  | div
  | pushTrue
  | pushFalse
  | equal
  | notEqual
  | greater
  | greaterEqual
  | and
  | or
  | minus
  | bang
  /-- Pops a condition and jumps unless it holds. -/
  | jumpNotTruthy
  | jump
  | pushNil
  | setGlobal
  | getGlobal
  /-- Builds an array of the top values. -/
  | array
  /-- Builds a hash of the top keys and values. -/
  | hash
  /-- Pops a value, an index and a container, and stores the value. -/
  | setIndex
  | getIndex
  /-- Calls what lies under the arguments. -/
  | call
  /-- Leaves the function with the top of the stack. -/
  | returnValue
  /-- Leaves the function with nil. -/
  | returnNil
  | setLocal
  | getLocal
  /-- Pushes a builtin of the table. -/
  | getBuiltin
  /-- Makes a closure of a function constant and the top values. -/
  | closure
  /-- Pushes a captured value. -/
  | getFree
  /-- Pushes the closure that is running. -/
  | currentClosure
deriving DecidableEq, Repr, Inhabited

/-- The size of an operand: one byte, or two with the high one first. -/
inductive Width where
  | byte
  | word
deriving DecidableEq, Repr, Inhabited

namespace Width

/-- The number of bytes. -/
def bytes : Width → Nat
  | byte => 1
  | word => 2

/-- The greatest operand, plus one. -/
def bound : Width → Nat
  | byte => 256
  | word => 65536

/-- Whether an operand can be written without loss. -/
def fits (w : Width) (n : Nat) : Bool :=
  n < w.bound

end Width

namespace Opcode

/-- All opcodes in the order of their bytes. -/
def all : Array Opcode :=
  #[constant, pop, add, sub, mul, div, pushTrue, pushFalse, equal, notEqual, greater,
    greaterEqual, and, or, minus, bang, jumpNotTruthy, jump, pushNil, setGlobal, getGlobal,
    array, hash, setIndex, getIndex, call, returnValue, returnNil, setLocal, getLocal,
    getBuiltin, closure, getFree, currentClosure]

/-- The byte of an opcode. -/
def toByte : Opcode → UInt8
  | constant => 0
  | pop => 1
  | add => 2
  | sub => 3
  | mul => 4
  | div => 5
  | pushTrue => 6
  | pushFalse => 7
  | equal => 8
  | notEqual => 9
  | greater => 10
  | greaterEqual => 11
  | and => 12
  | or => 13
  | minus => 14
  | bang => 15
  | jumpNotTruthy => 16
  | jump => 17
  | pushNil => 18
  | setGlobal => 19
  | getGlobal => 20
  | array => 21
  | hash => 22
  | setIndex => 23
  | getIndex => 24
  | call => 25
  | returnValue => 26
  | returnNil => 27
  | setLocal => 28
  | getLocal => 29
  | getBuiltin => 30
  | closure => 31
  | getFree => 32
  | currentClosure => 33

/-- The opcode of a byte, if it has one. -/
def ofByte? (b : UInt8) : Option Opcode :=
  all[b.toNat]?

@[simp]
theorem ofByte?_toByte (op : Opcode) : ofByte? op.toByte = some op := by
  cases op <;> rfl

/-- The name in listings. -/
def name : Opcode → String
  | constant => "CONSTANT"
  | pop => "POP"
  | add => "ADD"
  | sub => "SUB"
  | mul => "MUL"
  | div => "DIV"
  | pushTrue => "TRUE"
  | pushFalse => "FALSE"
  | equal => "EQUAL"
  | notEqual => "NOT_EQUAL"
  | greater => "GREATER_THAN"
  | greaterEqual => "GREATER_EQUAL"
  | and => "AND"
  | or => "OR"
  | minus => "MINUS"
  | bang => "BANG"
  | jumpNotTruthy => "JUMP_NOT_TRUTHY"
  | jump => "JUMP"
  | pushNil => "NIL"
  | setGlobal => "SET_GLOBAL"
  | getGlobal => "GET_GLOBAL"
  | array => "ARRAY"
  | hash => "HASH"
  | setIndex => "SET_INDEX"
  | getIndex => "GET_INDEX"
  | call => "CALL"
  | returnValue => "RETURN_VALUE"
  | returnNil => "RETURN"
  | setLocal => "SET_LOCAL"
  | getLocal => "GET_LOCAL"
  | getBuiltin => "GET_BUILTIN"
  | closure => "CLOSURE"
  | getFree => "GET_FREE"
  | currentClosure => "CURRENT_CLOSURE"

/-- The label in error messages. -/
def label : Opcode → String
  | constant => "Constant"
  | pop => "Pop"
  | add => "Add"
  | sub => "Sub"
  | mul => "Mul"
  | div => "Div"
  | pushTrue => "True"
  | pushFalse => "False"
  | equal => "Equal"
  | notEqual => "NotEqual"
  | greater => "GreaterThan"
  | greaterEqual => "GreaterThanOrEqual"
  | and => "And"
  | or => "Or"
  | minus => "Minus"
  | bang => "Bang"
  | jumpNotTruthy => "JumpNotTruthy"
  | jump => "Jump"
  | pushNil => "Nil"
  | setGlobal => "SetGlobal"
  | getGlobal => "GetGlobal"
  | array => "Array"
  | hash => "Hash"
  | setIndex => "SetIndex"
  | getIndex => "GetIndex"
  | call => "Call"
  | returnValue => "ReturnValue"
  | returnNil => "Return"
  | setLocal => "SetLocal"
  | getLocal => "GetLocal"
  | getBuiltin => "GetBuiltin"
  | closure => "Closure"
  | getFree => "GetFree"
  | currentClosure => "CurrentClosure"

/-- The sizes of the operands. -/
def widths : Opcode → List Width
  | constant | jumpNotTruthy | jump | setGlobal | getGlobal | array | hash => [.word]
  | call | setLocal | getLocal | getBuiltin | getFree => [.byte]
  | closure => [.word, .byte]
  | _ => []

/-- The number of bytes after the opcode. -/
def operandBytes : Opcode → Nat
  | constant | jumpNotTruthy | jump | setGlobal | getGlobal | array | hash => 2
  | call | setLocal | getLocal | getBuiltin | getFree => 1
  | closure => 3
  | _ => 0

theorem operandBytes_eq_foldr (op : Opcode) :
    op.operandBytes = op.widths.foldr (fun w n => w.bytes + n) 0 := by
  cases op <;> rfl

end Opcode

end Marmoset
