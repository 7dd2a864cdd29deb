import Marmoset.Builtin.Call
import Marmoset.Machine
import Marmoset.Value.Operators

/-!
# Instructions and runs

`Machine.step` takes one instruction, or goes back to the caller where the code of a call ends; a
run is a number of steps.
-/

namespace Marmoset

namespace Constant

/-- The value of a constant; `id` is its identity if it is a function. -/
def toValue (id : Nat) : Constant → Value
  | integer n => .integer n
  | float x => .float x
  | string s => .string s
  | function f => .compiled id f

/-- The text of a constant that is no function. -/
def text : Constant → String
  | integer n => toString n.toInt
  | float x => x.text
  | string s => s
  | function _ => ""

end Constant

namespace Machine

/-- Pushes a constant. -/
def loadConstant (m : Machine) (index : Nat) : Step :=
  match m.constants[index]? with
  | some k => m.push (k.toValue (m.firstIdentity + index))
  | none => .fault (.undefinedConstant index) m

/-- Makes an array of the top values. -/
def makeArray (m : Machine) (n : Nat) : Step :=
  if m.sp < n then .fault .stackUnderflow m
  else
    let items := m.top n
    let sp := m.sp - n
    let (v, store) := m.store.newArray items
    { m with sp, store }.push v

/-- Makes a hash of the top keys and values. -/
def makeHash (m : Machine) (n : Nat) : Step :=
  if m.sp < n then .fault .stackUnderflow m
  else
    match m.store.buildHash (m.top n).toList with
    | .error f => .fault f m
    | .ok (v, store) =>
      let sp := m.sp - n
      { m with sp, store }.push v

/-- Makes a closure of a function constant and the top values. -/
def makeClosure (m : Machine) (index n : Nat) : Step :=
  match m.constants[index]? with
  | none => .fault (.undefinedConstant index) m
  | some (.function fn) =>
    if m.sp < n then .fault .stackUnderflow m
    else
      let free := m.top n
      let sp := m.sp - n
      let (v, store) := m.store.newClosure ⟨fn, free⟩
      { m with sp, store }.push v
  | some k => .fault (.notAFunction k.text) m

/-- Calls what lies under the arguments. -/
def call (m : Machine) (args : Nat) : Step :=
  if m.sp < args + 1 then .fault .stackUnderflow m
  else
    match m.stack.getD (m.sp - (args + 1)) .nil with
    | .closure ref =>
      match m.store.closures[ref]? with
      | some c => m.callClosure ref c args
      | none => .fault (.notCallable .closure) m
    | .builtin b =>
      let sp := m.sp - (args + 1)
      let (v, store) := b.call m.store (m.top args).toList
      { m with sp, store }.push v
    | v => .fault (.notCallable v.kind) m

/-- Pops two operands and pushes what the operator makes of them. -/
def binary (m : Machine) (op : Opcode) : Step :=
  let (right, m) := m.pop
  let (left, m) := m.pop
  m.pushResult (Value.binary op left right)

/-- Pops an operand and pushes what the operator makes of it. -/
def unary (m : Machine) (op : Opcode) : Step :=
  let (v, m) := m.pop
  m.pushResult (Value.unary op v)

/-- Pops a value, an index and a container, and stores the value. -/
def setIndex (m : Machine) : Step :=
  let (value, m) := m.pop
  let (index, m) := m.pop
  let (left, m) := m.pop
  match m.store.setIndex left index value with
  | .ok store => .next { m with store }
  | .error f => .fault f m

/-- Pops an index and a container, and pushes what is there. -/
def getIndex (m : Machine) : Step :=
  let (index, m) := m.pop
  let (left, m) := m.pop
  let r := m.store.getIndex left index
  m.pushResult r

/-- Pops a value into a slot of the call. -/
def setLocal (m : Machine) (index : Nat) : Step :=
  let slot := m.frame.base + index
  let (v, m) := m.pop
  if slot < m.stack.size then .next { m with stack := m.stack.setIfInBounds slot v }
  else .fault .stackOverflow m

/-- Pushes a slot of the call. -/
def getLocal (m : Machine) (index : Nat) : Step :=
  match m.stack[m.frame.base + index]? with
  | some v => m.push v
  | none => .fault .stackOverflow m

/-- Leaves the call with a value; at the top level the run is done. -/
def leave (m : Machine) (v : Value) : Step :=
  match m.callers with
  | [] => .done m
  | caller :: callers => m.returnTo caller callers v

/-- Carries out an instruction.  `a` and `b` are its operands, and the next instruction is already
set. -/
def execute (m : Machine) (op : Opcode) (a b : Nat) : Step :=
  match op with
  | .constant => m.loadConstant a
  | .pop => .next m.pop.2
  | .add | .sub | .mul | .div | .equal | .notEqual | .greater | .greaterEqual | .and | .or =>
    m.binary op
  | .pushTrue => m.push (.boolean true)
  | .pushFalse => m.push (.boolean false)
  | .pushNil => m.push .nil
  | .minus | .bang => m.unary op
  | .jumpNotTruthy =>
    let (v, m) := m.pop
    if v.truthy then .next m else .next (m.jump a)
  | .jump => .next (m.jump a)
  | .setGlobal =>
    let (v, m) := m.pop
    .next (m.setGlobal a v)
  | .getGlobal => m.push (m.getGlobal a)
  | .array => m.makeArray a
  | .hash => m.makeHash a
  | .setIndex => m.setIndex
  | .getIndex => m.getIndex
  | .call => m.call a
  | .returnValue =>
    let (v, m) := m.pop
    m.leave v
  | .returnNil => m.leave .nil
  | .setLocal => m.setLocal a
  | .getLocal => m.getLocal a
  | .getBuiltin =>
    match m.builtins[a]? with
    | some b => m.push (.builtin b)
    | none => .fault (.undefinedBuiltin a) m
  | .closure => m.makeClosure a b
  | .getFree =>
    match m.frame.free[a]? with
    | some v => m.push v
    | none => .fault (.undefinedFree a) m
  | .currentClosure => m.push (.closure m.frame.closure)

/-- The byte at an offset. -/
def byteAt (code : Code) (offset : Nat) : Nat :=
  (code.getD offset 0).toNat

/-- The two bytes at an offset as a number, the high one first. -/
def wordAt (code : Code) (offset : Nat) : Nat :=
  byteAt code offset * 256 + byteAt code (offset + 1)

/-- The first operand of the instruction at an offset. -/
def firstOperand (code : Code) (op : Opcode) (offset : Nat) : Nat :=
  if op.operandBytes = 1 then byteAt code (offset + 1) else wordAt code (offset + 1)

/-- One step. -/
def step (m : Machine) : Step :=
  let code := m.frame.fn.code
  let ip := m.frame.ip
  match code[ip]? with
  | none => m.leave .nil
  | some byte =>
    match Opcode.ofByte? byte with
    | none => .fault (.undefinedOpcode byte ip) m
    | some op =>
      if code.size < ip + 1 + op.operandBytes then .fault (.truncatedInstruction op ip) m
      else
        let a := firstOperand code op ip
        let b := byteAt code (ip + 3)
        (m.jump (ip + 1 + op.operandBytes)).execute op a b

/-- Takes steps until the machine is done or stops, at most `fuel` of them. -/
def run : (fuel : Nat) → Machine → Step
  | 0, m => .next m
  | fuel + 1, m =>
    match m.step with
    | .next m => run fuel m
    | s => s

/-- A run is as good as two runs, the second of which goes on where the first one is not
finished. -/
theorem run_add (m : Machine) (a b : Nat) :
    m.run (a + b) = match m.run a with
      | .next m' => m'.run b
      | s => s := by
  induction a generalizing m with
  | zero => simp [run]
  | succ a ih =>
    rw [Nat.succ_add]
    simp only [run]
    cases m.step with
    | next m' => exact ih m'
    | done m' => rfl
    | fault f m' => rfl
    | crash m' => rfl

end Machine

end Marmoset
