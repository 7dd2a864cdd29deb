import Marmoset.Fault
import Marmoset.Store

/-!
# The machine

A stack machine for bytecode.  Its stack has a fixed size and keeps what was popped: the slot at the
stack pointer holds the value popped last.  The locals of a call lie on the stack from its base on,
and what is called lies below them.
-/

namespace Marmoset

/-- How much room a run gets. -/
structure Limits where
  stackSize : Nat
  /-- The number of nested calls, the top level included. -/
  maxFrames : Nat
  /-- The number of instructions after which a run is given up. -/
  steps : Nat
deriving DecidableEq, Repr, Inhabited

namespace Limits

def standard : Limits := ⟨2048, 1024, 0x4000000000000000⟩

/-- Whether there can be a stack of this size: a slot takes 24 bytes, and a block of memory fewer
than the 63rd power of two. -/
def areFeasible (l : Limits) : Bool :=
  l.stackSize * 24 < 0x8000000000000000

end Limits

/-- A call that is going on. -/
structure Frame where
  /-- The place of the closure that was called. -/
  closure : Nat
  fn : CompiledFunction
  free : Array Value
  /-- The offset of the next instruction. -/
  ip : Nat
  /-- The slot of the first local. -/
  base : Nat
deriving DecidableEq, Repr, Inhabited

/-- The state of the machine. -/
structure Machine where
  constants : Array Constant
  /-- The identity of the first constant; the others follow. -/
  firstIdentity : Nat
  builtins : List Builtin
  maxFrames : Nat
  /-- The globals that were set so far; those after them are nil. -/
  globals : Array Value
  /-- The number of globals there are. -/
  globalCount : Nat
  stack : Array Value
  /-- The stack pointer: the number of slots in use. -/
  sp : Nat
  /-- The innermost call. -/
  frame : Frame
  /-- The calls around it, from the inside out. -/
  callers : List Frame
  store : Store
deriving Inhabited

/-- What comes of an instruction: the machine goes on, is done, stops with a fault, or breaks
off. -/
inductive Step where
  | next (m : Machine)
  | done (m : Machine)
  | fault (f : Fault) (m : Machine)
  /-- A sum is no machine word.  This is no fault that could be reported: the machine itself cannot
  go on. -/
  | crash (m : Machine)
deriving Inhabited

namespace Step

/-- The state in which the machine is left. -/
def machine : Step → Machine
  | next m => m
  | done m => m
  | fault _ m => m
  | crash m => m

end Step

namespace Machine

/-- A machine about to run a program. -/
def load (b : Bytecode) (globals : Array Value) (limits : Limits) (builtins : List Builtin)
    (store : Store) : Machine :=
  let main : CompiledFunction := ⟨b.code, 0, 0⟩
  let ref := store.closures.size
  let (first, store) := store.reserve b.constants.size
  { constants := b.constants
    firstIdentity := first
    builtins
    maxFrames := limits.maxFrames
    globals
    -- an operand of two bytes can name every one of the first 65536
    globalCount := max globals.size 65536
    stack := Array.replicate limits.stackSize .nil
    sp := 0
    frame := ⟨ref, main, #[], 0, 0⟩
    callers := []
    store := (store.newClosure ⟨main, #[]⟩).2 }

/-- The value popped last. -/
def lastPopped (m : Machine) : Value :=
  m.stack.getD m.sp .nil

/-- The number of calls going on, the top level included. -/
def frameCount (m : Machine) : Nat :=
  m.callers.length + 1

/-! ## Globals -/

/-- The value of a global. -/
def getGlobal (m : Machine) (index : Nat) : Value :=
  m.globals.getD index .nil

/-- Sets a global.  Those between the last one set before and this one become nil, which they
were. -/
def setGlobal (m : Machine) (index : Nat) (v : Value) : Machine :=
  let missing := index + 1 - m.globals.size
  { m with globals := (m.globals ++ Array.replicate missing Value.nil).setIfInBounds index v }

/-- Setting a global changes that global and no other. -/
@[simp]
theorem getGlobal_setGlobal (m : Machine) (i j : Nat) (v : Value) :
    (m.setGlobal i v).getGlobal j = if i = j then v else m.getGlobal j := by
  simp only [getGlobal, setGlobal, Array.getD_eq_getD_getElem?, Array.getElem?_setIfInBounds,
    Array.size_append, Array.size_replicate, Array.getElem?_append, Array.getElem?_replicate]
  by_cases h : i = j
  · subst h
    have : i < m.globals.size + (i + 1 - m.globals.size) := by omega
    simp [this]
  · by_cases hj : j < m.globals.size
    · simp [h, hj]
    · by_cases hm : j - m.globals.size < i + 1 - m.globals.size <;> simp [h, hj, hm]

/-! ## The stack -/

/-- Pushes a value if there is room. -/
def push (m : Machine) (v : Value) : Step :=
  if m.sp < m.stack.size then
    .next { m with stack := m.stack.setIfInBounds m.sp v, sp := m.sp + 1 }
  else .fault .stackOverflow m

/-- Pops a value.  The stack pointer never goes below the bottom. -/
def pop (m : Machine) : Value × Machine :=
  let sp := m.sp - 1
  (m.stack.getD sp .nil, { m with sp })

/-- The top `n` values, the lowest first. -/
def top (m : Machine) (n : Nat) : Array Value :=
  m.stack.extract (m.sp - n) m.sp

/-- Pushes what an operation gives, or stops with its fault. -/
def pushResult (m : Machine) (r : Except Fault Value) : Step :=
  match r with
  | .ok v => m.push v
  | .error f => .fault f m

/-! ## Calls -/

/-- Sets the offset of the next instruction. -/
def jump (m : Machine) (target : Nat) : Machine :=
  { m with frame := { m.frame with ip := target } }

/-- Goes back to the caller, which finds the value in the place of what it called. -/
def returnTo (m : Machine) (caller : Frame) (callers : List Frame) (v : Value) : Step :=
  let base := m.frame.base
  { m with frame := caller, callers, sp := base - 1 }.push v

/-- Calls the closure under the arguments.  The new stack pointer is found before it is compared
with the size of the stack, and the sum has to be a machine word. -/
def callClosure (m : Machine) (ref : Nat) (c : Closure) (args : Nat) : Step :=
  if c.fn.params.toNat ≠ args then .fault (.wrongArgumentCount c.fn.params.toNat args) m
  else
    let base := m.sp - args
    let sp := base + c.fn.locals.toNat
    if UInt64.size ≤ sp then .crash m
    else if m.stack.size < sp then .fault .stackOverflow m
    else if m.maxFrames ≤ m.frameCount then .fault (.frameOverflow m.maxFrames) m
    else
      let caller := m.frame
      .next { m with frame := ⟨ref, c.fn, c.free, 0, base⟩, callers := caller :: m.callers, sp }

end Machine

end Marmoset
