import Marmoset.Builtin
import Marmoset.Compiler.Buffer
import Marmoset.Operator
import Marmoset.Scope
import Marmoset.Tree

/-!
# From trees to bytecode

The compiler goes over a program once.  It keeps the pool of constants, the symbol table, and a
buffer for each function that is being compiled.  The value of an expression ends up on top of the
machine's stack; a statement leaves the stack as it was.

An error stops the compiler where it stands: what was written to the top level and to the pool
stays, and the functions that were open are given up (`Compiler.compile`).
-/

namespace Marmoset

/-- Why a tree cannot be compiled. -/
inductive CompileError where
  | undefinedVariable (name : String)
  | unknownUnary (op : String)
  | unknownBinary (op : String)
  | invalidTarget (text : String)
  /-- A number of things, an index or an offset that the instruction has no room for. -/
  | operandOverflow (op : Opcode) (operand : Nat)
deriving DecidableEq, Repr, Inhabited

namespace CompileError

def message : CompileError → String
  | undefinedVariable name => "compile error: undefined variable \"" ++ name ++ "\""
  | unknownUnary op => "compile error: unknown unary operator: " ++ op
  | unknownBinary op => "compile error: unknown operator: " ++ op
  | invalidTarget text => "compile error: cannot assign to '" ++ text ++ "'"
  | operandOverflow op n => "compile error: operand " ++ toString n ++ " does not fit " ++ op.label

/-- What the user may do about it. -/
def hint : CompileError → Option String
  | undefinedVariable _ => some "bind the name with 'let' before using it"
  | invalidTarget _ => some "only names and index expressions like 'a[0]' can be assigned"
  | operandOverflow _ _ => some "split the program or function into smaller pieces"
  | unknownUnary _ | unknownBinary _ => none

end CompileError

/-- The state of the compiler. -/
structure Compiler where
  constants : Array Constant
  symbols : SymbolTable
  /-- The buffer of the innermost function. -/
  buffer : Buffer
  /-- The buffers of the functions around it, and of the top level, from the inside out. -/
  outer : List Buffer
deriving Repr, Inhabited

/-- A step of the compiler.  After an error the state is that at the error. -/
abbrev Compile (α : Type) := EStateM CompileError Compiler α

namespace Compiler

/-- A compiler with empty code that goes on with the given names and constants. -/
def ofState (symbols : SymbolTable) (constants : Array Constant) : Compiler :=
  ⟨constants, symbols, .empty, []⟩

/-- The global names that stand for builtins. -/
def builtinSymbols (builtins : List Builtin) : SymbolTable :=
  builtins.zipIdx.foldl (fun t (b, i) => (t.defineBuiltin b.name i).2) .empty

/-- A compiler that knows the given builtins and nothing else. -/
def withBuiltins (builtins : List Builtin) : Compiler :=
  ofState (builtinSymbols builtins) #[]

/-- A compiler that knows all builtins. -/
def fresh : Compiler :=
  withBuiltins Builtin.table

/-- What is compiled so far. -/
def bytecode (c : Compiler) : Bytecode :=
  ⟨c.buffer.code, c.constants⟩

/-- Operand of a jump whose target is not known yet. -/
def placeholder : Nat := 9999

/-- The first operand that does not fit its place. -/
def overflow? (op : Opcode) (operands : List Nat) : Option Nat :=
  ((op.widths.zip operands).find? fun (w, n) => !w.fits n).map Prod.snd

/-- Writes an instruction and gives its position. -/
def emit (op : Opcode) (operands : List Nat) : Compile Nat := fun c =>
  match overflow? op operands with
  | some n => .error (.operandOverflow op n) c
  | none =>
    let position := c.buffer.code.size
    .ok position { c with buffer := c.buffer.emit op operands }

/-- Writes an instruction. -/
def emit_ (op : Opcode) (operands : List Nat) : Compile Unit := do
  let _ ← emit op operands

/-- Lets the jump at `position` go to the end of the code. -/
def land (position : Nat) (op : Opcode) : Compile Unit := fun c =>
  let target := c.buffer.code.size
  match overflow? op [target] with
  | some n => .error (.operandOverflow op n) c
  | none => .ok () { c with buffer := c.buffer.patch position op [target] }

/-- Adds a constant and gives its index.  Equal constants are not shared. -/
def addConstant (k : Constant) : Compile Nat := fun c =>
  let index := c.constants.size
  .ok index { c with constants := c.constants.push k }

/-- Binds a name to a new slot. -/
def define (name : String) : Compile Symbol := fun c =>
  let (symbol, symbols) := c.symbols.define name
  .ok symbol { c with symbols }

/-- What an assignment to `name` stores to: a slot of the current scope, a new one if the name has
none. A name of an enclosing function, a builtin or the function's own name is not overwritten but
hidden. -/
def assignable (name : String) : Compile Symbol := fun c =>
  match c.symbols.findHere? name with
  | some symbol => if symbol.kind.owned then .ok symbol c else define name c
  | none => define name c

/-- What `name` stands for. -/
def resolve (name : String) : Compile Symbol := fun c =>
  match c.symbols.resolve name with
  | some (symbol, symbols) => .ok symbol { c with symbols }
  | none => .error (.undefinedVariable name) c

/-- Pushes what a symbol stands for. -/
def load (symbol : Symbol) : Compile Unit :=
  match symbol.kind with
  | .global => emit_ .getGlobal [symbol.index]
  | .local => emit_ .getLocal [symbol.index]
  | .builtin => emit_ .getBuiltin [symbol.index]
  | .free => emit_ .getFree [symbol.index]
  | .function => emit_ .currentClosure []

/-- Pushes what each symbol stands for. -/
def loadAll : List Symbol → Compile Unit
  | [] => pure ()
  | s :: ss => do
    load s
    loadAll ss

/-- Pops a value into the slot of a symbol. -/
def store (symbol : Symbol) : Compile Unit :=
  match symbol.kind with
  | .global => emit_ .setGlobal [symbol.index]
  | _ => emit_ .setLocal [symbol.index]

/-- Pushes a constant. -/
def literal (k : Constant) : Compile Unit := do
  let index ← addConstant k
  emit_ .constant [index]

/-- Ends a branch, so that it leaves one value: that of its last statement if it is an expression,
and otherwise nil. -/
def endBranch : Compile Unit := fun c =>
  if c.buffer.endsWith .pop then .ok () { c with buffer := c.buffer.dropLast }
  else emit_ .pushNil [] c

/-- Ends the code of a function, so that it returns the value of its last statement if it is an
expression, and otherwise nil. -/
def endFunction : Compile Unit := fun c =>
  let buffer := if c.buffer.endsWith .pop then c.buffer.returnLast else c.buffer
  if buffer.endsWith .returnValue then .ok () { c with buffer }
  else emit_ .returnNil [] { c with buffer }

/-- Enters a function: its own name if it has one, then its parameters. -/
def enterFunction (name : Option String) (params : List String) : Compile Unit := fun c =>
  let inner := c.symbols.enter
  let named := match name with
    | some n => (inner.defineFunctionName n).2
    | none => inner
  .ok () { c with
    symbols := params.foldl (fun t p => (t.define p).2) named
    buffer := .empty
    outer := c.buffer :: c.outer }

/-- Leaves a function and gives its code and what is known of its scope. -/
def leaveFunction : Compile (Code × ScopeSummary) := fun c =>
  let (summary, symbols) := (c.symbols.leave).getD (⟨[], 0⟩, c.symbols)
  match c.outer with
  | b :: outer => .ok (c.buffer.code, summary) { c with symbols, buffer := b, outer }
  | [] => .ok (c.buffer.code, summary) { c with symbols, buffer := .empty }

/-- Compiles a function around the given body, and gives it with the symbols that it captures. -/
def function (name : Option String) (params : List String) (body : Compile Unit) :
    Compile (CompiledFunction × List Symbol) := do
  enterFunction name params
  body
  endFunction
  let (code, summary) ← leaveFunction
  return (⟨code, wordCount summary.definitions, wordCount params.length⟩, summary.free)

/-- Runs the steps one after the other. -/
def sequence : List (String × Compile Unit) → Compile Unit
  | [] => pure ()
  | (_, step) :: rest => do
    step
    sequence rest

end Compiler

open Compiler

mutual

/-- Compiles an expression. -/
def Expr.compile : Expr → Compile Unit
  | .ident name => do
    let symbol ← resolve name
    load symbol
  | .integer n => literal (.integer n)
  | .float x => literal (.float x)
  | .string s => literal (.string s)
  | .boolean true => emit_ .pushTrue []
  | .boolean false => emit_ .pushFalse []
  | .nil => emit_ .pushNil []
  | .array items => do
    Expr.compileAll items
    emit_ .array [items.length]
  | .hash pairs => do
    sequence (byText (Expr.compilePairs pairs))
    emit_ .hash [pairs.length * 2]
  | .function name params body => do
    let (fn, free) ← function name params (Stmt.compileAll body)
    loadAll free
    let index ← addConstant (.function fn)
    emit_ .closure [index, free.length]
  | .unary op right => do
    right.compile
    match Operator.unary? op with
    | some code => emit_ code []
    | none => throw (.unknownUnary op)
  | .binary op left right =>
    match Operator.binary? op with
    | none => throw (.unknownBinary op)
    | some (code, false) => do
      left.compile
      right.compile
      emit_ code []
    | some (code, true) => do
      right.compile
      left.compile
      emit_ code []
  | .index left index => do
    left.compile
    index.compile
    emit_ .getIndex []
  | .cond condition yes none => do
    condition.compile
    let skip ← emit .jumpNotTruthy [placeholder]
    Stmt.compileAll yes
    endBranch
    let done ← emit .jump [placeholder]
    land skip .jumpNotTruthy
    emit_ .pushNil []
    land done .jump
  | .cond condition yes (some no) => do
    condition.compile
    let skip ← emit .jumpNotTruthy [placeholder]
    Stmt.compileAll yes
    endBranch
    let done ← emit .jump [placeholder]
    land skip .jumpNotTruthy
    Stmt.compileAll no
    endBranch
    land done .jump
  | .call callee args => do
    callee.compile
    Expr.compileAll args
    emit_ .call [args.length]
termination_by structural e => e

/-- Compiles a statement. -/
def Stmt.compile : Stmt → Compile Unit
  | .define name value => do
    let symbol ← define name
    value.compile
    store symbol
  | .assign (.ident name) value => do
    let symbol ← assignable name
    value.compile
    store symbol
  | .assign (.index left index) value => do
    left.compile
    index.compile
    value.compile
    emit_ .setIndex []
  | .assign target _ => throw (.invalidTarget target.text)
  | .ret value => do
    value.compile
    emit_ .returnValue []
  | .expr e => do
    e.compile
    emit_ .pop []
  | .block body => Stmt.compileAll body
termination_by structural s => s

/-- Compiles expressions from left to right. -/
def Expr.compileAll : List Expr → Compile Unit
  | [] => pure ()
  | e :: es => do
    e.compile
    Expr.compileAll es
termination_by structural es => es

/-- The text of each key, and the step that compiles the key and the value. -/
def Expr.compilePairs : List (Expr × Expr) → List (String × Compile Unit)
  | [] => []
  | (k, v) :: ps => (k.text, do k.compile; v.compile) :: Expr.compilePairs ps
termination_by structural ps => ps

/-- Compiles statements one after the other. -/
def Stmt.compileAll : List Stmt → Compile Unit
  | [] => pure ()
  | s :: ss => do
    s.compile
    Stmt.compileAll ss
termination_by structural ss => ss

end

namespace Compiler

/-- Gives up all open functions. -/
def abandon (c : Compiler) : Compiler :=
  { c with symbols := c.symbols.resetToGlobal, buffer := c.outer.getLastD c.buffer, outer := [] }

/-- Compiles a program after what is compiled already. -/
def compile (c : Compiler) (p : Program) : Except CompileError Unit × Compiler :=
  match Stmt.compileAll p c with
  | .ok _ c => (.ok (), c)
  | .error e c => (.error e, c.abandon)

end Compiler

/-- The bytecode of a program on its own. -/
def Program.compile (p : Program) : Except CompileError Bytecode :=
  match Compiler.fresh.compile p with
  | (.ok _, c) => .ok c.bytecode
  | (.error e, _) => .error e

end Marmoset
