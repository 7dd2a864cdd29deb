import Marmoset.Compiler
import Marmoset.Machine.Step
import Marmoset.Tree.Parser

/-!
# Sessions

A session compiles and runs one input after the other.  Each gets a compiler and a machine of its
own; the names, the constants, the globals and the store are handed on, so that an input sees what
those before it defined.  An input that fails leaves the session usable.
-/

namespace Marmoset

/-- Why an input fails. -/
inductive SessionError where
  | source (e : SyntaxError)
  | compile (e : CompileError)
  | fault (f : Fault)
  /-- The machine broke off. -/
  | crashed
  /-- The run was given up after the number of steps it was allowed. -/
  | unfinished
deriving DecidableEq, Repr, Inhabited

namespace SessionError

def message : SessionError → String
  | source e => e.text
  | compile e => e.message
  | fault f => f.message
  | crashed => "attempt to add with overflow"
  | unfinished => "step limit reached"

end SessionError

/-- What is kept between inputs. -/
structure Session where
  symbols : SymbolTable
  constants : Array Constant
  globals : Array Value
  limits : Limits
  store : Store
deriving Inhabited

namespace Session

/-- A session that knows the builtins only. -/
def start (limits : Limits) : Session :=
  { symbols := Compiler.fresh.symbols
    constants := Compiler.fresh.constants
    globals := #[]
    limits
    store := .empty }

/-- Compiles an input after those before it.  What it defines is kept even if it cannot be compiled
to its end. -/
def compile (s : Session) (source : String) : Except SessionError Bytecode × Session :=
  match Program.ofText source with
  | .error e => (.error (.source e), s)
  | .ok p =>
    let (r, c) := (Compiler.ofState s.symbols s.constants).compile p
    let s := { s with symbols := c.symbols, constants := c.constants }
    match r with
    | .ok _ => (.ok c.bytecode, s)
    | .error e => (.error (.compile e), s)

/-- Runs an input and gives the value popped last. -/
def eval (s : Session) (source : String) : Except SessionError Value × Session :=
  match s.compile source with
  | (.error e, s) => (.error e, s)
  | (.ok b, s) =>
    let r := (Machine.load b s.globals s.limits Builtin.table s.store).run s.limits.steps
    let m := r.machine
    let value := m.lastPopped
    let s := { s with globals := m.globals, store := m.store }
    match r with
    | .done _ => (.ok value, s)
    | .fault f _ => (.error (.fault f), s)
    | .crash _ => (.error .crashed, s)
    | .next _ => (.error .unfinished, s)

end Session

end Marmoset
