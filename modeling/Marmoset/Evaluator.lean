import Marmoset.Builtin.Call
import Marmoset.Operator
import Marmoset.Value.Operators

/-!
# The evaluator

Runs a program straight off its tree.  Names live in environments: the top level has one, and every
call makes one inside that of the function.  A function sees later changes of the names around it,
since it keeps its environment and not their values.

Evaluation ends because each function is given the number of calls that may still be nested in it:
inside one call an expression is followed down its tree, and what a call may do is told by
`callFunction` with one call less.
-/

namespace Marmoset

/-- Why the evaluation of a part stops early. -/
inductive Exit where
  | returned (v : Value)
  | fault (f : Fault)
deriving DecidableEq, Repr, Inhabited

/-- A step of the evaluator.  What was stored before an exit stays stored. -/
abbrev Eval (α : Type) := EStateM Exit Store α

namespace Eval

def fail {α : Type} (f : Fault) : Eval α :=
  throw (.fault f)

/-- The value that an operation gives, or its fault. -/
def ofExcept {α : Type} : Except Fault α → Eval α
  | .ok a => pure a
  | .error f => fail f

/-- An operation that makes something new. -/
def alloc {α : Type} (f : Store → α × Store) : Eval α := fun s =>
  let (a, s) := f s
  .ok a s

/-- What a name is bound to; builtins have their names unless these are bound. -/
def lookup (env : Nat) (name : String) : Eval Value := fun s =>
  match s.lookup env name with
  | some v => .ok v s
  | none =>
    match Builtin.ofName? name with
    | some b => .ok (.builtin b) s
    | none => .error (.fault (.undefinedVariable name)) s

/-- Binds a name. -/
def bind (env : Nat) (name : String) (v : Value) : Eval Unit := fun s =>
  .ok () (s.bind env name v)

def getIndex (left index : Value) : Eval Value := fun s =>
  match s.getIndex left index with
  | .ok v => .ok v s
  | .error f => .error (.fault f) s

def setIndex (left index value : Value) : Eval Unit := fun s =>
  match s.setIndex left index value with
  | .ok s => .ok () s
  | .error f => .error (.fault f) s

def buildHash (items : List Value) : Eval Value := fun s =>
  match s.buildHash items with
  | .ok (v, s) => .ok v s
  | .error f => .error (.fault f) s

/-- Evaluates pairs one after the other and gives keys and values by turns. -/
def sequence : List (String × Eval (Value × Value)) → Eval (List Value)
  | [] => pure []
  | (_, pair) :: rest => do
    let (k, v) ← pair
    let items ← sequence rest
    return k :: v :: items

/-- What a call does, given what a call of a function does. -/
def apply (call : Nat → List Value → Eval Value) (callee : Value) (args : List Value) :
    Eval Value :=
  match callee with
  | .function ref => call ref args
  | .builtin b => alloc fun s => b.call s args
  | v => fail (.notCallable v.kind)

end Eval

open Eval

mutual

/-- The value of an expression in an environment. -/
def Expr.eval (call : Nat → List Value → Eval Value) (env : Nat) : Expr → Eval Value
  | .ident name => Eval.lookup env name
  | .integer n => pure (.integer n)
  | .float x => pure (.float x)
  | .string s => pure (.string s)
  | .boolean b => pure (.boolean b)
  | .nil => pure .nil
  | .array items => do
    let vs ← Expr.evalAll call env items
    alloc fun s => s.newArray vs.toArray
  | .hash pairs => do
    let items ← sequence (byText (Expr.evalPairs call env pairs))
    buildHash items
  | .function name params body => alloc fun s => s.newFunction ⟨name, params, body, env⟩
  | .unary op right => do
    let v ← right.eval call env
    match Operator.unary? op with
    | some code => ofExcept (Value.unary code v)
    | none => fail (.unknownOperator op)
  | .binary op left right =>
    match Operator.binary? op with
    | some (code, true) => do
      let r ← right.eval call env
      let l ← left.eval call env
      ofExcept (Value.binary code r l)
    | some (code, false) => do
      let l ← left.eval call env
      let r ← right.eval call env
      ofExcept (Value.binary code l r)
    | none => do
      let _ ← left.eval call env
      let _ ← right.eval call env
      fail (.unknownOperator op)
  | .index left index => do
    let l ← left.eval call env
    let i ← index.eval call env
    getIndex l i
  | .cond condition yes none => do
    let v ← condition.eval call env
    if v.truthy then Stmt.evalAll call env .nil yes else pure .nil
  | .cond condition yes (some no) => do
    let v ← condition.eval call env
    if v.truthy then Stmt.evalAll call env .nil yes else Stmt.evalAll call env .nil no
  | .call callee args => do
    let f ← callee.eval call env
    let vs ← Expr.evalAll call env args
    apply call f vs
termination_by structural e => e

/-- Does a statement.  Only an expression has a value, all else gives nil. -/
def Stmt.eval (call : Nat → List Value → Eval Value) (env : Nat) : Stmt → Eval Value
  | .define name value => do
    let v ← value.eval call env
    Eval.bind env name v
    return .nil
  | .assign (.ident name) value => do
    let v ← value.eval call env
    Eval.bind env name v
    return .nil
  | .assign (.index left index) value => do
    let l ← left.eval call env
    let i ← index.eval call env
    let v ← value.eval call env
    setIndex l i v
    return .nil
  | .assign target _ => fail (.invalidTarget target.text)
  | .ret value => do
    let v ← value.eval call env
    throw (.returned v)
  | .expr e => e.eval call env
  | .block body => Stmt.evalAll call env .nil body
termination_by structural s => s

/-- The values of expressions from left to right. -/
def Expr.evalAll (call : Nat → List Value → Eval Value) (env : Nat) : List Expr → Eval (List Value)
  | [] => pure []
  | e :: es => do
    let v ← e.eval call env
    let vs ← Expr.evalAll call env es
    return v :: vs
termination_by structural es => es

/-- The text of each key, and the step that evaluates the key and the value. -/
def Expr.evalPairs (call : Nat → List Value → Eval Value) (env : Nat) :
    List (Expr × Expr) → List (String × Eval (Value × Value))
  | [] => []
  | (k, v) :: ps =>
    (k.text, do
      let k ← k.eval call env
      let v ← v.eval call env
      return (k, v)) :: Expr.evalPairs call env ps
termination_by structural ps => ps

/-- Does statements one after the other and gives the value of the last one; `last` is that of the
one before. -/
def Stmt.evalAll (call : Nat → List Value → Eval Value) (env : Nat) (last : Value) :
    List Stmt → Eval Value
  | [] => pure last
  | s :: ss => do
    let v ← s.eval call env
    Stmt.evalAll call env v ss
termination_by structural ss => ss

end

namespace Evaluator

/-- The environment of a call: the function's own name if it has one, then its parameters. -/
def enter (s : Store) (ref : Nat) (f : FunctionObject) (args : List Value) : Nat × Store :=
  let (env, s) := s.newEnvironment (some f.environment)
  let s := match f.name with
    | some n => s.bind env n (.function ref)
    | none => s
  (env, (f.params.zip args).foldl (fun s (p, v) => s.bind env p v) s)

/-- A return leaves the function, a fault goes on. -/
def settle : EStateM.Result Exit Store Value → EStateM.Result Exit Store Value
  | .error (.returned v) s => .ok v s
  | r => r

/-- Calls a function in which `left` more calls may be nested, the call itself included. -/
def callFunction (maxFrames : Nat) (left : Nat) (ref : Nat) (args : List Value) :
    Eval Value := fun s =>
  match s.functions[ref]? with
  | none => .error (.fault (.notCallable .function)) s
  | some f =>
    if args.length ≠ f.params.length then
      .error (.fault (.wrongArgumentCount (wordCount f.params.length).toNat args.length)) s
    else
      match left with
      | 0 => .error (.fault (.frameOverflow maxFrames)) s
      | left + 1 =>
        let (env, s) := enter s ref f args
        settle (Stmt.evalAll (callFunction maxFrames left) env .nil f.body s)

/-- Does the statements of a program and gives the value of the last expression among them. -/
def evalTop (call : Nat → List Value → Eval Value) (env : Nat) (last : Value) : Program → Eval Value
  | [] => pure last
  | s :: ss => do
    let v ← s.eval call env
    evalTop call env (match s with | .expr _ => v | _ => last) ss

end Evaluator

/-- An evaluator keeps its top-level names from one program to the next. -/
structure Evaluator where
  store : Store
  /-- The top-level environment. -/
  environment : Nat
  /-- The number of nested calls, the top level included. -/
  maxFrames : Nat
deriving Inhabited

namespace Evaluator

/-- An evaluator without names of its own. -/
def ofStore (s : Store) (maxFrames : Nat) : Evaluator :=
  let (env, s) := s.newEnvironment none
  ⟨s, env, maxFrames⟩

/-- Evaluates a program: the value of a top-level `return`, or of the last expression statement. -/
def run (e : Evaluator) (p : Program) : Except Fault Value × Evaluator :=
  match evalTop (callFunction e.maxFrames (e.maxFrames - 1)) e.environment .nil p e.store with
  | .ok v s => (.ok v, { e with store := s })
  | .error (.returned v) s => (.ok v, { e with store := s })
  | .error (.fault f) s => (.error f, { e with store := s })

end Evaluator

end Marmoset
