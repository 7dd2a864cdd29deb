import Marmoset.Machine

/-!
# Options of the command line

An argument is an option, the value of the option before it, or the file to run.  Each option may be
given once; `--name value` and `--name=value` mean the same; after `--` everything is a file.
-/

namespace Marmoset

/-- What runs a program. -/
inductive Engine where
  | vm
  | eval
deriving DecidableEq, Repr, Inhabited

namespace Engine

def name : Engine → String
  | vm => "vm"
  | eval => "eval"

def ofName? (s : String) : Option Engine :=
  if s = "vm" then some vm else if s = "eval" then some eval else none

end Engine

/-- One thing said on the command line. -/
inductive Setting where
  | file (path : String)
  | engine (e : Engine)
  | tokens
  | noColor
  | ast
  | bc
  | emit (path : String)
  | load (path : String)
  | maxFrames (n : Nat)
  | stackSize (n : Nat)
  | bench (n : Nat)
  | verbose
deriving DecidableEq, Repr, Inhabited

/-- All that is said on the command line. -/
structure Options where
  file : Option String
  engine : Engine
  tokens : Bool
  noColor : Bool
  ast : Bool
  bc : Bool
  emit : Option String
  load : Option String
  limits : Limits
  bench : Option Nat
  verbose : Bool
deriving DecidableEq, Repr, Inhabited

namespace Setting

/-- The option that a setting belongs to. -/
def option : Setting → String
  | file _ => "file"
  | engine _ => "engine"
  | tokens => "tokens"
  | noColor => "no-color"
  | ast => "ast"
  | bc => "bc"
  | emit _ => "emit"
  | load _ => "load"
  | maxFrames _ => "max-frames"
  | stackSize _ => "stack-size"
  | bench _ => "bench"
  | verbose => "verbose"

/-! ## Values -/

/-- A number written in decimal digits. -/
def digits? (cs : List Char) : Option Nat :=
  if cs.isEmpty || !cs.all Char.isDigit then none
  else some (cs.foldl (fun n c => n * 10 + (c.toNat - '0'.toNat)) 0)

/-- A number below `bound`, possibly with a plus sign. -/
def number? (bound : Nat) (s : String) : Option Nat :=
  let cs := match s.toList with
    | '+' :: cs => cs
    | cs => cs
  match digits? cs with
  | some n => if n < bound then some n else none
  | none => none

/-- A number below `bound`; zero may have a minus sign. -/
def signedNumber? (bound : Nat) (s : String) : Option Nat :=
  match s.toList with
  | '-' :: cs => if digits? cs = some 0 then some 0 else none
  | _ => number? bound s

/-- A path, which is not empty. -/
def path? (s : String) : Option String :=
  if s.isEmpty then none else some s

/-! ## Options -/

/-- The setting of an option without a value. -/
def ofFlag? (name : String) : Option Setting :=
  [tokens, noColor, ast, bc, verbose].find? fun s => s.option = name

/-- The setting of an option with a value.  The outer option tells whether the name is that of such
an option, the inner one whether the value can be read. -/
def ofValue? (name : String) : Option (String → Option Setting) :=
  if name = "engine" then some fun s => (Engine.ofName? s).map engine
  else if name = "emit" then some fun s => (path? s).map emit
  else if name = "load" then some fun s => (path? s).map load
  else if name = "max-frames" then some fun s => (number? 0x10000000000000000 s).map maxFrames
  else if name = "stack-size" then some fun s => (number? 0x10000000000000000 s).map stackSize
  else if name = "bench" then some fun s => (signedNumber? 0x100000000 s).map bench
  else none

/-- Whether an argument can be the value of the option before it. -/
def isPlain (arg : String) : Bool :=
  match arg.toList with
  | '-' :: _ :: _ => false
  | _ => true

/-- The file that an argument names. -/
def ofFile? (arg : String) : Option Setting :=
  (path? arg).map file

/-- The settings that the arguments make, or nothing if one of them cannot be understood. -/
def ofArgs? : List String → Option (List Setting)
  | [] => some []
  | arg :: rest =>
    match arg.toList with
    | ['-', '-'] => rest.mapM ofFile?
    | ['-', 'v'] => (verbose :: ·) <$> ofArgs? rest
    | '-' :: '-' :: cs =>
      let name := String.ofList (cs.takeWhile (· != '='))
      match ofValue? name, cs.dropWhile (· != '=') with
      | some read, _ :: value => do
        let s ← read (String.ofList value)
        let more ← ofArgs? rest
        return s :: more
      | some read, [] =>
        match rest with
        | [] => none
        | value :: rest =>
          if isPlain value then do
            let s ← read value
            let more ← ofArgs? rest
            return s :: more
          else none
      | none, [] => do
        let s ← ofFlag? name
        let more ← ofArgs? rest
        return s :: more
      | none, _ :: _ => none
    | '-' :: _ :: _ => none
    | _ => do
      let s ← ofFile? arg
      let more ← ofArgs? rest
      return s :: more

end Setting

namespace Options

def standard : Options :=
  { file := none
    engine := .vm
    tokens := false
    noColor := false
    ast := false
    bc := false
    emit := none
    load := none
    limits := Limits.standard
    bench := none
    verbose := false }

def apply (o : Options) : Setting → Options
  | .file path => { o with file := some path }
  | .engine e => { o with engine := e }
  | .tokens => { o with tokens := true }
  | .noColor => { o with noColor := true }
  | .ast => { o with ast := true }
  | .bc => { o with bc := true }
  | .emit path => { o with emit := some path }
  | .load path => { o with load := some path }
  | .maxFrames n => { o with limits := { o.limits with maxFrames := n } }
  | .stackSize n => { o with limits := { o.limits with stackSize := n } }
  | .bench n => { o with bench := some n }
  | .verbose => { o with verbose := true }

/-- Whether what is to be run is given twice. -/
def isAmbiguous (o : Options) : Bool :=
  (o.load.isSome && o.file.isSome) || (o.bench.isSome && (o.file.isSome || o.load.isSome))

/-- The options that the arguments stand for, or nothing if they are misused. -/
def ofArgs? (args : List String) : Option Options :=
  match Setting.ofArgs? args with
  | none => none
  | some settings =>
    let o := settings.foldl apply standard
    if (settings.map Setting.option).Nodup && !o.isAmbiguous then some o else none

end Options

end Marmoset
