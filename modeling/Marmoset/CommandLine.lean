import Marmoset.Benchmark
import Marmoset.Bytecode.File
import Marmoset.CommandLine.Directory
import Marmoset.Repl
import Marmoset.Token.Listing
import Marmoset.Tree.Outline

/-!
# The command line

What the program does with its arguments, as a function of the files and of the input: what it
prints, the code it exits with and the files it writes.
-/

namespace Marmoset

/-- Why a command fails. -/
structure Failure where
  /-- Lines printed before the message. -/
  notes : List String
  message : String
  cause : Option String
deriving DecidableEq, Repr, Inhabited

namespace Failure

def plain (message : String) : Failure := ⟨[], message, none⟩

/-- The text of the failure.  The lines of the cause are indented. -/
def text (f : Failure) : String :=
  let cause := match f.cause with
    | some c => "\n\nCaused by:\n    " ++ "\n    ".intercalate (c.splitOn "\n")
    | none => ""
  String.join (f.notes.map (· ++ "\n")) ++ "Error: " ++ f.message ++ cause ++ "\n"

end Failure

/-- What comes of a command. -/
structure Outcome where
  exit : UInt8
  stdout : String
  stderr : String
  /-- A file to be written, which can still fail. -/
  emitted : Option (String × List UInt8)
deriving DecidableEq, Repr, Inhabited

namespace Outcome

def success (out : String) : Outcome := ⟨0, out, "", none⟩

def failure (out : String) (f : Failure) : Outcome := ⟨1, out, f.text, none⟩

/-- Arguments that make no sense. -/
def misuse : Outcome := ⟨2, "", "Usage: monkey [OPTIONS] [FILE]\n", none⟩

/-- The program cannot go on. -/
def aborted (out : String) : Outcome := ⟨101, out, "Aborted\n", none⟩

/-- A dialogue, which breaks off at a line that cannot be made out or answered. -/
def dialogue (t : Repl.Transcript) : Outcome :=
  if t.complete then success t.text else aborted t.text

/-- The file could not be written. -/
def writeFailed (path : String) (e : FileFault) : Outcome :=
  failure "" ⟨[], "could not write " ++ path, some e.message⟩

/-- The file could not be read. -/
def readFailed (path : String) (e : FileFault) : Outcome :=
  failure "" ⟨[], "could not read " ++ path, some e.message⟩

end Outcome

/-- What a command is about. -/
inductive Task where
  | benchmark (n : Nat)
  | load (path : String)
  | script (path : String)
  | dialogue
  /-- Something that needs a file is asked for, and there is none. -/
  | noFile
deriving DecidableEq, Repr, Inhabited

namespace Options

def task (o : Options) : Task :=
  match o.bench, o.load, o.file with
  | some n, _, _ => .benchmark n
  | none, some path, _ => .load path
  | none, none, some path => .script path
  | none, none, none =>
    if o.tokens || o.ast || o.bc || o.emit.isSome then .noFile else .dialogue

/-- Runs bytecode. -/
def runBytecode (o : Options) (b : Bytecode) : Outcome :=
  let failed := fun (m : Machine) (reason : String) =>
    Outcome.failure m.store.printed (.plain ("Woops! Executing bytecode failed: " ++ reason))
  if !o.limits.areFeasible then .aborted ""
  else
    match (Machine.load b #[] o.limits Builtin.table .empty).run o.limits.steps with
    | .done m => .success m.store.printed
    | .fault f m => failed m f.message
    | .crash m => .aborted m.store.printed
    | .next m => failed m "step limit reached"

/-- Runs a program on the machine, or shows or writes its bytecode. -/
def runCompiled (o : Options) (p : Program) : Outcome :=
  match p.compile with
  | .error e =>
    .failure "" ⟨e.hint.toList.map ("hint: " ++ ·),
      "Woops! Compilation failed: " ++ e.message, none⟩
  | .ok b =>
    if o.bc then .success b.listing
    else
      match o.emit with
      | some path => { Outcome.success "" with emitted := some (path, b.toBytes) }
      | none => o.runBytecode b

/-- Runs a program on the evaluator. -/
def runEvaluated (o : Options) (p : Program) : Outcome :=
  match (Evaluator.ofStore .empty o.limits.maxFrames).run p with
  | (.ok _, e) => .success e.store.printed
  | (.error f, e) => .failure e.store.printed (.plain ("Woops! Evaluation failed: " ++ f.message))

/-- Shows the tokens of a text. -/
def showTokens (o : Options) (source : String) : Outcome :=
  match lex source with
  | .error e => .failure "" (.plain e.text)
  | .ok ls => .success (Token.Listing.render ⟨!o.noColor, false⟩ ls)

/-- Runs a text, or shows what it consists of. -/
def runSource (o : Options) (source : String) : Outcome :=
  if o.tokens then o.showTokens source
  else
    match Program.ofText source with
    | .error e => .failure "" ⟨[], e.text, some e.cause⟩
    | .ok p =>
      if o.ast then .success ((Program.outline p).text ++ "\n")
      else
        match o.engine with
        | .eval => o.runEvaluated p
        | .vm => o.runCompiled p

/-- Runs the script that the file at `path` holds. -/
def runScript (o : Options) (path : String) (bytes : List UInt8) : Outcome :=
  match String.fromUTF8? ⟨bytes.toArray⟩ with
  | some source => o.runSource source
  | none => .readFailed path .badText

/-- Runs or shows the bytecode that the file at `path` holds. -/
def runLoaded (o : Options) (path : String) (bytes : List UInt8) : Outcome :=
  match Bytecode.ofBytes bytes with
  | .error e => .failure "" (.plain (path ++ " is not valid bytecode: " ++ e.message))
  | .ok b => if o.bc then .success b.listing else o.runBytecode b

/-- The outcome of the benchmark. -/
def benchmarkOutcome (o : Options) (result : Option (Except String String)) (elapsed : String) :
    Outcome :=
  match result with
  | some (.ok text) => .success (Benchmark.report o.engine text elapsed)
  | some (.error message) => .failure "" (.plain message)
  | none => .aborted ""

/-- What options that need a file come to without one. -/
def noFileOutcome : Outcome :=
  .failure "" (.plain "--tokens, --ast, --bc and --emit need a FILE")

/-- Carries out a command on the files of a directory. -/
def run (o : Options) (input elapsed : String) (d : Directory) : Outcome :=
  match o.task with
  | .benchmark n => o.benchmarkOutcome (Benchmark.run n o.engine o.limits) elapsed
  | .load path =>
    match d.read path with
    | .ok bytes => o.runLoaded path bytes
    | .error e => .readFailed path e
  | .script path =>
    match d.read path with
    | .ok bytes => o.runScript path bytes
    | .error e => .readFailed path e
  | .noFile => noFileOutcome
  | .dialogue => .dialogue ((Repl.start o.engine o.limits).transcript input)

end Options

namespace CommandLine

/-- Carries out a command line in a directory.  `elapsed` is the time that a benchmark is said to
have taken. -/
def run (args : List String) (input elapsed : String) (d : Directory) : Outcome × Directory :=
  match Options.ofArgs? args with
  | none => (.misuse, d)
  | some o =>
    let d := d.withInput input
    let r := o.run input elapsed d
    match r.emitted with
    | none => (r, d)
    | some (path, bytes) =>
      match d.write path bytes with
      | .ok d =>
        let (shown, d) := d.takeOutput
        ({ r with stdout := r.stdout ++ shown }, d)
      | .error e => (.writeFailed path e, d)

end CommandLine

end Marmoset
