import Marmoset.CommandLine

/-!
# The program

The command line on real files, with a dialogue that answers each line as it comes.
-/

namespace Marmoset

namespace CommandLine

/-- Why the system refuses a file. -/
def faultOf : IO.Error → FileFault
  | .noFileOrDirectory _ _ _ => .missing
  | .inappropriateType _ code _ => if code = 20 then .notDirectory else .isDirectory
  | .resourceExhausted _ _ _ => .noSpace
  | .invalidArgument _ 36 _ => .nameTooLong
  | e => .other (toString e)

def readFile (path : String) : IO (Except FileFault (List UInt8)) := do
  try
    let bytes ← IO.FS.readBinFile path
    return .ok bytes.toList
  catch e => return .error (faultOf e)

def writeFile (path : String) (bytes : List UInt8) : IO (Except FileFault Unit) := do
  try
    IO.FS.writeBinFile path ⟨bytes.toArray⟩
    return .ok ()
  catch e => return .error (faultOf e)

/-- Prints an outcome and writes its file. -/
def finish (r : Outcome) : IO UInt32 := do
  let r ← match r.emitted with
    | none => pure r
    | some (path, bytes) =>
      match ← writeFile path bytes with
      | .ok _ => pure r
      | .error e => pure (.writeFailed path e)
  IO.print r.stdout
  IO.eprint r.stderr
  return r.exit.toUInt32

/-- Answers lines until the input ends. -/
partial def converse (r : Repl) (input output : IO.FS.Stream) : IO UInt32 := do
  let line ← input.getLine
  if line.isEmpty then return 0
  match (Repl.typed line).bind r.answer with
  | none => finish (.aborted "")
  | some (text, r) =>
    output.putStr text
    output.flush
    converse r input output

/-- Carries out a command. -/
def perform (o : Options) : IO UInt32 := do
  match o.task with
  | .benchmark n =>
    let start ← IO.monoNanosNow
    let result ← IO.lazyPure fun _ => Benchmark.run n o.engine o.limits
    let stop ← IO.monoNanosNow
    finish (o.benchmarkOutcome result (Benchmark.elapsedText (stop - start)))
  | .load path =>
    match ← readFile path with
    | .ok bytes => finish (o.runLoaded path bytes)
    | .error e => finish (.readFailed path e)
  | .script path =>
    match ← readFile path with
    | .ok bytes => finish (o.runScript path bytes)
    | .error e => finish (.readFailed path e)
  | .noFile => finish Options.noFileOutcome
  | .dialogue =>
    let output ← IO.getStdout
    output.putStr Repl.banner
    output.flush
    converse (Repl.start o.engine o.limits) (← IO.getStdin) output

end CommandLine

end Marmoset

def main (args : List String) : IO UInt32 :=
  match Marmoset.Options.ofArgs? args with
  | none => Marmoset.CommandLine.finish .misuse
  | some o => Marmoset.CommandLine.perform o
