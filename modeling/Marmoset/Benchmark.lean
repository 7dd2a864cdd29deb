import Marmoset.CommandLine.Options
import Marmoset.Compiler
import Marmoset.Evaluator
import Marmoset.Machine.Step
import Marmoset.Tree.Parser

/-!
# The benchmark

A doubly recursive function that an engine can be timed with.
-/

namespace Marmoset

namespace Benchmark

/-- The program that finds a Fibonacci number the slow way. -/
def source (n : Nat) : String :=
  "\nlet fib = fn(x) \x7b\n    if (x == 0) \x7b\n        0\n    \x7d else \x7b\n" ++
    "        if (x == 1) \x7b\n            1\n        \x7d else \x7b\n" ++
    "            fib(x - 1) + fib(x - 2)\n        \x7d\n    \x7d\n\x7d;\nfib(" ++
    toString n ++ ")\n"

/-- Runs the program on the machine, if there can be one and it does not break off. -/
def runCompiled (p : Program) (limits : Limits) : Option (Except String String) :=
  if !limits.areFeasible then none
  else
    match p.compile with
    | .error e => some (.error ("compiler error: " ++ e.message))
    | .ok b =>
      match (Machine.load b #[] limits Builtin.table .empty).run limits.steps with
      | .done m => some (.ok (m.store.textOf m.lastPopped))
      | .fault f _ => some (.error ("vm error: " ++ f.message))
      | .crash _ => none
      | .next _ => some (.error "vm error: step limit reached")

/-- Runs the program on the evaluator. -/
def runEvaluated (p : Program) (limits : Limits) : Except String String :=
  match (Evaluator.ofStore .empty limits.maxFrames).run p with
  | (.ok v, e) => .ok (e.store.textOf v)
  | (.error f, _) => .error ("eval error: " ++ f.message)

/-- Runs the program and gives the text of its value, or says what went wrong.  There is nothing to
say if there can be no machine, or if it breaks off. -/
def run (n : Nat) (engine : Engine) (limits : Limits) : Option (Except String String) :=
  match Program.ofText (source n), engine with
  | .error e, _ => some (.error e.text)
  | .ok p, .vm => runCompiled p limits
  | .ok p, .eval => some (runEvaluated p limits)

/-- The line that reports a run. -/
def report (engine : Engine) (result elapsed : String) : String :=
  "engine=" ++ engine.name ++ ", result=" ++ result ++ ", duration=" ++ elapsed ++ "\n"

/-- A number of `unit`s with the part behind the point, of which `whole` make one unit.  Zeros at
the end are left out. -/
def units (n whole width : Nat) (unit : String) : String :=
  let digits := (toString (n % whole)).toList
  let padded := List.replicate (width - digits.length) '0' ++ digits
  let kept := (padded.reverse.dropWhile (· == '0')).reverse
  toString (n / whole) ++ (if kept.isEmpty then "" else "." ++ String.ofList kept) ++ unit

/-- A time in nanoseconds, in the largest unit of which it has at least one. -/
def elapsedText (nanos : Nat) : String :=
  if 1000000000 ≤ nanos then units nanos 1000000000 9 "s"
  else if 1000000 ≤ nanos then units nanos 1000000 6 "ms"
  else if 1000 ≤ nanos then units nanos 1000 3 "µs"
  else toString nanos ++ "ns"

end Benchmark

end Marmoset
