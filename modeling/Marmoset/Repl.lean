import Marmoset.CommandLine.Options
import Marmoset.Evaluator
import Marmoset.Session
import Marmoset.Text.Classes
import Marmoset.Text.Cluster

/-!
# The dialogue

Each line is a program of its own, and is answered with its value or with what is wrong with it.
The lines share their names.
-/

namespace Marmoset

namespace Store

/-- What was printed, and the store as if nothing had been. -/
def takePrinted (s : Store) : String × Store :=
  (s.printed, { s with printed := "" })

end Store

/-- A dialogue that is going on. -/
structure Repl where
  engine : Engine
  session : Session
  evaluator : Evaluator
deriving Inhabited

namespace Repl

def start (engine : Engine) (limits : Limits) : Repl :=
  ⟨engine, Session.start limits, Evaluator.ofStore .empty limits.maxFrames⟩

/-- What is said before the first line. -/
def banner : String :=
  "This is the Monkey programming language!\nFeel free to type in commands\n"

/-- What a line is answered with by the machine. -/
def sessionText (s : Session) : Except SessionError Value → String
  | .ok v => s.store.textOf v
  | .error (.source e) => e.text
  | .error (.compile e) => "Woops! Compilation failed: " ++ e.message
  | .error e => "Woops! Executing bytecode failed: " ++ e.message

/-- What a line is answered with by the evaluator. -/
def evaluatorText (e : Evaluator) : Except Fault Value → String
  | .ok v => e.store.textOf v
  | .error f => "Woops! Evaluation failed: " ++ f.message

/-- Answers a line by the machine, unless it breaks off. -/
def answerBySession (r : Repl) (line : String) : Option (String × Repl) :=
  match r.session.eval line with
  | (.error .crashed, _) => none
  | (result, s) =>
    let text := sessionText s result
    let (printed, store) := s.store.takePrinted
    some (printed ++ text ++ "\n", { r with session := { s with store } })

/-- Answers a line by the evaluator. -/
def answerByEvaluator (r : Repl) (line : String) : String × Repl :=
  match Program.ofText line with
  | .error e => (e.text ++ "\n", r)
  | .ok p =>
    let (result, e) := r.evaluator.run p
    let text := evaluatorText e result
    let (printed, store) := e.store.takePrinted
    (printed ++ text ++ "\n", { r with evaluator := { e with store } })

/-- Whether a line can be answered at all: a line that compiles needs a machine. -/
def canAnswer (r : Repl) (line : String) : Bool :=
  r.engine = .eval || r.session.limits.areFeasible || !(r.session.compile line).1.isOk

/-- Answers a line, if it can be answered.  The answer is what the program prints, followed by its
value or an error. -/
def answer (r : Repl) (line : String) : Option (String × Repl) :=
  if (Text.trim line.toList).isEmpty then some ("", r)
  else if !r.canAnswer line then none
  else
    match r.engine with
    | .vm => r.answerBySession line
    | .eval => some (r.answerByEvaluator line)

/-- A line as it was typed, without its end and with its backspaces carried out. -/
def typed (line : String) : Option String :=
  let cs := match line.toList.reverse with
    | '\n' :: '\r' :: cs => cs
    | '\n' :: cs => cs
    | cs => cs
  Text.erase (String.ofList cs.reverse)

/-- The lines of a text with their ends.  The last one may have none. -/
def linesFrom (current : List Char) : List Char → List String
  | [] => if current.isEmpty then [] else [String.ofList current.reverse]
  | '\n' :: cs => String.ofList ('\n' :: current).reverse :: linesFrom [] cs
  | c :: cs => linesFrom (c :: current) cs

/-- What is said in a dialogue. -/
structure Transcript where
  text : String
  /-- Whether it went on to the end of the input. -/
  complete : Bool
deriving DecidableEq, Repr, Inhabited

/-- Answers one line after the other, up to one that cannot be made out or answered. -/
def answerAll (r : Repl) : List String → Transcript
  | [] => ⟨"", true⟩
  | line :: lines =>
    match (typed line).bind r.answer with
    | none => ⟨"", false⟩
    | some (text, r) =>
      let rest := answerAll r lines
      { rest with text := text ++ rest.text }

/-- The whole dialogue over a text. -/
def transcript (r : Repl) (input : String) : Transcript :=
  let answers := r.answerAll (linesFrom [] input.toList)
  { answers with text := banner ++ answers.text }

end Repl

end Marmoset
