import Marmoset.Benchmark
import Marmoset.Bindings
import Marmoset.Builtin
import Marmoset.Builtin.Call
import Marmoset.Bytecode
import Marmoset.Bytecode.File
import Marmoset.Bytecode.Listing
import Marmoset.Bytecode.Varint
import Marmoset.CommandLine
import Marmoset.CommandLine.Directory
import Marmoset.CommandLine.Options
import Marmoset.CommandLine.Path
import Marmoset.Compiler
import Marmoset.Compiler.Buffer
import Marmoset.Decimal.Shortest
import Marmoset.Decimal.Text
import Marmoset.Double
import Marmoset.Evaluator
import Marmoset.Fault
import Marmoset.Instruction.Encoding
import Marmoset.Instruction.Opcode
import Marmoset.Machine
import Marmoset.Machine.Step
import Marmoset.Main
import Marmoset.Operator
import Marmoset.Repl
import Marmoset.Scope
import Marmoset.Session
import Marmoset.Store
import Marmoset.Text.Classes
import Marmoset.Text.Cluster
import Marmoset.Text.Cluster.Kind
import Marmoset.Text.Marks
import Marmoset.Text.Outline
import Marmoset.Text.Quoted
import Marmoset.Token
import Marmoset.Token.Lexer
import Marmoset.Token.Listing
import Marmoset.Tree
import Marmoset.Tree.Outline
import Marmoset.Tree.Parser
import Marmoset.Value
import Marmoset.Value.Equality
import Marmoset.Value.Operators
import Marmoset.Value.View
import Marmoset.Proofs.Assembly
import Marmoset.Proofs.InstructionStreams
import Marmoset.Proofs.BytecodeFiles
import Marmoset.Proofs.Scopes
import Marmoset.Proofs.TableOperations
import Marmoset.Proofs.Buffers
import Marmoset.Proofs.Emission
import Marmoset.Proofs.Compilation
import Marmoset.Proofs.Balance
import Marmoset.Proofs.Operands
import Marmoset.Proofs.WellFormedCode
import Marmoset.Proofs.StoredValues
import Marmoset.Proofs.SafeRuns
import Marmoset.Proofs.SafeSessions
import Marmoset.Proofs.CallSteps
import Marmoset.Proofs.MemoryBounds
import Marmoset.Proofs.Halting
import Marmoset.Proofs.WrittenSlots
import Marmoset.Proofs.Discipline
import Marmoset.Proofs.Likeness
import Marmoset.Proofs.SharedStores
import Marmoset.Proofs.NameLinks
import Marmoset.Proofs.Leads
import Marmoset.Proofs.Agreement
import Marmoset.Proofs.Following
import Marmoset.Proofs.NamesInUse
import Marmoset.Proofs.Stages
import Marmoset.Proofs.Simulation
import Marmoset.Proofs.OtherStacks
import Marmoset.Proofs.ScopeRuns
import Marmoset.Proofs.DisciplinedScopes
import Marmoset.Proofs.StackContents
import Marmoset.Proofs.Calls
import Marmoset.Proofs.FreshPrograms
import Marmoset.Proofs.DisciplinedPrograms
import Marmoset.Proofs.StoredSlots
import Marmoset.Proofs.FunctionFree
import Marmoset.Proofs.StoredReads
import Marmoset.Proofs.ClosedExpressions
import Marmoset.Proofs.SlotNames
import Marmoset.Proofs.CallEffects
import Marmoset.Proofs.BoundNames
import Marmoset.Proofs.SessionHistory
import Marmoset.Proofs.RejectedInputs
import Marmoset.Proofs.Relocation
import Marmoset.Proofs.TopLevelCode
import Marmoset.Proofs.RenamedClosures
import Marmoset.Proofs.Mirroring
import Marmoset.Proofs.EmbeddedCode
import Marmoset.Proofs.Batches
import Marmoset.Proofs.Grammar
import Marmoset.Proofs.TokenYield
import Marmoset.Proofs.TextPieces
import Marmoset.Proofs.SpelledTokens
import Marmoset.Proofs.AcceptedPhrases
import Marmoset.Proofs.CanonicalText
import Marmoset.Proofs.ExactSums
import Marmoset.Proofs.OperatorChains
import Marmoset.Proofs.ResolvedNames
import Marmoset.Proofs.EnvironmentChains
import Marmoset.Proofs.UnboundedEvaluation
import Marmoset.Proofs.EvaluatorRecursion
import Marmoset.Proofs.EvaluationEnds
import Marmoset.Proofs.HashOrder
import Marmoset.Proofs.EvaluationSteps
import Marmoset.Proofs.CallFrames
import Marmoset.Proofs.ErrorOrigins
import Marmoset.Proofs.ParsedTrees
import Marmoset.Proofs.NameStanding
import Marmoset.Proofs.AcceptedPrograms
import Marmoset.Proofs.NameSpelling
import Marmoset.Proofs.ContainerWrites
import Marmoset.Proofs.ParseFailures
import Marmoset.Proofs.UnboundedParsing
import Marmoset.Proofs.ParsingEnds
import Marmoset.Proofs.CodePassages
import Marmoset.Proofs.BlockValues
