import Autoscript.Arith
import Autoscript.Binary.Format
import Autoscript.Binary.Single
import Autoscript.Command.Args
import Autoscript.Command.Failure
import Autoscript.Command.Files
import Autoscript.Command.Path
import Autoscript.Command.Plan
import Autoscript.Command.Usage
import Autoscript.Decimal
import Autoscript.Decimal.Literal
import Autoscript.Decimal.Shortest
import Autoscript.Instr
import Autoscript.Log
import Autoscript.Log.Filter
import Autoscript.Machine.Fault
import Autoscript.Machine.Journal
import Autoscript.Machine.Load
import Autoscript.Machine.Run
import Autoscript.Machine.Stack
import Autoscript.Machine.Step
import Autoscript.Main
import Autoscript.Memory
import Autoscript.Opcode
import Autoscript.Program
import Autoscript.Rounding
import Autoscript.Scope
import Autoscript.Script.Compile
import Autoscript.Script.Fault
import Autoscript.Script.Journal
import Autoscript.Script.Line
import Autoscript.Script.Scan
import Autoscript.Script.Statement
import Autoscript.Script.Stats
import Autoscript.Text.Alphanumeric
import Autoscript.Text.Columns
import Autoscript.Text.Terminal
import Autoscript.Token
import Autoscript.Token.Lexer
import Autoscript.Ty
import Autoscript.Word
import Autoscript.Proofs.Grammar
import Autoscript.Proofs.Scan
import Autoscript.Proofs.Accepted
import Autoscript.Proofs.Codec
import Autoscript.Proofs.Evaluator
import Autoscript.Proofs.Image
import Autoscript.Proofs.Intact
import Autoscript.Proofs.Shape
import Autoscript.Proofs.Slots
import Autoscript.Proofs.Simulation
import Autoscript.Proofs.Preservation
import Autoscript.Proofs.Trace
import Autoscript.Proofs.Termination
import Autoscript.Proofs.Capacity
import Autoscript.Proofs.Truncated
import Autoscript.Proofs.Lines
import Autoscript.Proofs.Inert
import Autoscript.Proofs.Spelling
import Autoscript.Proofs.Unreadable
import Autoscript.Proofs.Places
import Autoscript.Proofs.Recovery
import Autoscript.Proofs.Tree
import Autoscript.Proofs.Routes
import Autoscript.Proofs.Cursor
import Autoscript.Proofs.Pass
import Autoscript.Proofs.Output
import Autoscript.Proofs.Settled
import Autoscript.Proofs.Expressions
import Autoscript.Proofs.Frames
import Autoscript.Proofs.Reports
import Autoscript.Proofs.Earliest
import Autoscript.Proofs.Effects
import Autoscript.Proofs.Lexemes
import Autoscript.Proofs.Naming
import Autoscript.Proofs.Missing
import Autoscript.Proofs.Ledger
import Autoscript.Proofs.Progress
import Autoscript.Proofs.Nearest
import Autoscript.Proofs.Coercions
import Autoscript.Proofs.Literals
import Autoscript.Proofs.Listing
import Autoscript.Proofs.Shown
