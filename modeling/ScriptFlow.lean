import ScriptFlow.Text.Position
import ScriptFlow.Text.Lines
import ScriptFlow.Token.Basic
import ScriptFlow.File.Basic
import ScriptFlow.ParseError
import ScriptFlow.Token.Cursor
import ScriptFlow.Expr.Parser
import ScriptFlow.File.Parser
import ScriptFlow.Expr.Printer
import ScriptFlow.File.Printer
import ScriptFlow.Program.Basic
import ScriptFlow.Program.Visit
import ScriptFlow.Store.Edit
import ScriptFlow.Dump.Datum
import ScriptFlow.Dump.Json
import ScriptFlow.Dump.Program
import ScriptFlow.Dump.SExpr
import ScriptFlow.NameKind
import ScriptFlow.Flow.Analysis
import ScriptFlow.Flow.Report
import ScriptFlow.Counter.Basic
import ScriptFlow.Counter.Instrument
import ScriptFlow.Command.Arguments
import ScriptFlow.Command.Run
import ScriptFlow.Main
import ScriptFlow.Store.Target
import ScriptFlow.Proofs.Counter.Edit
import ScriptFlow.Proofs.Counter.Instrumented
import ScriptFlow.Proofs.Counter.Interleave
import ScriptFlow.Proofs.Expr.Readable
import ScriptFlow.Proofs.Expr.Told
import ScriptFlow.Proofs.File.Readable
import ScriptFlow.Proofs.File.Rearranged
import ScriptFlow.Proofs.Flow.Agreement
import ScriptFlow.Proofs.Flow.Chain
import ScriptFlow.Proofs.Flow.Undisturbed
import ScriptFlow.Proofs.Program.Forest
import ScriptFlow.Proofs.Counter.Names
import ScriptFlow.Proofs.Counter.Executions
import ScriptFlow.Proofs.Expr.Reread
import ScriptFlow.Proofs.File.Spelled
import ScriptFlow.Proofs.Stmt.Reread
import ScriptFlow.Proofs.File.Reread
import ScriptFlow.Proofs.Program.Numbered
import ScriptFlow.Proofs.Flow.ByScope
import ScriptFlow.Proofs.Store.Attached
import ScriptFlow.Proofs.Token.Taking
import ScriptFlow.Proofs.Expr.Inorder
import ScriptFlow.Proofs.File.Advance
import ScriptFlow.Proofs.Token.Placed
import ScriptFlow.Proofs.File.Safe
import ScriptFlow.Proofs.File.Relabelled
import ScriptFlow.Proofs.File.Reparsed
import ScriptFlow.Proofs.Counter.Readable
import ScriptFlow.Proofs.Program.Reparsed
import ScriptFlow.Proofs.Token.Border
import ScriptFlow.Proofs.Token.Tiling
import ScriptFlow.Proofs.Expr.InStep
import ScriptFlow.Proofs.File.InStep
import ScriptFlow.Proofs.File.Unclosed
import ScriptFlow.Proofs.Program.Spacing
import ScriptFlow.Proofs.Program.Unclosed
import ScriptFlow.Proofs.Flow.Failing
import ScriptFlow.Proofs.NameKind
import ScriptFlow.Proofs.Program.Shaped
import ScriptFlow.Proofs.Program.Insensitive
import ScriptFlow.Proofs.Flow.Semilattice
import ScriptFlow.Proofs.Counter.Loops
import ScriptFlow.Proofs.Counter.Settled
import ScriptFlow.Proofs.Program.Laid
import ScriptFlow.Proofs.Text.Position
import ScriptFlow.Proofs.Expr.Literal
import ScriptFlow.Proofs.Program.Visits
import ScriptFlow.Proofs.Token.Returns
import ScriptFlow.Proofs.Program.LineEnds
