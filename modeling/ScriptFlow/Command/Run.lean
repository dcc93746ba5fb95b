import ScriptFlow.Command.Arguments
import ScriptFlow.Counter.Instrument
import ScriptFlow.Dump.Json
import ScriptFlow.Dump.Program
import ScriptFlow.Dump.SExpr
import ScriptFlow.File.Printer

/-! Running a command on a source. -/

namespace ScriptFlow

namespace Command

inductive Error where
  | notText
  | parse (error : ParseError)
  | analysis (error : Flow.Error)
  | unknownFunction (name : String)
  | store (fault : Store.Fault)

namespace Error

def message : Error → String
  | notText => "stream did not contain valid UTF-8"
  | parse error => error.message
  | analysis error => error.message
  | unknownFunction name => "no function named \x60" ++ name ++ "\x60"
  | store fault => fault.message

end Error

abbrev Outcome := Except Error

def dump (format : DumpFormat) (program : Program) : String :=
  let datum := Dump.ofProgram program
  match format with
  | .json => Dump.Json.render 0 datum ++ "\n"
  | .sexp => (Dump.SExpr.ofDatum datum).render ++ "\n"

/-- The flow values of one function, or of all scopes when no name is given. -/
def analyzed (program : Program) : Option String → Outcome Flow.Points
  | none => program.analyze.mapError .analysis
  | some name => do
      match ← (program.findFunction name).mapError .store with
      | some scope => (program.analyzeScope scope).mapError .analysis
      | none => throw (.unknownFunction name)

def instrumented (classify : Bool) (program : Program) : Store.Checked String := do
  let (program, _) ← program.instrument classify
  return String.ofList (← program.file).print

def output (program : Program) : Command → Outcome String
  | .parse format => return dump format program
  | .report analysis function => do
      let points ← analyzed program function
      (analysis.report program points).mapError .store
  | .instrument classify => (instrumented classify program).mapError .store

/-- What the command writes for a source. -/
def run (command : Command) (source : ByteArray) : Outcome String := do
  match String.fromUTF8? source with
  | none => throw .notText
  | some text => output (← (Program.parse text.toList).mapError .parse) command

end Command
end ScriptFlow
