import ScriptFlow.Flow.Analysis
import ScriptFlow.Stmt.Printer

/-!
Reports: every annotated statement of a program between the values that flow into it and out of it,
scope after scope. The two analyses share their values and differ in what a report shows of them.
-/

namespace ScriptFlow

open Store (Checked)

inductive Analysis where
  | reaching
  | live
  deriving DecidableEq, Repr

namespace Analysis

def name : Analysis → String
  | reaching => "reaching definitions"
  | live => "live variables"

/-- How a report names a statement that reads a variable. -/
def showUse (program : Program) (id : StmtId) : Checked String := do
  let stmt ← program.store.stmtTree id
  return "[" ++ String.ofList stmt.headline ++ " at " ++ stmt.label.position.display ++ "]"

/-- The line of a report about one variable. -/
def entry (use : StmtId → Checked String) (variableName : String) (uses : IdSet) :
    Analysis → Checked String
  | reaching => return variableName ++ ": " ++ ", ".intercalate (← uses.toList.mapM use)
  | live => return variableName

def entries (analysis : Analysis) (use : StmtId → Checked String) (flow : FlowValue) :
    Checked (List String) :=
  flow.toList.mapM fun fact => analysis.entry use fact.1 fact.2

def braced (title : String) (lines : List String) : List String :=
  [title ++ " \x7b"] ++ lines ++ ["\x7d"]

/-- What a report says of one statement. -/
def annotated (analysis : Analysis) (use : StmtId → Checked String) (stmt : StoredStmt)
    (point : Flow.Point) : Checked String := do
  let into ← analysis.entries use point.into
  let out ← analysis.entries use point.out
  let lines := braced "in" into ++ [String.ofList stmt.print] ++ braced "out" out ++ [""]
  return String.join (lines.map (· ++ "\n"))

/-- A statement without a point says nothing, and its expressions are not read. -/
def scopeReport (analysis : Analysis) (program : Program) (use : StmtId → Checked String)
    (points : Flow.Points) (scope : Scope) : Checked String := do
  let outlines := Stmt.within (← program.scopeOutlines scope)
  let parts ← outlines.mapM fun stmt => do
    match points[stmt.label.id]? with
    | some point => analysis.annotated use (← program.store.stmtTree stmt.label.id) point
    | none => return ""
  return String.join parts

/-- The names of the annotated statements, each made once: a report shows the same few over and
over. -/
def uses (program : Program) (points : Flow.Points) : Checked (Std.ExtTreeMap StmtId String) := do
  return .ofList (← points.keys.mapM fun id => return (id, ← showUse program id))

def report (analysis : Analysis) (program : Program) (points : Flow.Points) :
    Checked String := do
  let uses ← uses program points
  let use (id : StmtId) := Store.found uses[id]?
  return String.join (← (← program.scopes).mapM (analysis.scopeReport program use points))

end Analysis
end ScriptFlow
