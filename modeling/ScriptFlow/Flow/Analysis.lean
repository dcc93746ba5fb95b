import ScriptFlow.Flow.Transfer
import ScriptFlow.Program.Basic

/-!
The backward analysis. A list of statements is walked right to left; what flows into a statement
flows out of the one before it. The bodies of a compound statement start with what flows into the
statement, are walked once, and give nothing back.
-/

namespace ScriptFlow

namespace Flow

structure Point where
  id : StmtId
  into : FlowValue
  out : FlowValue

/-- What one statement makes of the value that flows out of it: the value that flows into it, and
the points of itself and of all that is nested in it. -/
abbrev Step := FlowValue → Except IllFormed (FlowValue × List Point)

/-- Runs the steps of a list from the last to the first. -/
def backward : List Step → Step
  | [], out => return (out, [])
  | step :: rest, out => do
      let (between, behind) ← backward rest out
      let (into, here) ← step between
      return (into, behind ++ here)

def step (isFunction : String → Bool) (site : Site)
    (shape : StmtShape StoredExpr (List Step)) : Step :=
  fun out => do
    let transfer ← Transfer.ofShape isFunction site.id site.position shape
    let into := transfer.apply out
    -- Every body starts with what flows into the statement, not with what flows out of it.
    let inner ← shape.bodies.mapM fun body => return (← backward body into).2
    return (into, ⟨site.id, into, out⟩ :: inner.flatten)

/-- The points of a scope's statements, where nothing flows out of the scope. -/
def annotate (isFunction : String → Bool) (body : List StoredStmt) :
    Except IllFormed (List Point) :=
  return (← backward (body.map (Stmt.fold (step isFunction))) ∅).2

inductive Error where
  | illFormed (error : IllFormed)
  | store (fault : Store.Fault)

def Error.message : Error → String
  | illFormed error => "ill-formed input: " ++ error.message
  | store fault => fault.message

abbrev Points := Std.ExtTreeMap StmtId Point

def byStatement (points : List Point) : Points :=
  Std.ExtTreeMap.ofList (points.map fun point => (point.id, point))

end Flow

namespace Program

variable (program : Program)

def annotateScope (scope : Scope) : Except Flow.Error (List Flow.Point) := do
  let vocabulary ← (program.vocabulary scope).mapError .store
  let body ← (program.scopeTrees scope).mapError .store
  (Flow.annotate vocabulary.isFunction body).mapError .illFormed

def analyzeScope (scope : Scope) : Except Flow.Error Flow.Points :=
  Flow.byStatement <$> program.annotateScope scope

/-- The scopes are analyzed one by one; the first ill-formed one ends the analysis. -/
def analyze : Except Flow.Error Flow.Points := do
  let scopes ← program.scopes.mapError .store
  return Flow.byStatement (← scopes.mapM program.annotateScope).flatten

end Program
end ScriptFlow
