import ScriptFlow.Flow.Map
import ScriptFlow.NameKind

/-!
What a statement does to the flow value behind it, going backward. It takes away what it assigns;
then an assignment adds the names of its value, and a conditional or loop those of its guards, each
attributed to the statement itself. Names of functions are not added.
-/

namespace ScriptFlow

variable {Label Body : Type}

/-- The expressions whose names the analysis counts as read. -/
def StmtShape.sources {Operand : Type} : StmtShape Operand Body → List Operand
  | .assign _ value _ => [value]
  | shape => shape.guards

structure Transfer where
  kill : NameSet
  gen : FlowValue

namespace Transfer

/-- The names that are no functions, attributed to one statement. -/
def generated (isFunction : String → Bool) (id : Nat) (names : List String) : FlowValue :=
  Std.ExtTreeMap.ofList
    ((names.filter fun name => !isFunction name).map fun name => (name, ({id} : IdSet)))

def ofShape (isFunction : String → Bool) (id : Nat) (position : Position)
    (shape : StmtShape (Expr Label) Body) : Except IllFormed Transfer :=
  return ⟨← shape.assigned position, generated isFunction id (shape.sources.flatMap Expr.names)⟩

def apply (transfer : Transfer) (flow : FlowValue) : FlowValue :=
  FlowValue.merge (flow.removeKeys transfer.kill) transfer.gen

end Transfer
end ScriptFlow
