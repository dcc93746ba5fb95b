import ScriptFlow.Stmt.Target
import ScriptFlow.Store.View

/-!
What a stored statement assigns. Only the nodes on the way to the assigned variables are read: the
arguments of an index need no nodes, and neither does what stands behind the first bad target.
-/

namespace ScriptFlow.Store

variable (store : Store)

/-- Goes from a target to the variable at its base, or stops at the expression that is none. -/
def baseWithin : Nat → ExprId → ExceptT ExprId Checked String
  | 0, _ => throwThe Fault .missing
  | depth + 1, id => do
      match ← store.expr id with
      | .name name => return name
      | .param head _ | .cellIndex head _ => baseWithin depth head
      | .field inner _ => baseWithin depth inner
      | _ => throw id

def base (id : ExprId) : ExceptT ExprId Checked String := store.baseWithin store.exprs.size id

def targets (id : ExprId) : Checked (List ExprId) := do
  match ← store.expr id with
  | .matrix rows => return rows.flatten
  | _ => return [id]

def bases (shape : StoredShape) : ExceptT ExprId Checked (List String) := do
  match shape.target? with
  | some target => (← store.targets target).mapM store.base
  | none => return shape.loopVar?.toList

def assigned (id : StmtId) : Checked (Except IllFormed NameSet) := do
  let entry ← store.stmt id
  match ← (store.bases entry.shape).run with
  | .ok names => return .ok (NameSet.ofList names)
  | .error bad => return assignedAt entry.position (.error (← store.exprTree bad))

end ScriptFlow.Store
