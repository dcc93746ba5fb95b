import ScriptFlow.Program.Basic

/-!
Visits of the tables with a stack of numbers. In every round the number on top is visited, and those
that its node refers to are put on the stack from the last to the first. The tables set no bound to
the rounds: a node that is below itself would be visited again and again. So a visit is given the
rounds that it may take.
-/

namespace ScriptFlow

/-- The name that the expression is, if it is one; the name of a field is none. -/
def ExprShape.name? {Operand : Type} : ExprShape Operand → Option String
  | .name text => some text
  | _ => none

namespace Store

def pushAll (ids stack : List Nat) : List Nat :=
  ids.reverse.foldl (fun stack id => id :: stack) stack

/-- Takes numbers off a stack until it is empty; `push` puts on the stack what comes below the
number taken. There is no list of what was visited yet when the stack is not empty after the last
round. -/
def visit (push : Nat → List Nat → Checked (List Nat)) (visited : List Nat) :
    Nat → List Nat → Checked (Option (List Nat))
  | _, [] => return some visited
  | 0, _ :: _ => return none
  | rounds + 1, top :: stack => do visit push (visited ++ [top]) rounds (← push top stack)

variable (store : Store)

def pushOperands (id : ExprId) (stack : List ExprId) : Checked (List ExprId) :=
  return pushAll (← store.expr id).operands stack

/-- The bodies of a statement are put on the stack from the last to the first, and so is what is in
each. -/
def pushNested (id : StmtId) (stack : List StmtId) : Checked (List StmtId) := do
  (← store.stmt id).shape.bodies.reverse.foldlM
    (fun stack block => return pushAll (← store.block block) stack) stack

def pushFunctions (id : FuncId) (stack : List FuncId) : Checked (List FuncId) :=
  return pushAll (← store.function id).nested stack

def visitExprs (rounds : Nat) (id : ExprId) : Checked (Option (List ExprId)) :=
  visit store.pushOperands [] rounds [id]

def visitStmts (rounds : Nat) (block : BlockId) : Checked (Option (List StmtId)) := do
  visit store.pushNested [] rounds (pushAll (← store.block block) [])

def collectNamesWithin : Nat → List String → ExprId → Checked (List String)
  | 0, _, _ => throw .missing
  | depth + 1, names, id => do
      let shape ← store.expr id
      shape.operands.foldlM (collectNamesWithin depth) (names ++ shape.name?.toList)

/-- Adds the names in an expression to a list, its own before those of its operands. -/
def collectNames (names : List String) (id : ExprId) : Checked (List String) :=
  store.collectNamesWithin store.exprs.size names id

end Store

namespace Program

variable (program : Program)

/-- The script, if there is one, and the functions. -/
def scopesOver (functions : List FuncId) : List Scope :=
  (if program.script.isSome then [Scope.script] else []) ++ functions.map .function

def visitScopes (rounds : Nat) : Store.Checked (Option (List Scope)) :=
  return (← Store.visit program.store.pushFunctions [] rounds
    (Store.pushAll program.functions [])).map program.scopesOver

end Program
end ScriptFlow
