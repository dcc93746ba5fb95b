import ScriptFlow.Store.Basic

/-!
Trees put into a store. A node gets its number after everything below it and to the left of it has
one, so numbers follow the order in which the nodes are completed in the text.
-/

namespace ScriptFlow

variable {Label : Type}

def Expr.allocate : Expr Label → StateM Store ExprId :=
  fold fun _ shape => do Store.addExpr (← shape.mapM id)

def Stmt.allocate : Stmt Position (Expr Label) → StateM Store StmtId :=
  fold fun position shape => do
    let body (members : List (StateM Store StmtId)) := do Store.addBlock (← members.mapM id)
    Store.addStmt (← shape.mapM Expr.allocate body) position

mutual
def Function.allocate : Function Position (Expr Label) → StateM Store FuncId
  | .mk header items => do
      let (members, nested) ← allocateItems items
      Store.addFunction ⟨header, ← Store.addBlock members, nested⟩

/-- The numbers of the statements and of the functions among the items. -/
def allocateItems : List (Item Position (Expr Label)) → StateM Store (List StmtId × List FuncId)
  | [] => return ([], [])
  | .stmt stmt :: rest => do
      let id ← stmt.allocate
      let (members, nested) ← allocateItems rest
      return (id :: members, nested)
  | .function inner :: rest => do
      let id ← inner.allocate
      let (members, nested) ← allocateItems rest
      return (members, id :: nested)
end

end ScriptFlow
