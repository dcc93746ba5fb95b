import ScriptFlow.Store.Basic

/-!
Trees read from a store. Every node of such a tree is labelled with its number. A path down a tree
meets no node twice, so the size of a table bounds the depth.
-/

namespace ScriptFlow

structure Site where
  id : StmtId
  position : Position
  deriving DecidableEq, Repr

abbrev StoredExpr := Expr ExprId

abbrev Outline := Stmt Site ExprId

abbrev StoredStmt := Stmt Site StoredExpr
abbrev StoredFunction := Function Site StoredExpr

namespace Store

variable (store : Store)

def exprWithin : Nat → ExprId → Checked StoredExpr
  | 0, _ => throw .missing
  | depth + 1, id => return .node id (← (← store.expr id).mapM (exprWithin depth))

def exprTree (id : ExprId) : Checked StoredExpr := store.exprWithin store.exprs.size id

def outlineWithin : Nat → StmtId → Checked Outline
  | 0, _ => throw .missing
  | depth + 1, id => do
      let entry ← store.stmt id
      let body (block : BlockId) := do (← store.block block).mapM (outlineWithin depth)
      return .node ⟨id, entry.position⟩ (← entry.shape.mapM pure body)

def outline (id : StmtId) : Checked Outline := store.outlineWithin store.stmts.size id

def outlines (block : BlockId) : Checked (List Outline) := do
  (← store.block block).mapM store.outline

def stmtTree (id : StmtId) : Checked StoredStmt := do
  (← store.outline id).mapM store.exprTree

def bodyTrees (block : BlockId) : Checked (List StoredStmt) := do
  (← store.block block).mapM store.stmtTree

def functionWithin : Nat → FuncId → Checked StoredFunction
  | 0, _ => throw .missing
  | depth + 1, id => do
      let entry ← store.function id
      let stmts ← store.bodyTrees entry.body
      let nested ← entry.nested.mapM (functionWithin depth)
      return .mk entry.header (stmts.map .stmt ++ nested.map .function)

def functionTree (id : FuncId) : Checked StoredFunction :=
  store.functionWithin store.functions.size id

/-- Which functions are nested in which; their bodies are not read. -/
def nestWithin : Nat → FuncId → Checked (Rose FuncId)
  | 0, _ => throw .missing
  | depth + 1, id => do
      return .node id (← (← store.function id).nested.mapM (nestWithin depth))

def nest (id : FuncId) : Checked (Rose FuncId) := store.nestWithin store.functions.size id

/-- The name in front of the parentheses of an index or call; nothing else of it is read. -/
def callee? (id : ExprId) : Checked (Option String) := do
  match ← store.expr id with
  | .param head _ => match ← store.expr head with
    | .name name => return some name
    | _ => return none
  | _ => return none

/-- The expression and all expressions inside it, each before its operands. -/
def exprsWithin (id : ExprId) : Checked (List ExprId) :=
  return (← store.exprTree id).within.map Expr.label

/-- All statements of a list, nested ones included, each before those nested in it. -/
def stmtsWithin (block : BlockId) : Checked (List StmtId) :=
  return (Stmt.within (← store.outlines block)).map fun stmt => stmt.label.id

end Store
end ScriptFlow
