import ScriptFlow.File.Basic

/-!
The store keeps every node of a program in tables and refers to it by number, in order of creation.
A number stays valid while statements are put into lists elsewhere, so facts about a node can be
kept beside the store.
-/

namespace ScriptFlow

abbrev StmtId := Nat
abbrev ExprId := Nat
abbrev BlockId := Nat
abbrev FuncId := Nat

abbrev StoredShape := StmtShape ExprId BlockId

structure StmtEntry where
  shape : StoredShape
  position : Position
  parent : Option BlockId
  deriving DecidableEq, Repr

structure FunctionEntry where
  header : Header
  body : BlockId
  nested : List FuncId
  deriving DecidableEq, Repr

structure Store where
  stmts : Array StmtEntry
  exprs : Array (ExprShape ExprId)
  blocks : Array (List StmtId)
  functions : Array FunctionEntry
  deriving DecidableEq, Repr

namespace Store

def empty : Store := ⟨#[], #[], #[], #[]⟩

/-- Why a request to the store has no answer: the statement is in no list, or a number has no
node. -/
inductive Fault where
  | detached (stmt : StmtId)
  | missing
  deriving DecidableEq, Repr

def Fault.message : Fault → String
  | detached stmt => s!"statement s{stmt} is not in any statement list"
  | missing => "no such node"

abbrev Checked := Except Fault

def found {Answer : Type} : Option Answer → Checked Answer
  | some answer => .ok answer
  | none => .error .missing

def expr (store : Store) (id : ExprId) : Checked (ExprShape ExprId) := found store.exprs[id]?

def stmt (store : Store) (id : StmtId) : Checked StmtEntry := found store.stmts[id]?

def block (store : Store) (id : BlockId) : Checked (List StmtId) := found store.blocks[id]?

def function (store : Store) (id : FuncId) : Checked FunctionEntry := found store.functions[id]?

def addExpr (shape : ExprShape ExprId) : StateM Store ExprId :=
  modifyGet fun store => (store.exprs.size, { store with exprs := store.exprs.push shape })

/-- Adds a statement that is in no list yet. -/
def addStmt (shape : StoredShape) (position : Position) : StateM Store StmtId :=
  modifyGet fun store =>
    (store.stmts.size, { store with stmts := store.stmts.push ⟨shape, position, none⟩ })

def setParent (block : BlockId) (stmts : Array StmtEntry) (id : StmtId) : Array StmtEntry :=
  stmts.modify id fun entry => { entry with parent := some block }

/-- Adds a list; its statements belong to it from then on. -/
def addBlock (members : List StmtId) : StateM Store BlockId :=
  modifyGet fun store =>
    let id := store.blocks.size
    (id, { store with
      blocks := store.blocks.push members
      stmts := members.foldl (setParent id) store.stmts })

def addFunction (entry : FunctionEntry) : StateM Store FuncId :=
  modifyGet fun store =>
    (store.functions.size, { store with functions := store.functions.push entry })

end Store
end ScriptFlow
