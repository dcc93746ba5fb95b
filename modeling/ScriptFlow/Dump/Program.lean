import ScriptFlow.Dump.Datum
import ScriptFlow.Program.Basic

/-!
What a dump says of a program: the tables of its store entry by entry, and its roots. The names of
fields and forms are those that readers of dumps know.
-/

namespace ScriptFlow

open Dump

def UnaryOp.label : UnaryOp → String
  | neg => "Neg"
  | plus => "Plus"
  | not => "Not"

def TransposeOp.label : TransposeOp → String
  | conjugate => "CTranspose"
  | plain => "Transpose"

def BinaryOp.label : BinaryOp → String
  | add => "Add"
  | sub => "Sub"
  | matMul => "MatMul"
  | matDiv => "MatDiv"
  | matLeftDiv => "MatLeftDiv"
  | matPow => "MatPow"
  | elMul => "ElMul"
  | elDiv => "ElDiv"
  | elLeftDiv => "ElLeftDiv"
  | elPow => "ElPow"
  | eq => "Eq"
  | notEq => "NotEq"
  | lt => "Lt"
  | lte => "Lte"
  | gt => "Gt"
  | gte => "Gte"
  | elAnd => "ElAnd"
  | elOr => "ElOr"
  | shortAnd => "ShortAnd"
  | shortOr => "ShortOr"

namespace Dump

open Datum

def ofPosition (position : Position) : Datum :=
  record [("line", number position.line), ("column", number position.column)]

def ofExpr : ExprShape ExprId → Datum
  | .num value => holding "Num" (text value)
  | .str value quoting =>
      holding "Str" (record [("text", text value), ("double", flag (quoting == .double))])
  | .name name => holding "Name" (text name)
  | .colon => plain "Colon"
  | .last => plain "End"
  | .param head args => holding "Param" (record [("head", number head), ("args", numbers args)])
  | .cellIndex head args =>
      holding "CellIndex" (record [("head", number head), ("args", numbers args)])
  | .field base name => holding "Field" (record [("base", number base), ("field", text name)])
  | .matrix rows => holding "Matrix" (list (rows.map numbers))
  | .cell rows => holding "Cell" (list (rows.map numbers))
  | .unary op operand => holding "Unary" (list [plain op.label, number operand])
  | .transpose op operand => holding "Postfix" (list [plain op.label, number operand])
  | .binary left op right => holding "Binary" (list [number left, plain op.label, number right])
  | .range start step stop =>
      holding "Range" (record [("start", number start), ("step", optional (step.map number)),
        ("stop", number stop)])

def ofClause (guard : String) (clause : ExprId × BlockId) : Datum :=
  record [(guard, number clause.1), ("body", number clause.2)]

def ofStmt : StoredShape → Datum
  | .eval expr quiet => holding "Expr" (record [("expr", number expr), ("quiet", flag quiet)])
  | .assign target value quiet =>
      holding "Assign"
        (record [("lhs", number target), ("rhs", number value), ("quiet", flag quiet)])
  | .branch clauses otherwise =>
      holding "If" (record [("clauses", list (clauses.map (ofClause "cond"))),
        ("else_body", optional (otherwise.map number))])
  | .switch subject cases otherwise =>
      holding "Switch" (record [("subject", number subject),
        ("cases", list (cases.map (ofClause "label"))),
        ("otherwise", optional (otherwise.map number))])
  | .forLoop var range body =>
      holding "For" (record [("var", text var), ("range", number range), ("body", number body)])
  | .whileLoop cond body => holding "While" (record [("cond", number cond), ("body", number body)])
  | .breakLoop => plain "Break"
  | .continueLoop => plain "Continue"
  | .leave => plain "Return"
  | .global names => holding "Global" (texts names)
  | .persistent names => holding "Persistent" (texts names)

def ofStmtEntry (entry : StmtEntry) : Datum :=
  record [("kind", ofStmt entry.shape), ("span", ofPosition entry.position)]

def ofFunction (entry : FunctionEntry) : Datum :=
  record [("name", text entry.header.name), ("inputs", texts entry.header.inputs),
    ("outputs", texts entry.header.outputs), ("body", number entry.body),
    ("nested", numbers entry.nested), ("span", ofPosition entry.header.position)]

def ofStore (store : Store) : Datum :=
  record [("stmts", list (store.stmts.toList.map ofStmtEntry)),
    ("exprs", list (store.exprs.toList.map ofExpr)),
    ("blocks", list (store.blocks.toList.map numbers)),
    ("parents", list (store.stmts.toList.map fun entry => optional (entry.parent.map number))),
    ("functions", list (store.functions.toList.map ofFunction))]

def ofProgram (program : Program) : Datum :=
  record [("ast", ofStore program.store), ("script", optional (program.script.map number)),
    ("functions", numbers program.functions)]

end Dump
end ScriptFlow
