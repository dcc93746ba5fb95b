import ScriptFlow.Stmt.Basic

/-!
Counters: variables that count at run time, and the statements that zero them, add one to them and
display them.
-/

namespace ScriptFlow.Counter

def ofScope (scope : String) : String := scope ++ "_func"

/-- The counter of the rounds of a loop; loops are numbered across the whole program. -/
def ofLoop (scope : String) (number : Nat) : String := scope ++ "_loop_" ++ toString number

def expr (shape : ExprShape ParsedExpr) : ParsedExpr := .node () shape

def name (counter : String) : ParsedExpr := expr (.name counter)

/-- Statements that stand in no text have no place in it. -/
def stmt (shape : StmtShape ParsedExpr (List ParsedStmt)) : ParsedStmt := .node .unplaced shape

def reset (counter : String) : ParsedStmt :=
  stmt (.assign (name counter) (expr (.num "0")) true)

def increment (counter : String) : ParsedStmt :=
  stmt (.assign (name counter) (expr (.binary (name counter) .add (expr (.num "1")))) true)

def text (value : String) : ParsedExpr := expr (.str value .single)

/-- Prints the counter's name and value on a line. -/
def display (counter : String) : ParsedStmt :=
  stmt (.eval (expr (.param (name "fprintf") [text "%s %d\\n", text counter, name counter])) true)

end ScriptFlow.Counter
