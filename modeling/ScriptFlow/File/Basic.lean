import ScriptFlow.Stmt.Basic

/-!
Source files: statements of the script and functions, in any order. A function again holds
statements and the functions nested in it.
-/

namespace ScriptFlow

/-- What the first line of a function says, and where the function begins. -/
structure Header where
  name : String
  inputs : List String
  outputs : List String
  position : Position
  deriving DecidableEq, Repr

mutual
inductive Item (Label Operand : Type) where
  | stmt (stmt : Stmt Label Operand)
  | function (function : Function Label Operand)

inductive Function (Label Operand : Type) where
  | mk (header : Header) (items : List (Item Label Operand))
end

structure File (Label Operand : Type) where
  items : List (Item Label Operand)

variable {Label Operand : Type}

def Item.statement? : Item Label Operand → Option (Stmt Label Operand)
  | .stmt inner => some inner
  | .function _ => none

def Item.nested? : Item Label Operand → Option (Function Label Operand)
  | .stmt _ => none
  | .function inner => some inner

abbrev ParsedItem := Item Position ParsedExpr
abbrev ParsedFunction := Function Position ParsedExpr
abbrev ParsedFile := File Position ParsedExpr

end ScriptFlow
