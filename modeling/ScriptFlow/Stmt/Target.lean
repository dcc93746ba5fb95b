import Std.Data.ExtTreeSet
import ScriptFlow.Stmt.Printer

/-!
What a statement assigns. An indexed or field target assigns the variable at its base, a matrix of
targets assigns each of them, and a loop assigns its variable. A target without a variable at its
base is ill-formed.
-/

namespace ScriptFlow

abbrev NameSet := Std.ExtTreeSet String

def NameSet.ofList (names : List String) : NameSet := Std.ExtTreeSet.ofList names

structure IllFormed where
  position : Position
  target : String
  deriving DecidableEq, Repr

def IllFormed.message (error : IllFormed) : String :=
  "ill-formed assignment target \x60" ++ error.target ++ "\x60 at " ++ error.position.display

variable {Label Body : Type}

namespace Expr

/-- The variable at the base of a target, or the expression that is none. -/
def base : Expr Label → Except (Expr Label) String
  | node _ (.name name) => .ok name
  | node _ (.param head _) => base head
  | node _ (.cellIndex head _) => base head
  | node _ (.field inner _) => base inner
  | expr => .error expr

def targets : Expr Label → List (Expr Label)
  | node _ (.matrix rows) => rows.flatten
  | expr => [expr]

end Expr

namespace StmtShape

variable {Operand : Type}

def target? : StmtShape Operand Body → Option Operand
  | assign target _ _ => some target
  | _ => none

def loopVar? : StmtShape Operand Body → Option String
  | forLoop var _ _ => some var
  | _ => none

end StmtShape

/-- The names that a statement assigns, in order, or the first bad target. -/
def StmtShape.bases (shape : StmtShape (Expr Label) Body) : Except (Expr Label) (List String) :=
  match shape.target? with
  | some target => target.targets.mapM Expr.base
  | none => .ok shape.loopVar?.toList

/-- What was assigned at a place, or why nothing was. -/
def assignedAt (position : Position) : Except (Expr Label) (List String) → Except IllFormed NameSet
  | .ok names => .ok (NameSet.ofList names)
  | .error bad => .error ⟨position, bad.print⟩

def StmtShape.assigned (position : Position) (shape : StmtShape (Expr Label) Body) :
    Except IllFormed NameSet :=
  assignedAt position shape.bases

end ScriptFlow
