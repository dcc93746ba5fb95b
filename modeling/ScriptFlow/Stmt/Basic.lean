import ScriptFlow.Text.Position
import ScriptFlow.Expr.Basic

/-!
Statements. As with expressions, a shape is one layer, over its expressions and its bodies, and a
tree ties the layers together; a body is a list of statements.
-/

namespace ScriptFlow

inductive StmtShape (Operand Body : Type) where
  | eval (expr : Operand) (quiet : Bool)
  | assign (target value : Operand) (quiet : Bool)
  | branch (clauses : List (Operand × Body)) (otherwise : Option Body)
  | switch (subject : Operand) (cases : List (Operand × Body)) (otherwise : Option Body)
  | forLoop (var : String) (range : Operand) (body : Body)
  | whileLoop (cond : Operand) (body : Body)
  | breakLoop
  | continueLoop
  | leave
  | global (names : List String)
  | persistent (names : List String)
  deriving DecidableEq, Repr

namespace StmtShape

variable {A B C D : Type}

/-- The expressions that decide which body runs, or how often. -/
def guards : StmtShape A B → List A
  | branch clauses _ => clauses.map Prod.fst
  | switch subject cases _ => subject :: cases.map Prod.fst
  | forLoop _ range _ => [range]
  | whileLoop cond _ => [cond]
  | _ => []

/-- The expressions of the statement itself, those of nested statements left out. -/
def exprs : StmtShape A B → List A
  | eval expr _ => [expr]
  | assign target value _ => [target, value]
  | shape => shape.guards

def bodies : StmtShape A B → List B
  | branch clauses otherwise => clauses.map Prod.snd ++ otherwise.toList
  | switch _ cases otherwise => cases.map Prod.snd ++ otherwise.toList
  | forLoop _ _ body | whileLoop _ body => [body]
  | _ => []

def loopBody? : StmtShape A B → Option B
  | forLoop _ _ body | whileLoop _ body => some body
  | _ => none

def isLoop (shape : StmtShape A B) : Bool := shape.loopBody?.isSome

def value? : StmtShape A B → Option A
  | assign _ value _ => some value
  | _ => none

/-- The names that the statement shares with other scopes or calls. -/
def shared : StmtShape A B → List String
  | global names | persistent names => names
  | _ => []

def map (f : A → C) (g : B → D) : StmtShape A B → StmtShape C D
  | eval expr quiet => eval (f expr) quiet
  | assign target value quiet => assign (f target) (f value) quiet
  | branch clauses otherwise => branch (clauses.map (Prod.map f g)) (otherwise.map g)
  | switch subject cases otherwise =>
      switch (f subject) (cases.map (Prod.map f g)) (otherwise.map g)
  | forLoop var range body => forLoop var (f range) (g body)
  | whileLoop cond body => whileLoop (f cond) (g body)
  | breakLoop => breakLoop
  | continueLoop => continueLoop
  | leave => leave
  | global names => global names
  | persistent names => persistent names

section
variable {M : Type → Type} [Monad M] (f : A → M C) (g : B → M D)

def mapClauseM (clause : A × B) : M (C × D) := return (← f clause.1, ← g clause.2)

def mapM : StmtShape A B → M (StmtShape C D)
  | eval expr quiet => return eval (← f expr) quiet
  | assign target value quiet => return assign (← f target) (← f value) quiet
  | branch clauses otherwise =>
      return branch (← clauses.mapM (mapClauseM f g)) (← otherwise.mapM g)
  | switch subject cases otherwise =>
      return switch (← f subject) (← cases.mapM (mapClauseM f g)) (← otherwise.mapM g)
  | forLoop var range body => return forLoop var (← f range) (← g body)
  | whileLoop cond body => return whileLoop (← f cond) (← g body)
  | breakLoop => return breakLoop
  | continueLoop => return continueLoop
  | leave => return leave
  | global names => return global names
  | persistent names => return persistent names

end

theorem bodies_map (f : A → C) (g : B → D) (shape : StmtShape A B) :
    (shape.map f g).bodies = shape.bodies.map g := by
  cases shape <;> simp [map, bodies]
  case branch clauses otherwise => cases otherwise <;> rfl
  case switch subject cases otherwise => cases otherwise <;> rfl

end StmtShape

inductive Stmt (Label Operand : Type) where
  | node (label : Label) (shape : StmtShape Operand (List (Stmt Label Operand)))

namespace Stmt

variable {Label Operand Result : Type}

def label : Stmt Label Operand → Label
  | node label _ => label

def shape : Stmt Label Operand → StmtShape Operand (List (Stmt Label Operand))
  | node _ shape => shape

def bodies (stmt : Stmt Label Operand) : List (List (Stmt Label Operand)) := stmt.shape.bodies

section
variable (layer : Label → StmtShape Operand (List Result) → Result)

mutual
def fold : Stmt Label Operand → Result
  | node label shape => layer label (foldShape shape)

def foldShape : StmtShape Operand (List (Stmt Label Operand)) → StmtShape Operand (List Result)
  | .eval expr quiet => .eval expr quiet
  | .assign target value quiet => .assign target value quiet
  | .branch clauses otherwise => .branch (foldClauses clauses) (foldOption otherwise)
  | .switch subject cases otherwise => .switch subject (foldClauses cases) (foldOption otherwise)
  | .forLoop var range body => .forLoop var range (foldBody body)
  | .whileLoop cond body => .whileLoop cond (foldBody body)
  | .breakLoop => .breakLoop
  | .continueLoop => .continueLoop
  | .leave => .leave
  | .global names => .global names
  | .persistent names => .persistent names

def foldClauses : List (Operand × List (Stmt Label Operand)) → List (Operand × List Result)
  | [] => []
  | (guard, body) :: rest => (guard, foldBody body) :: foldClauses rest

def foldOption : Option (List (Stmt Label Operand)) → Option (List Result)
  | none => none
  | some body => some (foldBody body)

def foldBody : List (Stmt Label Operand) → List Result
  | [] => []
  | stmt :: rest => fold stmt :: foldBody rest
end

theorem foldBody_eq (body : List (Stmt Label Operand)) :
    foldBody layer body = body.map (fold layer) := by
  induction body with
  | nil => rfl
  | cons stmt rest ih => simp [foldBody, ih]

theorem foldClauses_eq (clauses : List (Operand × List (Stmt Label Operand))) :
    foldClauses layer clauses = clauses.map (Prod.map id (·.map (fold layer))) := by
  induction clauses with
  | nil => rfl
  | cons clause rest ih =>
      obtain ⟨guard, body⟩ := clause
      simp [foldClauses, foldBody_eq, ih]

theorem fold_node (label : Label) (shape : StmtShape Operand (List (Stmt Label Operand))) :
    fold layer (node label shape) = layer label (shape.map id (·.map (fold layer))) := by
  cases shape <;> simp [fold, foldShape, StmtShape.map, foldBody_eq, foldClauses_eq]
  case branch clauses otherwise => cases otherwise <;> simp [foldOption, foldBody_eq]
  case switch subject cases otherwise => cases otherwise <;> simp [foldOption, foldBody_eq]

end

def size : Stmt Label Operand → Nat := fold fun _ shape => 1 + total shape.bodies.flatten

def nested (stmt : Stmt Label Operand) : List (Stmt Label Operand) := stmt.bodies.flatten

theorem nested_shrink (stmt : Stmt Label Operand) : total (stmt.nested.map size) < stmt.size := by
  obtain ⟨label, shape⟩ := stmt
  have whole : (node label shape).size = 1 + total (shape.bodies.flatten.map size) := by
    simp only [size, fold_node, StmtShape.bodies_map, List.map_flatten]
  rw [whole]
  simp only [nested, bodies, Stmt.shape]
  omega

/-- Every statement of a body, nested ones included, each before those nested in it. -/
def within (body : List (Stmt Label Operand)) : List (Stmt Label Operand) :=
  preorderBy nested size nested_shrink body

def mapM {M : Type → Type} [Monad M] {Other : Type} (f : Operand → M Other) :
    Stmt Label Operand → M (Stmt Label Other) :=
  fold fun label shape => return node label (← shape.mapM f (·.mapM id))

end Stmt

/-- A statement as it is read from a text, labelled with its place. -/
abbrev ParsedStmt := Stmt Position ParsedExpr

end ScriptFlow
