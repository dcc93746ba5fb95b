import ScriptFlow.Text.Quoted
import ScriptFlow.Expr.Operator
import ScriptFlow.Forest

/-!
Expressions. A shape is one layer of an expression over whatever stands for its operands; a tree
ties the layers together and carries a label at every node. Folding is the one recursion: each
function of a tree says what it makes of one layer whose operands are done.
-/

namespace ScriptFlow

inductive ExprShape (Operand : Type) where
  | num (text : String)
  | str (text : String) (quoting : Quoting)
  | name (name : String)
  | colon
  | last
  | param (head : Operand) (args : List Operand)
  | cellIndex (head : Operand) (args : List Operand)
  | field (base : Operand) (field : String)
  | matrix (rows : List (List Operand))
  | cell (rows : List (List Operand))
  | unary (op : UnaryOp) (operand : Operand)
  | transpose (op : TransposeOp) (operand : Operand)
  | binary (left : Operand) (op : BinaryOp) (right : Operand)
  | range (start : Operand) (step : Option Operand) (stop : Operand)
  deriving DecidableEq, Repr

namespace ExprShape

variable {A B : Type}

def operands : ExprShape A → List A
  | num _ | str _ _ | name _ | colon | last => []
  | param head args | cellIndex head args => head :: args
  | field base _ => [base]
  | matrix rows | cell rows => rows.flatten
  | unary _ operand | transpose _ operand => [operand]
  | binary left _ right => [left, right]
  | range start step stop => start :: (step.toList ++ [stop])

def map (f : A → B) : ExprShape A → ExprShape B
  | num text => num text
  | str text quoting => str text quoting
  | name n => name n
  | colon => colon
  | last => last
  | param head args => param (f head) (args.map f)
  | cellIndex head args => cellIndex (f head) (args.map f)
  | field base key => field (f base) key
  | matrix rows => matrix (rows.map (·.map f))
  | cell rows => cell (rows.map (·.map f))
  | unary op operand => unary op (f operand)
  | transpose op operand => transpose op (f operand)
  | binary left op right => binary (f left) op (f right)
  | range start step stop => range (f start) (step.map f) (f stop)

def mapM {M : Type → Type} [Monad M] (f : A → M B) : ExprShape A → M (ExprShape B)
  | num text => return num text
  | str text quoting => return str text quoting
  | name n => return name n
  | colon => return colon
  | last => return last
  | param head args => return param (← f head) (← args.mapM f)
  | cellIndex head args => return cellIndex (← f head) (← args.mapM f)
  | field base key => return field (← f base) key
  | matrix rows => return matrix (← rows.mapM (·.mapM f))
  | cell rows => return cell (← rows.mapM (·.mapM f))
  | unary op operand => return unary op (← f operand)
  | transpose op operand => return transpose op (← f operand)
  | binary left op right => return binary (← f left) op (← f right)
  | range start step stop => return range (← f start) (← step.mapM f) (← f stop)

theorem operands_map (f : A → B) (shape : ExprShape A) :
    (shape.map f).operands = shape.operands.map f := by
  cases shape <;> simp [map, operands, List.map_flatten]
  case range start step stop => cases step <;> rfl

end ExprShape

inductive Expr (Label : Type) where
  | node (label : Label) (shape : ExprShape (Expr Label))

namespace Expr

variable {Label Result : Type}

def label : Expr Label → Label
  | node label _ => label

def shape : Expr Label → ExprShape (Expr Label)
  | node _ shape => shape

def operands (expr : Expr Label) : List (Expr Label) := expr.shape.operands

section
variable (layer : Label → ExprShape Result → Result)

mutual
def fold : Expr Label → Result
  | node label shape => layer label (foldShape shape)

def foldShape : ExprShape (Expr Label) → ExprShape Result
  | .num text => .num text
  | .str text quoting => .str text quoting
  | .name n => .name n
  | .colon => .colon
  | .last => .last
  | .param head args => .param (fold head) (foldAll args)
  | .cellIndex head args => .cellIndex (fold head) (foldAll args)
  | .field base key => .field (fold base) key
  | .matrix rows => .matrix (foldRows rows)
  | .cell rows => .cell (foldRows rows)
  | .unary op operand => .unary op (fold operand)
  | .transpose op operand => .transpose op (fold operand)
  | .binary left op right => .binary (fold left) op (fold right)
  | .range start step stop => .range (fold start) (foldOption step) (fold stop)

def foldAll : List (Expr Label) → List Result
  | [] => []
  | expr :: rest => fold expr :: foldAll rest

def foldRows : List (List (Expr Label)) → List (List Result)
  | [] => []
  | row :: rest => foldAll row :: foldRows rest

def foldOption : Option (Expr Label) → Option Result
  | none => none
  | some expr => some (fold expr)
end

theorem foldAll_eq (exprs : List (Expr Label)) : foldAll layer exprs = exprs.map (fold layer) := by
  induction exprs with
  | nil => rfl
  | cons expr rest ih => simp [foldAll, ih]

theorem foldRows_eq (rows : List (List (Expr Label))) :
    foldRows layer rows = rows.map (·.map (fold layer)) := by
  induction rows with
  | nil => rfl
  | cons row rest ih => simp [foldRows, foldAll_eq, ih]

theorem fold_node (label : Label) (shape : ExprShape (Expr Label)) :
    fold layer (node label shape) = layer label (shape.map (fold layer)) := by
  cases shape <;> simp [fold, foldShape, ExprShape.map, foldAll_eq, foldRows_eq]
  case range start step stop => cases step <;> simp [foldOption]

end

def size : Expr Label → Nat := fold fun _ shape => 1 + total shape.operands

theorem operands_shrink (expr : Expr Label) : total (expr.operands.map size) < expr.size := by
  obtain ⟨label, shape⟩ := expr
  have whole : (node label shape).size = 1 + total (shape.operands.map size) := by
    simp only [size, fold_node, ExprShape.operands_map]
  rw [whole]
  simp only [operands, Expr.shape]
  omega

/-- The expression and every expression inside it, each before its operands. -/
def within (expr : Expr Label) : List (Expr Label) :=
  preorderBy operands size operands_shrink [expr]

/-- Every occurrence of a name, in source order; the name of a field is none. -/
def names : Expr Label → List String :=
  fold fun _ shape => match shape with
    | .name name => [name]
    | shape => shape.operands.flatten

/-- The name in front of the parentheses of an index or call. -/
def callee? : Expr Label → Option String
  | node _ (.param (node _ (.name name)) _) => some name
  | _ => none

/-- Whether `end` or a lone colon stands here and belongs to what is indexed outside: one inside
another index belongs to that index. -/
def selects : Expr Label → Bool :=
  fold fun _ shape => match shape with
    | .last | .colon => true
    | .param _ _ | .cellIndex _ _ => false
    | shape => shape.operands.any id

end Expr

/-- An expression as it is read from a text, where nothing but its shape is known. -/
abbrev ParsedExpr := Expr Unit

end ScriptFlow
