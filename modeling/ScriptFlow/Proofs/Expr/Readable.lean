import ScriptFlow.Expr.Parser
import ScriptFlow.Proofs.Expr.Layer
import ScriptFlow.Proofs.Token.Given

/-!
Readable expressions. What is read from a text has the words, numbers and texts of tokens, its lone
colons are arguments, and `end` stands for a value only inside an index; the landmarks among its
tokens are those of the expression in order.
-/

namespace ScriptFlow

open Token TokenReader

namespace Expr

variable {Label Other : Type}

/-- An expression that a text can say. -/
inductive Readable : Bool → Bool → Expr Label → Prop where
  | num {inIndex asArgument label text} (number : IsNumber text.toList) :
      Readable inIndex asArgument (.node label (.num text))
  | str {inIndex asArgument label text} (quoting : Quoting) (plain : '\n' ∉ text.toList) :
      Readable inIndex asArgument (.node label (.str text quoting))
  | name {inIndex asArgument label name} (isName : IsName name.toList) :
      Readable inIndex asArgument (.node label (.name name))
  | colon {inIndex label} : Readable inIndex true (.node label .colon)
  | last {asArgument label} : Readable true asArgument (.node label .last)
  | param {inIndex asArgument label head args} (heads : Readable inIndex false head)
      (arguments : ∀ arg ∈ args, Readable true true arg) :
      Readable inIndex asArgument (.node label (.param head args))
  | cellIndex {inIndex asArgument label head args} (heads : Readable inIndex false head)
      (arguments : ∀ arg ∈ args, Readable true true arg) :
      Readable inIndex asArgument (.node label (.cellIndex head args))
  | field {inIndex asArgument label base key} (bases : Readable inIndex false base)
      (isName : IsName key.toList) : Readable inIndex asArgument (.node label (.field base key))
  | matrix {inIndex asArgument label rows} (filled : [] ∉ rows)
      (elements : ∀ row ∈ rows, ∀ element ∈ row, Readable inIndex false element) :
      Readable inIndex asArgument (.node label (.matrix rows))
  | cell {inIndex asArgument label rows} (filled : [] ∉ rows)
      (elements : ∀ row ∈ rows, ∀ element ∈ row, Readable inIndex false element) :
      Readable inIndex asArgument (.node label (.cell rows))
  | unary {inIndex asArgument label operand} (op : UnaryOp)
      (operands : Readable inIndex false operand) :
      Readable inIndex asArgument (.node label (.unary op operand))
  | transpose {inIndex asArgument label operand} (op : TransposeOp)
      (operands : Readable inIndex false operand) :
      Readable inIndex asArgument (.node label (.transpose op operand))
  | binary {inIndex asArgument label left right} (op : BinaryOp)
      (lefts : Readable inIndex false left) (rights : Readable inIndex false right) :
      Readable inIndex asArgument (.node label (.binary left op right))
  | range {inIndex asArgument label start step stop} (starts : Readable inIndex false start)
      (steps : ∀ middle ∈ step, Readable inIndex false middle)
      (stops : Readable inIndex false stop) :
      Readable inIndex asArgument (.node label (.range start step stop))

theorem Readable.argument {inIndex : Bool} {expr : Expr Label}
    (readable : Readable inIndex false expr) : Readable inIndex true expr := by
  cases readable with
  | num number => exact .num number
  | str quoting plain => exact .str quoting plain
  | name isName => exact .name isName
  | last => exact .last
  | param heads arguments => exact .param heads arguments
  | cellIndex heads arguments => exact .cellIndex heads arguments
  | field bases isName => exact .field bases isName
  | matrix filled elements => exact .matrix filled elements
  | cell filled elements => exact .cell filled elements
  | unary op operands => exact .unary op operands
  | transpose op operands => exact .transpose op operands
  | binary op lefts rights => exact .binary op lefts rights
  | range starts steps stops => exact .range starts steps stops

def landmarks : Expr Label → List Landmark :=
  fold fun _ shape => match shape with
    | .str text quoting => [(quoting.kind, Quoted.encode quoting text.toList)]
    | .transpose .conjugate operand => operand ++ [(.quote, [])]
    | shape => shape.operands.flatten

section
variable (label : Label) (text key : String) (quoting : Quoting)
  (base left right start stop : Expr Label) (args : List (Expr Label))
  (rows : List (List (Expr Label))) (step : Option (Expr Label))

@[simp] theorem landmarks_num : landmarks (.node label (.num text)) = [] := rfl

@[simp] theorem landmarks_str : landmarks (.node label (.str text quoting)) =
      [(quoting.kind, Quoted.encode quoting text.toList)] := rfl

@[simp] theorem landmarks_name : landmarks (.node label (.name text)) = [] := rfl

@[simp] theorem landmarks_colon : landmarks (.node label .colon) = [] := rfl

@[simp] theorem landmarks_last : landmarks (.node label .last) = [] := rfl

@[simp] theorem landmarks_param :
    landmarks (.node label (.param base args)) = base.landmarks ++ args.flatMap landmarks := by
  simp [landmarks, fold_node, ExprShape.map, ExprShape.operands, List.flatMap]

@[simp] theorem landmarks_cellIndex :
    landmarks (.node label (.cellIndex base args)) = base.landmarks ++ args.flatMap landmarks := by
  simp [landmarks, fold_node, ExprShape.map, ExprShape.operands, List.flatMap]

@[simp] theorem landmarks_field : landmarks (.node label (.field base key)) = base.landmarks := by
  simp [landmarks, fold_node, ExprShape.map, ExprShape.operands]

@[simp] theorem landmarks_matrix :
    landmarks (.node label (.matrix rows)) = rows.flatMap (·.flatMap landmarks) := by
  simp [landmarks, fold_node, ExprShape.map, ExprShape.operands, List.flatMap,
    List.flatten_flatten, Function.comp_def]

@[simp] theorem landmarks_cell :
    landmarks (.node label (.cell rows)) = rows.flatMap (·.flatMap landmarks) := by
  simp [landmarks, fold_node, ExprShape.map, ExprShape.operands, List.flatMap,
    List.flatten_flatten, Function.comp_def]

@[simp] theorem landmarks_unary (op : UnaryOp) :
    landmarks (.node label (.unary op base)) = base.landmarks := by
  simp [landmarks, fold_node, ExprShape.map, ExprShape.operands]

@[simp] theorem landmarks_transpose (op : TransposeOp) :
    landmarks (.node label (.transpose op base)) = base.landmarks ++
      (op.kind.landmark? []).toList := by
  cases op <;> simp [landmarks, fold_node, ExprShape.map, ExprShape.operands, TransposeOp.kind,
    Kind.landmark?, Kind.isLandmark, Kind.isText]

@[simp] theorem landmarks_binary (op : BinaryOp) :
    landmarks (.node label (.binary left op right)) = left.landmarks ++ right.landmarks := by
  simp [landmarks, fold_node, ExprShape.map, ExprShape.operands]

@[simp] theorem landmarks_range : landmarks (.node label (.range start step stop)) =
    start.landmarks ++ (step.toList.flatMap landmarks ++ stop.landmarks) := by
  cases step <;> simp [landmarks, fold_node, ExprShape.map, ExprShape.operands]

end

end Expr
end ScriptFlow
