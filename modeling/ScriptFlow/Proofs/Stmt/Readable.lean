import ScriptFlow.Proofs.Expr.Readable
import ScriptFlow.Proofs.Stmt.Relabel
import ScriptFlow.Stmt.Parser

/-!
Readable statements. A statement can be said by a text when its expressions can, its names are
words, a branch has a clause and a declaration a name, and so for every statement inside it.
-/

namespace ScriptFlow

open Token

variable {Label Mark Body : Type}

namespace StmtShape

structure Readable (shape : StmtShape (Expr Mark) Body) : Prop where
  exprs : ∀ expr ∈ shape.exprs, expr.Readable false false
  clauses : ∀ clauses otherwise, shape = .branch clauses otherwise → clauses ≠ []
  var : ∀ var ∈ shape.loopVar?, IsName var.toList
  declared : ∀ name ∈ shape.shared, IsName name.toList
  declares : shape ≠ .global [] ∧ shape ≠ .persistent []

section
variable {Operand : Type} (ofExpr : Operand → List Landmark) (ofBody : Body → List Landmark)

def clauseLandmarks (clause : Operand × Body) : List Landmark := ofExpr clause.1 ++ ofBody clause.2

def landmarks : StmtShape Operand Body → List Landmark
  | branch clauses otherwise =>
    clauses.flatMap (clauseLandmarks ofExpr ofBody) ++ otherwise.toList.flatMap ofBody
  | switch subject cases otherwise =>
      ofExpr subject ++
        (cases.flatMap (clauseLandmarks ofExpr ofBody) ++ otherwise.toList.flatMap ofBody)
  | shape => shape.exprs.flatMap ofExpr ++ shape.bodies.flatMap ofBody

theorem landmarks_map {A B : Type} (f : A → Operand) (g : B → Body) (shape : StmtShape A B) :
    (shape.map f g).landmarks ofExpr ofBody = shape.landmarks (ofExpr ∘ f) (ofBody ∘ g) := by
  cases shape with
  | branch clauses otherwise | switch _ clauses otherwise =>
      cases otherwise
        <;> simp only [map, landmarks, List.flatMap_map, Option.map, Option.toList] <;> rfl
  | _ => simp [map, landmarks, exprs, guards, bodies, Function.comp_def]

end

end StmtShape

namespace Stmt

/-- Every statement in the tree can be said by a text. -/
def Readable (stmt : Stmt Label (Expr Mark)) : Prop := ∀ inner ∈ within [stmt], inner.shape.Readable

def landmarks : Stmt Label (Expr Mark) → List Landmark :=
  fold fun _ shape => shape.landmarks Expr.landmarks List.flatten

theorem readable_node {label : Label}
    {shape : StmtShape (Expr Mark) (List (Stmt Label (Expr Mark)))} :
    Readable (.node label shape) ↔ shape.Readable ∧ ∀ body ∈ shape.bodies, ∀ inner ∈ body,
      inner.Readable := forall_within_node

theorem landmarks_node (label : Label)
    (shape : StmtShape (Expr Mark) (List (Stmt Label (Expr Mark)))) :
    landmarks (.node label shape) = shape.landmarks Expr.landmarks (·.flatMap landmarks) := by
  rw [landmarks, fold_node, StmtShape.landmarks_map]
  rfl

end Stmt
end ScriptFlow
