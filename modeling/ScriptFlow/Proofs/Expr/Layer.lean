import ScriptFlow.Expr.Basic
import ScriptFlow.Proofs.Outcome
import ScriptFlow.Proofs.Preorder

/-!
Layers of expressions. An action that succeeds on every operand succeeds on the shape, and whatever
holds of an expression when it holds of its operands holds of every expression.
-/

namespace ScriptFlow

namespace ExprShape

variable {A B C E : Type}

theorem mapM_map_ok {f : A → B} {g : A → C} {action : B → Except E C} {shape : ExprShape A}
    (succeeds : ∀ a ∈ shape.operands, action (f a) = .ok (g a)) :
    (shape.map f).mapM action = .ok (shape.map g) := by
  have row (items : List A) (inside : ∀ a ∈ items, a ∈ shape.operands) :
      (items.map f).mapM action = .ok (items.map g) :=
    ScriptFlow.mapM_map_ok fun a member => succeeds a (inside a member)
  have grid (rows : List (List A)) (inside : ∀ a ∈ rows.flatten, a ∈ shape.operands) :
      (rows.map (·.map f)).mapM (·.mapM action) = .ok (rows.map (·.map g)) :=
    ScriptFlow.mapM_map_ok fun items member =>
      row items fun a below => inside a (List.mem_flatten.mpr ⟨items, member, below⟩)
  cases shape with
  | num | str | name | colon | last => rfl
  | param head args | cellIndex head args =>
      have first := succeeds head List.mem_cons_self
      have others := row args fun a member => List.mem_cons_of_mem _ member
      simp only [map, mapM, first, others]
      rfl
  | field base _ =>
      have first := succeeds base List.mem_cons_self
      simp only [map, mapM, first]
      rfl
  | matrix rows | cell rows =>
      simp only [map, mapM, grid rows fun a member => member]
      rfl
  | unary _ operand | transpose _ operand =>
      have first := succeeds operand List.mem_cons_self
      simp only [map, mapM, first]
      rfl
  | binary left _ right =>
      have first := succeeds left List.mem_cons_self
      have second := succeeds right (List.mem_cons_of_mem _ List.mem_cons_self)
      simp only [map, mapM, first, second]
      rfl
  | range start step stop =>
      have first := succeeds start List.mem_cons_self
      have middle : (step.map f).mapM action = .ok (step.map g) :=
        mapM_option_map_ok fun a member => succeeds a (by simp_all [operands])
      have last := succeeds stop (by simp [operands])
      simp only [map, mapM, first, middle, last]
      rfl

theorem mapM_persists {action action' : A → Except E B}
    (each : ∀ a, Persists (action a) (action' a)) (shape : ExprShape A) :
    Persists (shape.mapM action) (shape.mapM action') := by
  have row := Persists.mapM each
  cases shape with
  | num | str | name | colon | last => exact .rfl
  | param head args | cellIndex head args =>
    exact (each head).bind fun _ => (row args).bind fun _ => .rfl
  | field base _ => exact (each base).bind fun _ => .rfl
  | matrix rows | cell rows => exact (Persists.mapM row rows).bind fun _ => .rfl
  | unary _ operand | transpose _ operand => exact (each operand).bind fun _ => .rfl
  | binary left _ right => exact (each left).bind fun _ => (each right).bind fun _ => .rfl
  | range start step stop =>
      cases step with
      | none => exact (each start).bind fun _ => (each stop).bind fun _ => .rfl
      | some step =>
          have middle : Persists ((some step).mapM action) ((some step).mapM action') :=
            (each step).bind fun _ => .rfl
          exact (each start).bind fun _ => middle.bind fun _ => (each stop).bind fun _ => .rfl

theorem map_congr {f g : A → B} {shape : ExprShape A}
    (same : ∀ a ∈ shape.operands, f a = g a) : shape.map f = shape.map g := by
  cases shape with
  | num | str | name | colon | last => rfl
  | param head args | cellIndex head args => simp_all [map, operands]
  | field base _ => simp_all [map, operands]
  | matrix rows | cell rows =>
      simp only [map, operands, List.mem_flatten] at same ⊢
      congr 1
      exact List.map_congr_left fun row member =>
        List.map_congr_left fun a below => same a ⟨row, member, below⟩
  | unary _ operand | transpose _ operand => simp_all [map, operands]
  | binary left _ right => simp_all [map, operands]
  | range start step stop => cases step <;> simp_all [map, operands]

theorem map_id (shape : ExprShape A) : shape.map (fun a => a) = shape := by
  cases shape <;> simp [map]

theorem map_map (f : A → B) (g : B → C) (shape : ExprShape A) :
    (shape.map f).map g = shape.map (g ∘ f) := by
  cases shape <;> simp [map]

end ExprShape

namespace Expr

variable {Label Other : Type}

theorem induction {P : Expr Label → Prop}
    (node : ∀ label shape, (∀ operand ∈ shape.operands, P operand) → P (.node label shape))
    (expr : Expr Label) : P expr :=
  tree_induction operands_shrink (fun | .node label shape => node label shape) expr

@[simp] theorem label_node (label : Label) (shape) : (Expr.node label shape).label = label := rfl

@[simp] theorem shape_node (label : Label) (shape) : (Expr.node label shape).shape = shape := rfl

theorem within_eq (expr : Expr Label) : expr.within = expr :: expr.operands.flatMap within := by
  have forest (exprs : List (Expr Label)) :
      preorderBy operands size operands_shrink exprs = exprs.flatMap within := by
    induction exprs with
    | nil => simp
    | cons first rest ih =>
        rw [← List.singleton_append, preorder_append, ih]
        rfl
  rw [within, preorder_tree, forest]

theorem within_node (label : Label) (shape : ExprShape (Expr Label)) :
    (node label shape).within = node label shape :: shape.operands.flatMap within := within_eq _

theorem mem_within_self (expr : Expr Label) : expr ∈ expr.within := by
  rw [within_eq]
  exact List.mem_cons_self

theorem mem_within_of_operand {expr operand inner : Expr Label} (below : operand ∈ expr.operands)
    (inside : inner ∈ operand.within) : inner ∈ expr.within := by
  rw [within_eq]
  exact List.mem_cons_of_mem _ (List.mem_flatMap.mpr ⟨operand, below, inside⟩)

theorem names_node {label : Label} {shape : ExprShape (Expr Label)}
    (unnamed : ∀ name, shape ≠ .name name) :
    (node label shape).names = shape.operands.flatMap names := by
  rw [names, fold_node, ← names, List.flatMap_def, ← ExprShape.operands_map]
  cases shape
  case name name => exact absurd rfl (unnamed name)
  all_goals rfl

theorem mem_names_iff (expr : Expr Label) (name : String) :
    name ∈ expr.names ↔ ∃ label, node label (.name name) ∈ expr.within := by
  induction expr using Expr.induction with
  | node label shape ih =>
      rw [within_node]
      -- a name occurs in itself; in all else what occurs are the names in its operands
      by_cases own : ∃ other, shape = .name other
      · obtain ⟨other, rfl⟩ := own
        rw [names, fold_node]
        simp [ExprShape.map, ExprShape.operands, eq_comm]
      · rw [names_node fun other same => own ⟨other, same⟩]
        simp only [List.mem_flatMap, List.mem_cons]
        constructor
        · rintro ⟨inner, member, occurs⟩
          obtain ⟨label, below⟩ := (ih inner member).mp occurs
          exact ⟨label, .inr ⟨inner, member, below⟩⟩
        · rintro ⟨label, here | ⟨inner, member, below⟩⟩
          · cases here
            exact absurd ⟨name, rfl⟩ own
          · exact ⟨inner, member, (ih inner member).mpr ⟨label, below⟩⟩

theorem size_node (label : Label) (shape : ExprShape (Expr Label)) :
    (node label shape).size = 1 + total (shape.operands.map size) := by
  simp only [size, fold_node, ExprShape.operands_map]

theorem size_lt_of_operand (label : Label) {shape : ExprShape (Expr Label)} {operand : Expr Label}
    (below : operand ∈ shape.operands) : operand.size < (node label shape).size := by
  have bound := le_total (List.mem_map_of_mem (f := size) below)
  rw [size_node]
  omega

theorem length_within (expr : Expr Label) : expr.within.length = expr.size := by
  have counted : expr.within.length = total ([expr].map size) :=
    length_preorder (fun tree => by cases tree; exact size_node _ _) [expr]
  simpa [total] using counted

def relabel (f : Label → Other) : Expr Label → Expr Other :=
  fold fun label shape => .node (f label) shape

theorem relabel_node (f : Label → Other) (label : Label) (shape : ExprShape (Expr Label)) :
    relabel f (node label shape) = node (f label) (shape.map (relabel f)) := by
  simp only [relabel, fold_node]

theorem fold_relabel {Result : Type} (layer : ExprShape Result → Result) (f : Label → Other)
    (expr : Expr Label) :
    fold (fun _ => layer) (relabel f expr) = fold (fun _ => layer) expr := by
  induction expr using Expr.induction with
  | node label shape ih =>
      rw [relabel_node, fold_node, fold_node, ExprShape.map_map]
      exact congrArg layer (ExprShape.map_congr ih)

theorem relabel_relabel {Third : Type} (f : Label → Other) (g : Other → Third) (expr : Expr Label) :
    relabel g (relabel f expr) = relabel (g ∘ f) expr := by
  induction expr using Expr.induction with
  | node label shape ih =>
      simp only [relabel_node, ExprShape.map_map]
      exact congrArg _ (ExprShape.map_congr ih)

theorem relabel_id (expr : Expr Label) : relabel (fun label => label) expr = expr := by
  induction expr using Expr.induction with
  | node label shape ih =>
      have same : shape.map (fun operand => operand) = shape := by
        cases shape <;> simp [ExprShape.map]
      rw [relabel_node, ExprShape.map_congr ih, same]

end Expr
end ScriptFlow
