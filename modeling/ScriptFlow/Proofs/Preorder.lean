import Mathlib.Data.List.Forall2
import ScriptFlow.Forest

/-!
Preorders. The visit of a forest is the visit of its front followed by that of its back, so every
fact about a visit goes by the trees of the forest one after another.
-/

namespace ScriptFlow

theorem le_total {count : Nat} {counts : List Nat} (member : count ∈ counts) :
    count ≤ total counts := by
  induction counts with
  | nil => cases member
  | cons first rest ih =>
      simp only [total]
      rcases List.mem_cons.mp member with rfl | later
      · omega
      · have := ih later
        omega

theorem total_perm {counts counts' : List Nat} (same : counts.Perm counts') :
    total counts = total counts' := by
  induction same with
  | nil => rfl
  | cons count _ ih => rw [total, total, ih]
  | swap first second rest =>
      simp only [total]
      omega
  | trans _ _ first second => exact first.trans second

section
variable {Tree : Type} {children : Tree → List Tree} {size : Tree → Nat}
  {shrinks : ∀ tree, total ((children tree).map size) < size tree}

theorem size_lt_of_child {tree child : Tree}
    (shrinks : ∀ tree, total ((children tree).map size) < size tree)
    (below : child ∈ children tree) : size child < size tree :=
  Nat.lt_of_le_of_lt (le_total (List.mem_map_of_mem below)) (shrinks tree)

/-- What holds of a tree when it holds of its children holds of every tree. -/
theorem tree_induction {P : Tree → Prop}
    (shrinks : ∀ tree, total ((children tree).map size) < size tree)
    (step : ∀ tree, (∀ child ∈ children tree, P child) → P tree) (tree : Tree) : P tree :=
  step tree fun child _ => tree_induction shrinks step child
termination_by size tree
decreasing_by exact size_lt_of_child shrinks ‹_›

@[simp] theorem preorder_nil : preorderBy children size shrinks [] = [] := by rw [preorderBy]

theorem preorder_cons (tree : Tree) (rest : List Tree) :
    preorderBy children size shrinks (tree :: rest) =
      tree :: preorderBy children size shrinks (children tree ++ rest) := by
  rw [preorderBy]

theorem preorder_append (front back : List Tree) :
    preorderBy children size shrinks (front ++ back) =
      preorderBy children size shrinks front ++ preorderBy children size shrinks back := by
  fun_induction preorderBy children size shrinks front with
  | case1 => simp
  | case2 top stack ih =>
      rw [List.cons_append, preorder_cons, ← List.append_assoc, ih, List.cons_append]

theorem preorder_tree (tree : Tree) :
    preorderBy children size shrinks [tree] =
      tree :: preorderBy children size shrinks (children tree) := by
  rw [preorder_cons, List.append_nil]

theorem preorder_flatMap (forest : List Tree) :
    preorderBy children size shrinks forest =
      forest.flatMap fun tree => tree :: preorderBy children size shrinks (children tree) := by
  induction forest with
  | nil => simp
  | cons tree rest ih =>
      rw [preorder_cons, preorder_append, ih, List.flatMap_cons, List.cons_append]

theorem mem_preorder_self {tree : Tree} {forest : List Tree} (member : tree ∈ forest) :
    tree ∈ preorderBy children size shrinks forest := by
  rw [preorder_flatMap]
  exact List.mem_flatMap.mpr ⟨tree, member, List.mem_cons_self⟩

theorem preorder_subset {tree : Tree} {forest : List Tree}
    (visited : tree ∈ preorderBy children size shrinks forest) :
    ∀ node ∈ preorderBy children size shrinks (children tree),
      node ∈ preorderBy children size shrinks forest := by
  fun_induction preorderBy children size shrinks forest with
  | case1 => cases visited
  | case2 top stack ih =>
      intro node below
      rcases List.mem_cons.mp visited with rfl | later
      · rw [preorder_append]
        exact List.mem_cons_of_mem _ (List.mem_append_left _ below)
      · exact List.mem_cons_of_mem _ (ih later node below)

theorem preorder_sublist {tree : Tree} {forest : List Tree}
    (visited : tree ∈ preorderBy children size shrinks forest) :
    (preorderBy children size shrinks [tree]).Sublist
      (preorderBy children size shrinks forest) := by
  fun_induction preorderBy children size shrinks forest with
  | case1 => cases visited
  | case2 top stack ih =>
      rcases List.mem_cons.mp visited with rfl | later
      · rw [preorder_tree, preorder_append]
        exact (List.sublist_append_left _ _).cons_cons _
      · exact (ih later).cons _

theorem preorder_perm (forest : List Tree) :
    (preorderBy children size shrinks forest).Perm
      (forest ++ (preorderBy children size shrinks forest).flatMap children) := by
  fun_induction preorderBy children size shrinks forest with
  | case1 => exact .nil
  | case2 top stack ih =>
      rw [List.cons_append, List.flatMap_cons]
      refine .cons _ (ih.trans ?_)
      rw [List.append_assoc]
      exact List.perm_append_comm_assoc _ _ _

/-- A visit meets every node once when the size of a tree counts its nodes. -/
theorem length_preorder (counts : ∀ tree, size tree = 1 + total ((children tree).map size))
    (forest : List Tree) :
    (preorderBy children size shrinks forest).length = total (forest.map size) := by
  fun_induction preorderBy children size shrinks forest with
  | case1 => rfl
  | case2 top stack ih =>
      have node := counts top
      simp only [List.map_append, total_append] at ih
      simp only [List.length_cons, List.map_cons, total]
      omega

end
end ScriptFlow
