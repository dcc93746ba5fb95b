/-!
Visiting a forest with a stack: the top tree is visited and its children take its place, the first
of them on top. The visit ends because the trees on the stack shrink in total.
-/

namespace ScriptFlow

variable {Tree : Type}

def total : List Nat → Nat
  | [] => 0
  | count :: rest => count + total rest

theorem total_append (front back : List Nat) :
    total (front ++ back) = total front + total back := by
  induction front with
  | nil => exact (Nat.zero_add _).symm
  | cons count rest ih => simp only [List.cons_append, total, ih, Nat.add_assoc]

def preorderBy (children : Tree → List Tree) (size : Tree → Nat)
    (shrinks : ∀ tree, total ((children tree).map size) < size tree) : List Tree → List Tree
  | [] => []
  | top :: stack => top :: preorderBy children size shrinks (children top ++ stack)
termination_by stack => total (stack.map size)
decreasing_by
  have smaller := shrinks top
  simp only [List.map_append, total_append, List.map_cons, total]
  omega

/-- A tree whose nodes carry nothing but a label. -/
inductive Rose (Label : Type) where
  | node (label : Label) (children : List (Rose Label))

namespace Rose

variable {Label : Type}

def label : Rose Label → Label
  | node label _ => label

def children : Rose Label → List (Rose Label)
  | node _ children => children

mutual
def size : Rose Label → Nat
  | node _ children => 1 + sizes children

def sizes : List (Rose Label) → Nat
  | [] => 0
  | tree :: rest => size tree + sizes rest
end

theorem sizes_eq (trees : List (Rose Label)) : sizes trees = total (trees.map size) := by
  induction trees with
  | nil => rfl
  | cons tree rest ih => simp only [sizes, List.map_cons, total, ih]

theorem children_shrink (tree : Rose Label) : total (tree.children.map size) < tree.size := by
  cases tree
  simp only [children, size, sizes_eq]
  omega

/-- The labels of a forest, each before those of the trees below it. -/
def labels (forest : List (Rose Label)) : List Label :=
  (preorderBy children size children_shrink forest).map label

end Rose
end ScriptFlow
