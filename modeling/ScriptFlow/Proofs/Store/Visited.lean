import Mathlib.Logic.Relation
import ScriptFlow.Program.Visit
import ScriptFlow.Proofs.Store.Kept

/-!
Preorders by number. What is below a number is read from the tables; a number comes before what is
below it, and all that comes before the next number beside it. A visit that puts what is below a
number on top of its stack goes through the numbers in this order, one in a round. It ends because
the order is there: numbers below need not be smaller.
-/

namespace ScriptFlow

open Store (Checked)

/-- The roots and what is below them in the order of the recursion: a root, what is below it, then
the roots beside it. -/
inductive InPreorder (below : Nat → Checked (List Nat)) : List Nat → List Nat → Prop where
  | nil : InPreorder below [] []
  | cons {id : Nat} {next inner rest behind : List Nat} (found : below id = .ok next)
      (down : InPreorder below next inner) (beside : InPreorder below rest behind) :
      InPreorder below (id :: rest) (id :: (inner ++ behind))

def LiesBelow (below : Nat → Checked (List Nat)) (outer inner : Nat) : Prop :=
  ∃ next, below outer = .ok next ∧ inner ∈ next

/-- The numbers are those of the roots and of everything that a way down from a root comes to, in
preorder and each of them once. -/
structure Enumerates (below : Nat → Checked (List Nat)) (roots ids : List Nat) : Prop where
  preorder : InPreorder below roots ids
  distinct : ids.Nodup
  mem_iff : ∀ id, id ∈ ids ↔ ∃ root ∈ roots, Relation.ReflTransGen (LiesBelow below) root id

namespace InPreorder

variable {below : Nat → Checked (List Nat)} {roots ids : List Nat}

theorem root_mem (order : InPreorder below roots ids) : ∀ root ∈ roots, root ∈ ids := by
  induction order with
  | nil => exact fun _ member => member
  | cons _ _ _ _ later =>
      intro root member
      rcases List.mem_cons.mp member with rfl | other
      · exact List.mem_cons_self
      · exact List.mem_cons_of_mem _ (List.mem_append_right _ (later root other))

theorem closed (order : InPreorder below roots ids) {outer inner : Nat} (member : outer ∈ ids)
    (edge : LiesBelow below outer inner) : inner ∈ ids := by
  induction order with
  | nil => cases member
  | cons found down _ lower later =>
      refine List.mem_cons_of_mem _ (List.mem_append.mpr ?_)
      rcases List.mem_cons.mp member with rfl | other
      · obtain ⟨next, read, below⟩ := edge
        cases found.symm.trans read
        exact .inl (down.root_mem _ below)
      · exact (List.mem_append.mp other).imp lower later

theorem reached (order : InPreorder below roots ids) :
    ∀ id ∈ ids, ∃ root ∈ roots, Relation.ReflTransGen (LiesBelow below) root id := by
  induction order with
  | nil => exact fun _ member => absurd member List.not_mem_nil
  | @cons top next _ _ _ found _ _ lower later =>
      intro id member
      rcases List.mem_cons.mp member with rfl | other
      · exact ⟨id, List.mem_cons_self, .refl⟩
      · rcases List.mem_append.mp other with inside | outside
        · obtain ⟨child, below, way⟩ := lower id inside
          exact ⟨top, List.mem_cons_self, way.head ⟨next, found, below⟩⟩
        · obtain ⟨root, beside, way⟩ := later id outside
          exact ⟨root, List.mem_cons_of_mem _ beside, way⟩

theorem mem_iff (order : InPreorder below roots ids) (id : Nat) :
    id ∈ ids ↔ ∃ root ∈ roots, Relation.ReflTransGen (LiesBelow below) root id := by
  constructor
  · exact order.reached id
  · rintro ⟨root, member, way⟩
    induction way with
    | refl => exact order.root_mem root member
    | tail _ edge inside => exact order.closed inside edge

theorem enumerates (order : InPreorder below roots ids) (distinct : ids.Nodup) :
    Enumerates below roots ids :=
  ⟨order, distinct, order.mem_iff⟩

theorem of_append {front back : List Nat} (order : InPreorder below (front ++ back) ids) :
    ∃ first second, ids = first ++ second ∧ InPreorder below front first ∧
      InPreorder below back second := by
  induction front generalizing ids with
  | nil => exact ⟨[], ids, rfl, .nil, order⟩
  | cons id front ih =>
      cases order with
      | @cons _ _ inner _ _ found down beside =>
          obtain ⟨first, second, rfl, here, there⟩ := ih beside
          exact ⟨id :: (inner ++ first), second, by simp, .cons found down here, there⟩

theorem of_forest {Tree : Type} {children : Tree → List Tree} {size : Tree → Nat}
    {shrinks : ∀ tree, total ((children tree).map size) < size tree} {number : Tree → Nat}
    (forest : List Tree) (reads : ∀ tree ∈ preorderBy children size shrinks forest,
      below (number tree) = .ok ((children tree).map number)) : InPreorder below (forest.map number)
      ((preorderBy children size shrinks forest).map number) := by
  -- the visit of a forest goes on with the children and the rest as one forest, the recursion takes
  -- them apart
  fun_induction preorderBy children size shrinks forest with
  | case1 => exact .nil
  | case2 top stack ih =>
      have order := ih fun tree later => reads tree (List.mem_cons_of_mem _ later)
      rw [List.map_append] at order
      obtain ⟨inner, behind, same, down, beside⟩ := order.of_append
      rw [List.map_cons, List.map_cons, same]
      exact .cons (reads top List.mem_cons_self) down beside

end InPreorder

namespace Store

theorem pushAll_eq (ids stack : List Nat) : pushAll ids stack = ids ++ stack := by
  rw [pushAll, List.foldl_reverse]
  exact List.foldr_cons_eq_append'

section
variable {below : Nat → Checked (List Nat)}
  {push : Nat → List Nat → Checked (List Nat)} {roots ids : List Nat}
  (pushes : ∀ id next, below id = .ok next → ∀ stack, push id stack = .ok (next ++ stack))
include pushes

/-- A visit goes through the numbers on top of its stack in preorder, and with the rounds left
through the rest. -/
theorem visit_preorder (order : InPreorder below roots ids) (visited stack : List Nat)
    (rounds : Nat) : visit push visited (ids.length + rounds) (roots ++ stack) =
      visit push (visited ++ ids) rounds stack := by
  induction order generalizing visited stack rounds with
  | nil => rw [List.length_nil, Nat.zero_add, List.nil_append, List.append_nil]
  | @cons id next inner rest behind found _ _ lower later =>
      have count : (id :: (inner ++ behind)).length + rounds = inner.length +
          (behind.length + rounds) + 1 := by
        rw [List.length_cons, List.length_append]
        omega
      rw [count, List.cons_append, visit, pushes id next found, ok_bind, lower, later]
      simp only [List.append_assoc, List.cons_append, List.nil_append]

theorem visit_short (order : InPreorder below roots ids) (visited stack : List Nat) {rounds : Nat}
    (short : rounds < ids.length) : visit push visited rounds (roots ++ stack) = .ok none := by
  induction order generalizing visited stack rounds with
  | nil => cases short
  | @cons id next inner rest behind found down _ lower later =>
      cases rounds with
      | zero => rfl
      | succ rounds =>
          rw [List.length_cons, List.length_append] at short
          rw [List.cons_append, visit, pushes id next found, ok_bind]
          by_cases inside : rounds < inner.length
          · exact lower _ _ inside
          · -- what is below the number is visited, and the rounds end among what is beside it
            obtain ⟨left, rfl⟩ := Nat.exists_eq_add_of_le (Nat.le_of_not_lt inside)
            rw [visit_preorder pushes down]
            exact later _ _ (by omega)

theorem visit_eq (order : InPreorder below roots ids) (rounds : Nat) :
    visit push [] rounds roots = .ok (if ids.length ≤ rounds then some ids else none) := by
  by_cases enough : ids.length ≤ rounds
  · obtain ⟨left, rfl⟩ := Nat.exists_eq_add_of_le enough
    have whole := visit_preorder pushes order [] [] left
    rw [List.append_nil, List.nil_append] at whole
    rw [whole, if_pos enough]
    cases left <;> rfl
  · have short := visit_short pushes order [] [] (Nat.lt_of_not_le enough)
    rw [List.append_nil] at short
    rw [short, if_neg enough]

end

section
variable (store : Store)

def operandsOf (id : ExprId) : Checked (List ExprId) := return (← store.expr id).operands

def nestedIn (id : StmtId) : Checked (List StmtId) :=
  return (← (← store.stmt id).shape.bodies.mapM store.block).flatten

def functionsIn (id : FuncId) : Checked (List FuncId) := return (← store.function id).nested

def name? (id : ExprId) : Option String := store.exprs[id]?.bind ExprShape.name?

end

variable {store : Store}

theorem pushOperands_eq (id : ExprId) (next : List ExprId) (found : store.operandsOf id = .ok next)
    (stack : List ExprId) : store.pushOperands id stack = .ok (next ++ stack) := by
  obtain ⟨shape, there, same⟩ := bind_eq_ok found
  cases same
  rw [pushOperands, there, ok_bind, pushAll_eq]
  rfl

theorem pushBodies_eq {bodies : List BlockId} {lists : List (List StmtId)}
    (found : bodies.mapM store.block = .ok lists) (stack : List StmtId) :
    bodies.reverse.foldlM (fun stack block => return pushAll (← store.block block) stack) stack =
      (.ok (lists.flatten ++ stack) : Checked (List StmtId)) := by
  have each := forall₂_of_mapM_ok found
  clear found
  induction each with
  | nil => rfl
  | cons here _ ih =>
      rw [List.reverse_cons, List.foldlM_append, ih, ok_bind, List.foldlM_cons, here, ok_bind,
        pushAll_eq, List.flatten_cons, List.append_assoc]
      rfl

theorem pushNested_eq (id : StmtId) (next : List StmtId) (found : store.nestedIn id = .ok next)
    (stack : List StmtId) : store.pushNested id stack = .ok (next ++ stack) := by
  obtain ⟨entry, there, found⟩ := bind_eq_ok found
  obtain ⟨lists, read, same⟩ := bind_eq_ok found
  cases same
  rw [pushNested, there, ok_bind, pushBodies_eq read]

theorem pushFunctions_eq (id : FuncId) (next : List FuncId)
    (found : store.functionsIn id = .ok next) (stack : List FuncId) :
    store.pushFunctions id stack = .ok (next ++ stack) := by
  obtain ⟨entry, there, same⟩ := bind_eq_ok found
  cases same
  rw [pushFunctions, there, ok_bind, pushAll_eq]
  rfl

theorem visitExprs_eq {id : ExprId} {ids : List ExprId}
    (order : InPreorder store.operandsOf [id] ids) (rounds : Nat) :
    store.visitExprs rounds id = .ok (if ids.length ≤ rounds then some ids else none) :=
  visit_eq pushOperands_eq order rounds

theorem visitStmts_eq {block : BlockId} {members ids : List StmtId}
    (found : store.block block = .ok members)
    (order : InPreorder store.nestedIn members ids) (rounds : Nat) :
    store.visitStmts rounds block = .ok (if ids.length ≤ rounds then some ids else none) := by
  rw [visitStmts, found, ok_bind, pushAll_eq, List.append_nil]
  exact visit_eq pushNested_eq order rounds

end Store

theorem Program.visitScopes_eq {program : Program} {ids : List FuncId}
    (order : InPreorder program.store.functionsIn program.functions ids) (rounds : Nat) :
    program.visitScopes rounds =
      .ok (if ids.length ≤ rounds then some (program.scopesOver ids) else none) := by
  rw [visitScopes, Store.pushAll_eq, List.append_nil,
    Store.visit_eq Store.pushFunctions_eq order, ok_bind]
  split <;> rfl

end ScriptFlow
