import Mathlib.Data.List.Perm.Basic
import ScriptFlow.Proofs.Counter.Repeated
import ScriptFlow.Proofs.Store.Descent

/-!
The tables of a program as a forest. Every number in the tables is used once: as a root, or by the
one node that it is below.
-/

namespace ScriptFlow

namespace Program

variable (program : Program)

def listedStmts : List StmtId := program.store.blocks.toList.flatten

/-- The lists of the script, of the functions and inside the statements. -/
def ownedLists : List BlockId :=
  program.script.toList ++ program.store.functions.toList.map FunctionEntry.body ++
    program.store.stmts.toList.flatMap fun entry => entry.shape.bodies

/-- The expressions of the statements and the operands of the expressions. -/
def usedExprs : List ExprId :=
  program.store.stmts.toList.flatMap (fun entry => entry.shape.exprs) ++
    program.store.exprs.toList.flatMap ExprShape.operands

def listedFunctions : List FuncId :=
  program.functions ++ program.store.functions.toList.flatMap FunctionEntry.nested

/-- Nothing is shared and nothing is left over: what is used are exactly the numbers of the table,
each once. References go back, and a statement knows the list that it is in. -/
structure IsForest : Prop where
  stmts : program.listedStmts.Perm (List.range program.store.stmts.size)
  lists : program.ownedLists.Perm (List.range program.store.blocks.size)
  exprs : program.usedExprs.Perm (List.range program.store.exprs.size)
  functions : program.listedFunctions.Perm (List.range program.store.functions.size)
  parents : ∀ (id : StmtId) entry, program.store.stmts[id]? = some entry →
    ∃ (block : BlockId) (members : List StmtId),
      entry.parent = some block ∧ program.store.blocks[block]? = some members ∧ id ∈ members
  operands : ∀ (id : ExprId) shape, program.store.exprs[id]? = some shape →
      ∀ operand ∈ shape.operands, operand < id
  bodies : ∀ (block : BlockId) members, program.store.blocks[block]? = some members →
      ∀ id ∈ members, ∀ entry, program.store.stmts[id]? = some entry →
      ∀ body ∈ entry.shape.bodies, body < block

end Program

theorem Fills.entries_perm {A B : Type} {table : Array A}
    {ids : List Nat} (fills : Fills 0 ids table.size) (f : A → List B) :
    (table.toList.flatMap f).Perm (ids.flatMap (entries table f)) := by
  rw [← flatMap_range_entries]
  exact (fills.flatMap_right _).symm

theorem Fills.perm_range {ids : List Nat} {size : Nat} (fills : Fills 0 ids size) :
    ids.Perm (List.range size) := fills

theorem perm_flatMap {A B : Type} {items : List A} {f g h : A → List B}
    (each : ∀ a ∈ items, (f a ++ g a).Perm (h a)) :
    (items.flatMap f ++ items.flatMap g).Perm (items.flatMap h) :=
  (List.flatMap_append_perm items f g).trans (List.Perm.flatMap_left items each)

namespace Store

variable {store : Store}

theorem members_listed {block : BlockId} {body : List StoredStmt}
    (listed : store.Lists block body) : entries store.blocks id block = body.map Stmt.number :=
  entries_some listed.1

theorem members_lists {blocks : List BlockId} {bodies : List (List StoredStmt)}
    (lists : List.Forall₂ store.Lists blocks bodies) :
    blocks.flatMap (entries store.blocks id) = bodies.flatten.map Stmt.number := by
  induction lists with
  | nil => rfl
  | cons head _ ih =>
    rw [List.flatMap_cons, List.flatten_cons, List.map_append, members_listed head, ih]

theorem members_bodies {stmt : StoredStmt} (kept : store.KeepsStmt stmt) :
    (store.bodiesOf stmt.number).flatMap (entries store.blocks id) =
      stmt.nested.map Stmt.number := by
  obtain ⟨site, shape⟩ := stmt
  exact members_lists kept.lists

theorem members_perm {block : BlockId} {body : List StoredStmt}
    (listed : store.Lists block body) (kept : store.Keeps body) :
    ((store.blockNumbers body ++ [block]).flatMap (entries store.blocks id)).Perm
      (Stmt.numbers body) := by
  have inner : (store.blockNumbers body).flatMap (entries store.blocks id) =
      ((Stmt.within body).flatMap Stmt.nested).map Stmt.number := by
    rw [blockNumbers, List.flatMap_assoc, List.map_flatMap]
    exact List.flatMap_congr fun stmt visited => members_bodies (kept stmt visited)
  rw [List.flatMap_append, List.flatMap_singleton, members_listed listed, inner, ← List.map_append]
  exact List.perm_append_comm.map Stmt.number |>.trans ((preorder_perm body).map Stmt.number).symm

theorem exists_lists {block : BlockId} {body : List StoredStmt} (listed : store.Lists block body)
    (kept : store.Keeps body) {stmt : StoredStmt} (visited : stmt ∈ Stmt.within body) :
    ∃ block list, store.Lists block list ∧ stmt ∈ list := by
  rcases List.mem_append.mp ((preorder_perm body).mem_iff.mp visited) with root | below
  · exact ⟨block, body, listed, root⟩
  · obtain ⟨⟨site, shape⟩, outer, inside⟩ := List.mem_flatMap.mp below
    obtain ⟨list, own, member⟩ := List.mem_flatten.mp inside
    obtain ⟨inner, _, lists⟩ := exists_left_of_forall₂ (kept _ outer).lists own
    exact ⟨inner, list, lists, member⟩

theorem exprs_entry {stmt : StoredStmt} (kept : store.KeepsStmt stmt) :
    entries store.stmts (fun entry => entry.shape.exprs) stmt.number =
      stmt.shape.exprs.map Expr.label := by
  obtain ⟨entry, there, _, matched⟩ := kept
  rw [entries_some there]
  have same :
      List.Forall₂ (fun id expr => id = Expr.label expr) entry.shape.exprs stmt.shape.exprs :=
    matched.exprs.imp fun _ _ kept => kept.1.symm
  rwa [← List.forall₂_map_right_iff (R := Eq), List.forall₂_eq_eq_eq] at same

theorem operands_entries {expr : StoredExpr} (kept : store.KeepsExpr expr) :
    (expr.within.map Expr.label).flatMap (entries store.exprs ExprShape.operands) =
      (expr.within.flatMap Expr.operands).map Expr.label := by
  rw [List.flatMap_map, List.map_flatMap]
  refine List.flatMap_congr fun node inside => ?_
  rw [entries_some (kept node inside), ExprShape.operands_map]
  rfl

theorem operands_perm {expr : StoredExpr} (kept : store.KeepsExpr expr) :
    ([expr.label] ++ (expr.within.map Expr.label).flatMap
      (entries store.exprs ExprShape.operands)).Perm (expr.within.map Expr.label) := by
  rw [operands_entries kept, ← List.map_singleton, ← List.map_append]
  exact ((preorder_perm [expr]).map Expr.label).symm

theorem exprs_perm {body : List StoredStmt} (kept : store.Keeps body) :
    ((Stmt.numbers body).flatMap (entries store.stmts fun entry => entry.shape.exprs) ++
      (Stmt.exprNumbers body).flatMap (entries store.exprs ExprShape.operands)).Perm
      (Stmt.exprNumbers body) := by
  rw [Stmt.numbers, List.flatMap_map, Stmt.exprNumbers, List.flatMap_assoc]
  refine perm_flatMap fun stmt visited => ?_
  rw [exprs_entry (kept stmt visited), ← List.flatMap_singleton' (stmt.shape.exprs.map Expr.label),
    List.flatMap_map, List.flatMap_assoc]
  exact perm_flatMap fun expr member => operands_perm ((kept stmt visited).exprs expr member)

theorem bodies_entries {body : List StoredStmt} :
    (Stmt.numbers body).flatMap (entries store.stmts fun entry => entry.shape.bodies) =
      store.blockNumbers body := by
  rw [Stmt.numbers, List.flatMap_map]
  rfl

end Store

namespace Program.Holds

variable {program : Program} {layout : Layout}

theorem listedStmts_perm (holds : program.Holds layout) :
    program.listedStmts.Perm (List.range program.store.stmts.size) := by
  have lists := holds.store.blocks.entries_perm id
  rw [List.flatMap_id, Store.listsOf, List.flatMap_assoc] at lists
  refine (lists.trans (List.Perm.flatMap_left _ fun body member => ?_)).trans
    holds.store.stmts.perm_range
  exact Store.members_perm (holds.store.body member).1 (holds.store.body member).2

theorem usedExprs_perm (holds : program.Holds layout) :
    program.usedExprs.Perm (List.range program.store.exprs.size) := by
  have roots := holds.store.stmts.entries_perm fun entry => entry.shape.exprs
  have inner := holds.store.exprs.entries_perm ExprShape.operands
  rw [stmtsOf, List.flatMap_assoc] at roots
  rw [exprsOf, List.flatMap_assoc] at inner
  refine ((roots.append inner).trans (perm_flatMap fun body member => ?_)).trans
    holds.store.exprs.perm_range
  exact Store.exprs_perm (holds.store.body member).2

theorem routines_entries {B : Type} (holds : program.Holds layout) (f : FunctionEntry → List B) :
    (program.store.functions.toList.flatMap f).Perm
      ((Rose.nodes layout.functions).flatMap fun tree =>
        f ⟨tree.label.header, tree.label.body.1, tree.children.map fun child =>
          child.label.id⟩) := by
  have each := holds.store.functions.entries_perm f
  rw [Rose.labels_eq, List.map_map, List.flatMap_map] at each
  refine each.trans (.of_eq (List.flatMap_congr fun tree visited => ?_))
  exact entries_some (holds.store.routines tree visited).1

theorem ownedLists_perm (holds : program.Holds layout) :
    program.ownedLists.Perm (List.range program.store.blocks.size) := by
  have inner := holds.store.stmts.entries_perm fun entry => entry.shape.bodies
  rw [stmtsOf, List.flatMap_assoc] at inner
  have functions := holds.routines_entries fun entry => [entry.body]
  have roots : program.script.toList ++ (Rose.nodes layout.functions).flatMap
      (fun tree => [tree.label.body.1]) = layout.bodies.flatMap fun body => [body.1] := by
    rw [holds.script, Layout.bodies, List.flatMap_append, List.flatMap_map,
      Rose.labels_eq, List.flatMap_map]
    cases layout.script <;> rfl
  rw [ownedLists, ← List.flatMap_singleton' (program.store.functions.toList.map _),
    List.flatMap_map]
  refine ((functions.append_left _).append inner).trans ?_
  rw [roots]
  refine (perm_flatMap fun body member => ?_).trans holds.store.blocks.perm_range
  rw [Store.bodies_entries]
  exact List.perm_append_comm

theorem listedFunctions_perm (holds : program.Holds layout) :
    program.listedFunctions.Perm (List.range program.store.functions.size) := by
  have nested := holds.routines_entries FunctionEntry.nested
  have visits : (Rose.nodes layout.functions).Perm
      (layout.functions ++ (Rose.nodes layout.functions).flatMap Rose.children) :=
    preorder_perm layout.functions
  have order := visits.map fun tree => tree.label.id
  rw [List.map_append, List.map_flatMap] at order
  rw [listedFunctions, holds.functions]
  refine ((nested.append_left _).trans order.symm).trans ?_
  have filled := holds.store.functions.perm_range
  rwa [Rose.labels_eq, List.map_map] at filled

theorem isForest (holds : program.Holds layout) : program.IsForest where
  stmts := holds.listedStmts_perm
  lists := holds.ownedLists_perm
  exprs := holds.usedExprs_perm
  functions := holds.listedFunctions_perm
  parents id entry there := by
    have used := holds.store.stmts.mem_iff.mpr ⟨Nat.zero_le _, lt_size_of_getElem? there⟩
    obtain ⟨body, member, inside⟩ := List.mem_flatMap.mp used
    obtain ⟨stmt, visited, rfl⟩ := List.mem_map.mp inside
    have held := holds.store.body member
    obtain ⟨block, list, listed, own⟩ := Store.exists_lists held.1 held.2 visited
    obtain ⟨same, found, parent⟩ := listed.2 stmt own
    cases there.symm.trans found
    exact ⟨block, _, parent, listed.1, List.mem_map_of_mem own⟩
  operands := holds.store.ordered.operands
  bodies block members there id member entry found body inside := by
    refine (holds.store.ordered.lists block members there id member).2 body ?_
    rw [Store.bodiesOf, found]
    exact inside

end Program.Holds

/-- Every parsed program is a forest, and so is what any number of instrumentations make of it. -/
theorem Program.instrumentAll_isForest {source : List Char} {program : Program}
    (parsed : parse source = .ok program) (choices : List Bool) :
    ∃ result, program.instrumentAll choices = .ok result ∧ result.IsForest := by
  obtain ⟨layout, holds⟩ := parse_holds parsed
  obtain ⟨result, layout', ran, holds', _⟩ :=
    holds.instrumentAll (P := fun _ => True) (fun _ _ _ => trivial) trivial choices
  exact ⟨result, ran, holds'.isForest⟩

theorem Program.nested_loops_isForest :
    ∃ program, parse
      "while f(1)\n for i = 1:3\n  x = [i f(i)];\n end\nend\nfunction y = f(x)\ny = x';\nend\n".toList =
        .ok program ∧
      ∃ result, program.instrumentAll [true, false] = .ok result ∧ result.IsForest := by
  obtain ⟨program, parsed⟩ := exists_ok (by decide +kernel : (parse
    "while f(1)\n for i = 1:3\n  x = [i f(i)];\n end\nend\nfunction y = f(x)\ny = x';\nend\n".toList).toOption.isSome)
  exact ⟨program, parsed, instrumentAll_isForest parsed [true, false]⟩

end ScriptFlow
