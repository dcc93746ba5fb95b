import Mathlib.Data.List.Flatten
import Mathlib.Data.List.Pairwise
import ScriptFlow.Proofs.Program.Views

/-!
Statements by number. Every statement of a scope is read back from its own number, and the outlines
of a scope are those of its statements, in the same order.
-/

namespace ScriptFlow

namespace Stmt

theorem nested_outline (stmt : StoredStmt) : stmt.outline.nested = stmt.nested.map outline := by
  obtain ⟨site, shape⟩ := stmt
  rw [outline_node, nested, nested, bodies, bodies, shape_node, shape_node,
    StmtShape.bodies_map, List.map_flatten]

theorem number_outline (stmt : StoredStmt) : stmt.outline.number = stmt.number := by
  obtain ⟨site, shape⟩ := stmt
  rw [outline_node]
  rfl

theorem within_outline (body : List StoredStmt) :
    within (body.map outline) = (within body).map outline := by
  have each (stmt : StoredStmt) : within [stmt.outline] = (within [stmt]).map outline := by
    induction stmt using Stmt.induction with
    | node site shape ih =>
        have below : within (Stmt.node site shape).outline.nested =
            (within shape.bodies.flatten).map outline := by
          rw [nested_outline, within_flatMap, List.flatMap_map]
          change (shape.bodies.flatten.flatMap fun inner => within [inner.outline]) = _
          rw [within_flatMap, List.map_flatMap]
          exact List.flatMap_congr ih
        rw [within_cons, within_nil, List.append_nil, below, within_node, List.map_cons]
  rw [within_flatMap, List.flatMap_map, within_flatMap body, List.map_flatMap]
  exact List.flatMap_congr fun stmt _ => each stmt

variable {stmt : StoredStmt} {body : List StoredStmt}

theorem numbers_sublist (visited : stmt ∈ within body) : (numbers [stmt]).Sublist (numbers body) :=
  (preorder_sublist visited).map number

theorem exprNumbers_sublist (visited : stmt ∈ within body) :
    (exprNumbers [stmt]).Sublist (exprNumbers body) :=
  (preorder_sublist visited).flatMap _

end Stmt

namespace Store

variable {store : Store}

theorem Keeps.within {body : List StoredStmt} (kept : store.Keeps body) {stmt : StoredStmt}
    (visited : stmt ∈ Stmt.within body) : store.Keeps [stmt] :=
  fun inner below => kept inner ((preorder_sublist visited).subset below)

theorem outlines_kept {block : BlockId} {body : List StoredStmt} (listed : store.Lists block body)
    (kept : store.Keeps body) (distinct : (Stmt.numbers body).Nodup) :
    store.outlines block = .ok (body.map Stmt.outline) := by
  rw [outlines, block_listed listed]
  apply mapM_map_ok
  intro stmt member
  have visited := Stmt.mem_within_self member
  exact outline_kept (kept.within visited) (distinct.sublist (Stmt.numbers_sublist visited))

end Store

namespace Program.Holds

variable {program : Program} {layout : Layout} {region : Region} {stmt : StoredStmt}

theorem region_keeps (holds : program.Holds layout) (member : region ∈ layout.regions) :
    program.store.Keeps region.body.2 := (holds.store.body (region_mem_bodies member)).2

theorem stmtTree (holds : program.Holds layout) (member : region ∈ layout.regions)
    (visited : stmt ∈ Stmt.within region.body.2) : program.store.stmtTree stmt.number = .ok stmt :=
  Store.stmtTree_kept ((holds.region_keeps member).within visited)
    ((holds.store.numbers_nodup (region_mem_bodies member)).sublist (Stmt.numbers_sublist visited))
    ((holds.store.exprNumbers_nodup (region_mem_bodies member)).sublist
    (Stmt.exprNumbers_sublist visited))

theorem scopeOutlines (holds : program.Holds layout) (member : region ∈ layout.regions) :
    program.scopeOutlines region.scope = .ok (region.body.2.map Stmt.outline) := by
  have body := region_mem_bodies member
  rw [Program.scopeOutlines, holds.scopeBody member]
  exact Store.outlines_kept (holds.store.body body).1 (holds.store.body body).2
    (holds.store.numbers_nodup body)

theorem mem_stmts (holds : program.Holds layout) {id : StmtId} :
    id < program.store.stmts.size ↔ ∃ region ∈ layout.regions, id ∈ Stmt.numbers region.body.2 := by
  have filled : id ∈ _ ↔ 0 ≤ id ∧ id < program.store.stmts.size := holds.store.stmts.mem_iff
  rw [← Layout.regions_bodies, stmtsOf, List.flatMap_map, List.mem_flatMap] at filled
  rw [filled]
  exact ⟨fun below => ⟨Nat.zero_le id, below⟩, And.right⟩

theorem stmt_of_entry (holds : program.Holds layout) {id : StmtId}
    {entry : StmtEntry} (there : program.store.stmts[id]? = some entry) :
    ∃ region ∈ layout.regions, ∃ stmt ∈ Stmt.within region.body.2, stmt.number = id ∧
      program.store.KeepsStmt stmt := by
  obtain ⟨region, member, numbered⟩ := holds.mem_stmts.mp (lt_size_of_getElem? there)
  obtain ⟨stmt, visited, same⟩ := List.mem_map.mp numbered
  exact ⟨region, member, stmt, visited, same, holds.region_keeps member stmt visited⟩

theorem stmts_apart (holds : program.Holds layout) {other : Region}
    (member : region ∈ layout.regions) (member' : other ∈ layout.regions)
    (apart : region.scope ≠ other.scope) {id : StmtId} (inside : id ∈ Stmt.numbers region.body.2) :
    id ∉ Stmt.numbers other.body.2 := by
  have distinct := holds.store.stmts.nodup
  rw [← Layout.regions_bodies, stmtsOf, List.flatMap_map] at distinct
  have different : region ≠ other := fun same => apart (congrArg Region.scope same)
  have :
      Std.Symm (Function.onFun List.Disjoint fun region : Region => Stmt.numbers region.body.2) :=
    ⟨fun _ _ disjoint _ first second => disjoint second first⟩
  have disjoint := (List.nodup_flatMap.mp distinct).2.forall member member' different
  exact fun inside' => disjoint inside inside'

end Program.Holds
end ScriptFlow
