import ScriptFlow.Proofs.Store.Frame
import ScriptFlow.Proofs.Store.Order

/-!
Putting a statement into a list. The list gets the statement at the index asked for, the statement
belongs to the list from then on, and nothing else changes.
-/

namespace ScriptFlow

theorem idxOf?_middle {front : List Nat} (back : List Nat) {id : Nat} (fresh : id ∉ front) :
    (front ++ id :: back).idxOf? id = some front.length := by
  induction front with
  | nil => simp [List.idxOf?_cons]
  | cons first rest ih =>
      rw [List.mem_cons, not_or] at fresh
      simp [List.idxOf?_cons, Ne.symm fresh.1, ih fresh.2]

theorem insertIdx_middle (front back : List Nat) (id : Nat) :
    (front ++ back).insertIdx front.length id = front ++ id :: back := by
  induction front with
  | nil => rfl
  | cons first rest ih => simp [ih]

namespace Store

variable {store : Store}

theorem position_listed {block : BlockId} {front back : List StoredStmt}
    {stmt : StoredStmt} (listed : store.Lists block (front ++ stmt :: back))
    (fresh : stmt.number ∉ front.map Stmt.number) :
    store.position stmt.number = .ok (block, front.length) := by
  obtain ⟨entry, there, owner⟩ := listed.2 stmt (by simp)
  have index := idxOf?_middle (back.map Stmt.number) fresh
  have members := block_listed listed
  rw [List.map_append, List.map_cons] at members
  simp only [position, Store.stmt, there, found, ok_bind, owner, members, index, List.length_map]
  rfl

/-- The store with a statement put in between the two parts of a list. -/
def insertion (store : Store) (block : BlockId) (front back : List StmtId) (id : StmtId) : Store :=
  { store with
    blocks := store.blocks.set! block (front ++ id :: back)
    stmts := setParent block store.stmts id }

theorem insertStmt_insertion {block : BlockId} {front back : List StmtId} {id : StmtId}
    (listed : store.blocks[block]? = some (front ++ back)) (there : id < store.stmts.size) :
    store.insertStmt block front.length id = .ok (store.insertion block front back id) := by
  have entry : store.stmt id = .ok store.stmts[id] := by
    rw [Store.stmt, Array.getElem?_eq_getElem there, found]
  have members : store.block block = .ok (front ++ back) := by rw [Store.block, listed, found]
  have fits : front.length ≤ (front ++ back).length := by simp
  rw [insertStmt, members, entry, ok_bind, ok_bind, if_pos fits, insertIdx_middle]
  rfl

theorem insertStmt_listed {block : BlockId} {front back : List StoredStmt} {id : StmtId}
    (listed : store.Lists block (front ++ back)) (there : id < store.stmts.size) :
    store.insertStmt block front.length id =
      .ok (store.insertion block (front.map Stmt.number) (back.map Stmt.number) id) := by
  have members := listed.1
  rw [List.map_append] at members
  have inserted := insertStmt_insertion members there
  rwa [List.length_map] at inserted

section
variable {block : BlockId} {front back : List StmtId} {id : StmtId}

theorem insertion_stmts (other : StmtId) :
    (store.insertion block front back id).stmts[other]? = if id = other
      then store.stmts[other]?.map fun entry => { entry with parent := some block }
      else store.stmts[other]? := by
  rw [insertion, setParent, Array.getElem?_modify]

theorem insertion_stmts_size :
    (store.insertion block front back id).stmts.size = store.stmts.size := Array.size_modify

theorem insertion_blocks (other : BlockId) :
    (store.insertion block front back id).blocks[other]? = if block = other
      then if block < store.blocks.size then some (front ++ id :: back) else none
      else store.blocks[other]? := by
  rw [insertion, Array.set!_eq_setIfInBounds, Array.getElem?_setIfInBounds]

theorem insertion_blocks_size :
    (store.insertion block front back id).blocks.size = store.blocks.size := by
  rw [insertion, Array.set!_eq_setIfInBounds, Array.size_setIfInBounds]

end

theorem Grows.insertion {before between : Store} {block : BlockId} {front back : List StmtId}
    {id : StmtId} (grows : before.Grows between []) (fresh : before.stmts.size ≤ id) :
    before.Grows (between.insertion block front back id) [block] where
  stmts other entry there := by
    have early := lt_size_of_getElem? there
    have apart : id ≠ other := by
      rintro rfl
      exact Nat.not_le.mpr early fresh
    rw [insertion_stmts, if_neg apart]
    exact grows.stmts other entry there
  exprs := grows.exprs
  blocks other outside members there := by
    rw [List.mem_singleton] at outside
    rw [insertion_blocks, if_neg (Ne.symm outside)]
    exact grows.blocks other List.not_mem_nil members there
  functions := grows.functions

theorem insertion_lists {block : BlockId} {front back : List StoredStmt} {stmt : StoredStmt}
    (listed : store.Lists block (front ++ back)) (there : stmt.number < store.stmts.size) :
    (store.insertion block (front.map Stmt.number) (back.map Stmt.number) stmt.number).Lists block
      (front ++ stmt :: back) := by
  refine ⟨?_, fun other member => ?_⟩
  · rw [insertion_blocks, if_pos rfl, if_pos (lt_size_of_getElem? listed.1),
      List.map_append, List.map_cons]
  · rw [insertion_stmts]
    by_cases same : stmt.number = other.number
    · rw [if_pos same, ← same, Array.getElem?_eq_getElem there]
      exact ⟨_, rfl, rfl⟩
    · rw [if_neg same]
      refine listed.2 other ?_
      rcases List.mem_append.mp member with inFront | inBack
      · exact List.mem_append_left _ inFront
      · rcases List.mem_cons.mp inBack with rfl | later
        · exact absurd rfl same
        · exact List.mem_append_right _ later

theorem insertion_ordered {block : BlockId} {front back : List StoredStmt}
    {id : StmtId} (ordered : store.Ordered) (listed : store.Lists block (front ++ back))
    (there : id < store.stmts.size) (leaf : store.bodiesOf id = []) :
    (store.insertion block (front.map Stmt.number) (back.map Stmt.number) id).Ordered := by
  refine ordered.of_shapes rfl (fun other => ?_) insertion_stmts_size
    (Nat.le_of_eq insertion_blocks_size.symm) fun other members inside member own => ?_
  · rw [insertion_stmts]
    split
    · rw [Option.map_map]
      rfl
    · rfl
  · rw [insertion_blocks] at inside
    split at inside
    case isFalse => exact ordered.lists other members inside member own
    case isTrue same =>
      subst same
      rw [if_pos (lt_size_of_getElem? listed.1)] at inside
      cases inside
      have old (early : member ∈ (front ++ back).map Stmt.number) :=
        ordered.lists block _ listed.1 member early
      simp only [List.mem_append, List.mem_cons, List.map_append] at own old
      rcases own with early | rfl | late
      · exact old (.inl early)
      · exact ⟨there, by simp [leaf]⟩
      · exact old (.inr late)

theorem insertion_keepsStmt {block : BlockId} {front back : List StmtId} {id : StmtId}
    {stmt : StoredStmt} (kept : store.KeepsStmt stmt) (leaf : stmt.shape.bodies = []) :
    (store.insertion block front back id).KeepsStmt stmt := by
  obtain ⟨entry, there, placed, matched⟩ := kept
  have none := matched.bodies
  rw [leaf, List.forall₂_nil_right_iff] at none
  have still : entry.shape.Match
      (fun label expr => expr.label = label ∧ (store.insertion block front back id).KeepsExpr expr)
      (store.insertion block front back id).Lists stmt.shape :=
    matched.imp (fun _ _ _ _ kept => kept) fun _ inside =>
      absurd inside (by rw [none]; exact List.not_mem_nil)
  by_cases same : id = stmt.number
  · refine ⟨{ entry with parent := some block }, ?_, placed, still⟩
    rw [insertion_stmts, if_pos same, there, Option.map_some]
  · exact ⟨entry, by rw [insertion_stmts, if_neg same, there], placed, still⟩

end Store
end ScriptFlow
