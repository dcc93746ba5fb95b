import ScriptFlow.Proofs.Store.Kept
import ScriptFlow.Store.Edit

/-!
The order of the tables. What a node refers to is there before the node is, so references go back:
from an expression to its operands, and from a list to the lists inside its statements.
-/

namespace ScriptFlow

theorem getElem?_push_elim {A : Type} {table : Array A} {new a : A} {id : Nat}
    (there : (table.push new)[id]? = some a) : table[id]? = some a ∨ id = table.size ∧ a = new := by
  rw [Array.getElem?_push] at there
  split at there
  · exact .inr ⟨‹_›, (Option.some.inj there).symm⟩
  · exact .inl there

namespace Store

/-- Operands come before their expression, and the lists inside a statement before every list that
the statement is in. -/
structure Ordered (store : Store) : Prop where
  operands : ∀ (id : ExprId) shape, store.exprs[id]? = some shape →
      ∀ operand ∈ shape.operands, operand < id
  bodies : ∀ (id : StmtId) entry, store.stmts[id]? = some entry →
      ∀ body ∈ entry.shape.bodies, body < store.blocks.size
  lists : ∀ (block : BlockId) members, store.blocks[block]? = some members →
    ∀ id ∈ members, id < store.stmts.size ∧ ∀ body ∈ store.bodiesOf id, body < block

theorem bodiesOf_eq_of_shape {before after : Store} {id : StmtId}
    (same : after.stmts[id]?.map StmtEntry.shape = before.stmts[id]?.map StmtEntry.shape) :
    after.bodiesOf id = before.bodiesOf id := by
  have bodies := congrArg (Option.map StmtShape.bodies) same
  rw [Option.map_map, Option.map_map] at bodies
  exact congrArg (Option.getD · []) bodies

namespace Ordered

variable {store : Store}

theorem empty : Store.empty.Ordered :=
  ⟨fun _ _ there => absurd there (by simp [Store.empty]), fun _ _ there =>
    absurd there (by simp [Store.empty]), fun _ _ there => absurd there (by simp [Store.empty])⟩

theorem bodiesOf_lt (ordered : store.Ordered) (id : StmtId) :
    ∀ body ∈ store.bodiesOf id, body < store.blocks.size := by
  intro body member
  rw [bodiesOf] at member
  cases there : store.stmts[id]? with
  | none =>
      rw [there] at member
      exact absurd member List.not_mem_nil
  | some entry =>
      rw [there] at member
      exact ordered.bodies id entry there body member

theorem addExpr {shape : ExprShape ExprId} (ordered : store.Ordered)
    (back : ∀ operand ∈ shape.operands, operand < store.exprs.size) :
    ((Store.addExpr shape).run store).2.Ordered := by
  refine ⟨fun id other there operand member => ?_, ordered.bodies, ordered.lists⟩
  rcases getElem?_push_elim there with old | ⟨rfl, rfl⟩
  · exact ordered.operands id other old operand member
  · exact back operand member

theorem addStmt {shape : StoredShape} {position : Position} (ordered : store.Ordered)
    (back : ∀ body ∈ shape.bodies, body < store.blocks.size) :
    ((Store.addStmt shape position).run store).2.Ordered := by
  refine ⟨ordered.operands, fun id entry there body member => ?_,
    fun block members there id member => ?_⟩
  · rcases getElem?_push_elim there with old | ⟨rfl, rfl⟩
    · exact ordered.bodies id entry old body member
    · exact back body member
  · obtain ⟨early, inner⟩ := ordered.lists block members there id member
    have same : ((Store.addStmt shape position).run store).2.bodiesOf id = store.bodiesOf id :=
      bodiesOf_eq_of_shape
        (congrArg _ (Array.getElem?_push_lt early |>.trans (Array.getElem?_eq_getElem early).symm))
    rw [same]
    have grown : ((Store.addStmt shape position).run store).2.stmts.size = store.stmts.size + 1 :=
      Array.size_push _
    exact ⟨Nat.lt_of_lt_of_eq (Nat.lt_succ_of_lt early) grown.symm, inner⟩

theorem addFunction {entry : FunctionEntry} (ordered : store.Ordered) :
    ((Store.addFunction entry).run store).2.Ordered :=
  ⟨ordered.operands, ordered.bodies, ordered.lists⟩

theorem of_shapes {after : Store} (ordered : store.Ordered)
    (exprs : after.exprs = store.exprs)
    (stmts : ∀ id : StmtId,
      after.stmts[id]?.map StmtEntry.shape = store.stmts[id]?.map StmtEntry.shape)
    (size : after.stmts.size = store.stmts.size) (grown : store.blocks.size ≤ after.blocks.size)
    (lists : ∀ (block : BlockId) members, after.blocks[block]? = some members → ∀ id ∈ members,
      id < store.stmts.size ∧ ∀ body ∈ store.bodiesOf id, body < block) : after.Ordered where
  operands := by
    rw [exprs]
    exact ordered.operands
  bodies id entry there body member := by
    have shapes := stmts id
    rw [there, Option.map_some] at shapes
    obtain ⟨old, inside, same⟩ := Option.map_eq_some_iff.mp shapes.symm
    rw [← same] at member
    exact Nat.lt_of_lt_of_le (ordered.bodies id old inside body member) grown
  lists block members there id member := by
    rw [size, bodiesOf_eq_of_shape (stmts id)]
    exact lists block members there id member

end Ordered
end Store
end ScriptFlow
