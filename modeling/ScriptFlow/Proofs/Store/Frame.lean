import ScriptFlow.Proofs.Store.Kept

/-!
Growing stores. Work on a program only adds nodes and changes the lists it is meant to change, so a
tree stays kept as long as none of its lists is among them.
-/

namespace ScriptFlow

/-- What was there is there still, apart from the lists named. -/
structure Store.Grows (before after : Store) (changed : List BlockId) : Prop where
  stmts : ∀ (id : StmtId) entry, before.stmts[id]? = some entry → after.stmts[id]? = some entry
  exprs : ∀ (id : ExprId) shape, before.exprs[id]? = some shape → after.exprs[id]? = some shape
  blocks : ∀ id : BlockId, id ∉ changed → ∀ members, before.blocks[id]? = some members →
      after.blocks[id]? = some members
  functions : ∀ (id : FuncId) entry, before.functions[id]? = some entry →
      after.functions[id]? = some entry

theorem size_le_of_kept {A : Type} {before after : Array A}
    (kept : ∀ (id : Nat) a, before[id]? = some a → after[id]? = some a) :
    before.size ≤ after.size := by
  rcases Nat.eq_zero_or_pos before.size with empty | filled
  · omega
  · have last : before[before.size - 1]? = some before[before.size - 1] :=
      Array.getElem?_eq_getElem (by omega)
    have inside := lt_size_of_getElem? (kept _ _ last)
    omega

namespace Store

variable {before between after : Store} {changed : List BlockId}

namespace Grows

theorem rfl {store : Store} : store.Grows store [] :=
  ⟨fun _ _ there => there, fun _ _ there => there, fun _ _ _ there => there, fun _ _ there => there⟩

theorem trans {others : List BlockId} (first : before.Grows between changed)
    (second : between.Grows after others) : before.Grows after (changed ++ others) where
  stmts id entry there := second.stmts id entry (first.stmts id entry there)
  exprs id shape there := second.exprs id shape (first.exprs id shape there)
  blocks id outside members there := by
    rw [List.mem_append, not_or] at outside
    exact second.blocks id outside.2 members (first.blocks id outside.1 members there)
  functions id entry there := second.functions id entry (first.functions id entry there)

theorem weaken {more : List BlockId} (grows : before.Grows after changed)
    (inside : ∀ id ∈ changed, id ∈ more) : before.Grows after more :=
  ⟨grows.stmts, grows.exprs, fun id outside => grows.blocks id fun member =>
    outside (inside id member), grows.functions⟩

theorem stmts_size (grows : before.Grows after changed) : before.stmts.size ≤ after.stmts.size :=
  size_le_of_kept grows.stmts

theorem exprs_size (grows : before.Grows after changed) : before.exprs.size ≤ after.exprs.size :=
  size_le_of_kept grows.exprs

theorem keepsExpr (grows : before.Grows after changed) {expr : StoredExpr}
    (kept : before.KeepsExpr expr) : after.KeepsExpr expr :=
  fun node inside => grows.exprs _ _ (kept node inside)

theorem lists (grows : before.Grows after changed) {block : BlockId} {body : List StoredStmt}
    (listed : before.Lists block body) (outside : block ∉ changed) : after.Lists block body := by
  refine ⟨grows.blocks block outside _ listed.1, fun stmt member => ?_⟩
  obtain ⟨entry, there, parent⟩ := listed.2 stmt member
  exact ⟨entry, grows.stmts _ _ there, parent⟩

theorem forall_lists (grows : before.Grows after changed) {blocks : List BlockId}
    {bodies : List (List StoredStmt)} (listed : List.Forall₂ before.Lists blocks bodies)
    (outside : ∀ block ∈ blocks, block ∉ changed) : List.Forall₂ after.Lists blocks bodies := by
  induction listed with
  | nil => exact .nil
  | cons head _ ih =>
      exact .cons (grows.lists head (outside _ List.mem_cons_self))
        (ih fun block member => outside block (List.mem_cons_of_mem _ member))

theorem bodiesOf (grows : before.Grows after changed) {stmt : StoredStmt}
    (kept : before.KeepsStmt stmt) : after.bodiesOf stmt.number = before.bodiesOf stmt.number := by
  obtain ⟨entry, there, _⟩ := kept
  rw [Store.bodiesOf, Store.bodiesOf, there, grows.stmts _ _ there]

theorem keepsStmt (grows : before.Grows after changed)
    {stmt : StoredStmt} (kept : before.KeepsStmt stmt)
    (outside : ∀ block ∈ before.bodiesOf stmt.number, block ∉ changed) : after.KeepsStmt stmt := by
  obtain ⟨entry, there, placed, matched⟩ := kept
  refine ⟨entry, grows.stmts _ _ there, placed, matched.imp ?_ ?_⟩
  · intro _ _ _ _ kept
    exact ⟨kept.1, grows.keepsExpr kept.2⟩
  · intro block inside _ _ listed
    refine grows.lists listed (outside block ?_)
    rw [Store.bodiesOf, there]
    exact inside

theorem blockNumbers (grows : before.Grows after changed) {body : List StoredStmt}
    (kept : before.Keeps body) : after.blockNumbers body = before.blockNumbers body := by
  have each : ∀ stmt ∈ Stmt.within body, after.bodiesOf stmt.number = before.bodiesOf stmt.number :=
    fun stmt member => grows.bodiesOf (kept stmt member)
  unfold Store.blockNumbers
  exact List.flatMap_congr each

theorem keeps (grows : before.Grows after changed) {body : List StoredStmt}
    (kept : before.Keeps body) (outside : ∀ block ∈ before.blockNumbers body, block ∉ changed) :
    after.Keeps body := by
  intro stmt member
  refine grows.keepsStmt (kept stmt member) fun block inside => outside block ?_
  exact List.mem_flatMap.mpr ⟨stmt, member, inside⟩

end Grows
end Store

def Fills (start : Nat) (numbers : List Nat) (stop : Nat) : Prop :=
  (List.range start ++ numbers).Perm (List.range stop)

namespace Fills

variable {start middle stop : Nat} {numbers others : List Nat}

theorem nil : Fills start [] start := by simp [Fills]

theorem single : Fills start [start] (start + 1) := by simp [Fills, List.range_succ]

theorem trans (first : Fills start numbers middle) (second : Fills middle others stop) :
    Fills start (numbers ++ others) stop := by
  unfold Fills
  rw [← List.append_assoc]
  exact (first.append_right others).trans second

theorem perm (fills : Fills start numbers stop) (same : numbers.Perm others) :
    Fills start others stop :=
  (same.append_left _).symm.trans fills

theorem nodup (fills : Fills start numbers stop) : numbers.Nodup :=
  (List.nodup_append.mp (fills.nodup_iff.mpr List.nodup_range)).2.1

theorem mem_iff (fills : Fills start numbers stop) {number : Nat} :
    number ∈ numbers ↔ start ≤ number ∧ number < stop := by
  have distinct := List.nodup_append.mp (fills.nodup_iff.mpr List.nodup_range)
  have member : number ∈ List.range start ++ numbers ↔ number ∈ List.range stop :=
    List.Perm.mem_iff fills
  simp only [List.mem_append, List.mem_range] at member
  constructor
  · intro inside
    refine ⟨Nat.le_of_not_lt fun early => ?_, member.mp (.inr inside)⟩
    exact distinct.2.2 number (List.mem_range.mpr early) number inside rfl
  · rintro ⟨late, below⟩
    rcases member.mpr below with early | inside
    · omega
    · exact inside

theorem eq_of_nil (fills : Fills start [] stop) : stop = start := by
  have same := fills.length_eq
  simp only [List.append_nil, List.length_range] at same
  exact same.symm

theorem le (fills : Fills start numbers stop) : start ≤ stop := by
  have same := fills.length_eq
  simp only [List.length_append, List.length_range] at same
  omega

end Fills
end ScriptFlow
