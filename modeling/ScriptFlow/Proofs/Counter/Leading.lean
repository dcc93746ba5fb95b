import ScriptFlow.Proofs.Counter.Visit
import ScriptFlow.Proofs.Program.Shaped
import ScriptFlow.Proofs.Store.Attached

/-!
What edits of an instrumentation keep, whatever they find. Shapes and expressions stay, what is done
stays done, and what comes into a list is done; a walk is made of such edits.
-/

namespace ScriptFlow.Instrument

open Store (Checked)

variable {before between after : Work} {context : Context} {block : BlockId} {id : StmtId}

/-- What edits keep: shapes and expressions stay, what is done stays done, and what comes into a
list is done. -/
structure Leads (before after : Work) : Prop where
  shapes : ∀ (id : StmtId) entry, before.store.stmts[id]? = some entry →
    ∃ later, after.store.stmts[id]? = some later ∧ later.shape = entry.shape
  exprs : before.store.ExprsStay after.store
  lists : ∀ (block : BlockId) members, before.store.blocks[block]? = some members →
      ∃ later, after.store.blocks[block]? = some later ∧ ∀ id ∈ later, id ∈ members ∨
      id ∈ after.doneStmts
  done : ∀ id ∈ before.doneStmts, id ∈ after.doneStmts
  doneExprs : ∀ id ∈ before.doneExprs, id ∈ after.doneExprs

namespace Leads

theorem of_grows (grows : before.store.Grows after.store [])
    (done : ∀ id ∈ before.doneStmts, id ∈ after.doneStmts)
    (doneExprs : ∀ id ∈ before.doneExprs, id ∈ after.doneExprs) : Leads before after where
  shapes id entry there := ⟨entry, grows.stmts id entry there, rfl⟩
  exprs := grows.exprs
  lists block members there :=
    ⟨members, grows.blocks block List.not_mem_nil members there, fun _ member => .inl member⟩
  done := done
  doneExprs := doneExprs

theorem rfl {work : Work} : Leads work work :=
  of_grows .rfl (fun _ member => member) fun _ member => member

theorem trans (first : Leads before between) (second : Leads between after) :
    Leads before after where
  shapes id entry there := by
    obtain ⟨middle, inBetween, same⟩ := first.shapes id entry there
    obtain ⟨last, inAfter, same'⟩ := second.shapes id middle inBetween
    exact ⟨last, inAfter, same'.trans same⟩
  exprs id shape there := second.exprs id shape (first.exprs id shape there)
  lists block members there := by
    obtain ⟨middle, inBetween, early⟩ := first.lists block members there
    obtain ⟨last, inAfter, late⟩ := second.lists block middle inBetween
    refine ⟨last, inAfter, fun id member => ?_⟩
    rcases late id member with old | fresh
    · exact (early id old).imp_right (second.done id)
    · exact .inr fresh
  done id member := second.done id (first.done id member)
  doneExprs id member := second.doneExprs id (first.doneExprs id member)

theorem stmts_size (leads : Leads before after) :
    before.store.stmts.size ≤ after.store.stmts.size := by
  by_contra smaller
  have last : before.store.stmts[after.store.stmts.size]? =
      some before.store.stmts[after.store.stmts.size] :=
    Array.getElem?_eq_getElem (Nat.lt_of_not_le smaller)
  obtain ⟨later, there, _⟩ := leads.shapes _ _ last
  exact Nat.lt_irrefl _ (lt_size_of_getElem? there)

end Leads

theorem insertStmt_leads {work : Work} {store : Store} {index : Nat}
    (inserted : work.store.insertStmt block index id = .ok store) (done : id ∈ work.doneStmts) :
    Leads work { work with store } := by
  rw [Store.insertStmt] at inserted
  obtain ⟨members, listed, inserted⟩ := bind_eq_ok inserted
  obtain ⟨entry, there, inserted⟩ := bind_eq_ok inserted
  split at inserted
  case isFalse => cases inserted
  case isTrue fits =>
    cases inserted
    refine ⟨fun other entry there => ?_, fun _ _ there => there, fun other old there => ?_,
      fun _ member => member, fun _ member => member⟩
    -- the statement belongs to another list now, and its shape is what it was
    · simp only [Store.setParent, Array.getElem?_modify, there, Option.map_some]
      split
      · exact ⟨_, rfl, rfl⟩
      · exact ⟨entry, rfl, rfl⟩
    · have inside := lt_size_of_getElem? there
      simp only [Array.set!_eq_setIfInBounds, Array.getElem?_setIfInBounds]
      by_cases same : block = other
      · subst same
        rw [Store.block, there] at listed
        cases listed
        refine ⟨_, by rw [if_pos rfl, if_pos inside], fun member own => ?_⟩
        rcases (List.mem_insertIdx fits).mp own with rfl | early
        · exact .inr done
        · exact .inl early
      · exact ⟨old, by rw [if_neg same, there], fun _ member => .inl member⟩

theorem run_bind_eq_ok {A B : Type} {first : Edit A} {next : A → Edit B} {b : B}
    (ran : (first >>= next).run before = .ok (b, after)) :
    ∃ a between, first.run before = .ok (a, between) ∧ (next a).run between = .ok (b, after) := by
  rw [StateT.run_bind] at ran
  obtain ⟨⟨a, between⟩, here, later⟩ := bind_eq_ok ran
  exact ⟨a, between, here, later⟩

theorem run_lift_eq_ok {A B : Type} {answer : Checked A} {next : A → Edit B} {b : B}
    (ran : ((liftM answer : Edit A) >>= next).run before = .ok (b, after)) :
    ∃ a, answer = .ok a ∧ (next a).run before = .ok (b, after) := by
  cases answer with
  | error fault => cases ran
  | ok a => exact ⟨a, rfl, ran⟩

/-- Whenever the edit succeeds, the work that it leaves keeps what it found. -/
def Leading {A : Type} (edit : Edit A) : Prop :=
  ∀ before a after, edit.run before = .ok (a, after) → Leads before after

namespace Leading

variable {A B : Type}

theorem bind {first : Edit A} {next : A → Edit B} (head : Leading first)
    (tail : ∀ a, Leading (next a)) : Leading (first >>= next) := by
  intro before b after ran
  obtain ⟨a, between, here, later⟩ := run_bind_eq_ok ran
  exact (head before a between here).trans (tail a between b after later)

theorem pure (a : A) : Leading (Pure.pure a : Edit A) := by
  intro before b after ran
  cases ran
  exact .rfl

theorem get : Leading (MonadState.get : Edit Work) := by
  intro before b after ran
  cases ran
  exact .rfl

theorem lift (answer : Checked A) : Leading (liftM answer : Edit A) := by
  intro before b after ran
  cases answer with
  | error fault => cases ran
  | ok a =>
      cases ran
      exact .rfl

theorem modify {update : Work → Work} (leads : ∀ work, Leads work (update work)) :
    Leading (MonadStateOf.modifyGet fun work => (PUnit.unit, update work) : Edit PUnit) := by
  intro before b after ran
  cases ran
  exact leads before

theorem forM {act : A → Edit Unit} (each : ∀ a, Leading (act a)) (items : List A) :
    Leading (items.forM act) := by
  induction items with
  | nil => exact .pure ()
  | cons first rest ih =>
      rw [forM_cons]
      exact (each first).bind fun _ => ih

end Leading

theorem leading_finishStmt (id : StmtId) : Leading (finishStmt id) :=
  .modify fun _ =>
    .of_grows .rfl (fun _ member => mem_insert.mpr (.inl member)) fun _ member => member

theorem leading_finishExpr (id : ExprId) : Leading (finishExpr id) :=
  .modify fun _ => .of_grows .rfl (fun _ member => member) fun _ member =>
    mem_insert.mpr (.inl member)

theorem leading_count (update : Tally → Tally) : Leading (count update) :=
  .modify fun _ => .of_grows .rfl (fun _ member => member) fun _ member => member

theorem leading_exprsOf (shape : StoredShape) : Leading (exprsOf shape) :=
  .bind .get fun _ => .bind (.lift _) fun _ => .pure _

theorem forIn_eq_forM {A : Type} (act : A → Edit Unit) (items : List A) :
    (forIn items PUnit.unit fun a _ => do
      act a
      return ForInStep.yield PUnit.unit : Edit PUnit) = items.forM act := by
  induction items with
  | nil => rfl
  | cons first rest ih => simp only [List.forIn_cons, forM_cons, bind_assoc, pure_bind, ih]

theorem inject_leads {stmt : ParsedStmt} (ran : (inject stmt).run before = .ok (id, after)) :
    Leads before after ∧ id ∈ after.doneStmts := by
  obtain ⟨tree, store, allocates, allocated, _, _⟩ := stmt.allocate_step before.store
  -- the statement is marked as soon as it is there, and the marks of its expressions come on top
  let marked : Work := { before with store, doneStmts := before.doneStmts.insert tree.number }
  let marks : Edit StmtId := do
    let exprs ← exprsOf (← store.stmt tree.number).shape
    exprs.forM fun expr => finishExpr expr.label
    return tree.number
  have rest : marks.run marked = .ok (id, after) := by
    rw [inject, run_get, allocates] at ran
    simp only [forIn_eq_forM] at ran
    exact ran
  have started : Leads before marked :=
    .of_grows allocated.grows (fun _ member => mem_insert.mpr (.inl member)) fun _ member => member
  have leading : Leading marks :=
    .bind (.lift _) fun _ => .bind (leading_exprsOf _) fun _ =>
      .bind (.forM (fun _ => leading_finishExpr _) _)
      fun _ => .pure _
  have leads := leading marked id after rest
  obtain ⟨_, _, _, rest⟩ := run_bind_eq_ok rest
  obtain ⟨_, _, _, rest⟩ := run_bind_eq_ok rest
  obtain ⟨_, _, _, last⟩ := run_bind_eq_ok rest
  cases last
  exact ⟨started.trans leads, leads.done _ (mem_insert.mpr (.inr rfl))⟩

def Inserts (edit : Store → Checked Store) (id : StmtId) : Prop :=
  ∀ store store', edit store = .ok store' →
    ∃ block index, store.insertStmt block index id = .ok store'

theorem inserts_first (block : BlockId) (id : StmtId) : Inserts (·.insertStmt block 0 id) id :=
  fun _ _ inserted => ⟨block, 0, inserted⟩

theorem inserts_before (anchor id : StmtId) : Inserts (·.insertBefore anchor id) id := by
  intro store store' inserted
  obtain ⟨⟨block, index⟩, _, inserted⟩ := bind_eq_ok inserted
  exact ⟨block, index, inserted⟩

theorem inserts_after (anchor id : StmtId) : Inserts (·.insertAfter anchor id) id := by
  intro store store' inserted
  obtain ⟨⟨block, index⟩, _, inserted⟩ := bind_eq_ok inserted
  exact ⟨block, index + 1, inserted⟩

theorem onStore_eq_ok {edit : Store → Checked Store} {result : Unit}
    (ran : (onStore edit).run before = .ok (result, after)) :
    ∃ store, edit before.store = .ok store ∧ after = { before with store } := by
  rw [onStore, run_get] at ran
  obtain ⟨store, edited, ran⟩ := run_lift_eq_ok ran
  cases ran
  exact ⟨store, edited, rfl⟩

theorem Leading.put {A : Type} {stmt : ParsedStmt}
    {edit : StmtId → Store → Checked Store} {next : StmtId → Edit A}
    (inserts : ∀ id, Inserts (edit id) id) (rest : ∀ id, Leading (next id)) :
    Leading (inject stmt >>= fun id => onStore (edit id) >>= fun _ => next id) := by
  intro before a after ran
  obtain ⟨id, between, injected, ran⟩ := run_bind_eq_ok ran
  obtain ⟨leads, done⟩ := inject_leads injected
  obtain ⟨_, edited, put, ran⟩ := run_bind_eq_ok ran
  obtain ⟨store, inserted, rfl⟩ := onStore_eq_ok put
  obtain ⟨block, index, inserted⟩ := inserts id _ _ inserted
  exact (leads.trans (insertStmt_leads inserted done)).trans (rest id _ _ _ ran)

theorem leading_charge (context : Context) (id : StmtId) : Leading (charge context id) :=
  .put (inserts_before id) fun _ => leading_count _

theorem leading_displayBefore (context : Context) (id : StmtId) :
    Leading (displayBefore context id) :=
  .put (inserts_before id) fun _ => leading_count _

theorem leading_countRounds (context : Context) (id : StmtId) (body : BlockId) :
    Leading (countRounds context id body) :=
  .bind .get fun _ =>
    .bind (.modify fun _ => .of_grows .rfl (fun _ member => member) fun _ member => member) fun _ =>
    .put (inserts_before id) fun _ => .put (inserts_first body) fun _ =>
      .put (inserts_after id) fun _ => leading_count _

theorem chargeCalls_eq (context : Context) (id : StmtId) (shape : StoredShape) :
    chargeCalls context id shape = (do
    let exprs ← exprsOf shape
    let work ← get
    (exprs.filter (isCharged context work)).forM fun call => do
      finishExpr call.label
      charge context id) := by
  simp only [chargeCalls, ← forIn_eq_forM, bind_assoc, bind_pure_unit]

theorem leading_chargeCalls (context : Context) (id : StmtId) (shape : StoredShape) :
    Leading (chargeCalls context id shape) := by
  rw [chargeCalls_eq]
  exact .bind (leading_exprsOf _) fun _ => .bind .get fun _ =>
    .forM (fun _ => .bind (leading_finishExpr _) fun _ => leading_charge _ _) _

/-- Whether a visit marks statements of that shape. Of all others it charges the calls and walks the
bodies. -/
def isMarked : StoredShape → Bool
  | .forLoop _ _ _ | .whileLoop _ _ | .assign _ _ _ | .leave => true
  | .branch _ _ | .switch _ _ _ | .eval _ _ | .breakLoop | .continueLoop
      | .global _ | .persistent _ =>
    false

theorem handle_unmarked {shape : StoredShape} (unmarked : isMarked shape = false)
    (nested : BlockId → Edit Unit) : (handle context nested id shape).run before = (do
      chargeCalls context id shape
      shape.bodies.forM nested).run before := by
  have idle (none : shape.exprs = []) (leaf : shape.bodies = []) :
      .ok ((), before) = (do
        chargeCalls context id shape
        shape.bodies.forM nested).run before := by
    rw [run_then (no_calls none _), leaf]
    rfl
  cases shape with
  | forLoop | whileLoop | assign | leave => cases unmarked
  | branch | switch => rfl
  | eval => exact congrArg (StateT.run · before) bind_pure_unit.symm
  | breakLoop | continueLoop | global | persistent => exact idle rfl rfl

theorem handle_marked {shape : StoredShape} (marked : isMarked shape = true)
    {nested : BlockId → Edit Unit} (inner : ∀ block, Leading (nested block)) :
    ∃ rest, Leading rest ∧ handle context nested id shape = (do finishStmt id; rest) := by
  cases shape with
  | branch | switch | eval | breakLoop | continueLoop | global | persistent => cases marked
  | forLoop _ _ body | whileLoop _ body =>
      exact ⟨_, .bind (leading_countRounds _ _ _) fun _ =>
        .bind (leading_chargeCalls _ _ _) fun _ => inner body, rfl⟩
  | assign =>
      refine ⟨_, .bind .get fun _ => .bind (.lift _) fun _ => ?_, rfl⟩
      split
      · exact leading_charge _ _
      · exact .pure _
  | leave => exact ⟨_, leading_displayBefore _ _, rfl⟩

theorem leading_handle {nested : BlockId → Edit Unit} (inner : ∀ block, Leading (nested block))
    (id : StmtId) (shape : StoredShape) : Leading (handle context nested id shape) := by
  cases marked : isMarked shape with
  | false =>
      intro before _ after ran
      rw [handle_unmarked marked] at ran
      exact (Leading.bind (leading_chargeCalls _ _ _) fun _ => .forM inner _) before _ after ran
  | true =>
      obtain ⟨rest, leading, same⟩ := @handle_marked context id shape marked nested inner
      rw [same]
      exact (leading_finishStmt id).bind fun _ => leading

theorem leading_visit {nested : BlockId → Edit Unit} (inner : ∀ block, Leading (nested block))
    (id : StmtId) : Leading (visit context nested id) := by
  refine .bind .get fun work => ?_
  split
  · exact .pure _
  · exact .bind (.lift _) fun _ => leading_handle inner id _

theorem leading_walkWithin (depth : Nat) (block : BlockId) :
    Leading (walkWithin context depth block) := by
  induction depth generalizing block with
  | zero =>
      intro before _ after ran
      cases ran
  | succ depth ih => exact .bind .get fun _ => .bind (.lift _) fun _ => .forM (leading_visit ih) _

end ScriptFlow.Instrument
