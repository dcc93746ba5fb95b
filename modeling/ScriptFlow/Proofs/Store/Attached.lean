import ScriptFlow.Proofs.Program.Forest
import ScriptFlow.Store.Edit

/-!
Lists and parents under edits. A statement may be attached again while it is in a list: its parent
changes and the old list keeps it. Whatever the order of the edits, the statements that are in some
list are those with a parent, and the list of the parent has the statement.
-/

namespace ScriptFlow

namespace Store

/-- What one can do to a store from outside. -/
inductive Edit where
  | addExpr (shape : ExprShape ExprId)
  | addStmt (shape : StoredShape) (position : Position)
  | addBlock (members : List StmtId)
  | insertStmt (block : BlockId) (index : Nat) (id : StmtId)
  | pushStmt (block : BlockId) (id : StmtId)
  | insertBefore (anchor id : StmtId)
  | insertAfter (anchor id : StmtId)
  deriving DecidableEq, Repr

variable (store : Store)

def run : Edit → Checked Store
  | .addExpr shape => .ok ((addExpr shape).run store).2
  | .addStmt shape position => .ok ((addStmt shape position).run store).2
  | .addBlock members => do return (← store.addBlockOf members).2
  | .insertStmt block index id => store.insertStmt block index id
  | .pushStmt block id => store.pushStmt block id
  | .insertBefore anchor id => store.insertBefore anchor id
  | .insertAfter anchor id => store.insertAfter anchor id

/-- Edits in place, one step after another: what the steps in front of a fault did stays done. -/
abbrev InPlace := ExceptT Fault (StateM Store)

namespace InPlace

def read {Answer : Type} (view : Store → Checked Answer) : InPlace Answer :=
  ExceptT.mk fun store => (view store, store)

/-- The list takes the statement in, and then the statement belongs to it. -/
def insertStmt (block : BlockId) (index : Nat) (id : StmtId) : InPlace Unit := do
  let members ← read (·.block block)
  unless index ≤ members.length do throw .missing
  modify fun store => { store with blocks := store.blocks.set! block (members.insertIdx index id) }
  let _ ← read (·.stmt id)
  modify fun store => { store with stmts := setParent block store.stmts id }

/-- What an edit in place gives, and the store that it leaves. -/
def on {Answer : Type} (store : Store) (edit : InPlace Answer) : Except Fault Answer × Store :=
  (ExceptT.run edit).run store

end InPlace

def Edit.inPlace : Edit → InPlace Unit
  | addExpr shape => discard (Store.addExpr shape)
  | addStmt shape position => discard (Store.addStmt shape position)
  | addBlock members => do
      unless members.all (· < (← get).stmts.size) do throw .missing
      discard (Store.addBlock members)
  | insertStmt block index id => InPlace.insertStmt block index id
  | pushStmt block id => do
      InPlace.insertStmt block (← InPlace.read (·.block block)).length id
  | insertBefore anchor id => do
      let (block, index) ← InPlace.read (·.position anchor)
      InPlace.insertStmt block index id
  | insertAfter anchor id => do
      let (block, index) ← InPlace.read (·.position anchor)
      InPlace.insertStmt block (index + 1) id

/-- The store behind an edit in place. A detached statement is reported, and one goes on with what
the edit left; an edit that names a node or place that is not there has no store behind it. -/
def next (edit : Edit) : Option Store :=
  match InPlace.on store edit.inPlace with
  | (.ok (), after) => some after
  | (.error (.detached _), after) => some after
  | (.error .missing, _) => none

/-- The stores that edits make, from nothing or from a parsed program. -/
inductive Reached : Store → Prop where
  | empty : Reached .empty
  | parsed {source : List Char} {program : Program} (parsed : Program.parse source = .ok program) :
      Reached program.store
  | edited {store after : Store} (reached : Reached store) (edit : Edit)
      (ran : store.next edit = some after) : Reached after

def Listed (id : StmtId) : Prop :=
  ∃ (block : BlockId) (members : List StmtId), store.blocks[block]? = some members ∧ id ∈ members

def parent? (id : StmtId) : Option BlockId := store.stmts[id]?.bind StmtEntry.parent

/-- The list of its parent has the statement at the index, and nowhere before. -/
def StandsAt (id : StmtId) (block : BlockId) (index : Nat) : Prop :=
  store.parent? id = some block ∧ ∃ front back : List StmtId,
    store.blocks[block]? = some (front ++ id :: back) ∧ id ∉ front ∧ front.length = index

/-- The list of that number has the statement between its two parts afterwards. The statement
belongs to the list, and nothing else has changed. -/
structure PutIn (before after : Store) (block : BlockId) (front back : List StmtId)
    (id : StmtId) : Prop where
  apart : before.blocks[block]? = some (front ++ back)
  together : after.blocks[block]? = some (front ++ id :: back)
  lists : ∀ other, other ≠ block → after.blocks[other]? = before.blocks[other]?
  exprs : after.exprs = before.exprs
  functions : after.functions = before.functions
  stmts : ∀ other : StmtId, after.stmts[other]? = before.stmts[other]?.map fun entry =>
    if other = id then { entry with parent := some block } else entry
  fresh : ¬ before.Listed id → after.position id = .ok (block, front.length)

/-- A statement has a parent just when it is in a list. -/
structure Attached : Prop where
  parent : ∀ id, store.Listed id → ∃ block, store.parent? id = some block
  inside : ∀ id block, store.parent? id = some block →
      ∃ members, store.blocks[block]? = some members ∧ id ∈ members

/-- What the lists and parents of a store say, and what edits next to a statement make of them. -/
structure Consistent : Prop where
  listed_iff : ∀ id, store.Listed id ↔ ∃ block, store.parent? id = some block
  inside : ∀ id block, store.parent? id = some block →
      ∃ members, store.blocks[block]? = some members ∧ id ∈ members
  detached :
    ∀ id < store.stmts.size, (store.position id = .error (.detached id) ↔ ¬ store.Listed id)
  placed : ∀ id, store.Listed id → ∃ block index, store.position id = .ok (block, index) ∧
      store.StandsAt id block index
  refused : ∀ anchor id stmt, ∀ edit ∈ [Edit.insertBefore anchor id, .insertAfter anchor id],
      store.run edit = .error (.detached stmt) → stmt = anchor ∧ ¬ store.Listed anchor ∧
      InPlace.on store edit.inPlace = (.error (.detached stmt), store) ∧
      store.next edit = some store
  accepted : ∀ anchor id, store.Listed anchor → id < store.stmts.size →
      ∀ edit ∈ [Edit.insertBefore anchor id, .insertAfter anchor id],
        ∃ after, store.run edit = .ok after
  before : ∀ anchor id after, store.insertBefore anchor id = .ok after →
      ∃ block front back, store.parent? anchor = some block ∧ anchor ∉ front ∧
      store.PutIn after block front (anchor :: back) id
  behind : ∀ anchor id after, store.insertAfter anchor id = .ok after →
      ∃ block front back, store.parent? anchor = some block ∧ anchor ∉ front ∧
      store.PutIn after block (front ++ [anchor]) back id

variable {store} {after : Store} {id : StmtId} {block : BlockId}

theorem parent?_of_entry {entry : StmtEntry} (there : store.stmts[id]? = some entry) :
    store.parent? id = entry.parent := by
  rw [parent?, there, Option.bind_some]

namespace InPlace

theorem on_read {A B : Type} (view : Store → Checked A) (more : A → InPlace B) :
    on store (read view >>= more) = match view store with
      | .ok answer => on store (more answer)
      | .error fault => (.error fault, store) := by
  have reads : on store (read view >>= more) = (ExceptT.bindCont more (view store)).run store := rfl
  rw [reads]
  cases view store <;> rfl

/-- The edit in place leaves the store that the edit gives, and the store as it was when the edit is
refused. -/
def Agrees (store : Store) (edit : InPlace Unit) (result : Checked Store) : Prop :=
  match result with
  | .ok after => on store edit = (.ok (), after)
  | .error (.detached id) => on store edit = (.error (.detached id), store)
  | .error .missing => (on store edit).1 = .error .missing

theorem agrees_read {A : Type} {view : Store → Checked A}
    {more : A → InPlace Unit} {result : A → Checked Store}
    (each : ∀ answer, view store = .ok answer → Agrees store (more answer) (result answer)) :
    Agrees store (read view >>= more) (view store >>= result) := by
  cases seen : view store with
  | ok answer =>
      have same : on store (read view >>= more) = on store (more answer) := by rw [on_read, seen]
      simpa only [Agrees, same, ok_bind] using each answer seen
  | error fault =>
      have same : on store (read view >>= more) = (.error fault, store) := by rw [on_read, seen]
      cases fault with
      | detached id => exact same
      | missing => exact congrArg Prod.fst same

theorem agrees_insertStmt (block : BlockId) (index : Nat) (id : StmtId) :
    Agrees store (insertStmt block index id) (store.insertStmt block index id) := by
  refine agrees_read fun members _ => ?_
  rw [Store.stmt]
  by_cases fits : index ≤ members.length
  · -- the number of the statement is looked up when the list has changed already
    simp only [if_pos fits]
    let changed := { store with blocks := store.blocks.set! block (members.insertIdx index id) }
    let join : InPlace Unit := modify fun store =>
      { store with stmts := setParent block store.stmts id }
    have looked : on changed (read (·.stmt id) >>= fun _ => join) = _ := on_read ..
    rw [Store.stmt] at looked
    cases there : store.stmts[id]? with
    | none =>
        rw [there] at looked
        exact congrArg Prod.fst looked
    | some entry =>
        rw [there] at looked
        exact looked
  · simp only [if_neg fits]
    cases store.stmts[id]? <;> rfl

theorem agrees_inPlace (edit : Edit) : Agrees store edit.inPlace (store.run edit) := by
  cases edit with
  | addExpr shape | addStmt shape position => rfl
  | addBlock members =>
      have begins : InPlace.on store (Edit.addBlock members).inPlace = InPlace.on store (do
          unless members.all (· < store.stmts.size) do throw .missing
          discard (Store.addBlock members)) := rfl
      rw [Store.run, addBlockOf]
      cases there : members.all (· < store.stmts.size) with
      | true =>
          rw [there] at begins
          exact begins
      | false =>
          rw [there] at begins
          exact congrArg Prod.fst begins
  | insertStmt block index id => exact agrees_insertStmt block index id
  | pushStmt block id =>
    exact agrees_read fun members _ => agrees_insertStmt block members.length id
  | insertBefore anchor id => exact agrees_read fun place _ => agrees_insertStmt place.1 place.2 id
  | insertAfter anchor id =>
    exact agrees_read fun place _ => agrees_insertStmt place.1 (place.2 + 1) id

end InPlace

theorem next_eq (edit : Edit) : store.next edit = match store.run edit with
    | .ok after => some after
    | .error (.detached _) => some store
    | .error .missing => none := by
  have agrees : InPlace.Agrees store edit.inPlace (store.run edit) := InPlace.agrees_inPlace edit
  rw [next]
  cases result : store.run edit with
  | ok after =>
      rw [result] at agrees
      rw [show InPlace.on store edit.inPlace = _ from agrees]
  | error fault =>
      cases fault with
      | detached id =>
          rw [result] at agrees
          rw [show InPlace.on store edit.inPlace = _ from agrees]
      | missing =>
          rw [result] at agrees
          cases outcome : InPlace.on store edit.inPlace with
          | mk answer left =>
              rw [InPlace.Agrees, outcome] at agrees
              cases agrees
              rfl

namespace Attached

theorem empty : Attached .empty where
  parent id listed := by
    obtain ⟨block, members, there, _⟩ := listed
    cases there
  inside id block parent := by cases parent

theorem listed_iff (attached : store.Attached) :
    store.Listed id ↔ ∃ block, store.parent? id = some block := by
  constructor
  · exact attached.parent id
  · rintro ⟨block, parent⟩
    obtain ⟨members, there, member⟩ := attached.inside id block parent
    exact ⟨block, members, there, member⟩

theorem of_same (attached : store.Attached) (blocks : after.blocks = store.blocks)
    (parents : ∀ id, after.parent? id = store.parent? id) : after.Attached where
  parent id listed := by
    rw [Listed, blocks] at listed
    rw [parents]
    exact attached.parent id listed
  inside id block parent := by
    rw [parents] at parent
    rw [blocks]
    exact attached.inside id block parent

theorem attach (attached : store.Attached) {ids members : List StmtId}
    (stmts : ∀ id, after.stmts[id]? = if id ∈ ids then store.stmts[id]?.map fun entry =>
      { entry with parent := some block } else store.stmts[id]?)
    (here : after.blocks[block]? = some members)
    (others : ∀ other, other ≠ block → after.blocks[other]? = store.blocks[other]?)
    (there : ∀ id ∈ ids, id < store.stmts.size) (joined : ∀ id ∈ ids, id ∈ members)
    (kept : ∀ old, store.blocks[block]? = some old → ∀ id ∈ old, id ∈ members)
    (only : ∀ id ∈ members, id ∈ ids ∨ store.Listed id) : after.Attached := by
  -- the statements that join have the list as their parent; all others keep the parent they had
  have joins (id : StmtId) (inside : id ∈ ids) : after.parent? id = some block := by
    obtain ⟨entry, found⟩ : ∃ entry, store.stmts[id]? = some entry :=
      ⟨_, Array.getElem?_eq_getElem (there id inside)⟩
    rw [parent?, stmts, if_pos inside, found]
    rfl
  have stays (id : StmtId) (outside : id ∉ ids) : after.parent? id = store.parent? id := by
    rw [parent?, stmts, if_neg outside, parent?]
  constructor
  · rintro id ⟨other, list, found, member⟩
    by_cases inside : id ∈ ids
    · exact ⟨block, joins id inside⟩
    · have before : store.Listed id := by
        by_cases same : other = block
        · subst same
          cases here.symm.trans found
          exact (only id member).resolve_left inside
        · rw [others other same] at found
          exact ⟨other, list, found, member⟩
      rw [stays id inside]
      exact attached.parent id before
  · intro id other parent
    by_cases inside : id ∈ ids
    · rw [joins id inside] at parent
      cases parent
      exact ⟨members, here, joined id inside⟩
    · rw [stays id inside] at parent
      obtain ⟨list, found, member⟩ := attached.inside id other parent
      by_cases same : other = block
      · subst same
        exact ⟨members, here, kept list found id member⟩
      · exact ⟨list, (others other same).trans found, member⟩

end Attached

theorem insertStmt_ok {index : Nat} (ran : store.insertStmt block index id = .ok after) :
    ∃ front back, store.blocks[block]? = some (front ++ back) ∧ front.length = index ∧
      id < store.stmts.size ∧ after = store.insertion block front back id := by
  obtain ⟨members, found, ran⟩ := bind_eq_ok ran
  obtain ⟨entry, there, ran⟩ := bind_eq_ok ran
  have listed : store.blocks[block]? = some members := of_found found
  have inside : id < store.stmts.size := lt_size_of_getElem? (of_found there)
  by_cases fits : index ≤ members.length
  · rw [if_pos fits] at ran
    have length : (members.take index).length = index := List.length_take_of_le fits
    have placed := insertIdx_middle (members.take index) (members.drop index) id
    rw [List.take_append_drop, length] at placed
    refine ⟨members.take index, members.drop index, ?_, length, inside, ?_⟩
    · rw [List.take_append_drop]
      exact listed
    · rw [insertion, ← placed]
      exact (Except.ok.inj ran).symm
  · rw [if_neg fits] at ran
    cases ran

theorem withList_blocks_other {members : List StmtId}
    {other : BlockId} (apart : other ≠ store.blocks.size) :
    (store.withList members).blocks[other]? = store.blocks[other]? := by
  change (store.blocks.push members)[other]? = _
  rw [Array.getElem?_push, if_neg apart]

namespace Attached

theorem addExpr (attached : store.Attached) (shape : ExprShape ExprId) :
    ((addExpr shape).run store).2.Attached :=
  attached.of_same rfl fun _ => rfl

theorem addStmt (attached : store.Attached) (shape : StoredShape) (position : Position) :
    ((addStmt shape position).run store).2.Attached := by
  refine attached.of_same rfl fun id => ?_
  change (store.stmts.push ⟨shape, position, none⟩)[id]?.bind StmtEntry.parent = _
  rw [Array.getElem?_push, parent?]
  by_cases new : id = store.stmts.size
  · subst new
    simp
  · rw [if_neg new]

theorem withList (attached : store.Attached) {members : List StmtId}
    (there : ∀ id ∈ members, id < store.stmts.size) : (store.withList members).Attached := by
  have here : (store.withList members).blocks[store.blocks.size]? = some members :=
    Array.getElem?_push_size
  have fresh (old : List StmtId) : store.blocks[store.blocks.size]? ≠ some old := by simp
  exact attached.attach (withList_stmts members) here
    (fun _ apart => withList_blocks_other apart) there
    (fun _ inside => inside) (fun old found => absurd found (fresh old)) fun _ inside => .inl inside

theorem insertion (attached : store.Attached) {front back : List StmtId}
    (listed : store.blocks[block]? = some (front ++ back)) (there : id < store.stmts.size) :
    (store.insertion block front back id).Attached := by
  -- The inserted statement alone gets a new parent, and one list gets longer by it.
  have stmts (other : StmtId) : (store.insertion block front back id).stmts[other]? =
      if other ∈ [id] then store.stmts[other]?.map fun entry =>
      { entry with parent := some block } else store.stmts[other]? := by
    rw [insertion_stmts]
    by_cases same : id = other
    · rw [if_pos same, if_pos (List.mem_singleton.mpr same.symm)]
    · rw [if_neg same, if_neg fun inside => same (List.mem_singleton.mp inside).symm]
  have here : (store.insertion block front back id).blocks[block]? =
      some (front ++ id :: back) := by
    rw [insertion_blocks, if_pos rfl, if_pos (lt_size_of_getElem? listed)]
  have members (member : StmtId) : member ∈ front ++ id :: back ↔ member = id ∨
      member ∈ front ++ back := by
    simp only [List.mem_append, List.mem_cons]
    exact or_left_comm
  refine attached.attach stmts here (fun other apart => ?_) ?_ ?_
    (fun old found member inside => ?_) fun member inside => ?_
  · rw [insertion_blocks, if_neg (Ne.symm apart)]
  · rw [List.forall_mem_singleton]
    exact there
  · rw [List.forall_mem_singleton, members]
    exact .inl rfl
  · cases listed.symm.trans found
    exact (members member).mpr (.inr inside)
  · rcases (members member).mp inside with rfl | old
    · exact .inl (List.mem_singleton.mpr rfl)
    · exact .inr ⟨block, front ++ back, listed, old⟩

theorem insertStmt (attached : store.Attached) {index : Nat}
    (ran : store.insertStmt block index id = .ok after) : after.Attached := by
  obtain ⟨front, back, listed, _, there, rfl⟩ := insertStmt_ok ran
  exact attached.insertion listed there

/-- Whatever an edit does, it keeps lists and parents in step. -/
theorem run (attached : store.Attached) {edit : Edit} (ran : store.run edit = .ok after) :
    after.Attached := by
  cases edit with
  | addExpr shape =>
      cases ran
      exact attached.addExpr shape
  | addStmt shape position =>
      cases ran
      exact attached.addStmt shape position
  | addBlock members =>
      obtain ⟨added, made, ran⟩ := bind_eq_ok ran
      cases ran
      rw [addBlockOf] at made
      split at made
      · next there =>
          cases made
          exact attached.withList fun id inside => by
            simpa using List.all_eq_true.mp there id inside
      · cases made
  | insertStmt block index id => exact attached.insertStmt ran
  | pushStmt block id =>
      obtain ⟨members, _, ran⟩ := bind_eq_ok ran
      exact attached.insertStmt ran
  | insertBefore anchor id | insertAfter anchor id =>
      obtain ⟨place, _, ran⟩ := bind_eq_ok ran
      exact attached.insertStmt ran

theorem next (attached : store.Attached) {edit : Edit} (ran : store.next edit = some after) :
    after.Attached := by
  rw [next_eq] at ran
  split at ran
  · next success =>
      cases ran
      exact attached.run success
  · cases ran
    exact attached
  · cases ran

end Attached

theorem attached_of_parsed {source : List Char} {program : Program}
    (parsed : Program.parse source = .ok program) : program.store.Attached := by
  obtain ⟨layout, holds⟩ := Program.parse_holds parsed
  have forest := holds.isForest
  constructor
  · rintro id ⟨block, members, there, member⟩
    have listed : id ∈ program.listedStmts :=
      List.mem_flatten.mpr ⟨members, Array.mem_toList_iff.mpr (Array.mem_of_getElem? there), member⟩
    have inside := List.mem_range.mp (forest.stmts.mem_iff.mp listed)
    obtain ⟨block, _, parent, _⟩ := forest.parents id _ (Array.getElem?_eq_getElem inside)
    exact ⟨block, (parent?_of_entry (Array.getElem?_eq_getElem inside)).trans parent⟩
  · intro id block parent
    obtain ⟨entry, there, owner⟩ := Option.bind_eq_some_iff.mp parent
    obtain ⟨block', members, owner', listed, member⟩ := forest.parents id entry there
    cases owner.symm.trans owner'
    exact ⟨members, listed, member⟩

theorem Reached.attached (reached : Reached store) : store.Attached := by
  induction reached with
  | empty => exact .empty
  | parsed parsed => exact attached_of_parsed parsed
  | edited _ edit ran ih => exact ih.next ran

theorem position_placed {front back : List StmtId} (parent : store.parent? id = some block)
    (listed : store.blocks[block]? = some (front ++ id :: back)) (fresh : id ∉ front) :
    store.position id = .ok (block, front.length) := by
  obtain ⟨entry, there, owner⟩ := Option.bind_eq_some_iff.mp parent
  have members : store.block block = .ok (front ++ id :: back) := by rw [Store.block, listed, found]
  have own : store.stmt id = .ok entry := by rw [Store.stmt, there, found]
  simp only [position, own, ok_bind, owner, members, idxOf?_middle back fresh]
  rfl

theorem position_detached (there : id < store.stmts.size) (parent : store.parent? id = none) :
    store.position id = .error (.detached id) := by
  obtain ⟨entry, found'⟩ : ∃ entry, store.stmts[id]? = some entry :=
    ⟨_, Array.getElem?_eq_getElem there⟩
  rw [parent?_of_entry found'] at parent
  have own : store.stmt id = .ok entry := by rw [Store.stmt, found', found]
  simp only [position, own, ok_bind, parent]
  rfl

/-- Nothing is changed by putting a statement in but its parent and the one list. -/
theorem putIn_insertion {front back : List StmtId}
    (listed : store.blocks[block]? = some (front ++ back)) (there : id < store.stmts.size) :
    store.PutIn (store.insertion block front back id) block front back id := by
  have together : (store.insertion block front back id).blocks[block]? =
      some (front ++ id :: back) := by
    rw [insertion_blocks, if_pos rfl, if_pos (lt_size_of_getElem? listed)]
  refine ⟨listed, together, fun other apart => ?_, rfl, rfl, fun other => ?_, fun new => ?_⟩
  · rw [insertion_blocks, if_neg (Ne.symm apart)]
  · rw [insertion_stmts]
    by_cases same : id = other
    · subst same
      simp only [if_true]
    · simp only [if_neg same, if_neg (Ne.symm same), Option.map_id']
  · have outside : id ∉ front :=
      fun member => new ⟨block, front ++ back, listed, List.mem_append_left _ member⟩
    have parent : (store.insertion block front back id).parent? id = some block := by
      rw [parent?, insertion_stmts, if_pos rfl, Array.getElem?_eq_getElem there]
      rfl
    exact position_placed parent together outside

namespace Attached

theorem placed (attached : store.Attached) (listed : store.Listed id) :
    ∃ block front back, store.position id = .ok (block, front.length) ∧
      store.parent? id = some block ∧
      store.blocks[block]? = some (front ++ id :: back) ∧ id ∉ front := by
  obtain ⟨block, parent⟩ := attached.parent id listed
  obtain ⟨members, there, member⟩ := attached.inside id block parent
  obtain ⟨front, back, rfl, fresh⟩ := List.eq_append_cons_of_mem member
  exact ⟨block, front, back, position_placed parent there fresh, parent, there, fresh⟩

theorem detached (attached : store.Attached) (there : id < store.stmts.size) :
    store.position id = .error (.detached id) ↔ ¬ store.Listed id := by
  constructor
  · intro failed listed
    obtain ⟨block, front, back, placed, _⟩ := attached.placed listed
    rw [placed] at failed
    cases failed
  · intro alone
    refine position_detached there
      (Option.eq_none_iff_forall_ne_some.mpr fun block parent => alone ?_)
    exact attached.listed_iff.mpr ⟨block, parent⟩

theorem listed_of_position (attached : store.Attached) {place : BlockId × Nat}
    (found : store.position id = .ok place) : store.Listed id := by
  by_contra alone
  obtain ⟨entry, there, _⟩ := bind_eq_ok found
  have failed := (attached.detached (lt_size_of_getElem? (of_found there))).mpr alone
  rw [found] at failed
  cases failed

end Attached

theorem insertStmt_not_detached (block : BlockId) (index : Nat) (id stmt : StmtId) :
    store.insertStmt block index id ≠ .error (.detached stmt) := by
  rw [insertStmt, Store.block, Store.stmt]
  cases store.blocks[block]? with
  | none => exact fun failed => by cases failed
  | some members =>
      cases store.stmts[id]? with
      | none => exact fun failed => by cases failed
      | some entry =>
          rw [found, found, ok_bind, ok_bind]
          split
          · exact fun failed => by cases failed
          · exact fun failed => by cases failed

theorem Attached.refused (attached : store.Attached) {anchor stmt : StmtId}
    {put : BlockId × Nat → Checked Store} (puts : ∀ place, put place ≠ .error (.detached stmt))
    (ran : (store.position anchor >>= put) = .error (.detached stmt)) :
    stmt = anchor ∧ ¬ store.Listed anchor := by
  cases place : store.position anchor with
  | ok place' =>
      rw [place] at ran
      exact absurd ran (puts place')
  | error fault =>
      rw [place] at ran
      cases ran
      by_cases there : anchor < store.stmts.size
      · have alone : ¬ store.Listed anchor := by
          intro listed
          obtain ⟨block, front, back, placed, _⟩ := attached.placed listed
          rw [place] at placed
          cases placed
        have failed := (attached.detached there).mpr alone
        rw [place] at failed
        cases failed
        exact ⟨rfl, alone⟩
      · have missing : store.position anchor = .error .missing := by
          rw [position, Store.stmt, Array.getElem?_eq_none (Nat.le_of_not_lt there)]
          rfl
        rw [place] at missing
        cases missing

theorem Attached.inserts (attached : store.Attached) {anchor : StmtId}
    (listed : store.Listed anchor) (there : id < store.stmts.size) :
    ∃ block front back, store.parent? anchor = some block ∧ anchor ∉ front ∧
      store.blocks[block]? = some (front ++ anchor :: back) ∧
      store.insertBefore anchor id = .ok (store.insertion block front (anchor :: back) id) ∧
      store.insertAfter anchor id = .ok (store.insertion block (front ++ [anchor]) back id) := by
  obtain ⟨block, front, back, placed, parent, members, fresh⟩ := attached.placed listed
  refine ⟨block, front, back, parent, fresh, members, ?_, ?_⟩
  · rw [insertBefore, placed]
    exact insertStmt_insertion members there
  · have split : store.blocks[block]? = some ((front ++ [anchor]) ++ back) := by
      rw [List.append_assoc]
      exact members
    have put := insertStmt_insertion split there
    rw [List.length_append, List.length_singleton] at put
    rw [insertAfter, placed]
    exact put

theorem Attached.of_inserted (attached : store.Attached)
    {anchor : StmtId} {put : BlockId × Nat → Checked Store}
    (puts : ∀ place, ∃ index, put place = store.insertStmt place.1 index id)
    (ran : (store.position anchor >>= put) = .ok after) :
    store.Listed anchor ∧ id < store.stmts.size := by
  obtain ⟨place, found, ran⟩ := bind_eq_ok ran
  obtain ⟨index, inserts⟩ := puts place
  rw [inserts] at ran
  obtain ⟨_, _, _, _, there, _⟩ := insertStmt_ok ran
  exact ⟨attached.listed_of_position found, there⟩

theorem Attached.consistent (attached : store.Attached) : store.Consistent where
  listed_iff _ := attached.listed_iff
  inside := attached.inside
  detached _ there := attached.detached there
  placed id listed := by
    obtain ⟨block, front, back, placed, parent, list, fresh⟩ := attached.placed listed
    exact ⟨block, front.length, placed, parent, front, back, list, fresh, rfl⟩
  refused anchor id stmt edit among failed := by
    have stays : store.next edit = some store := by rw [next_eq, failed]
    have left : InPlace.Agrees store edit.inPlace (store.run edit) := InPlace.agrees_inPlace edit
    rw [failed] at left
    -- An edit that is refused for a detached statement names the one it was to go next to.
    have refusal : stmt = anchor ∧ ¬ store.Listed anchor := by
      simp only [List.mem_cons, List.not_mem_nil, or_false] at among
      rcases among with rfl | rfl
      · exact attached.refused (fun _ => insertStmt_not_detached _ _ _ _) failed
      · exact attached.refused (fun _ => insertStmt_not_detached _ _ _ _) failed
    exact ⟨refusal.1, refusal.2, left, stays⟩
  accepted anchor id listed there edit among := by
    obtain ⟨block, front, back, _, _, _, before, behind⟩ := attached.inserts listed there
    simp only [List.mem_cons, List.not_mem_nil, or_false] at among
    rcases among with rfl | rfl
    · exact ⟨_, before⟩
    · exact ⟨_, behind⟩
  before anchor id after ran := by
    obtain ⟨listed, there⟩ := attached.of_inserted (fun place => ⟨place.2, rfl⟩) ran
    obtain ⟨block, front, back, parent, fresh, members, before, _⟩ := attached.inserts listed there
    cases before.symm.trans ran
    exact ⟨block, front, back, parent, fresh, putIn_insertion members there⟩
  behind anchor id after ran := by
    obtain ⟨listed, there⟩ := attached.of_inserted (fun place => ⟨place.2 + 1, rfl⟩) ran
    obtain ⟨block, front, back, parent, fresh, members, _, behind⟩ := attached.inserts listed there
    cases behind.symm.trans ran
    refine ⟨block, front, back, parent, fresh, putIn_insertion ?_ there⟩
    rw [List.append_assoc]
    exact members

/-- Every store that edits make is consistent. -/
theorem reached_consistent (reached : Reached store) : store.Consistent :=
  reached.attached.consistent

/-- A statement of the script is moved into a body, and another is put in front of it there. The
list of the script keeps the first. -/
theorem moved_stmt_consistent :
    ∃ program store, Program.parse "x = 1;\nif x\n y = 2;\nend\n".toList = .ok program ∧
      program.store.blocks = #[[1], [0, 2]] ∧ Reached store ∧ store.blocks = #[[1, 3, 0], [0, 2]] ∧
      store.Consistent := by
  have succeeds :
      ((Program.parse "x = 1;\nif x\n y = 2;\nend\n".toList).toOption.bind fun program =>
      (program.store.next (.insertAfter 1 0)).bind fun moved =>
        (moved.next (.addStmt .breakLoop ⟨1, 1⟩)).bind fun added =>
          (added.next (.insertBefore 0 3)).map fun store =>
          decide (program.store.blocks = #[[1], [0, 2]] ∧ store.blocks = #[[1, 3, 0], [0, 2]])) =
            some true := by
    decide +kernel
  obtain ⟨program, parsed, succeeds⟩ := Option.bind_eq_some_iff.mp succeeds
  obtain ⟨moved, move, succeeds⟩ := Option.bind_eq_some_iff.mp succeeds
  obtain ⟨added, add, succeeds⟩ := Option.bind_eq_some_iff.mp succeeds
  obtain ⟨store, insert, lists⟩ := Option.map_eq_some_iff.mp succeeds
  have parsed := ok_of_toOption parsed
  have reached : Reached store := .edited (.edited (.edited (.parsed parsed) _ move) _ add) _ insert
  obtain ⟨before, after⟩ := of_decide_eq_true lists
  exact ⟨program, store, parsed, before, reached, after, reached_consistent reached⟩

end Store
end ScriptFlow
