import ScriptFlow.Proofs.Counter.Weave
import ScriptFlow.Proofs.Store.Insertion

/-!
The edits of an instrumentation. An edit puts counter statements into one list; what was there
stays, and nothing is marked as done but what was put in and what the edit was asked to go through.
-/

namespace ScriptFlow.Instrument

open Store (Checked)

variable {before between after : Work}

/-- The step added so many statements and expressions, changed no other lists than those named and
marked nothing as done that was there already except its own. -/
structure Step (before after : Work) (changed : List BlockId) (own : List StmtId)
    (ownExprs : List ExprId) (stmts : List StmtId) (exprs : List ExprId) : Prop where
  grows : before.store.Grows after.store changed
  stmts : Fills before.store.stmts.size stmts after.store.stmts.size
  exprs : Fills before.store.exprs.size exprs after.store.exprs.size
  blocks : after.store.blocks.size = before.store.blocks.size
  functions : after.store.functions.size = before.store.functions.size
  stays : ∀ id ∈ before.doneStmts, id ∈ after.doneStmts
  done : ∀ id ∈ after.doneStmts, id ∈ before.doneStmts ∨ id ∈ own ∨ before.store.stmts.size ≤ id
  doneExprs : ∀ id ∈ after.doneExprs, id ∈ before.doneExprs ∨ id ∈ ownExprs ∨
      before.store.exprs.size ≤ id
  ordered : before.store.Ordered → after.store.Ordered

namespace Step

variable {changed more : List BlockId} {own others : List StmtId}
  {ownExprs otherExprs : List ExprId} {stmts stmts' : List StmtId} {exprs exprs' : List ExprId}

theorem rfl (work : Work) : Step work work [] [] [] [] [] :=
  ⟨.rfl, .nil, .nil, Eq.refl _, Eq.refl _, fun _ member => member, fun _ member => .inl member,
    fun _ member => .inl member, fun ordered => ordered⟩

theorem trans (first : Step before between changed own ownExprs stmts exprs)
    (second : Step between after more others otherExprs stmts' exprs') :
    Step before after (changed ++ more) (own ++ others) (ownExprs ++ otherExprs) (stmts ++ stmts')
      (exprs ++ exprs') where
  grows := first.grows.trans second.grows
  stmts := first.stmts.trans second.stmts
  exprs := first.exprs.trans second.exprs
  blocks := second.blocks.trans first.blocks
  functions := second.functions.trans first.functions
  stays id member := second.stays id (first.stays id member)
  done id member := by
    have later := first.stmts.le
    rcases second.done id member with early | other | fresh
    · rcases first.done id early with old | mine | fresh
      · exact .inl old
      · exact .inr (.inl (List.mem_append_left _ mine))
      · exact .inr (.inr fresh)
    · exact .inr (.inl (List.mem_append_right _ other))
    · exact .inr (.inr (Nat.le_trans later fresh))
  doneExprs id member := by
    have later := first.exprs.le
    rcases second.doneExprs id member with early | other | fresh
    · rcases first.doneExprs id early with old | mine | fresh
      · exact .inl old
      · exact .inr (.inl (List.mem_append_left _ mine))
      · exact .inr (.inr fresh)
    · exact .inr (.inl (List.mem_append_right _ other))
    · exact .inr (.inr (Nat.le_trans later fresh))
  ordered start := second.ordered (first.ordered start)

theorem weaken (step : Step before after changed own ownExprs stmts exprs)
    (lists : ∀ id ∈ changed, id ∈ more) (marks : ∀ id ∈ own, id ∈ others)
    (exprMarks : ∀ id ∈ ownExprs, id ∈ otherExprs) :
    Step before after more others otherExprs stmts exprs :=
  ⟨step.grows.weaken lists, step.stmts, step.exprs, step.blocks, step.functions, step.stays,
    fun id member => (step.done id member).imp_right (.imp_left (marks id)),
    fun id member => (step.doneExprs id member).imp_right (.imp_left (exprMarks id)), step.ordered⟩

theorem counted {number : Nat}
    (step : Step { before with nextLoop := number } after changed own ownExprs stmts exprs) :
    Step before after changed own ownExprs stmts exprs :=
  ⟨step.grows, step.stmts, step.exprs, step.blocks, step.functions, step.stays, step.done,
    step.doneExprs, step.ordered⟩

end Step

theorem run_then {A B : Type} {first : Edit A} {next : A → Edit B}
    {a : A} (ran : first.run before = .ok (a, between)) :
    (first >>= next).run before = (next a).run between := by
  rw [StateT.run_bind, ran]
  rfl

theorem run_lift {A B : Type} {first : Checked A} {next : A → Edit B} {a : A}
    (ran : first = .ok a) : ((liftM first : Edit A) >>= next).run before = (next a).run before := by
  rw [ran]
  rfl

theorem run_get {A : Type} {next : Work → Edit A} :
    (get >>= next).run before = (next before).run before := Eq.refl _

theorem mem_insert {set : IdSet} {id other : Nat} :
    other ∈ set.insert id ↔ other ∈ set ∨ other = id := by
  rw [Std.ExtTreeSet.mem_insert, Nat.compare_eq_eq]
  constructor
  · rintro (same | member)
    · exact .inr same.symm
    · exact .inl member
  · rintro (member | same)
    · exact .inr member
    · exact .inl same.symm

theorem contains_eq_false {set : IdSet} {id : Nat} (fresh : id ∉ set) :
    set.contains id = false := by
  rw [← Bool.not_eq_true, Std.ExtTreeSet.contains_iff_mem]
  exact fresh

theorem finishStmt_step (work : Work) (id : StmtId) :
    Step work { work with doneStmts := work.doneStmts.insert id } [] [id] [] [] [] :=
  ⟨.rfl, .nil, .nil, Eq.refl _, Eq.refl _, fun _ member => mem_insert.mpr (.inl member),
    fun _ member => (mem_insert.mp member).imp_right fun same => .inl (List.mem_singleton.mpr same),
    fun _ member => .inl member, fun ordered => ordered⟩

theorem finishExpr_step (work : Work) (id : ExprId) :
    Step work { work with doneExprs := work.doneExprs.insert id } [] [] [id] [] [] :=
  ⟨.rfl, .nil, .nil, Eq.refl _, Eq.refl _, fun _ member => member, fun _ member => .inl member,
    fun _ member => (mem_insert.mp member).imp_right fun same => .inl (List.mem_singleton.mpr same),
    fun ordered => ordered⟩

theorem count_step (work : Work) (update : Tally → Tally) :
    Step work { work with tally := update work.tally } [] [] [] [] [] :=
  ⟨.rfl, .nil, .nil, Eq.refl _, Eq.refl _, fun _ member => member, fun _ member => .inl member,
    fun _ member => .inl member, fun ordered => ordered⟩

def nodesOf (exprs : List StoredExpr) : List ExprId :=
  exprs.flatMap fun expr => expr.within.map Expr.label

theorem exprsOf_run {shape : StoredShape} {exprs : List StoredExpr}
    {work : Work} (kept : List.Forall₂ (fun id expr => expr.label = id ∧
      work.store.KeepsExpr expr) shape.exprs exprs) (distinct : (nodesOf exprs).Nodup) :
    (exprsOf shape).run work = .ok (exprs.flatMap Expr.within, work) := by
  have labels : shape.exprs = exprs.map Expr.label := by
    have same : List.Forall₂ (fun id expr => id = Expr.label expr) shape.exprs exprs :=
      kept.imp fun _ _ kept => kept.1.symm
    rwa [← List.forall₂_map_right_iff (R := Eq), List.forall₂_eq_eq_eq] at same
  have read : shape.exprs.mapM work.store.exprTree = .ok exprs := by
    have each : (exprs.map Expr.label).mapM work.store.exprTree = .ok (exprs.map id) := by
      apply mapM_map_ok
      intro expr member
      obtain ⟨_, _, _, inStore⟩ := exists_left_of_forall₂ kept member
      exact Store.exprTree_kept inStore ((List.nodup_flatMap.mp distinct).1 expr member)
    rwa [← labels, List.map_id] at each
  rw [exprsOf]
  change (do
    let trees ← (liftM (shape.exprs.mapM work.store.exprTree) : Edit (List StoredExpr))
    return trees.flatMap Expr.within : Edit (List StoredExpr)).run work = _
  rw [run_lift read]
  rfl

theorem finishExprs_run (exprs : List StoredExpr) (work : Work) :
    ∃ marked : IdSet, (forIn exprs PUnit.unit fun expr _ => do
        finishExpr expr.label
        return ForInStep.yield PUnit.unit : Edit PUnit).run work = .ok
          (PUnit.unit, { work with doneExprs := marked }) ∧
      ∀ id, id ∈ marked ↔ id ∈ work.doneExprs ∨ id ∈ exprs.map Expr.label := by
  induction exprs generalizing work with
  | nil => exact ⟨work.doneExprs, Eq.refl _, by simp⟩
  | cons expr rest ih =>
      obtain ⟨marked, ran, member⟩ := ih { work with doneExprs := work.doneExprs.insert expr.label }
      refine ⟨marked, ?_, fun id => ?_⟩
      · rw [List.forIn_cons]
        exact ran
      · rw [member, mem_insert, List.map_cons, List.mem_cons, or_assoc]

structure Puts (before after : Work) (changed : List BlockId) (ownExprs : List ExprId)
    (trees : List StoredStmt) : Prop where
  step : Step before after changed [] ownExprs (Stmt.numbers trees) (Stmt.exprNumbers trees)
  kept : ∀ tree ∈ trees, after.store.KeepsStmt tree
  leaves : ∀ tree ∈ trees, tree.shape.bodies = []
  done : ∀ tree ∈ trees, tree.number ∈ after.doneStmts
  nextLoop : after.nextLoop = before.nextLoop

theorem bodiesOf_leaf {store : Store} {tree : StoredStmt} (kept : store.KeepsStmt tree)
    (leaf : tree.shape.bodies = []) : store.bodiesOf tree.number = [] := by
  obtain ⟨site, shape⟩ := tree
  have none := kept.lists
  rw [show shape.bodies = [] from leaf, List.forall₂_nil_right_iff] at none
  exact none

theorem keeps_leaves {store : Store} {trees : List StoredStmt}
    (leaves : ∀ tree ∈ trees, store.KeepsStmt tree ∧ tree.shape.bodies = []) :
    store.Keeps trees ∧ store.blockNumbers trees = [] := by
  induction trees with
  | nil => exact ⟨Store.keeps_nil, Store.blockNumbers_nil⟩
  | cons tree rest ih =>
      obtain ⟨own, leaf⟩ := leaves tree List.mem_cons_self
      obtain ⟨others, none⟩ := ih fun inner member => leaves inner (List.mem_cons_of_mem _ member)
      have nested : tree.nested = [] := by rw [Stmt.nested, Stmt.bodies, leaf, List.flatten_nil]
      constructor
      · rw [Store.keeps_cons, nested]
        exact ⟨own, Store.keeps_nil, others⟩
      · rw [Store.blockNumbers_cons, bodiesOf_leaf own leaf, nested, none]
        simp

theorem leaf_of_unnumbered {tree : StoredStmt} {counter : ParsedStmt}
    (same : tree.unnumbered = counter) (leaf : counter.shape.bodies = []) :
    tree.shape.bodies = [] := by
  obtain ⟨site, shape⟩ := tree
  rw [← same, Stmt.unnumbered, Stmt.relabel_node, Stmt.shape_node, StmtShape.bodies_map] at leaf
  exact List.map_eq_nil_iff.mp leaf

theorem Puts.stays {changed more : List BlockId} {ownExprs : List ExprId}
    {trees : List StoredStmt} (puts : Puts before between changed ownExprs trees)
    (grows : between.store.Grows after.store more) :
    ∀ tree ∈ trees, after.store.KeepsStmt tree ∧ tree.shape.bodies = [] := by
  intro tree member
  have leaf := puts.leaves tree member
  refine ⟨grows.keepsStmt (puts.kept tree member) fun block inside => absurd inside ?_, leaf⟩
  rw [bodiesOf_leaf (puts.kept tree member) leaf]
  exact List.not_mem_nil

theorem Puts.append {changed more : List BlockId} {ownExprs otherExprs : List ExprId}
    {trees others : List StoredStmt} (first : Puts before between changed ownExprs trees)
    (second : Puts between after more otherExprs others) :
    Puts before after (changed ++ more) (ownExprs ++ otherExprs) (trees ++ others) where
  step := by
    rw [Stmt.numbers_append, Stmt.exprNumbers_append]
    exact first.step.trans second.step
  kept tree member := by
    rcases List.mem_append.mp member with left | right
    · exact (first.stays second.step.grows tree left).1
    · exact second.kept tree right
  leaves tree member := (List.mem_append.mp member).elim (first.leaves tree) (second.leaves tree)
  done tree member := (List.mem_append.mp member).elim
      (fun left => second.step.stays _ (first.done tree left)) (second.done tree)
  nextLoop := second.nextLoop.trans first.nextLoop

theorem inject_run {counter : ParsedStmt} (leaf : counter.shape.bodies = []) (before : Work) :
    ∃ tree after, (inject counter).run before = .ok (tree.number, after) ∧
      Puts before after [] [] [tree] ∧ tree.unnumbered = counter := by
  obtain ⟨tree, store, ran, allocated, keeps, same⟩ := counter.allocate_step before.store
  have bare := leaf_of_unnumbered same leaf
  have kept := keeps.of_mem List.mem_cons_self
  obtain ⟨entry, there, _, matched⟩ := kept
  -- the new statement is marked with all its expressions, so that no later visit charges it
  have read : (exprsOf entry.shape).run
      { before with store, doneStmts := before.doneStmts.insert tree.number } = _ :=
    exprsOf_run matched.exprs (by
      have distinct := allocated.exprs.nodup
      rw [Stmt.exprNumbers_cons] at distinct
      exact (List.nodup_append.mp distinct).1)
  obtain ⟨marked, looped, member⟩ := finishExprs_run (tree.shape.exprs.flatMap Expr.within)
    { before with store, doneStmts := before.doneStmts.insert tree.number }
  have labels : (tree.shape.exprs.flatMap Expr.within).map Expr.label =
      Stmt.exprNumbers [tree] := by
    rw [Stmt.exprNumbers_cons, Stmt.nested, Stmt.bodies, bare, List.map_flatMap]
    simp
  have found : store.stmt tree.number = .ok entry := by rw [Store.stmt, there, Store.found]
  have none : store.blockNumbers [tree] = [] :=
    (keeps_leaves (List.forall_mem_singleton.mpr ⟨keeps.of_mem List.mem_cons_self, bare⟩)).2
  have fresh := allocated.stmts.mem_iff.mp (Stmt.number_mem_of_mem (List.mem_cons_self (a := tree)))
  refine ⟨tree,
    { before with store, doneStmts := before.doneStmts.insert tree.number, doneExprs := marked },
    ?_, ⟨⟨allocated.grows, allocated.stmts, allocated.exprs, ?_, ?_, ?_, ?_, ?_, allocated.ordered⟩,
      ?_, ?_, ?_, rfl⟩, same⟩
  · rw [inject, run_get, ran]
    change (do
      let entry ← (liftM (store.stmt tree.number) : Edit StmtEntry)
      let exprs ← exprsOf entry.shape
      forIn exprs PUnit.unit fun expr _ => do
        finishExpr expr.label
        return ForInStep.yield PUnit.unit
      return tree.number : Edit StmtId).run
          { before with store, doneStmts := before.doneStmts.insert tree.number } = _
    rw [run_lift found, run_then read, run_then looped]
    rfl
  · have filled := allocated.blocks
    rw [none] at filled
    exact filled.eq_of_nil
  · exact allocated.functions.eq_of_nil
  · exact fun id old => mem_insert.mpr (.inl old)
  · intro id marked
    rcases mem_insert.mp marked with old | rfl
    · exact .inl old
    · exact .inr (.inr fresh.1)
  · intro id inside
    rcases (member id).mp inside with old | new
    · exact .inl old
    · rw [labels] at new
      exact .inr (.inr (allocated.exprs.mem_iff.mp new).1)
  · intro inner inside
    rw [List.mem_singleton.mp inside]
    exact keeps.of_mem List.mem_cons_self
  · intro inner inside
    rw [List.mem_singleton.mp inside]
    exact bare
  · intro inner inside
    rw [List.mem_singleton.mp inside]
    exact mem_insert.mpr (.inr rfl)

theorem onStore_run {edit : Store → Checked Store} {store : Store}
    {work : Work} (edited : edit work.store = .ok store) :
    (onStore edit).run work = .ok ((), { work with store }) := by
  rw [onStore, run_get, run_lift edited]
  rfl

theorem Puts.insert {tree : StoredStmt} {block : BlockId} {front back : List StoredStmt}
    (put : Puts before between [] [] [tree]) (listed : before.store.Lists block (front ++ back)) :
    ∃ store, between.store.insertStmt block front.length tree.number = .ok store ∧
      Puts before { between with store } [block] [] [tree] ∧
      store.Lists block (front ++ tree :: back) := by
  have inBetween := put.step.grows.lists listed List.not_mem_nil
  have kept := put.kept tree List.mem_cons_self
  have fresh := put.step.stmts.mem_iff.mp (Stmt.number_mem_of_mem (List.mem_cons_self (a := tree)))
  refine ⟨_, Store.insertStmt_listed inBetween fresh.2,
    ⟨?_, ?_, put.leaves, put.done, put.nextLoop⟩, Store.insertion_lists inBetween fresh.2⟩
  · have leaf := bodiesOf_leaf kept (put.leaves tree List.mem_cons_self)
    refine ⟨put.step.grows.insertion fresh.1, ?_, put.step.exprs, ?_,
      put.step.functions, put.step.stays, put.step.done, put.step.doneExprs,
      fun start => Store.insertion_ordered (put.step.ordered start) inBetween fresh.2 leaf⟩
    · rw [Store.insertion_stmts_size]
      exact put.step.stmts
    · rw [Store.insertion_blocks_size]
      exact put.step.blocks
  · intro inner inside
    rw [List.mem_singleton.mp inside]
    exact Store.insertion_keepsStmt kept (put.leaves tree List.mem_cons_self)

theorem inject_before {counter : ParsedStmt} (leaf : counter.shape.bodies = [])
    {block : BlockId} {front back : List StoredStmt} {stmt : StoredStmt}
    (listed : before.store.Lists block (front ++ stmt :: back))
    (apart : stmt.number ∉ front.map Stmt.number) :
    ∃ tree between after, (inject counter).run before = .ok (tree.number, between) ∧
      (onStore (·.insertBefore stmt.number tree.number)).run between = .ok ((), after) ∧
      Puts before after [block] [] [tree] ∧ tree.unnumbered = counter ∧
      after.store.Lists block (front ++ tree :: stmt :: back) := by
  obtain ⟨tree, between, ran, put, same⟩ := inject_run leaf before
  obtain ⟨store, inserted, puts, lists⟩ := put.insert listed
  have placed := Store.position_listed (put.step.grows.lists listed List.not_mem_nil) apart
  refine ⟨tree, between, _, ran, onStore_run ?_, puts, same, lists⟩
  rw [Store.insertBefore, placed]
  exact inserted

theorem inject_after {counter : ParsedStmt} (leaf : counter.shape.bodies = [])
    {block : BlockId} {front back : List StoredStmt} {stmt : StoredStmt}
    (listed : before.store.Lists block (front ++ stmt :: back))
    (apart : stmt.number ∉ front.map Stmt.number) :
    ∃ tree between after, (inject counter).run before = .ok (tree.number, between) ∧
      (onStore (·.insertAfter stmt.number tree.number)).run between = .ok ((), after) ∧
      Puts before after [block] [] [tree] ∧ tree.unnumbered = counter ∧
      after.store.Lists block (front ++ stmt :: tree :: back) := by
  obtain ⟨tree, between, ran, put, same⟩ := inject_run leaf before
  have split : before.store.Lists block ((front ++ [stmt]) ++ back) := by simpa using listed
  obtain ⟨store, inserted, puts, lists⟩ := put.insert split
  have placed := Store.position_listed (put.step.grows.lists listed List.not_mem_nil) apart
  rw [List.length_append, List.length_singleton] at inserted
  refine ⟨tree, between, _, ran, onStore_run ?_, puts, same, by simpa using lists⟩
  rw [Store.insertAfter, placed]
  exact inserted

theorem inject_first {counter : ParsedStmt} (leaf : counter.shape.bodies = []) {block : BlockId}
    {stmts : List StoredStmt} (listed : before.store.Lists block stmts) :
    ∃ tree between after, (inject counter).run before = .ok (tree.number, between) ∧
      (onStore (·.insertStmt block 0 tree.number)).run between = .ok ((), after) ∧
      Puts before after [block] [] [tree] ∧ tree.unnumbered = counter ∧
      after.store.Lists block (tree :: stmts) := by
  obtain ⟨tree, between, ran, put, same⟩ := inject_run leaf before
  obtain ⟨store, inserted, puts, lists⟩ :=
    put.insert (show before.store.Lists block ([] ++ stmts) from listed)
  exact ⟨tree, between, _, ran, onStore_run inserted, puts, same, lists⟩

theorem inject_last {counter : ParsedStmt} (leaf : counter.shape.bodies = []) {block : BlockId}
    {stmts : List StoredStmt} (listed : before.store.Lists block stmts) :
    ∃ tree between after, (inject counter).run before = .ok (tree.number, between) ∧
      (onStore (·.pushStmt block tree.number)).run between = .ok ((), after) ∧
      Puts before after [block] [] [tree] ∧ tree.unnumbered = counter ∧
      after.store.Lists block (stmts ++ [tree]) := by
  obtain ⟨tree, between, ran, put, same⟩ := inject_run leaf before
  have split : before.store.Lists block (stmts ++ []) := by rwa [List.append_nil]
  obtain ⟨store, inserted, puts, lists⟩ := put.insert split
  have members := Store.block_listed (put.step.grows.lists listed List.not_mem_nil)
  refine ⟨tree, between, _, ran, onStore_run ?_, puts, same, lists⟩
  rw [Store.pushStmt, members, ok_bind, List.length_map, inserted]

theorem Puts.count {changed : List BlockId} {ownExprs : List ExprId} {trees : List StoredStmt}
    (puts : Puts before after changed ownExprs trees) (update : Tally → Tally) :
    Puts before { after with tally := update after.tally } changed ownExprs trees := by
  have step := puts.step.trans (count_step after update)
  simp only [List.append_nil] at step
  exact ⟨step, puts.kept, puts.leaves, puts.done, puts.nextLoop⟩

theorem Puts.nil (work : Work) : Puts work work [] [] [] where
  step := by
    rw [Stmt.numbers_nil, Stmt.exprNumbers_nil]
    exact .rfl work
  kept _ member := absurd member List.not_mem_nil
  leaves _ member := absurd member List.not_mem_nil
  done _ member := absurd member List.not_mem_nil
  nextLoop := rfl

theorem Puts.weaken {changed more : List BlockId} {ownExprs : List ExprId} {trees : List StoredStmt}
    (puts : Puts before after changed ownExprs trees) (lists : ∀ id ∈ changed, id ∈ more) :
    Puts before after more ownExprs trees :=
  ⟨puts.step.weaken lists (fun _ member => member) fun _ member =>
    member, puts.kept, puts.leaves, puts.done, puts.nextLoop⟩

theorem count_run (update : Tally → Tally) (work : Work) :
    (count update).run work = .ok ((), { work with tally := update work.tally }) := rfl

theorem Puts.apart {changed : List BlockId} {ownExprs : List ExprId} {trees front : List StoredStmt}
    {stmt : StoredStmt} (puts : Puts before after changed ownExprs trees)
    (there : stmt.number < before.store.stmts.size) (apart : stmt.number ∉ front.map Stmt.number) :
    stmt.number ∉ (front ++ trees).map Stmt.number := by
  rw [List.map_append, List.mem_append, not_or]
  refine ⟨apart, fun member => ?_⟩
  obtain ⟨tree, inside, same⟩ := List.mem_map.mp member
  have late := (puts.step.stmts.mem_iff.mp (Stmt.number_mem_of_mem inside)).1
  rw [same] at late
  exact Nat.not_lt.mpr late there

theorem listed_lt {store : Store} {block : BlockId} {body : List StoredStmt} {stmt : StoredStmt}
    (listed : store.Lists block body) (member : stmt ∈ body) : stmt.number < store.stmts.size := by
  obtain ⟨entry, there, _⟩ := listed.2 stmt member
  exact lt_size_of_getElem? there

section
variable {context : Context} {block : BlockId} {front back : List StoredStmt} {stmt : StoredStmt}

theorem charge_run (listed : before.store.Lists block (front ++ stmt :: back))
    (apart : stmt.number ∉ front.map Stmt.number) :
    ∃ tree after, (charge context stmt.number).run before = .ok ((), after) ∧
      Puts before after [block] [] [tree] ∧
      tree.unnumbered = Weave.adding context.counter ∧
      after.store.Lists block (front ++ tree :: stmt :: back) := by
  have leaf : (Counter.increment context.counter).shape.bodies = [] := rfl
  obtain ⟨tree, between, after, ran, edited, puts, same, lists⟩ := inject_before leaf listed apart
  refine ⟨tree, _, ?_, puts.count fun tally => { tally with calls := tally.calls + 1 }, same, lists⟩
  rw [charge, run_then ran, run_then edited]
  exact count_run _ _

theorem displayBefore_run (listed : before.store.Lists block (front ++ stmt :: back))
    (apart : stmt.number ∉ front.map Stmt.number) :
    ∃ tree after, (displayBefore context stmt.number).run before = .ok ((), after) ∧
      Puts before after [block] [] [tree] ∧ tree.unnumbered = Weave.showing context.counter ∧
      after.store.Lists block (front ++ tree :: stmt :: back) := by
  have leaf : (Counter.display context.counter).shape.bodies = [] := rfl
  obtain ⟨tree, between, after, ran, edited, puts, same, lists⟩ := inject_before leaf listed apart
  refine ⟨tree, _, ?_, puts.count fun tally => { tally with returns := tally.returns + 1 },
    same, lists⟩
  rw [displayBefore, run_then ran, run_then edited]
  exact count_run _ _

theorem Puts.finishExpr {id : ExprId} {changed : List BlockId} {ownExprs : List ExprId}
    {trees : List StoredStmt} (puts : Puts { before with doneExprs := before.doneExprs.insert id }
      after changed ownExprs trees) : Puts before after changed (id :: ownExprs) trees := by
  have step := (finishExpr_step before id).trans puts.step
  exact ⟨step, puts.kept, puts.leaves, puts.done, puts.nextLoop⟩

theorem charges_run (calls : List StoredExpr)
    (listed : before.store.Lists block (front ++ stmt :: back))
    (apart : stmt.number ∉ front.map Stmt.number) :
    ∃ trees after, (forIn calls PUnit.unit fun call _ => do
        finishExpr call.label
        charge context stmt.number
        return ForInStep.yield PUnit.unit : Edit PUnit).run before = .ok (PUnit.unit, after) ∧
      Puts before after [block] (calls.map Expr.label) trees ∧
      trees.map Stmt.unnumbered = List.replicate calls.length (Weave.adding context.counter) ∧
      after.store.Lists block (front ++ trees ++ stmt :: back) := by
  induction calls generalizing before front with
  | nil =>
      have none : Puts before before [block] [] [] :=
        (Puts.nil before).weaken fun _ member => absurd member List.not_mem_nil
      exact ⟨[], before, rfl, none, rfl, by simpa using listed⟩
  | cons call rest ih =>
      -- Each increment goes right in front of the statement, behind those that are there already.
      let marked : Work := { before with doneExprs := before.doneExprs.insert call.label }
      have there := listed_lt listed (List.mem_append_right _ List.mem_cons_self)
      obtain ⟨tree, between, ran, put, same, lists⟩ :=
        @charge_run marked context block front back stmt listed apart
      have lists' : between.store.Lists block ((front ++ [tree]) ++ stmt :: back) := by
        simpa using lists
      obtain ⟨trees, after, others, puts, sames, final⟩ := ih lists' (put.apart there apart)
      refine ⟨tree :: trees, after, ?_, ?_, ?_, by simpa using final⟩
      · have round : (do
            finishExpr call.label
            charge context stmt.number
            return ForInStep.yield PUnit.unit : Edit (ForInStep PUnit)).run before =
              .ok (.yield PUnit.unit, between) := by
          rw [run_then (rfl : (finishExpr call.label).run before = .ok ((), marked)), run_then ran]
          rfl
        rw [List.forIn_cons, run_then round]
        exact others
      · exact (put.append puts).finishExpr.weaken fun id member => by simpa using member
      · rw [List.map_cons, same, sames, List.length_cons, List.replicate_succ]

/-- Every call in the expressions that is not done is charged. -/
theorem chargeCalls_run {shape : StoredShape} {exprs : List StoredExpr}
    (kept : List.Forall₂
      (fun id expr => expr.label = id ∧ before.store.KeepsExpr expr) shape.exprs exprs)
    (distinct : (nodesOf exprs).Nodup) (fresh : ∀ id ∈ nodesOf exprs, id ∉ before.doneExprs)
    (listed : before.store.Lists block (front ++ stmt :: back))
    (apart : stmt.number ∉ front.map Stmt.number) :
    ∃ trees after, (chargeCalls context stmt.number shape).run before = .ok ((), after) ∧
      Puts before after [block] (nodesOf exprs) trees ∧
      trees.map Stmt.unnumbered = List.replicate (Weave.charges context exprs)
        (Weave.adding context.counter) ∧
      after.store.Lists block (front ++ trees ++ stmt :: back) := by
  let calls := (exprs.flatMap Expr.within).filter (Weave.isCall context)
  have inside (call) (member : call ∈ exprs.flatMap Expr.within) : call.label ∈ nodesOf exprs := by
    obtain ⟨expr, own, below⟩ := List.mem_flatMap.mp member
    exact List.mem_flatMap.mpr ⟨expr, own, List.mem_map_of_mem below⟩
  -- None of these calls is done yet, so all of them are charged.
  have charged : (exprs.flatMap Expr.within).filter (isCharged context before) = calls :=
    List.filter_congr fun call member => by
      have open' := contains_eq_false (fresh _ (inside call member))
      rw [isCharged, open', Bool.not_false, Bool.true_and, Weave.isCall_eq]
  obtain ⟨trees, after, ran, puts, same, lists⟩ :=
    @charges_run before context block front back stmt calls listed apart
  have counted : calls.length = Weave.charges context exprs := List.countP_eq_length_filter.symm
  refine ⟨trees, after, ?_, ?_, ?_, lists⟩
  · rw [chargeCalls, run_then (exprsOf_run kept distinct), run_get, charged, run_then ran]
    rfl
  · have step :=
      puts.step.weaken (fun _ member => member) (fun _ member => member) fun id member => by
      obtain ⟨call, own, rfl⟩ := List.mem_map.mp member
      exact inside call (List.mem_of_mem_filter own)
    exact ⟨step, puts.kept, puts.leaves, puts.done, puts.nextLoop⟩
  · rw [same, counted]

/-- A loop's counter is zeroed before the loop, incremented first in it and displayed behind it. -/
theorem countRounds_run {body : BlockId} {stmts : List StoredStmt}
    (listed : before.store.Lists block (front ++ stmt :: back))
    (apart : stmt.number ∉ front.map Stmt.number) (inner : before.store.Lists body stmts)
    (other : body ≠ block) :
    let counter := Counter.ofLoop context.name before.nextLoop
    ∃ reset increment display after,
      (countRounds context stmt.number body).run before = .ok ((), after) ∧
      Puts { before with nextLoop := before.nextLoop + 1 } after [block, body, block] []
        [reset, increment, display] ∧
      reset.unnumbered = Weave.zeroing counter ∧
      increment.unnumbered = Weave.adding counter ∧
      display.unnumbered = Weave.showing counter ∧
      after.store.Lists block (front ++ reset :: stmt :: display :: back) ∧
      after.store.Lists body (increment :: stmts) := by
  intro counter
  let start : Work := { before with nextLoop := before.nextLoop + 1 }
  have there := listed_lt listed (List.mem_append_right _ List.mem_cons_self)
  obtain ⟨reset, first, second, ran, edited, puts, same, lists⟩ :=
    @inject_before start (Counter.reset counter) rfl block front back stmt listed apart
  -- The three edits touch two different lists, so each finds the list it edits as the others left
  -- it.
  have innerStill := puts.step.grows.lists inner (by simpa using other)
  obtain ⟨increment, third, fourth, ran', edited', puts', same', lists'⟩ :=
    @inject_first second (Counter.increment counter) rfl body stmts innerStill
  have listsStill : fourth.store.Lists block ((front ++ [reset]) ++ stmt :: back) := by
    have still := puts'.step.grows.lists lists (by simpa using Ne.symm other)
    simpa using still
  obtain ⟨display, fifth, sixth, ran'', edited'', puts'', same'', lists''⟩ :=
    @inject_after fourth (Counter.display counter) rfl block (front ++ [reset]) back stmt listsStill
      (puts.apart there apart)
  have innerLast := puts''.step.grows.lists lists' (by simpa using other)
  refine ⟨reset, increment, display, _, ?_, ((puts.append puts').append puts'').count fun tally =>
    { tally with loops := tally.loops + 1 }, same, same', same'', by simpa using lists'', innerLast⟩
  rw [countRounds, run_get,
    run_then (rfl : (modify fun work : Work =>
        { work with nextLoop := before.nextLoop + 1 } : Edit PUnit).run before =
      .ok (PUnit.unit, start)), run_then ran, run_then edited, run_then ran',
        run_then edited', run_then ran'',
    run_then edited'']
  exact count_run _ _

end

end ScriptFlow.Instrument
