import ScriptFlow.Proofs.Counter.Edit

/-!
The walk through a list. Statement by statement the list turns into the woven one, and the
statements behind are untouched when their turn comes; what a statement holds inside is walked in
the same way.
-/

namespace ScriptFlow.Instrument

variable {stmts exprs : Nat} {before between after : Work} {blocks : List BlockId}

/-- The statements are there since before the walk and nothing of them is done. The first two
numbers are the sizes that the tables had then. -/
structure Ready (stmts exprs : Nat) (work : Work) (blocks : List BlockId)
    (old : List StoredStmt) : Prop where
  kept : work.store.Keeps old
  distinct : (Stmt.numbers old).Nodup
  distinctExprs : (Stmt.exprNumbers old).Nodup
  distinctLists : (blocks ++ work.store.blockNumbers old).Nodup
  early : ∀ id ∈ Stmt.numbers old, id < stmts
  earlyExprs : ∀ id ∈ Stmt.exprNumbers old, id < exprs
  floor : stmts ≤ work.store.stmts.size
  floorExprs : exprs ≤ work.store.exprs.size
  fresh : ∀ id ∈ Stmt.numbers old, id ∉ work.doneStmts
  freshExprs : ∀ id ∈ Stmt.exprNumbers old, id ∉ work.doneExprs

/-- The new statements are the old ones and fresh ones, and only the lists named and those in the
old statements changed. -/
structure Wove (before after : Work) (blocks : List BlockId) (old new : List StoredStmt)
    (freshStmts : List StmtId) (freshExprs : List ExprId) : Prop where
  step : Step before after (blocks ++ before.store.blockNumbers old) (Stmt.numbers old)
      (Stmt.exprNumbers old) freshStmts freshExprs
  kept : after.store.Keeps new
  numbers : (Stmt.numbers new).Perm (Stmt.numbers old ++ freshStmts)
  exprNumbers : (Stmt.exprNumbers new).Perm (Stmt.exprNumbers old ++ freshExprs)
  lists : (after.store.blockNumbers new).Perm (before.store.blockNumbers old)

section
variable {first second : List StoredStmt}

theorem Ready.of_append (ready : Ready stmts exprs before blocks (first ++ second)) :
    Ready stmts exprs before blocks first ∧ Ready stmts exprs before blocks second := by
  have distinct := ready.distinct
  have distinctExprs := ready.distinctExprs
  have distinctLists := ready.distinctLists
  have early := ready.early
  have earlyExprs := ready.earlyExprs
  have fresh := ready.fresh
  have freshExprs := ready.freshExprs
  rw [Stmt.numbers_append] at distinct early fresh
  rw [Stmt.exprNumbers_append] at distinctExprs earlyExprs freshExprs
  rw [Store.blockNumbers_append] at distinctLists
  obtain ⟨keptFirst, keptSecond⟩ := Store.keeps_append.mp ready.kept
  refine ⟨⟨keptFirst, (List.nodup_append.mp distinct).1, (List.nodup_append.mp distinctExprs).1, ?_,
      fun id member => early id (List.mem_append_left _ member),
      fun id member => earlyExprs id (List.mem_append_left _ member), ready.floor, ready.floorExprs,
      fun id member => fresh id (List.mem_append_left _ member),
      fun id member => freshExprs id (List.mem_append_left _ member)⟩,
    ⟨keptSecond, (List.nodup_append.mp distinct).2.1, (List.nodup_append.mp distinctExprs).2.1, ?_,
      fun id member => early id (List.mem_append_right _ member),
      fun id member => earlyExprs id (List.mem_append_right _ member),
        ready.floor, ready.floorExprs,
      fun id member => fresh id (List.mem_append_right _ member),
      fun id member => freshExprs id (List.mem_append_right _ member)⟩⟩
  · exact distinctLists.sublist (.append_left (List.sublist_append_left _ _) _)
  · exact distinctLists.sublist (.append_left (List.sublist_append_right _ _) _)

theorem Ready.step {changed : List BlockId} {own : List StmtId}
    {ownExprs : List ExprId} {freshStmts : List StmtId} {freshExprs : List ExprId}
    {old : List StoredStmt} (ready : Ready stmts exprs before blocks old)
    (step : Step before between changed own ownExprs freshStmts freshExprs)
    (apart : ∀ block ∈ before.store.blockNumbers old, block ∉ changed)
    (others : ∀ id ∈ Stmt.numbers old, id ∉ own)
    (otherExprs : ∀ id ∈ Stmt.exprNumbers old, id ∉ ownExprs) :
    Ready stmts exprs between blocks old ∧
      between.store.blockNumbers old = before.store.blockNumbers old := by
  have same := step.grows.blockNumbers ready.kept
  refine ⟨⟨step.grows.keeps ready.kept apart, ready.distinct, ready.distinctExprs, ?_, ready.early,
    ready.earlyExprs, Nat.le_trans ready.floor step.grows.stmts_size,
    Nat.le_trans ready.floorExprs step.grows.exprs_size, ?_, ?_⟩, same⟩
  · rw [same]
    exact ready.distinctLists
  · intro id member marked
    rcases step.done id marked with old | mine | late
    · exact ready.fresh id member old
    · exact others id member mine
    · exact Nat.not_lt.mpr (Nat.le_trans ready.floor late) (ready.early id member)
  · intro id member marked
    rcases step.doneExprs id marked with old | mine | late
    · exact ready.freshExprs id member old
    · exact otherExprs id member mine
    · exact Nat.not_lt.mpr (Nat.le_trans ready.floorExprs late) (ready.earlyExprs id member)

theorem Ready.sublist {fewer : List BlockId} {old : List StoredStmt}
    (ready : Ready stmts exprs before blocks old) (inside : fewer.Sublist blocks) :
    Ready stmts exprs before fewer old :=
  { ready with distinctLists := ready.distinctLists.sublist (inside.append_right _) }

theorem Ready.rest {own : List BlockId} {freshStmts : List StmtId} {freshExprs : List ExprId}
    {new : List StoredStmt} (ready : Ready stmts exprs before blocks (first ++ second))
    (wove : Wove before between own first new freshStmts freshExprs)
    (inside : ∀ id ∈ own, id ∈ blocks) : Ready stmts exprs between blocks second ∧
      between.store.blockNumbers second = before.store.blockNumbers second := by
  have distinct := ready.distinct
  have distinctExprs := ready.distinctExprs
  have distinctLists := ready.distinctLists
  rw [Stmt.numbers_append] at distinct
  rw [Stmt.exprNumbers_append] at distinctExprs
  rw [Store.blockNumbers_append] at distinctLists
  refine ready.of_append.2.step wove.step (fun block member changed => ?_)
    (fun id member mine => (List.nodup_append.mp distinct).2.2 id mine id member rfl)
    fun id member mine => (List.nodup_append.mp distinctExprs).2.2 id mine id member rfl
  rw [← List.append_assoc] at distinctLists
  refine (List.nodup_append.mp distinctLists).2.2 block ?_ block member rfl
  exact (List.mem_append.mp changed).elim (fun mine => List.mem_append_left _ (inside block mine))
    (List.mem_append_right _)

theorem Wove.append {own more : List BlockId} {freshStmts otherStmts : List StmtId}
    {freshExprs otherExprs : List ExprId} {new newer : List StoredStmt}
    (ready : Ready stmts exprs before blocks (first ++ second))
    (wove : Wove before between own first new freshStmts freshExprs)
    (next : Wove between after more second newer otherStmts otherExprs)
    (inside : ∀ id ∈ own, id ∈ blocks) (insideNext : ∀ id ∈ more, id ∈ blocks) :
    Wove before after blocks (first ++ second) (new ++ newer) (freshStmts ++ otherStmts)
      (freshExprs ++ otherExprs) := by
  obtain ⟨_, same⟩ := ready.rest wove inside
  have distinctLists := ready.distinctLists
  rw [Store.blockNumbers_append] at distinctLists
  -- What the second walk changes is none of the lists that the first one left behind.
  have apart : ∀ block ∈ between.store.blockNumbers new,
      block ∉ more ++ between.store.blockNumbers second := by
    intro block member changed
    rw [same] at changed
    have mine := wove.lists.mem_iff.mp member
    obtain ⟨_, lists, outside⟩ := List.nodup_append.mp distinctLists
    rcases List.mem_append.mp changed with listed | other
    · exact outside block (insideNext block listed) block (List.mem_append_left _ mine) rfl
    · exact (List.nodup_append.mp lists).2.2 block mine block other rfl
  refine ⟨?_, ?_, ?_, ?_, ?_⟩
  · have step := wove.step.trans next.step
    rw [Stmt.numbers_append, Stmt.exprNumbers_append]
    refine step.weaken (fun id member => ?_) (fun _ member => member) fun _ member => member
    rw [same] at member
    rw [Store.blockNumbers_append]
    simp only [List.mem_append] at member ⊢
    rcases member with (mine | inner) | mine | inner
    · exact .inl (inside id mine)
    · exact .inr (.inl inner)
    · exact .inl (insideNext id mine)
    · exact .inr (.inr inner)
  · exact (next.step.grows.keeps wove.kept apart).append next.kept
  · rw [Stmt.numbers_append, Stmt.numbers_append]
    refine (wove.numbers.append next.numbers).trans ?_
    simp only [List.append_assoc]
    exact .append_left _ (List.perm_append_comm_assoc _ _ _)
  · rw [Stmt.exprNumbers_append, Stmt.exprNumbers_append]
    refine (wove.exprNumbers.append next.exprNumbers).trans ?_
    simp only [List.append_assoc]
    exact .append_left _ (List.perm_append_comm_assoc _ _ _)
  · rw [Store.blockNumbers_append, Store.blockNumbers_append,
      next.step.grows.blockNumbers wove.kept]
    exact wove.lists.append (next.lists.trans (.of_eq same))

theorem Wove.nil (work : Work) (blocks : List BlockId) : Wove work work blocks [] [] [] [] where
  step := (Step.rfl work).weaken (fun _ member => absurd member List.not_mem_nil)
    (fun _ member => absurd member List.not_mem_nil) fun _ member => absurd member List.not_mem_nil
  kept := Store.keeps_nil
  numbers := by simp
  exprNumbers := by simp
  lists := by simp

end

/-- Going through the statement turns it into the woven statements. -/
def Visits (stmts exprs : Nat) (context : Context) (depth : Nat) (stmt : StoredStmt) : Prop :=
  ∀ (before : Work) (block : BlockId) (front back : List StoredStmt),
    Ready stmts exprs before [block] [stmt] →
    before.store.Lists block (front ++ stmt :: back) → stmt.number ∉ front.map Stmt.number →
    ∃ new after freshStmts freshExprs,
      (visit context (walkWithin context depth) stmt.number).run before = .ok ((), after) ∧
      Wove before after [block] [stmt] new freshStmts freshExprs ∧
      (Weave.stmt context stmt).run before.nextLoop = (new.map (Stmt.traced stmts exprs),
        after.nextLoop) ∧
      after.store.Lists block (front ++ new ++ back)

theorem forM_cons {A : Type} (act : A → Edit Unit) (first : A) (rest : List A) :
    (first :: rest).forM act = (do act first; rest.forM act) := rfl

theorem forM_append {A : Type} (act : A → Edit Unit) (first second : List A) :
    (first ++ second).forM act = (do first.forM act; second.forM act) := by
  simp only [List.forM_eq_forM, List.forM_append]

section
variable {context : Context} {depth : Nat} {block : BlockId} {front back body : List StoredStmt}

theorem list_run (visits : ∀ stmt ∈ body, Visits stmts exprs context depth stmt)
    (ready : Ready stmts exprs before [block] body)
    (listed : before.store.Lists block (front ++ body ++ back))
    (apart : ∀ stmt ∈ body, stmt.number ∉ front.map Stmt.number) :
    ∃ new after freshStmts freshExprs,
      ((body.map Stmt.number).forM (visit context (walkWithin context depth))).run
        before = .ok ((), after) ∧
      Wove before after [block] body new freshStmts freshExprs ∧
      (Weave.body context body).run before.nextLoop = (new.map (Stmt.traced stmts exprs),
        after.nextLoop) ∧
      after.store.Lists block (front ++ new ++ back) := by
  induction body generalizing before front with
  | nil => exact ⟨[], before, [], [], rfl, .nil before [block], rfl, listed⟩
  | cons stmt rest ih =>
      have split : Ready stmts exprs before [block] ([stmt] ++ rest) := ready
      have first : before.store.Lists block (front ++ stmt :: (rest ++ back)) := by
        simpa using listed
      obtain ⟨new, between, freshStmts, freshExprs, ran, wove, woven, lists⟩ :=
        visits stmt List.mem_cons_self before block front (rest ++ back) split.of_append.1 first
          (apart stmt List.mem_cons_self)
      obtain ⟨readyRest, _⟩ := split.rest wove fun _ member => member
      -- what stands in front now are the statement, which is another one, and new statements, which
      -- have late numbers
      have apartRest : ∀ inner ∈ rest, inner.number ∉ (front ++ new).map Stmt.number := by
        intro inner member visited
        rw [List.map_append, List.mem_append] at visited
        rcases visited with early | fresh
        · exact apart inner (List.mem_cons_of_mem _ member) early
        · obtain ⟨other, inside, same⟩ := List.mem_map.mp fresh
          have distinct := split.distinct
          rw [Stmt.numbers_append] at distinct
          have number := wove.numbers.mem_iff.mp (Stmt.number_mem_of_mem inside)
          rw [same] at number
          rcases List.mem_append.mp number with own | late
          · exact (List.nodup_append.mp distinct).2.2 _ own _ (Stmt.number_mem_of_mem member) rfl
          · have bound := split.of_append.2.early _ (Stmt.number_mem_of_mem member)
            exact Nat.not_lt.mpr
              (Nat.le_trans ready.floor (wove.step.stmts.mem_iff.mp late).1) bound
      obtain ⟨newer, after, otherStmts, otherExprs, others, next, wovenRest, final⟩ :=
        ih (fun inner member => visits inner (List.mem_cons_of_mem _ member)) readyRest
          (by simpa using lists) apartRest
      refine ⟨new ++ newer, after, freshStmts ++ otherStmts, freshExprs ++ otherExprs, ?_,
        Wove.append split wove next (fun _ member => member) fun _ member => member,
        ?_, by simpa using final⟩
      · rw [List.map_cons, forM_cons, run_then ran]
        exact others
      · simp only [Weave.body_cons, woven, wovenRest, List.map_append]

theorem visit_done {id : StmtId} (done : id ∈ before.doneStmts) (nested : BlockId → Edit Unit) :
    (visit context nested id).run before = .ok ((), before) := by
  rw [visit, run_get]
  have marked : before.doneStmts.contains id = true := Std.ExtTreeSet.contains_iff_mem.mpr done
  simp only [marked]
  rfl

theorem skip_run {trees : List StoredStmt} (done : ∀ tree ∈ trees, tree.number ∈ before.doneStmts)
    (nested : BlockId → Edit Unit) :
    ((trees.map Stmt.number).forM (visit context nested)).run before = .ok ((), before) := by
  induction trees with
  | nil => rfl
  | cons tree rest ih =>
      rw [List.map_cons, forM_cons, run_then (visit_done (done tree List.mem_cons_self) nested)]
      exact ih fun inner member => done inner (List.mem_cons_of_mem _ member)

/-- The counter statements that stand around the statements of a list are skipped. -/
theorem walk_run (visits : ∀ stmt ∈ body, Visits stmts exprs context depth stmt)
    (ready : Ready stmts exprs before [block] body)
    (listed : before.store.Lists block (front ++ body ++ back))
    (doneFront : ∀ tree ∈ front, tree.number ∈ before.doneStmts)
    (doneBack : ∀ tree ∈ back, tree.number ∈ before.doneStmts) :
    ∃ new after freshStmts freshExprs,
      (walkWithin context (depth + 1) block).run before = .ok ((), after) ∧
      Wove before after [block] body new freshStmts freshExprs ∧
      (Weave.body context body).run before.nextLoop = (new.map (Stmt.traced stmts exprs),
        after.nextLoop) ∧
      after.store.Lists block (front ++ new ++ back) := by
  have apart : ∀ stmt ∈ body, stmt.number ∉ front.map Stmt.number := by
    intro stmt member early
    obtain ⟨tree, inside, same⟩ := List.mem_map.mp early
    exact ready.fresh _ (Stmt.number_mem_of_mem member) (same ▸ doneFront tree inside)
  obtain ⟨new, after, freshStmts, freshExprs, ran, wove, woven, lists⟩ :=
    list_run visits ready listed apart
  refine ⟨new, after, freshStmts, freshExprs, ?_, wove, woven, lists⟩
  have members := Store.block_listed listed
  rw [walkWithin, run_get, run_lift members, List.map_append, List.map_append, forM_append,
    forM_append, StateT.run_bind, run_then (skip_run doneFront _), ran]
  exact skip_run (fun tree member => wove.step.stays _ (doneBack tree member)) _

theorem bodies_run {bodies : List (List StoredStmt)}
    (lists : List.Forall₂ before.store.Lists blocks bodies)
    (visits : ∀ stmt ∈ bodies.flatten, Visits stmts exprs context depth stmt)
    (ready : Ready stmts exprs before blocks bodies.flatten) :
    ∃ news after freshStmts freshExprs,
      (blocks.forM (walkWithin context (depth + 1))).run before = .ok ((), after) ∧
      Wove before after blocks bodies.flatten news.flatten freshStmts freshExprs ∧
      (bodies.mapM (Weave.body context)).run before.nextLoop =
        (news.map (·.map (Stmt.traced stmts exprs)), after.nextLoop) ∧
      List.Forall₂ after.store.Lists blocks news := by
  induction bodies generalizing before blocks with
  | nil =>
      cases lists
      exact ⟨[], before, [], [], rfl, .nil before [], rfl, .nil⟩
  | cons body bodies ih =>
      obtain ⟨block, blocks, listed, others, rfl⟩ := List.forall₂_cons_right_iff.mp lists
      rw [List.flatten_cons] at ready visits
      have distinctLists := ready.distinctLists
      rw [Store.blockNumbers_append] at distinctLists
      simp only [List.cons_append, List.nodup_cons, List.mem_append, not_or] at distinctLists
      obtain ⟨⟨notBlocks, notOwn, notRest⟩, distinctRest⟩ := distinctLists
      have disjoint := (List.nodup_append.mp distinctRest).2.2
      have whole : before.store.Lists block ([] ++ body ++ []) := by simpa using listed
      obtain ⟨new, between, freshStmts, freshExprs, ran, wove, woven, final⟩ :=
        walk_run (fun stmt member => visits stmt (List.mem_append_left _ member))
          (ready.of_append.1.sublist (by simp)) whole (fun _ member =>
          absurd member List.not_mem_nil) fun _ member => absurd member List.not_mem_nil
      obtain ⟨readyRest, same⟩ := ready.rest wove fun id member => by simp_all
      have stillListed := wove.step.grows.forall_lists others fun other member changed => by
        rcases List.mem_append.mp changed with own | inner
        · rw [List.mem_singleton] at own
          exact notBlocks (own ▸ member)
        · exact disjoint _ member _ (List.mem_append_left _ inner) rfl
      obtain ⟨news, after, otherStmts, otherExprs, ran', next, woven', finals⟩ :=
        ih stillListed (fun stmt member => visits stmt (List.mem_append_right _ member))
          (readyRest.sublist (List.sublist_cons_self _ _))
      -- the other lists and those inside them are not this one, so that it is as the first walk
      -- left it
      have headStill : after.store.Lists block new := by
        refine next.step.grows.lists (by simpa using final) fun changed => ?_
        rw [same] at changed
        exact (List.mem_append.mp changed).elim notBlocks notRest
      refine ⟨new :: news, after, freshStmts ++ otherStmts, freshExprs ++ otherExprs, ?_, ?_, ?_,
        .cons headStill finals⟩
      · rw [forM_cons, run_then ran]
        exact ran'
      · rw [List.flatten_cons, List.flatten_cons]
        exact Wove.append ready wove next (fun id member => by simp_all) fun id member =>
          List.mem_cons_of_mem _ member
      · rw [List.mapM_cons, run_bind, woven]
        simp only [run_bind, run_pure, woven', List.map_cons]

end
end ScriptFlow.Instrument
