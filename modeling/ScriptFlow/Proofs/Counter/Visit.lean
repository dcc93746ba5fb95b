import ScriptFlow.Proofs.Counter.Walk

/-!
The visit of a statement, kind by kind. Counter statements are put around the statement and its
bodies are walked; the statement itself keeps its entry, whose lists now hold the woven bodies.
-/

namespace ScriptFlow.Instrument

variable {stmts exprs : Nat} {before between after : Work} {context : Context} {block : BlockId}
  {site : Site} {shape : StmtShape StoredExpr (List StoredStmt)}

theorem Ready.inner (ready : Ready stmts exprs before [block] [.node site shape]) :
    Ready stmts exprs before (before.store.bodiesOf site.id) shape.bodies.flatten := by
  have distinct := ready.distinct
  have distinctExprs := ready.distinctExprs
  have distinctLists := ready.distinctLists
  have early := ready.early
  have earlyExprs := ready.earlyExprs
  have fresh := ready.fresh
  have freshExprs := ready.freshExprs
  rw [Stmt.numbers_node] at distinct early fresh
  rw [Stmt.exprNumbers_node] at distinctExprs earlyExprs freshExprs
  rw [Store.blockNumbers_node] at distinctLists
  exact ⟨(Store.keeps_cons.mp ready.kept).2.1, (List.nodup_cons.mp distinct).2,
    (List.nodup_append.mp distinctExprs).2.1, (List.nodup_append.mp distinctLists).2.1,
    fun id member => early id (List.mem_cons_of_mem _ member),
    fun id member => earlyExprs id (List.mem_append_right _ member), ready.floor, ready.floorExprs,
    fun id member => fresh id (List.mem_cons_of_mem _ member),
    fun id member => freshExprs id (List.mem_append_right _ member)⟩

/-- The statements that were there and the counter statements around them make up the woven list. -/
theorem assemble {news : List (List StoredStmt)} (pres posts : List StoredStmt)
    {inner freshStmts : List StmtId} {innerExprs freshExprs : List ExprId}
    (kept : before.store.KeepsStmt (.node site shape))
    (step : Step before after ([block] ++ before.store.blockNumbers [.node site shape])
      (Stmt.numbers [.node site shape]) (Stmt.exprNumbers [.node site shape]) freshStmts freshExprs)
    (lists : List.Forall₂ after.store.Lists (before.store.bodiesOf site.id) news)
    (keeps : after.store.Keeps news.flatten)
    (numbers : (Stmt.numbers news.flatten).Perm (Stmt.numbers shape.bodies.flatten ++ inner))
    (exprNumbers : (Stmt.exprNumbers news.flatten).Perm
      (Stmt.exprNumbers shape.bodies.flatten ++ innerExprs)) (listNumbers :
      (after.store.blockNumbers news.flatten).Perm (before.store.blockNumbers shape.bodies.flatten))
    (around : ∀ tree ∈ pres ++ posts, after.store.KeepsStmt tree ∧ tree.shape.bodies = [])
    (stmtsSplit : freshStmts.Perm (Stmt.numbers pres ++ Stmt.numbers posts ++ inner))
    (exprsSplit : freshExprs.Perm (Stmt.exprNumbers pres ++ Stmt.exprNumbers posts ++ innerExprs)) :
    Wove before after [block] [.node site shape] (pres ++ [.node site (shape.refill news)] ++ posts)
      freshStmts freshExprs := by
  have keptEntry := kept
  obtain ⟨entry, there, placed, matched⟩ := kept
  have bodies : before.store.bodiesOf site.id = entry.shape.bodies := by
    simp only [Stmt.number, Stmt.label_node] at there
    simp only [Store.bodiesOf, there, Option.map_some, Option.getD_some]
  -- The walked bodies stand where the bodies stood, so they refill the shape.
  have whole : news.length = shape.bodies.length :=
    (lists.length_eq.symm.trans (congrArg List.length bodies)).trans matched.bodies.length_eq
  obtain ⟨newBodies, sameExprs⟩ := StmtShape.refill_parts whole
  have entryAfter := step.grows.stmts _ _ there
  -- The kept statement has its old entry: its lists are the ones that were walked.
  have middle : after.store.KeepsStmt (.node site (shape.refill news)) := by
    refine ⟨entry, entryAfter, placed, ?_⟩
    have exprsAfter : entry.shape.Match
        (fun id expr => expr.label = id ∧ after.store.KeepsExpr expr) (fun _ _ => True) shape :=
      matched.imp (fun _ _ _ _ kept => ⟨kept.1, step.grows.keepsExpr kept.2⟩)
        fun _ _ _ _ _ => trivial
    rw [bodies] at lists
    exact exprsAfter.refill lists
  obtain ⟨presKept, presLists⟩ :=
    keeps_leaves fun tree member => around tree (List.mem_append_left posts member)
  obtain ⟨postsKept, postsLists⟩ :=
    keeps_leaves fun tree member => around tree (List.mem_append_right pres member)
  have nested : (Stmt.node site (shape.refill news) : StoredStmt).nested = news.flatten :=
    congrArg List.flatten newBodies
  refine ⟨step, ?_, ?_, ?_, ?_⟩
  · refine (presKept.append (Store.keeps_cons.mpr ⟨middle, ?_, Store.keeps_nil⟩)).append postsKept
    rw [nested]
    exact keeps
  · rw [Stmt.numbers_append, Stmt.numbers_append, Stmt.numbers_node, Stmt.numbers_node, newBodies]
    refine List.perm_iff_count.mpr fun id => ?_
    have split := stmtsSplit.count_eq id
    have walked := numbers.count_eq id
    simp only [List.count_append, List.count_cons] at split walked ⊢
    omega
  · rw [Stmt.exprNumbers_append, Stmt.exprNumbers_append, Stmt.exprNumbers_node,
      Stmt.exprNumbers_node, newBodies, sameExprs]
    refine List.perm_iff_count.mpr fun id => ?_
    have split := exprsSplit.count_eq id
    have walked := exprNumbers.count_eq id
    simp only [List.count_append] at split walked ⊢
    omega
  · rw [Store.blockNumbers_append, Store.blockNumbers_append, presLists, postsLists,
      Store.blockNumbers_node, Store.blockNumbers_node, newBodies, List.nil_append, List.append_nil]
    have same : after.store.bodiesOf site.id = before.store.bodiesOf site.id :=
      step.grows.bodiesOf keptEntry
    rw [same]
    exact .append_left _ listNumbers

theorem lists_congr {store : Store} {body other : List StoredStmt} (listed : store.Lists block body)
    (same : body.map Stmt.number = other.map Stmt.number) : store.Lists block other := by
  refine ⟨same ▸ listed.1, fun stmt member => ?_⟩
  have inside : stmt.number ∈ body.map Stmt.number := same ▸ List.mem_map_of_mem member
  obtain ⟨partner, there, number⟩ := List.mem_map.mp inside
  exact number ▸ listed.2 partner there

theorem traced_kept {news : List (List StoredStmt)} (early : site.id < stmts)
    (earlyExprs : ∀ id ∈ nodesOf shape.exprs, id < exprs) :
    Stmt.traced stmts exprs (.node site (shape.refill news)) =
      Weave.kept site (shape.refill (news.map (·.map (Stmt.traced stmts exprs)))) := by
  have own : shape.map (Expr.relabel (earlier exprs)) (fun body => body) =
      shape.map (Expr.relabel some) fun body => body := by
    refine StmtShape.map_congr (fun expr member => traced_expr exprs fun id inside => ?_)
      fun _ _ => rfl
    exact earlyExprs id (List.mem_flatMap.mpr ⟨expr, member, inside⟩)
  have number : earlier stmts site.id = some site.id := if_pos early
  have again := StmtShape.map_refill (Expr.relabel some) (fun stmt : WovenStmt => stmt) shape
    (news.map (·.map (Stmt.traced stmts exprs)))
  simp only [List.map_id'] at again
  rw [Stmt.traced_node, StmtShape.map_refill, own, number, Weave.kept]
  rw [again]

theorem traced_puts {changed : List BlockId} {ownExprs : List ExprId} {trees : List StoredStmt}
    (puts : Puts before after changed ownExprs trees) (floor : stmts ≤ before.store.stmts.size)
    (floorExprs : exprs ≤ before.store.exprs.size) :
    trees.map (Stmt.traced stmts exprs) = (trees.map Stmt.unnumbered).map Weave.injected := by
  rw [List.map_map]
  refine List.map_congr_left fun tree member =>
    traced_injected stmts exprs (fun id inside => ?_) fun id inside => ?_
  · have fresh : id ∈ Stmt.numbers trees := by
      rw [Stmt.numbers_flatMap]
      exact List.mem_flatMap.mpr ⟨tree, member, inside⟩
    exact Nat.le_trans floor (puts.step.stmts.mem_iff.mp fresh).1
  · have fresh : id ∈ Stmt.exprNumbers trees := by
      rw [Stmt.exprNumbers_flatMap]
      exact List.mem_flatMap.mpr ⟨tree, member, inside⟩
    exact Nat.le_trans floorExprs (puts.step.exprs.mem_iff.mp fresh).1

theorem Ready.root (ready : Ready stmts exprs before [block] [.node site shape]) :
    site.id < stmts ∧ (∀ id ∈ nodesOf shape.exprs, id < exprs) ∧ (nodesOf shape.exprs).Nodup ∧
      (∀ id ∈ nodesOf shape.exprs, id ∉ before.doneExprs) ∧ site.id ∉ before.doneStmts ∧
      (∀ id ∈ nodesOf shape.exprs, id ∉ Stmt.exprNumbers shape.bodies.flatten) ∧
      site.id ∉ Stmt.numbers shape.bodies.flatten := by
  have distinct := ready.distinct
  have distinctExprs := ready.distinctExprs
  have early := ready.early
  have earlyExprs := ready.earlyExprs
  have fresh := ready.fresh
  have freshExprs := ready.freshExprs
  rw [Stmt.numbers_node] at distinct early fresh
  rw [Stmt.exprNumbers_node] at distinctExprs earlyExprs freshExprs
  obtain ⟨own, _, apart⟩ := List.nodup_append.mp distinctExprs
  exact ⟨early _ List.mem_cons_self, fun id member => earlyExprs id (List.mem_append_left _ member),
    own, fun id member => freshExprs id (List.mem_append_left _ member), fresh _ List.mem_cons_self,
    fun id member inner => apart id member id inner rfl, (List.nodup_cons.mp distinct).1⟩

theorem Ready.outside (ready : Ready stmts exprs before [block] [.node site shape]) :
    block ∉ before.store.bodiesOf site.id ++ before.store.blockNumbers shape.bodies.flatten := by
  have distinct := ready.distinctLists
  rw [Store.blockNumbers_node, List.singleton_append] at distinct
  exact (List.nodup_cons.mp distinct).1

section
variable {depth : Nat} {front back : List StoredStmt}

theorem plain_visit {entry : StoredShape}
    (ready : Ready stmts exprs before [block] [.node site shape])
    (listed : before.store.Lists block (front ++ .node site shape :: back))
    (apart : site.id ∉ front.map Stmt.number) (matched : entry.Match (fun id expr =>
      expr.label = id ∧ before.store.KeepsExpr expr) before.store.Lists shape)
    (visits : ∀ stmt ∈ shape.bodies.flatten, Visits stmts exprs context depth stmt)
    (runs : (visit context (walkWithin context (depth + 1)) site.id).run before = (do
      chargeCalls context site.id entry
      (before.store.bodiesOf site.id).forM (walkWithin context (depth + 1))).run before)
    (calm : shape.isLoop = false)
    (around : ∀ number news, Weave.around context number site (shape.refill news) =
      Weave.increments context (shape.refill news).exprs ++ [Weave.kept site (shape.refill news)]) :
    ∃ new after freshStmts freshExprs,
      (visit context (walkWithin context (depth + 1)) site.id).run before = .ok ((), after) ∧
      Wove before after [block] [.node site shape] new freshStmts freshExprs ∧
      (Weave.stmt context (.node site shape)).run before.nextLoop =
        (new.map (Stmt.traced stmts exprs), after.nextLoop) ∧
      after.store.Lists block (front ++ new ++ back) := by
  obtain ⟨early, earlyExprs, distinct, fresh, _, apartExprs, _⟩ := ready.root
  have kept := ready.kept.of_mem List.mem_cons_self
  have bodyLists := kept.lists
  have outside := ready.outside
  obtain ⟨trees, between, ran, puts, same, lists⟩ :=
    @chargeCalls_run before context block front back
      (.node site shape) entry shape.exprs matched.exprs distinct fresh listed apart
  -- The increments change the list of the statement alone, so the bodies are still ready to be
  -- walked.
  obtain ⟨readyInner, sameLists⟩ := ready.inner.step puts.step (fun inner member changed => by
      rw [List.mem_singleton] at changed
      exact outside (List.mem_append_right _ (changed ▸ member)))
    (fun _ _ => List.not_mem_nil) fun id member mine => apartExprs id mine member
  have bodyListsStill := puts.step.grows.forall_lists bodyLists fun body member changed => by
    rw [List.mem_singleton] at changed
    exact outside (List.mem_append_left _ (changed ▸ member))
  obtain ⟨news, after, freshStmts, freshExprs, ran', wove, woven, finals⟩ :=
    bodies_run bodyListsStill visits readyInner
  have whole : news.length = shape.bodies.length := finals.length_eq.symm.trans bodyLists.length_eq
  have whole' : (news.map (·.map (Stmt.traced stmts exprs))).length = shape.bodies.length := by
    rwa [List.length_map]
  have step : Step before after ([block] ++ before.store.blockNumbers [.node site shape])
      (Stmt.numbers [.node site shape]) (Stmt.exprNumbers [.node site shape])
      (Stmt.numbers trees ++ freshStmts) (Stmt.exprNumbers trees ++ freshExprs) := by
    have steps := puts.step.trans wove.step
    rw [sameLists] at steps
    rw [Store.blockNumbers_node, Stmt.numbers_node, Stmt.exprNumbers_node]
    exact steps.weaken (fun _ member => member)
      (fun _ member => List.mem_cons_of_mem _ member) fun _ member => member
  refine ⟨trees ++ [.node site (shape.refill news)] ++ [], after, Stmt.numbers trees ++ freshStmts,
    Stmt.exprNumbers trees ++ freshExprs, runs.trans ((run_then ran).trans ran'), ?_, ?_, ?_⟩
  · refine assemble trees [] kept step finals wove.kept wove.numbers wove.exprNumbers
      (wove.lists.trans (.of_eq sameLists)) (fun tree member => ?_) (by simp) (by simp)
    rw [List.append_nil] at member
    exact puts.stays wove.step.grows tree member
  · have exprsSame := (StmtShape.refill_parts whole').2
    rw [puts.nextLoop] at woven
    simp only [Weave.stmt_run, calm, Bool.false_eq_true, ↓reduceIte, woven, around, exprsSame,
      List.append_nil, List.map_append, List.map_cons, List.map_nil, traced_puts puts ready.floor
      ready.floorExprs, same, List.map_replicate, traced_kept early earlyExprs]
    rfl
  · refine lists_congr (wove.step.grows.lists lists ?_) (by simp [Stmt.number])
    rw [sameLists]
    exact outside

theorem leaf_visit {trees : List StoredStmt} {counters : List ParsedStmt} {marks : Work}
    (ready : Ready stmts exprs before [block] [.node site shape]) (leaf : shape.bodies = [])
    (ran : (visit context (walkWithin context depth) site.id).run before = .ok ((), after))
    (marked : Step before marks [] [site.id] [] [] [])
    (puts : Puts marks after [block] [] trees) (sameLoop : marks.nextLoop = before.nextLoop)
    (lists : after.store.Lists block (front ++ trees ++ .node site shape :: back))
    (same : trees.map Stmt.unnumbered = counters)
    (around : ∀ number news, Weave.around context number site (shape.refill news) =
      counters.map Weave.injected ++ [Weave.kept site (shape.refill news)]) :
    ∃ new after freshStmts freshExprs,
      (visit context (walkWithin context depth) site.id).run before = .ok ((), after) ∧
      Wove before after [block] [.node site shape] new freshStmts freshExprs ∧
      (Weave.stmt context (.node site shape)).run before.nextLoop =
        (new.map (Stmt.traced stmts exprs), after.nextLoop) ∧
      after.store.Lists block (front ++ new ++ back) := by
  obtain ⟨early, earlyExprs, _⟩ := ready.root
  have kept := ready.kept.of_mem List.mem_cons_self
  have bodyLists := kept.lists
  rw [leaf, List.forall₂_nil_right_iff] at bodyLists
  -- A loop has a body, so this is none.
  have calm : shape.isLoop = false := by
    cases shape <;> first | rfl | exact absurd leaf (List.cons_ne_nil _ _)
  have step : Step before after ([block] ++ before.store.blockNumbers [.node site shape])
      (Stmt.numbers [.node site shape]) (Stmt.exprNumbers [.node site shape]) (Stmt.numbers trees)
      (Stmt.exprNumbers trees) := by
    rw [Stmt.numbers_node]
    refine (marked.trans puts.step).weaken (fun _ member => List.mem_append_left _ member)
      (fun id member => ?_) fun _ member => absurd member List.not_mem_nil
    rw [List.append_nil, List.mem_singleton] at member
    exact member ▸ List.mem_cons_self
  have keeps : after.store.Keeps ([] : List (List StoredStmt)).flatten := Store.keeps_nil
  refine ⟨trees ++ [.node site (shape.refill [])] ++ [], after, Stmt.numbers trees,
    Stmt.exprNumbers trees, ran, ?_, ?_, ?_⟩
  · refine @assemble before after block site shape [] trees [] [] _ [] _ kept step
      (by rw [bodyLists]; exact .nil) keeps
      (by simp [leaf]) (by simp [leaf]) (by simp [leaf]) (fun tree member => ?_) (by simp) (by simp)
    rw [List.append_nil] at member
    exact puts.stays .rfl tree member
  · have floor := Nat.le_trans ready.floor marked.grows.stmts_size
    have floorExprs := Nat.le_trans ready.floorExprs marked.grows.exprs_size
    simp only [Weave.stmt_run, calm, leaf, List.mapM_nil, run_pure,
      around, Bool.false_eq_true, ↓reduceIte, List.append_nil,
      List.map_append, List.map_cons, List.map_nil, traced_puts puts floor floorExprs, same,
      traced_kept early earlyExprs, puts.nextLoop, sameLoop]
  · exact lists_congr lists (by simp [Stmt.number])

theorem loop_counters {entry : StoredShape} {inner : BlockId} {body : List StoredStmt}
    (ready : Ready stmts exprs before [block] [.node site shape])
    (listed : before.store.Lists block (front ++ .node site shape :: back))
    (apart : site.id ∉ front.map Stmt.number) (matched : entry.Match (fun id expr =>
      expr.label = id ∧ before.store.KeepsExpr expr) before.store.Lists shape)
    (bodyListed : before.store.Lists inner body) (other : inner ≠ block) :
    let counter := Counter.ofLoop context.name before.nextLoop
    ∃ reset increment display charges after,
      (do
        finishStmt site.id
        countRounds context site.id inner
        chargeCalls context site.id entry : Edit Unit).run before = .ok ((), after) ∧
      Puts
        { before with
          doneStmts := before.doneStmts.insert site.id, nextLoop := before.nextLoop + 1 }
        after ([block, inner, block] ++ [block]) (nodesOf shape.exprs)
        ([reset, increment, display] ++ charges) ∧
      ([reset, increment, display] ++ charges).map Stmt.unnumbered =
        [Weave.zeroing counter, Weave.adding counter, Weave.showing counter] ++
          List.replicate (Weave.charges context shape.exprs)
            (Weave.adding context.counter) ∧
      after.store.Lists block (front ++ (reset :: charges) ++ .node site shape :: display :: back) ∧
      after.store.Lists inner (increment :: body) := by
  intro counter
  obtain ⟨_, earlyExprs, distinct, fresh, _⟩ := ready.root
  let marks : Work := { before with doneStmts := before.doneStmts.insert site.id }
  have marked : Step before marks [] [site.id] [] [] [] := finishStmt_step before site.id
  obtain ⟨reset, increment, display, between, ran, puts, sameReset, sameIncrement, sameDisplay,
      listed', bodyListed'⟩ :=
    @countRounds_run marks context block front back
      (.node site shape) inner body listed apart bodyListed other
  have first := marked.trans puts.step.counted
  -- the calls are charged behind the statements about the loop's counter, which were not there to
  -- be charged for
  have keptExprs : List.Forall₂ (fun id expr => expr.label = id ∧ between.store.KeepsExpr expr)
      entry.exprs shape.exprs :=
    matched.exprs.imp fun _ _ kept => ⟨kept.1, first.grows.keepsExpr kept.2⟩
  have uncharged : ∀ id ∈ nodesOf shape.exprs, id ∉ between.doneExprs := by
    intro id member done
    rcases first.doneExprs id done with old | mine | late
    · exact fresh id member old
    · exact List.not_mem_nil mine
    · exact Nat.not_lt.mpr (Nat.le_trans ready.floorExprs late) (earlyExprs id member)
  have there := listed_lt listed (List.mem_append_right _ List.mem_cons_self)
  have apart' : site.id ∉ (front ++ [reset]).map Stmt.number := by
    have behind := puts.apart there apart
    simp only [List.map_append, List.mem_append, List.map_cons, List.map_nil, List.mem_cons, not_or,
      Stmt.number, Stmt.label_node, List.not_mem_nil, or_false] at behind ⊢
    exact ⟨behind.1, behind.2.1⟩
  have listed'' :
      between.store.Lists block ((front ++ [reset]) ++ .node site shape :: (display :: back)) := by
    simpa using listed'
  obtain ⟨charges, after, ran', charged, sameCharges, last⟩ :=
    @chargeCalls_run between context block (front ++ [reset]) (display :: back)
      (.node site shape) entry shape.exprs keptExprs distinct uncharged listed'' apart'
  refine ⟨reset, increment, display, charges, after, ?_, puts.append charged,
    ?_, by simpa using last, ?_⟩
  · rw [run_then (rfl : (finishStmt site.id).run before = .ok ((), marks))]
    exact (run_then ran).trans ran'
  · rw [List.map_append, sameCharges, List.map_cons, List.map_cons, List.map_cons, sameReset,
      sameIncrement, sameDisplay]
    rfl
  · exact charged.step.grows.lists bodyListed' (by simpa using other)

theorem perm_around {ids : List StoredStmt → List Nat}
    (append : ∀ front back, ids (front ++ back) = ids front ++ ids back)
    (reset increment display : StoredStmt) (charges : List StoredStmt) (fresh : List Nat) :
    (ids ([reset, increment, display] ++ charges) ++ fresh).Perm
      (ids (reset :: charges) ++ ids [display] ++ (ids [increment] ++ fresh)) := by
  have three : ids [reset, increment, display] = ids [reset] ++
      (ids [increment] ++ ids [display]) := by
    rw [← append, ← append]
    rfl
  have front : ids (reset :: charges) = ids [reset] ++ ids charges := append [reset] charges
  refine List.perm_iff_count.mpr fun id => ?_
  simp only [append, three, front, List.count_append]
  omega

/-- A loop gets its own counter around it and in it, is charged for its calls, and its body is
walked. -/
theorem loop_visit {entry : StoredShape} {inner : BlockId} {body : List StoredStmt}
    (ready : Ready stmts exprs before [block] [.node site shape])
    (listed : before.store.Lists block (front ++ .node site shape :: back))
    (apart : site.id ∉ front.map Stmt.number) (matched : entry.Match (fun id expr =>
      expr.label = id ∧ before.store.KeepsExpr expr) before.store.Lists shape)
    (visits : ∀ stmt ∈ body, Visits stmts exprs context depth stmt)
    (lists : before.store.bodiesOf site.id = [inner]) (bodies : shape.bodies = [body])
    (runs : (visit context (walkWithin context (depth + 1)) site.id).run before = (do
      finishStmt site.id
      countRounds context site.id inner
      chargeCalls context site.id entry
      walkWithin context (depth + 1) inner).run before)
    (rounds : shape.isLoop = true)
    (around : ∀ number woven, Weave.around context number site (shape.refill [woven]) =
      let counter := Counter.ofLoop context.name number
      [Weave.injected (Weave.zeroing counter)] ++ Weave.increments context shape.exprs ++
        [Weave.kept site (shape.refill [Weave.injected (Weave.adding counter) :: woven]),
          Weave.injected (Weave.showing counter)]) :
    ∃ new after freshStmts freshExprs,
      (visit context (walkWithin context (depth + 1)) site.id).run before = .ok ((), after) ∧
      Wove before after [block] [.node site shape] new freshStmts freshExprs ∧
      (Weave.stmt context (.node site shape)).run before.nextLoop =
        (new.map (Stmt.traced stmts exprs), after.nextLoop) ∧
      after.store.Lists block (front ++ new ++ back) := by
  obtain ⟨early, earlyExprs, _, _, _, apartExprs, apartStmts⟩ := ready.root
  have kept := ready.kept.of_mem List.mem_cons_self
  have readyInner := ready.inner
  have outside := ready.outside
  have bodyLists := kept.lists
  simp only [bodies, lists, List.flatten_cons, List.flatten_nil, List.append_nil]
    at readyInner outside bodyLists apartExprs apartStmts
  rw [List.singleton_append, List.mem_cons, not_or] at outside
  obtain ⟨bodyListed, _⟩ := List.forall₂_cons.mp bodyLists
  obtain ⟨reset, increment, display, charges, between, ran, puts, same, listed', bodyListed'⟩ :=
    @loop_counters _ _ before context block site shape front back entry inner body ready listed
      apart matched bodyListed (Ne.symm outside.1)
  -- the body is as it was behind the increment, which is done, so that the walk goes through the
  -- body alone
  have counted : Step { before with doneStmts := before.doneStmts.insert site.id } between _ _ _ _
      _ := puts.step.counted
  have first := (finishStmt_step before site.id).trans counted
  obtain ⟨readyThen, sameLists⟩ := readyInner.step first (fun other member changed => by
      simp only [List.nil_append, List.cons_append, List.mem_cons, List.not_mem_nil,
        or_false] at changed
      rcases changed with rfl | rfl | rfl | rfl
      · exact outside.2 member
      · exact (List.nodup_cons.mp readyInner.distinctLists).1 member
      · exact outside.2 member
      · exact outside.2 member)
    (fun id member mine => by
      simp only [List.append_nil, List.mem_singleton] at mine
      exact apartStmts (mine ▸ member))
    fun id member mine => apartExprs id (by simpa using mine) member
  have whole : between.store.Lists inner ([increment] ++ body ++ []) := by simpa using bodyListed'
  obtain ⟨new, after, freshStmts, freshExprs, ran', wove, woven, last⟩ :=
    walk_run visits readyThen whole (fun tree member => puts.done tree (by simp_all))
      fun _ member => absurd member List.not_mem_nil
  have stays := puts.stays wove.step.grows
  obtain ⟨incrementKept, none⟩ :=
    keeps_leaves (List.forall_mem_singleton.mpr (stays increment (by simp)))
  have step : Step before after ([block] ++ before.store.blockNumbers [.node site shape])
      (Stmt.numbers [.node site shape]) (Stmt.exprNumbers [.node site shape])
      (Stmt.numbers ([reset, increment, display] ++ charges) ++ freshStmts)
      (Stmt.exprNumbers ([reset, increment, display] ++ charges) ++ freshExprs) := by
    have steps := first.trans wove.step
    rw [sameLists] at steps
    rw [Store.blockNumbers_node, Stmt.numbers_node, Stmt.exprNumbers_node, lists, bodies]
    simp only [List.flatten_cons, List.flatten_nil, List.append_nil, List.nil_append] at steps ⊢
    refine steps.weaken (fun id member => ?_) (fun _ member => member) fun _ member => member
    simp only [List.cons_append, List.nil_append, List.mem_cons] at member ⊢
    grind
  refine ⟨(reset :: charges) ++ [.node site (shape.refill [[increment] ++ new])] ++ [display],
    after, Stmt.numbers ([reset, increment, display] ++ charges) ++ freshStmts,
    Stmt.exprNumbers ([reset, increment, display] ++ charges) ++ freshExprs, ?_, ?_, ?_, ?_⟩
  · have walked :=
      @run_then before between Unit Unit _ (fun _ => walkWithin context (depth + 1) inner) () ran
    simp only [bind_assoc] at walked
    rw [runs, walked]
    exact ran'
  · refine @assemble before after block site shape [[increment] ++ new] (reset :: charges) [display]
      (Stmt.numbers [increment] ++ freshStmts) _
      (Stmt.exprNumbers [increment] ++ freshExprs) _ kept step ?_ ?_ ?_ ?_ ?_ ?_
      (perm_around Stmt.numbers_append ..) (perm_around Stmt.exprNumbers_append ..)
    · rw [lists]
      exact .cons (by simpa using last) .nil
    · simpa using incrementKept.append wove.kept
    · simp only [bodies, List.flatten_cons, List.flatten_nil, List.append_nil, Stmt.numbers_append]
      exact (wove.numbers.append_left _).trans (List.perm_append_comm_assoc _ _ _)
    · simp only [bodies, List.flatten_cons, List.flatten_nil, List.append_nil,
        Stmt.exprNumbers_append]
      exact (wove.exprNumbers.append_left _).trans (List.perm_append_comm_assoc _ _ _)
    · simp only [bodies, List.flatten_cons, List.flatten_nil, List.append_nil,
        Store.blockNumbers_append, none, List.nil_append]
      exact wove.lists.trans (.of_eq sameLists)
    · intro tree member
      refine stays tree ?_
      simp only [List.mem_append, List.mem_cons, List.not_mem_nil, or_false] at member ⊢
      tauto
  · have traces := traced_puts puts ready.floor ready.floorExprs
    rw [same] at traces
    simp only [List.cons_append, List.nil_append, List.map_cons, List.map_replicate,
      List.cons.injEq] at traces
    obtain ⟨tracedReset, tracedIncrement, tracedDisplay, tracedCharges⟩ := traces
    rw [← Weave.increments_eq] at tracedCharges
    rw [puts.nextLoop] at woven
    have bodyWoven : ([body].mapM (Weave.body context)).run (before.nextLoop + 1) =
        ([new.map (Stmt.traced stmts exprs)], after.nextLoop) := by
      rw [List.mapM_cons, run_bind, woven]
      rfl
    simp only [Weave.stmt_run, rounds, ↓reduceIte, bodies, bodyWoven,
      around, List.map_append, List.map_cons, List.map_nil,
      tracedReset, tracedIncrement, tracedDisplay, tracedCharges, traced_kept early earlyExprs]
    simp
  · refine lists_congr (wove.step.grows.lists listed' ?_) (by simp [Stmt.number])
    rw [sameLists]
    simp only [List.singleton_append, List.mem_cons, not_or]
    exact outside

theorem visit_entry {id : StmtId} {entry : StmtEntry} (fresh : id ∉ before.doneStmts)
    (there : before.store.stmts[id]? = some entry) (nested : BlockId → Edit Unit) :
    (visit context nested id).run before = (handle context nested id entry.shape).run before := by
  have found : before.store.stmt id = .ok entry := by rw [Store.stmt, there, Store.found]
  rw [visit, run_get]
  simp only [contains_eq_false fresh, Bool.false_eq_true, ↓reduceIte]
  rw [run_lift found]

end

theorem no_calls {shape : StoredShape} (none : shape.exprs = []) (id : StmtId) :
    (chargeCalls context id shape).run before = .ok ((), before) := by
  have read : (exprsOf shape).run before = .ok ([], before) :=
    @exprsOf_run shape [] before (by rw [none]; exact .nil) List.nodup_nil
  rw [chargeCalls, run_then read]
  rfl

theorem visits (stmt : StoredStmt) {depth : Nat} (deep : stmt.size ≤ depth) :
    Visits stmts exprs context depth stmt := by
  induction stmt using Stmt.induction generalizing depth with
  | node site shape ih =>
      intro before block front back ready listed apart
      obtain ⟨_, _, distinct, _, fresh, _⟩ := ready.root
      have small := Stmt.size_node site shape
      cases depth with
      | zero => omega
      | succ depth =>
          -- The statements of the bodies are smaller, so the remaining depth is enough for each of
          -- them.
          have inner (stmt) (below : stmt ∈ shape.bodies.flatten) :
              Visits stmts exprs context depth stmt :=
            ih stmt below (by
              have smaller := Stmt.size_lt_of_nested site below
              omega)
          have kept := ready.kept.of_mem List.mem_cons_self
          have bodyLists := kept.lists
          obtain ⟨entry, there, placed, matched⟩ := kept
          have opened :=
            @visit_entry before context site.id entry fresh there (walkWithin context (depth + 1))
          have bodies : before.store.bodiesOf site.id = entry.shape.bodies := by
            simp only [Stmt.number, Stmt.label_node] at there
            simp only [Store.bodiesOf, there, Option.map_some, Option.getD_some]
          obtain ⟨entry, position, parent⟩ := entry
          simp only [Stmt.shape_node] at matched opened bodies
          have matched' := matched
          -- A walk opens the statement first; what is left to show per kind is what its handler
          -- does.
          have runs
            (same : (handle context (walkWithin context (depth + 1)) site.id entry).run before = (do
                chargeCalls context site.id entry
                entry.bodies.forM (walkWithin context (depth + 1))).run before) :
              (visit context (walkWithin context (depth + 1)) site.id).run before = (do
                chargeCalls context site.id entry
                (before.store.bodiesOf site.id).forM (walkWithin context (depth + 1))).run
                  before := by
            rw [opened, same, bodies]
          have idle (none : entry.exprs = []) (leaf : entry.bodies = []) :
              (do
                chargeCalls context site.id entry
                entry.bodies.forM (walkWithin context (depth + 1))).run before =
                  .ok ((), before) := by
            rw [run_then (no_calls none _), leaf]
            rfl
          -- Most kinds are charged for their calls and walked; loops, assignments and returns have
          -- handlers of their own.
          cases matched with
          | eval quiet expr =>
              exact plain_visit ready listed apart matched' inner
                (runs (congrArg (StateT.run · before) (bind_pure_unit).symm)) rfl fun _ _ => rfl
          | branch clauses last =>
            exact plain_visit ready listed apart matched' inner (runs rfl) rfl fun _ _ => rfl
          | switch subject clauses last =>
            exact plain_visit ready listed apart matched' inner (runs rfl) rfl fun _ _ => rfl
          | breakLoop =>
            exact plain_visit ready listed apart matched' inner
              (runs (idle rfl rfl).symm) rfl fun _ _ => rfl
          | continueLoop =>
            exact plain_visit ready listed apart matched' inner
              (runs (idle rfl rfl).symm) rfl fun _ _ => rfl
          | global names =>
            exact plain_visit ready listed apart matched' inner
              (runs (idle rfl rfl).symm) rfl fun _ _ => rfl
          | persistent names =>
              exact plain_visit ready listed apart matched' inner
                (runs (idle rfl rfl).symm) rfl fun _ _ => rfl
          | forLoop var range body | whileLoop cond body =>
              exact loop_visit ready listed apart matched'
                (fun stmt member => inner stmt (by simpa [StmtShape.bodies] using member)) bodies
                rfl (opened.trans rfl) rfl fun _ _ => rfl
          | @assign target tree id expr quiet _ value =>
              let marks : Work := { before with doneStmts := before.doneStmts.insert site.id }
              have own : (expr.within.map Expr.label).Nodup :=
                (List.nodup_flatMap.mp distinct).1 expr (List.mem_cons_of_mem _ List.mem_cons_self)
              have read : marks.store.exprTree id = .ok expr :=
                value.1 ▸ Store.exprTree_kept value.2 own
              have handled : (handle context (walkWithin context (depth + 1)) site.id
                  (.assign target id quiet)).run before = (if expr.names.any context.isFunction then
                  charge context site.id else return).run marks := by
                rw [handle, run_then (rfl : (finishStmt site.id).run before = .ok ((), marks)),
                  run_get, run_lift read]
              have named := Weave.any_isFunctionName context expr
              cases calls : expr.names.any context.isFunction with
              | false =>
                  rw [calls] at handled
                  refine leaf_visit ready rfl (opened.trans handled)
                    (finishStmt_step before site.id) ((Puts.nil marks).weaken fun _ member =>
                    absurd member List.not_mem_nil) rfl (by simpa using listed) rfl fun _ _ => ?_
                  simp only [StmtShape.refill, Weave.around, named, calls]
                  rfl
              | true =>
                  rw [calls] at handled
                  obtain ⟨increment, after, ran, puts, same, lists⟩ :=
                    @charge_run marks context block front back
                      (.node site (.assign tree expr quiet)) listed apart
                  refine leaf_visit ready rfl (opened.trans (handled.trans ran))
                    (finishStmt_step before site.id) puts rfl
                    (by simpa using lists) (congrArg (fun counter => [counter]) same) fun _ _ => ?_
                  simp only [StmtShape.refill, Weave.around, named, calls]
                  rfl
          | leave =>
              let marks : Work := { before with doneStmts := before.doneStmts.insert site.id }
              obtain ⟨tree, after, ran, puts, same, lists⟩ :=
                @displayBefore_run marks context block front back (.node site .leave) listed apart
              exact leaf_visit ready rfl (opened.trans ran) (finishStmt_step before site.id) puts
                rfl (by simpa using lists) (congrArg (fun counter => [counter]) same) fun _ _ => rfl

end ScriptFlow.Instrument
