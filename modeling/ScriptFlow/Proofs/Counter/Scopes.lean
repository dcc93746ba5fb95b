import ScriptFlow.Proofs.Counter.Visit
import ScriptFlow.Proofs.Program.Rebody

/-!
The instrumentation of a program. Each scope is woven on its own; when its turn comes the program is
as it was at the start as far as the scope's names and statements go, so the scope's context is the
one that the program had before anything was put in.
-/

namespace ScriptFlow

def Layout.context (layout : Layout) (classify : Bool) (region : Region) : Instrument.Context :=
  ⟨region.name, isFunction (if classify then some (layout.vocabulary region) else none)⟩

theorem Program.Holds.contextOf {program : Program} {layout : Layout} (holds : program.Holds layout)
    {region : Region} (member : region ∈ layout.regions) (classify : Bool) :
    Instrument.contextOf program classify region.scope = .ok (layout.context classify region) := by
  rw [Instrument.contextOf, holds.scopeName member, holds.vocabulary member]
  cases classify <;> rfl

namespace Instrument

variable {stmts exprs : Nat} {before between after : Work} {context : Context} {block : BlockId}

theorem Ready.size_le {body : List StoredStmt} {blocks : List BlockId}
    (ready : Ready stmts exprs before blocks body) {stmt : StoredStmt} (member : stmt ∈ body) :
    stmt.size ≤ before.store.stmts.size := by
  have counted := Stmt.length_within body
  have bound := le_total (List.mem_map_of_mem (f := Stmt.size) member)
  have small := @length_le_of_nodup_lt _ before.store.stmts.size ready.distinct fun id inside => by
    obtain ⟨inner, visited, rfl⟩ := List.mem_map.mp inside
    exact (ready.kept inner visited).id_lt
  rw [Stmt.numbers, List.length_map] at small
  omega

theorem perm_framed {ids : List StoredStmt → List Nat}
    (append : ∀ front back, ids (front ++ back) = ids front ++ ids back)
    {body new : List StoredStmt} {fresh : List Nat}
    (woven : (ids new).Perm (ids body ++ fresh)) (first last : List StoredStmt) :
    (ids (first ++ new ++ last)).Perm (ids body ++ (ids (first ++ last) ++ fresh)) := by
  refine List.perm_iff_count.mpr fun id => ?_
  have inside := woven.count_eq id
  simp only [append, List.count_append] at inside ⊢
  omega

theorem frame_run {body : List StoredStmt} (ready : Ready stmts exprs before [block] body)
    (listed : before.store.Lists block body) :
    ∃ new after freshStmts freshExprs,
      (do
        let reset ← inject (Counter.reset context.counter)
        onStore (·.insertStmt block 0 reset)
        let display ← inject (Counter.display context.counter)
        onStore (·.pushStmt block display)
        walk context block : Edit Unit).run before = .ok ((), after) ∧
      Wove before after [block] body new freshStmts freshExprs ∧
      (Weave.scope context body).run before.nextLoop = (new.map (Stmt.traced stmts exprs),
        after.nextLoop) ∧
      after.store.Lists block new := by
  obtain ⟨reset, first, second, ran, edited, puts, same, lists⟩ :=
    @inject_first before (Counter.reset context.counter) rfl block body listed
  obtain ⟨display, third, fourth, ran', edited', puts', same', lists'⟩ :=
    @inject_last second (Counter.display context.counter) rfl block (reset :: body) lists
  have both := puts.append puts'
  have notInside : block ∉ before.store.blockNumbers body :=
    (List.nodup_cons.mp ready.distinctLists).1
  -- only the scope's own list has changed, so that its statements are as ready as they were
  obtain ⟨readyThen, sameLists⟩ := ready.step both.step (fun other member changed => by
      simp only [List.cons_append, List.nil_append, List.mem_cons, List.not_mem_nil,
        or_false, or_self] at changed
      exact notInside (changed ▸ member))
    (fun _ _ => List.not_mem_nil) fun _ _ => List.not_mem_nil
  have sized (stmt) (member : stmt ∈ body) :
      Visits stmts exprs context fourth.store.stmts.size stmt :=
    visits stmt (readyThen.size_le member)
  have whole : fourth.store.Lists block ([reset] ++ body ++ [display]) := by simpa using lists'
  obtain ⟨new, after, freshStmts, freshExprs, walked, wove, woven, final⟩ :=
    walk_run sized readyThen whole
      (fun tree member => both.done tree (List.mem_append_left _ member)) fun tree member =>
      both.done tree (List.mem_append_right _ member)
  have around := both.stays wove.step.grows
  obtain ⟨resetKept, noLists⟩ :=
    keeps_leaves (List.forall_mem_singleton.mpr (around reset (by simp)))
  obtain ⟨displayKept, noLists'⟩ :=
    keeps_leaves (List.forall_mem_singleton.mpr (around display (by simp)))
  refine ⟨[reset] ++ new ++ [display], after, Stmt.numbers ([reset] ++ [display]) ++ freshStmts,
    Stmt.exprNumbers ([reset] ++ [display]) ++ freshExprs, ?_,
    ⟨?_, ?_, perm_framed Stmt.numbers_append wove.numbers _ _,
      perm_framed Stmt.exprNumbers_append wove.exprNumbers _ _, ?_⟩, ?_, final⟩
  · rw [run_then ran, run_then edited, run_then ran', run_then edited', walk, run_get]
    exact walked
  · have step := both.step.trans wove.step
    rw [sameLists] at step
    refine step.weaken (fun id member => ?_) (fun _ member => member) fun _ member => member
    simp only [List.cons_append, List.nil_append, List.mem_cons] at member ⊢
    tauto
  · exact (resetKept.append wove.kept).append displayKept
  · rw [Store.blockNumbers_append, Store.blockNumbers_append, noLists, noLists',
      List.nil_append, List.append_nil]
    exact wove.lists.trans (.of_eq sameLists)
  · have traces := traced_puts both ready.floor ready.floorExprs
    simp only [List.cons_append, List.nil_append, List.map_cons, List.map_nil, same, same',
      List.cons.injEq, and_true] at traces
    rw [both.nextLoop] at woven
    rw [Weave.scope, run_bind, woven]
    simp only [run_pure, List.map_append, List.map_cons, List.map_nil, traces.1, traces.2]
    rfl

theorem scope_run {program : Program} {classify : Bool} {region : Region} {tally : Tally}
    (body : program.scopeBody region.scope = .ok (some block))
    (contexts : contextOf
      { program with store := before.store } classify region.scope = .ok context) (ran : (do
      let reset ← inject (Counter.reset context.counter)
      onStore (·.insertStmt block 0 reset)
      let display ← inject (Counter.display context.counter)
      onStore (·.pushStmt block display)
      walk context block : Edit Unit).run before = .ok ((), after))
    (counted : tally = { after.tally with scopes := after.tally.scopes + 1 }) :
    (scope program classify region.scope).run before =
      .ok ((), { after with doneStmts := ∅, tally }) := by
  rw [scope, run_lift body]
  change (do
    let work ← get
    let context ←
      (liftM (contextOf { program with store := work.store } classify region.scope) : Edit Context)
    let reset ← inject (Counter.reset context.counter)
    onStore (·.insertStmt block 0 reset)
    let display ← inject (Counter.display context.counter)
    onStore (·.pushStmt block display)
    walk context block
    modify fun work => { work with doneStmts := ∅ }
    count fun tally => { tally with scopes := tally.scopes + 1 } : Edit Unit).run before = _
  rw [run_get, run_lift contexts]
  have whole := @run_then before after Unit Unit _ (fun _ => do
    modify fun work => { work with doneStmts := ∅ }
    count fun tally => { tally with scopes := tally.scopes + 1 }) () ran
  simp only [bind_assoc] at whole
  rw [whole, counted]
  rfl

end Instrument

theorem Program.Holds.rebody {program : Program} {layout : Layout}
    (holds : program.Holds layout) {store : Store} {final : Region → List StoredStmt}
    (current : store.Holds (layout.rebody final)) :
    ({ program with store } : Program).Holds (layout.rebody final) := by
  refine ⟨current, ?_, ?_⟩
  · rw [holds.script, Layout.rebody, Option.map_map]
    rfl
  · rw [holds.functions, Layout.rebody, List.map_map]
    exact List.map_congr_left fun tree _ => by
      rw [Function.comp_apply, Rose.label_map, Routine.rebody]

theorem Store.Holds.exprs_apart {store : Store} {layout : Layout}
    (holds : store.Holds layout) {front back : List Region} {region other : Region}
    (split : layout.regions = front ++ region :: back) (behind : other ∈ back)
    {id : ExprId} (own : id ∈ Stmt.exprNumbers region.body.2)
    (others : id ∈ Stmt.exprNumbers other.body.2) : False := by
  have distinct := holds.exprs.nodup
  rw [exprsOf, ← Layout.regions_bodies, List.flatMap_map, split, List.flatMap_append,
    List.flatMap_cons] at distinct
  have tail := (List.nodup_append.mp (List.nodup_append.mp distinct).2.1).2.2
  exact tail id own id (List.mem_flatMap.mpr ⟨other, behind, others⟩) rfl

namespace Instrument

theorem ready_region {program : Program} {layout : Layout} {final : Region → List StoredStmt}
    {work : Work} {region : Region} (holds : program.Holds layout)
    (current : work.store.Holds (layout.rebody final)) (member : region ∈ layout.regions)
    (same : final region = region.body.2) (grown : program.store.stmts.size ≤ work.store.stmts.size)
    (grownExprs : program.store.exprs.size ≤ work.store.exprs.size) (idle : work.doneStmts = ∅)
    (fresh : ∀ id ∈ Stmt.exprNumbers region.body.2, id ∉ work.doneExprs) :
    region ∈ (layout.rebody final).regions ∧ Ready program.store.stmts.size program.store.exprs.size
      work [region.body.1] region.body.2 := by
  -- The list of the region is still the original one.
  have still : region.rebody final = region := by rw [Region.rebody, same]
  have inside : region ∈ (layout.rebody final).regions := by
    rw [Layout.regions_rebody, ← still]
    exact List.mem_map_of_mem member
  have body := Program.Holds.region_mem_bodies inside
  have original := Program.Holds.region_mem_bodies member
  refine ⟨inside, (current.body body).2, current.numbers_nodup body, current.exprNumbers_nodup body,
    ?_, ?_, ?_, grown, grownExprs, ?_, fresh⟩
  · have lists := (List.nodup_flatMap.mp current.blocks.nodup).1 region.body body
    exact (List.perm_append_comm.nodup_iff).mp lists
  · intro id number
    exact (holds.store.stmts.mem_iff.mp (List.mem_flatMap.mpr ⟨region.body, original, number⟩)).2
  · intro id number
    exact (holds.store.exprs.mem_iff.mp (List.mem_flatMap.mpr ⟨region.body, original, number⟩)).2
  · intro id _
    rw [idle]
    exact Std.ExtTreeSet.not_mem_empty

theorem scopes_run {program : Program} {layout : Layout}
    (holds : program.Holds layout) (classify : Bool) (front rest : List Region)
    (split : layout.regions = front ++ rest) {final : Region → List StoredStmt}
    (work : Work) (current : work.store.Holds (layout.rebody final))
    (untouched : ∀ region ∈ rest, final region = region.body.2)
    (grown : program.store.stmts.size ≤ work.store.stmts.size)
    (grownExprs : program.store.exprs.size ≤ work.store.exprs.size) (idle : work.doneStmts = ∅)
    (fresh : ∀ region ∈ rest, ∀ id ∈ Stmt.exprNumbers region.body.2, id ∉ work.doneExprs) :
    ∃ (final' : Region → List StoredStmt) (after : Work),
      ((rest.map Region.scope).forM (scope program classify)).run work = .ok ((), after) ∧
      after.store.Holds (layout.rebody final') ∧ (∀ region ∈ front, final' region = final region) ∧
      (rest.mapM fun region => Weave.scope (layout.context classify region) region.body.2).run
        work.nextLoop =
        (rest.map fun region =>
          (final' region).map (Stmt.traced program.store.stmts.size program.store.exprs.size),
          after.nextLoop) := by
  induction rest generalizing front final work with
  | nil => exact ⟨final, work, rfl, current, fun _ _ => rfl, rfl⟩
  | cons region rest ih =>
      have member : region ∈ layout.regions := by
        rw [split]
        exact List.mem_append_right _ List.mem_cons_self
      obtain ⟨inside, ready⟩ :=
        ready_region holds current member (untouched region List.mem_cons_self) grown grownExprs
          idle (fresh region List.mem_cons_self)
      -- the names of the scopes do not change with their bodies, so that the context is the one of
      -- the program
      have contexts := (holds.rebody current).contextOf inside classify
      have sameContext : (layout.rebody final).context classify region =
          layout.context classify region := by
        rw [Layout.context, Layout.context, Layout.vocabulary, Layout.vocabulary,
          Layout.names_rebody]
      rw [sameContext] at contexts
      obtain ⟨new, after, freshStmts, freshExprs, ran, wove, woven, lists⟩ :=
        @frame_run _ _ work (layout.context classify region) region.body.1 region.body.2 ready
          (current.region_body inside).1
      have ran' := scope_run (holds.scopeBody member) contexts ran rfl
      have next :=
        current.instead inside wove.step.grows lists wove.kept wove.step.stmts wove.step.exprs
          wove.numbers wove.exprNumbers wove.lists wove.step.blocks wove.step.functions
          (wove.step.ordered current.ordered)
      rw [Layout.rebody_rebody] at next
      have scopes := layout.scopes_nodup holds.store
      rw [split, List.map_append, List.map_cons] at scopes
      obtain ⟨_, tail, apart⟩ := List.nodup_append.mp scopes
      have behind (other) (later : other ∈ rest) : other.scope ≠ region.scope := fun same =>
        (List.nodup_cons.mp tail).1 (same ▸ List.mem_map_of_mem later)
      have before (other) (early : other ∈ front) : other.scope ≠ region.scope :=
        apart _ (List.mem_map_of_mem early) _ List.mem_cons_self
      -- the scopes still to come keep their bodies, and no expression of theirs has been charged
      obtain ⟨final', last, others, held, keeps, wovenRest⟩ := ih
        (front ++ [region]) (by simpa using split)
        { after with
          doneStmts := ∅, tally := { after.tally with scopes := after.tally.scopes + 1 } }
        next
        (fun other later => (if_neg (behind other later)).trans
          (untouched other (List.mem_cons_of_mem _ later)))
        (Nat.le_trans grown wove.step.grows.stmts_size)
        (Nat.le_trans grownExprs wove.step.grows.exprs_size) rfl
        (fun other later id number done => by
          rcases wove.step.doneExprs id done with old | mine | late
          · exact fresh other (List.mem_cons_of_mem _ later) id number old
          · exact holds.store.exprs_apart split later mine number
          · have early := (ready_region holds current (by
              rw [split]
              exact List.mem_append_right _ (List.mem_cons_of_mem _ later))
                (untouched other (List.mem_cons_of_mem _ later))
              grown grownExprs idle (fresh other (List.mem_cons_of_mem _ later))).2.earlyExprs id
                number
            exact Nat.not_lt.mpr (Nat.le_trans grownExprs late) early)
      have own : final' region = new := (keeps region (by simp)).trans (if_pos rfl)
      refine ⟨final', last, ?_, held, fun other early => ?_, ?_⟩
      · rw [List.map_cons, forM_cons, run_then ran']
        exact others
      · exact (keeps other (List.mem_append_left _ early)).trans (if_neg (before other early))
      · rw [List.mapM_cons, run_bind, woven]
        simp only [run_bind, run_pure, wovenRest, List.map_cons, own]

end Instrument

/-- Every program that holds a layout is instrumented into one that holds the woven layout. -/
theorem Program.Holds.instrument {program : Program} {layout : Layout}
    (holds : program.Holds layout) (classify : Bool) :
    ∃ (final : Region → List StoredStmt) (result : Program) (tally : Tally),
      program.instrument classify = .ok (result, tally) ∧ result.Holds (layout.rebody final) ∧
      ((layout.regions.mapM fun region =>
          Weave.scope (layout.context classify region) region.body.2).run 1).1 =
        layout.regions.map fun region =>
          (final region).map (Stmt.traced program.store.stmts.size program.store.exprs.size) := by
  -- At the start no region has been walked, so the layout is the original one.
  have start : program.store.Holds (layout.rebody fun region => region.body.2) := by
    rw [Layout.rebody_self]
    exact holds.store
  obtain ⟨final, after, ran, held, _, woven⟩ :=
    Instrument.scopes_run holds classify [] layout.regions rfl
      ⟨program.store, 1, ∅, ∅, ⟨0, 0, 0, 0⟩⟩ start (fun _ _ => rfl) (Nat.le_refl _)
      (Nat.le_refl _) rfl fun _ _ _ _ => Std.ExtTreeSet.not_mem_empty
  refine ⟨final, { program with store := after.store }, after.tally, ?_, holds.rebody held, ?_⟩
  · rw [Program.instrument, holds.scopes]
    change (do
      let result ← ((layout.regions.map Region.scope).forM (Instrument.scope program classify)).run
        ⟨program.store, 1, ∅, ∅, ⟨0, 0, 0, 0⟩⟩
      return ({ program with store := result.2.store }, result.2.tally) :
        Store.Checked (Program × Tally)) = _
    rw [ran]
    rfl
  · rw [woven]

end ScriptFlow
