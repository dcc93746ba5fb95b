import ScriptFlow.Proofs.Counter.Scopes
import ScriptFlow.Proofs.Stmt.Relabel

/-!
Induction over woven statements. A body and what became of it go side by side: a counter statement
stands on one side only, and every other statement stands on both, around bodies that go side by
side again.
-/

namespace ScriptFlow

namespace StmtShape

theorem map_refill_const {A B C X Y : Type} (f : A → X) (y : Y) {shape : StmtShape A B}
    {bodies : List (List C)} (whole : bodies.length = shape.bodies.length) :
    (shape.refill bodies).map f (fun _ => y) = shape.map f fun _ => y := by
  have clauses (items : List (A × B)) (bodies : List (List C))
      (enough : items.length ≤ bodies.length) :
      (List.zipWith (fun clause body => (clause.1, body)) items bodies).map
      (Prod.map f fun _ => y) = items.map (Prod.map f fun _ => y) := by
    induction items generalizing bodies with
    | nil => rfl
    | cons clause rest ih =>
        cases bodies with
        | nil => cases enough
        | cons body bodies => exact congrArg _ (ih bodies (Nat.le_of_succ_le_succ enough))
  cases shape with
  | branch items last =>
      have enough : items.length ≤ bodies.length := by simp [whole, StmtShape.bodies]
      simp only [refill, map, clauses items bodies enough, Option.map_map]
      rfl
  | switch subject items last =>
      have enough : items.length ≤ bodies.length := by simp [whole, StmtShape.bodies]
      simp only [refill, map, clauses items bodies enough, Option.map_map]
      rfl
  | _ => rfl

end StmtShape

namespace Weave

open Instrument (Context)

def IsCounter (stmt : ParsedStmt) : Prop :=
  ∃ counter, stmt = zeroing counter ∨ stmt = adding counter ∨ stmt = showing counter

theorem around_cases (context : Context) (number : Nat) (site : Site)
    (shape : StmtShape StoredExpr (List WovenStmt)) :
    (shape.isLoop = true ∧ ∃ charges : Nat, around context number site shape =
      ((zeroing (Counter.ofLoop context.name number) ::
          List.replicate charges (adding context.counter)).map injected) ++
        [kept site (shape.map (fun expr => expr)
            ([adding (Counter.ofLoop context.name number)].map injected ++ ·)),
          injected (showing (Counter.ofLoop context.name number))]) ∨
    (shape.isLoop = false ∧ shape = .leave ∧ around context number site shape =
      [injected (showing context.counter), kept site .leave]) ∨
    (shape.isLoop = false ∧ shape ≠ .leave ∧ ∃ charges : Nat, around context number site shape =
      (List.replicate charges (adding context.counter)).map injected ++ [kept site shape]) := by
  have plain {exprs : List StoredExpr}
      (woven : around context number site shape = increments context exprs ++ [kept site shape]) :
      ∃ charges : Nat, around context number site shape =
        (List.replicate charges (adding context.counter)).map injected ++ [kept site shape] := by
    refine ⟨charges context exprs, ?_⟩
    rw [woven, increments, List.map_replicate]
    rfl
  cases shape with
  | forLoop var guard body | whileLoop guard body =>
      refine .inl ⟨rfl, charges context [guard], ?_⟩
      rw [List.map_cons, List.map_replicate]
      rfl
  | leave => exact .inr (.inl ⟨rfl, rfl, rfl⟩)
  | assign target value quiet =>
      refine .inr (.inr ⟨rfl, (fun same => by cases same), ?_⟩)
      cases calls : value.within.any (isFunctionName context) with
      | true => exact ⟨1, by simp only [around, calls]; rfl⟩
      | false => exact ⟨0, by simp only [around, calls]; rfl⟩
  | eval _ _ | branch _ _ | switch _ _ _ =>
      exact .inr (.inr ⟨rfl, (fun same => by cases same), plain rfl⟩)
  | breakLoop | continueLoop | global _ | persistent _ =>
      exact .inr (.inr ⟨rfl, (fun same => by cases same), ⟨0, rfl⟩⟩)

end Weave

namespace Weave

open Instrument (Context)

section
variable (stmts : StmtId) (exprs : ExprId)

def Added (counter : ParsedStmt) (stmt : StoredStmt) : Prop :=
  stmt.traced stmts exprs = injected counter

end

section
variable {stmts : StmtId} {exprs : ExprId} {counter : ParsedStmt} {stmt : StoredStmt}

theorem Added.late (added : Added stmts exprs counter stmt) : stmts ≤ stmt.number := by
  obtain ⟨site, shape⟩ := stmt
  obtain ⟨place, what⟩ := counter
  rw [Added, Stmt.traced_node, injected, Stmt.relabel_node] at added
  obtain ⟨origin, _⟩ := Stmt.node.inj added
  obtain ⟨number, _⟩ := Origin.mk.inj origin
  by_contra early
  have below : site.id < stmts := Nat.lt_of_not_le early
  rw [earlier, if_pos below] at number
  cases number

theorem Added.own (added : Added stmts exprs counter stmt) :
    stmt.shape.own = counter.shape.own := by
  obtain ⟨site, shape⟩ := stmt
  obtain ⟨place, what⟩ := counter
  rw [Added, Stmt.traced_node, injected, Stmt.relabel_node] at added
  have same := congrArg StmtShape.own (Stmt.node.inj added).2
  rwa [StmtShape.own_map, StmtShape.own_map] at same

theorem Added.leaf (added : Added stmts exprs counter stmt) (leaf : counter.shape.bodies = []) :
    stmt.nested = [] := by
  obtain ⟨site, shape⟩ := stmt
  obtain ⟨place, what⟩ := counter
  rw [Added, Stmt.traced_node, injected, Stmt.relabel_node] at added
  have same := congrArg StmtShape.bodies (Stmt.node.inj added).2
  rw [StmtShape.bodies_map, StmtShape.bodies_map, show what.bodies = [] from leaf,
    List.map_nil] at same
  rw [Stmt.nested, Stmt.bodies, Stmt.shape_node, List.map_eq_nil_iff.mp same, List.flatten_nil]

end

/-- What became of a loop: the statements about its counter around it and first in its body, and the
increments of the scope's counter right before it. -/
structure WovenLoop where
  site : Site
  shape : StmtShape StoredExpr (List StoredStmt)
  reset : StoredStmt
  charges : List StoredStmt
  increment : StoredStmt
  inner : List StoredStmt
  display : StoredStmt

namespace WovenLoop

def stmts (loop : WovenLoop) : List StoredStmt :=
  loop.reset :: (loop.charges ++ [.node loop.site loop.shape, loop.display])

/-- The loop is what became of one with that shape and body when loops were numbered up to its
number. -/
structure Of (loop : WovenLoop) (stmts : StmtId) (exprs : ExprId) (context : Context) (number : Nat)
    (shape : StmtShape StoredExpr (List StoredStmt)) (inner : List StoredStmt) : Prop where
  early : loop.site.id < stmts
  rounds : shape.isLoop = true
  own : loop.shape.own = shape.own
  single : shape.bodies = [inner]
  split : loop.shape.bodies = [loop.increment :: loop.inner]
  reset : Added stmts exprs (zeroing (Counter.ofLoop context.name number)) loop.reset
  increment : Added stmts exprs (adding (Counter.ofLoop context.name number)) loop.increment
  display : Added stmts exprs (showing (Counter.ofLoop context.name number)) loop.display
  charges : ∀ charge ∈ loop.charges, Added stmts exprs (adding context.counter) charge

theorem Of.within {loop : WovenLoop} {stmts : StmtId} {exprs : ExprId}
    {context : Context} {number : Nat} {shape : StmtShape StoredExpr (List StoredStmt)}
    {inner : List StoredStmt} (woven : loop.Of stmts exprs context number shape inner) :
    Stmt.within loop.stmts = loop.reset :: (loop.charges ++ .node loop.site loop.shape ::
      loop.increment :: (Stmt.within loop.inner ++ [loop.display])) := by
  have leaves := Stmt.within_leaves fun charge member => (woven.charges charge member).leaf rfl
  rw [WovenLoop.stmts, Stmt.within_cons, woven.reset.leaf rfl, Stmt.within_nil, List.nil_append,
    Stmt.within_append, leaves, Stmt.within_cons, Stmt.nested, Stmt.bodies, Stmt.shape_node,
    woven.split, List.flatten_singleton, Stmt.within_cons, woven.increment.leaf rfl,
    Stmt.within_nil, List.nil_append, Stmt.within_leaf (woven.display.leaf rfl), List.cons_append]

end WovenLoop

/-- What is to be shown of every body and what became of it, with the number of the next loop before
and after it. -/
structure Placed (stmts : StmtId) (exprs : ExprId) (context : Context)
    (P : Nat → List StoredStmt → List StoredStmt → Nat → Prop) : Prop where
  nil : ∀ {number : Nat}, P number [] [] number
  charge : ∀ {number next : Nat} {stmt : StoredStmt} {body new : List StoredStmt},
      Added stmts exprs (adding context.counter) stmt → P number body new next →
      P number body (stmt :: new) next
  leave : ∀ {number next : Nat} {site : Site} {display : StoredStmt} {body new : List StoredStmt},
      site.id < stmts →
      Added stmts exprs (showing context.counter) display → P number body new next →
      P number (.node site .leave :: body) (display :: .node site .leave :: new) next
  loop : ∀ {number between next : Nat} {loop : WovenLoop}
      {shape : StmtShape StoredExpr (List StoredStmt)}
      {inner body new : List StoredStmt}, loop.Of stmts exprs context number shape inner →
    P (number + 1) inner loop.inner between → P between body new next →
    P number (.node loop.site shape :: body) (loop.stmts ++ new) next
  keep : ∀ {number between next : Nat} {site : Site}
      {shape shape' : StmtShape StoredExpr (List StoredStmt)}
      {body new : List StoredStmt}, site.id < stmts → shape.isLoop = false → shape ≠ .leave →
        shape'.own = shape.own →
    Threaded P number shape.bodies shape'.bodies between → P between body new next →
    P number (.node site shape :: body) (.node site shape' :: new) next

namespace Placed

variable {stmts : StmtId} {exprs : ExprId} {context : Context}
  {P : Nat → List StoredStmt → List StoredStmt → Nat → Prop}

theorem added_all {counter : ParsedStmt} {count : Nat} {added : List StoredStmt}
    (traced : added.map (Stmt.traced stmts exprs) = (List.replicate count counter).map injected) :
    ∀ stmt ∈ added, Added stmts exprs counter stmt := by
  intro stmt member
  have image : stmt.traced stmts exprs ∈ (List.replicate count counter).map injected :=
    traced ▸ List.mem_map_of_mem member
  obtain ⟨source, repeated, same⟩ := List.mem_map.mp image
  rw [List.eq_of_mem_replicate repeated] at same
  exact same.symm

theorem charges (closed : Placed stmts exprs context P) {added body new : List StoredStmt}
    {number next : Nat} (all : ∀ stmt ∈ added, Added stmts exprs (adding context.counter) stmt)
    (holds : P number body new next) : P number body (added ++ new) next := by
  induction added with
  | nil => exact holds
  | cons stmt rest ih =>
      exact closed.charge (all stmt List.mem_cons_self)
        (ih fun inner member => all inner (List.mem_cons_of_mem _ member))

theorem kept_inv {site : Site} {shape : StmtShape StoredExpr (List StoredStmt)}
    {bodies : List (List WovenStmt)} {first : List ParsedStmt} {tree : StoredStmt}
    (whole : bodies.length = shape.bodies.length)
    (traced : tree.traced stmts exprs =
      kept site ((shape.refill bodies).map (fun expr => expr) (first.map injected ++ ·))) :
    site.id < stmts ∧ ∃ shape', tree = .node site shape' ∧ shape'.own = shape.own ∧
      shape'.bodies.map (·.map (Stmt.traced stmts exprs)) = bodies.map
      (first.map injected ++ ·) := by
  obtain ⟨place, shape'⟩ := tree
  rw [Stmt.traced_node, kept] at traced
  obtain ⟨origin, shapes⟩ := Stmt.node.inj traced
  obtain ⟨number, position⟩ := Origin.mk.inj origin
  -- Only statements that were there before are traced back to a number.
  have early : place.id < stmts := by
    by_contra late
    rw [earlier, if_neg late] at number
    cases number
  have same : place = site := by
    rw [earlier, if_pos early] at number
    cases place
    cases site
    cases number
    cases position
    rfl
  subst same
  refine ⟨early, shape', rfl, ?_, ?_⟩
  · have own := congrArg StmtShape.own shapes
    rw [StmtShape.own_map, StmtShape.own_map] at own
    rw [own, StmtShape.own, StmtShape.map_map]
    exact StmtShape.map_refill_const _ _ whole
  · have inner := congrArg StmtShape.bodies shapes
    rwa [StmtShape.bodies_map, StmtShape.bodies_map, StmtShape.bodies_map,
      (StmtShape.refill_parts whole).1, List.map_map] at inner

theorem body_step {list : List StoredStmt}
    (each : ∀ stmt ∈ list, ∀ (number next : Nat) (news rest restNew : List StoredStmt),
      news.map (Stmt.traced stmts exprs) = ((Weave.stmt context stmt).run number).1 →
      P ((Weave.stmt context stmt).run number).2 rest restNew next →
      P number (stmt :: rest) (news ++ restNew) next)
    {number next : Nat} {news rest restNew : List StoredStmt}
    (traced : news.map (Stmt.traced stmts exprs) = ((body context list).run number).1)
    (holds : P ((body context list).run number).2 rest restNew next) :
    P number (list ++ rest) (news ++ restNew) next := by
  induction list generalizing number news with
  | nil =>
      cases List.map_eq_nil_iff.mp traced
      exact holds
  | cons stmt others ih =>
      rw [body_cons] at traced holds
      obtain ⟨head, tail, rfl, headTraced, tailTraced⟩ := List.map_eq_append_iff.mp traced
      rw [List.append_assoc]
      exact each stmt List.mem_cons_self number next head
        (others ++ rest) (tail ++ restNew) headTraced
        (ih (fun inner member => each inner (List.mem_cons_of_mem _ member)) tailTraced holds)

theorem bodies_step {bodies news : List (List StoredStmt)} {number : Nat}
    (each : ∀ list ∈ bodies, ∀ (number : Nat) (news : List StoredStmt),
      news.map (Stmt.traced stmts exprs) = ((body context list).run number).1 →
      P number list news ((body context list).run number).2) (traced : news.map
      (·.map (Stmt.traced stmts exprs)) = ((bodies.mapM (body context)).run number).1) :
    Threaded P number bodies news ((bodies.mapM (body context)).run number).2 := by
  induction bodies generalizing number news with
  | nil =>
      cases List.map_eq_nil_iff.mp traced
      exact .nil _
  | cons list rest ih =>
      rw [List.mapM_cons] at traced ⊢
      cases news with
      | nil => cases traced
      | cons new others =>
          obtain ⟨here, later⟩ := List.cons.inj traced
          exact .cons (each list List.mem_cons_self number new here)
            (ih (fun inner member => each inner (List.mem_cons_of_mem _ member)) later)

theorem length_run (bodies : List (List StoredStmt)) (number : Nat) :
    ((bodies.mapM (body context)).run number).1.length = bodies.length := by
  induction bodies generalizing number with
  | nil => rfl
  | cons first rest ih =>
      rw [List.mapM_cons]
      exact congrArg Nat.succ (ih _)

theorem stmt_step (closed : Placed stmts exprs context P) (stmt : StoredStmt) (number next : Nat)
    (news rest restNew : List StoredStmt)
    (traced : news.map (Stmt.traced stmts exprs) = ((Weave.stmt context stmt).run number).1)
    (holds : P ((Weave.stmt context stmt).run number).2 rest restNew next) :
    P number (stmt :: rest) (news ++ restNew) next := by
  induction stmt using Stmt.induction generalizing number next news rest restNew with
  | node site shape ih =>
      rw [stmt_run] at traced holds
      have whole := @length_run context shape.bodies (if shape.isLoop then number + 1 else number)
      -- every body is placed with nothing behind it, whatever the number it starts with
      have inner (list) (member : list ∈ shape.bodies) (number : Nat) (news : List StoredStmt)
          (traced : news.map (Stmt.traced stmts exprs) = ((body context list).run number).1) :
          P number list news ((body context list).run number).2 := by
        have walked := body_step (fun stmt below =>
            ih stmt (List.mem_flatten.mpr ⟨list, member, below⟩)) traced closed.nil
        rwa [List.append_nil, List.append_nil] at walked
      have sameLoop : (shape.refill ((shape.bodies.mapM (body context)).run
          (if shape.isLoop then number + 1 else number)).1).isLoop = shape.isLoop := by
        cases shape <;> rfl
      rcases around_cases context number site (shape.refill ((shape.bodies.mapM (body context)).run
          (if shape.isLoop then number + 1 else number)).1) with ⟨rounds, count, woven⟩
        | ⟨_, leaves, woven⟩ | ⟨still, stays, count, woven⟩
      · rw [sameLoop] at rounds
        obtain ⟨list, single⟩ : ∃ list, shape.bodies = [list] := by
          cases shape <;> first | exact ⟨_, rfl⟩ | cases rounds
        simp only [woven] at traced
        obtain ⟨front, back, rfl, frontTraced, backTraced⟩ := List.map_eq_append_iff.mp traced
        obtain ⟨reset, added, rfl, resetTraced, addedTraced⟩ := List.map_eq_cons_iff.mp frontTraced
        obtain ⟨tree, last, rfl, treeTraced, lastTraced⟩ := List.map_eq_cons_iff.mp backTraced
        obtain ⟨display, rfl, displayTraced⟩ := List.map_eq_singleton_iff.mp lastTraced
        obtain ⟨early, shape', rfl, own, bodies⟩ := kept_inv whole treeTraced
        simp only [rounds, ↓reduceIte, single, List.mapM_cons] at bodies holds
        obtain ⟨newBody, split, newTraced⟩ := List.map_eq_singleton_iff.mp bodies
        obtain ⟨increment, newInner, rfl, incrementTraced, innerTraced⟩ :=
          List.map_eq_cons_iff.mp newTraced
        have became : (WovenLoop.mk site shape' reset added increment newInner display).Of stmts
            exprs context number shape list :=
          ⟨early, rounds, own, single, split, resetTraced, incrementTraced, displayTraced,
            added_all addedTraced⟩
        have here : WovenLoop.stmts ⟨site, shape', reset, added, increment, newInner, display⟩ =
            reset :: added ++ [.node site shape', display] := rfl
        rw [← here]
        exact closed.loop became
          (inner list (by simp [single]) (number + 1) newInner innerTraced) holds
      · have bare : shape = .leave := by
          cases shape <;> first | rfl | cases leaves
        subst bare
        simp only [woven] at traced
        obtain ⟨display, others, rfl, displayTraced, othersTraced⟩ := List.map_eq_cons_iff.mp traced
        obtain ⟨tree, rfl, treeTraced⟩ := List.map_eq_singleton_iff.mp othersTraced
        obtain ⟨early, shape', rfl, own, _⟩ :=
          @kept_inv stmts exprs site .leave [] [] tree rfl (by rw [treeTraced]; rfl)
        have same : shape' = .leave := by
          cases shape' <;> first | rfl | cases own
        subst same
        exact closed.leave early displayTraced holds
      · rw [sameLoop] at still
        simp only [still, Bool.false_eq_true, ↓reduceIte] at holds woven
        simp only [still, Bool.false_eq_true, ↓reduceIte] at traced whole
        have goes : shape ≠ .leave := fun same => stays (by rw [same]; rfl)
        simp only [woven] at traced
        obtain ⟨added, back, rfl, addedTraced, backTraced⟩ := List.map_eq_append_iff.mp traced
        obtain ⟨tree, rfl, treeTraced⟩ := List.map_eq_singleton_iff.mp backTraced
        have unchanged (shape : StmtShape StoredExpr (List WovenStmt)) :
            shape.map (fun expr => expr) (([] : List ParsedStmt).map injected ++ ·) = shape :=
          StmtShape.map_id shape
        obtain ⟨early, shape', rfl, own, bodies⟩ :=
          kept_inv whole (treeTraced.trans (congrArg _ (unchanged _).symm))
        have same (bodies : List (List WovenStmt)) :
            bodies.map (([] : List ParsedStmt).map injected ++ ·) = bodies :=
          List.map_id' bodies
        rw [same] at bodies
        rw [List.append_assoc, List.singleton_append]
        exact closed.charges (added_all addedTraced)
          (closed.keep early still goes own (bodies_step inner bodies) holds)

theorem scope (closed : Placed stmts exprs context P) {list news : List StoredStmt} {number : Nat}
    (traced : news.map (Stmt.traced stmts exprs) = ((Weave.scope context list).run number).1) :
    ∃ reset inner display, news = reset :: (inner ++ [display]) ∧
      Added stmts exprs (zeroing context.counter) reset ∧
      Added stmts exprs (showing context.counter) display ∧
      P number list inner ((Weave.scope context list).run number).2 := by
  have parts : ((Weave.scope context list).run number).1 =
      injected (zeroing context.counter) :: (((body context list).run number).1 ++
        [injected (showing context.counter)]) := rfl
  rw [parts] at traced
  obtain ⟨reset, others, rfl, resetTraced, traced⟩ := List.map_eq_cons_iff.mp traced
  obtain ⟨inner, last, rfl, innerTraced, lastTraced⟩ := List.map_eq_append_iff.mp traced
  obtain ⟨display, rfl, displayTraced⟩ := List.map_eq_singleton_iff.mp lastTraced
  have walked := body_step (fun stmt _ => closed.stmt_step stmt) innerTraced closed.nil
  rw [List.append_nil, List.append_nil] at walked
  exact ⟨reset, inner, display, rfl, resetTraced, displayTraced, walked⟩

end Placed

/-- What is to be shown of every body and what became of it, wherever the counter statements
stand. -/
structure SideBySide (stmts : StmtId) (exprs : ExprId)
    (P : List StoredStmt → List StoredStmt → Prop) : Prop where
  nil : P [] []
  skip :
    ∀ {stmt : StoredStmt} {counter : ParsedStmt} {body new : List StoredStmt}, IsCounter counter →
      stmt.traced stmts exprs = injected counter → P body new → P body (stmt :: new)
  keep : ∀ {site : Site} {shape shape' : StmtShape StoredExpr (List StoredStmt)}
      {body new : List StoredStmt}, site.id < stmts → shape'.own = shape.own →
      List.Forall₂ P shape.bodies shape'.bodies → P body new →
      P (.node site shape :: body) (.node site shape' :: new)

namespace SideBySide

variable {stmts : StmtId} {exprs : ExprId} {P : List StoredStmt → List StoredStmt → Prop}
  {context : Context}

theorem skips (closed : SideBySide stmts exprs P) {counter : ParsedStmt}
    {added body new : List StoredStmt} (isCounter : IsCounter counter)
    (all : ∀ stmt ∈ added, Added stmts exprs counter stmt) (holds : P body new) :
    P body (added ++ new) := by
  induction added with
  | nil => exact holds
  | cons stmt rest ih =>
      exact closed.skip isCounter (all stmt List.mem_cons_self)
        (ih fun inner member => all inner (List.mem_cons_of_mem _ member))

theorem bodies_placed {bodies news : List (List StoredStmt)} {number next : Nat}
    (threaded : Threaded (fun _ body new _ => ∀ rest restNew, P rest restNew →
      P (body ++ rest) (new ++ restNew)) number bodies news next) (closed : P [] []) :
    List.Forall₂ P bodies news := by
  induction threaded with
  | nil => exact .nil
  | cons head _ ih =>
      have alone := head [] [] closed
      rw [List.append_nil, List.append_nil] at alone
      exact .cons alone ih

theorem placed (closed : SideBySide stmts exprs P) : Placed stmts exprs context
    fun _ body new _ => ∀ rest restNew, P rest restNew → P (body ++ rest) (new ++ restNew) where
  nil _ _ holds := holds
  charge added holds rest restNew later :=
    closed.skip ⟨_, .inr (.inl rfl)⟩ added (holds rest restNew later)
  leave early added holds rest restNew later :=
    closed.skip ⟨_, .inr (.inr rfl)⟩ added (closed.keep early rfl .nil (holds rest restNew later))
  loop woven inner holds rest restNew later := by
    simp only [WovenLoop.stmts, List.cons_append, List.append_assoc]
    refine closed.skip ⟨_, .inl rfl⟩ woven.reset
      (closed.skips ⟨_, .inr (.inl rfl)⟩ woven.charges (closed.keep woven.early woven.own ?_ ?_))
    · have alone := inner [] [] closed.nil
      rw [List.append_nil, List.append_nil] at alone
      rw [woven.single, woven.split]
      exact .cons (closed.skip ⟨_, .inr (.inl rfl)⟩ woven.increment alone) .nil
    · exact closed.skip ⟨_, .inr (.inr rfl)⟩ woven.display (holds rest restNew later)
  keep early _ _ own bodies holds rest restNew later :=
    closed.keep early own (bodies_placed bodies closed.nil) (holds rest restNew later)

theorem scope (closed : SideBySide stmts exprs P) {list news : List StoredStmt} {number : Nat}
    (traced : news.map (Stmt.traced stmts exprs) = ((Weave.scope context list).run number).1) :
    P list news := by
  obtain ⟨reset, inner, display, rfl, resetAdded, displayAdded, holds⟩ := closed.placed.scope traced
  have ends : P [] [display] := closed.skip ⟨_, .inr (.inr rfl)⟩ displayAdded closed.nil
  have whole := closed.skip ⟨_, .inl rfl⟩ resetAdded (holds [] [display] ends)
  rwa [List.append_nil] at whole

end SideBySide
end Weave
end ScriptFlow
