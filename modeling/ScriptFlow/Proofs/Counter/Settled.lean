import ScriptFlow.Proofs.Counter.Instrumented
import ScriptFlow.Proofs.Counter.Leading

/-!
Walking again. Once a walk has been through a list, everything that a second one gets to is done, or
is a statement of a kind that is never marked with all its calls charged; so the second one changes
nothing.
-/

namespace ScriptFlow

namespace Instrument

variable {before between after : Work} {context : Context} {block : BlockId} {id : StmtId}

/-- Every call of a function in the expressions of the shape is charged. -/
def Charged (context : Context) (work : Work) (shape : StoredShape) : Prop :=
  ∃ trees, shape.exprs.mapM work.store.exprTree = .ok trees ∧
    ∀ expr ∈ trees.flatMap Expr.within, isCharged context work expr = false

/-- Nothing is left to do at the statement itself, and its bodies are settled if a visit goes on to
them. -/
def Passed (context : Context) (work : Work) (settled : BlockId → Prop) (id : StmtId) : Prop :=
  id ∈ work.doneStmts ∨ ∃ entry, work.store.stmts[id]? = some entry ∧ isMarked entry.shape = false ∧
    Charged context work entry.shape ∧ ∀ inner ∈ entry.shape.bodies, settled inner

/-- Nothing is left to do at the statements of the list and of the lists inside it, which are no
deeper than the number says. -/
def Settled (context : Context) (work : Work) : Nat → BlockId → Prop
  | 0, _ => False
  | depth + 1, block => ∃ members, work.store.blocks[block]? = some members ∧
      ∀ id ∈ members, Passed context work (Settled context work depth) id

theorem Leads.uncharged (leads : Leads before after) {expr : StoredExpr}
    (open' : isCharged context before expr = false) : isCharged context after expr = false := by
  by_cases done : expr.label ∈ after.doneExprs
  · rw [isCharged, Std.ExtTreeSet.contains_iff_mem.mpr done, Bool.not_true, Bool.false_and]
  · have early : expr.label ∉ before.doneExprs := fun member => done (leads.doneExprs _ member)
    rw [isCharged, contains_eq_false early] at open'
    rw [isCharged, contains_eq_false done]
    exact open'

theorem Charged.leads {shape : StoredShape} (charged : Charged context before shape)
    (leads : Leads before after) : Charged context after shape := by
  obtain ⟨trees, read, each⟩ := charged
  exact ⟨trees, Store.exprTrees_persist leads.exprs _ trees read,
    fun expr member => leads.uncharged (each expr member)⟩

theorem Passed.leads {settled settled' : BlockId → Prop} (leads : Leads before after)
    (inner : ∀ block, settled block → settled' block) (passed : Passed context before settled id) :
    Passed context after settled' id := by
  rcases passed with done | ⟨entry, there, unmarked, charged, bodies⟩
  · exact .inl (leads.done id done)
  · obtain ⟨later, inAfter, same⟩ := leads.shapes id entry there
    rw [← same] at unmarked charged bodies
    exact .inr ⟨later, inAfter, unmarked, charged.leads leads,
      fun block member => inner block (bodies block member)⟩

theorem Settled.leads (leads : Leads before after) {depth more : Nat} (deep : depth ≤ more)
    (settled : Settled context before depth block) : Settled context after more block := by
  induction depth generalizing more block with
  | zero => exact settled.elim
  | succ depth ih =>
      cases more with
      | zero => exact absurd deep (Nat.not_succ_le_zero depth)
      | succ more =>
          obtain ⟨members, listed, each⟩ := settled
          obtain ⟨later, there, inside⟩ := leads.lists block members listed
          refine ⟨later, there, fun id member => ?_⟩
          rcases inside id member with old | done
          · exact (each id old).leads leads fun _ inner => ih (Nat.le_of_succ_le_succ deep) inner
          · exact .inl done

theorem forM_each {A : Type} {act : A → Edit Unit}
    {P : A → Work → Prop} (leading : ∀ a, Leading (act a))
    (stays : ∀ {a before after}, Leads before after → P a before → P a after)
    (brings : ∀ {a before after}, (act a).run before = .ok ((), after) → P a after) {items : List A}
    (ran : (items.forM act).run before = .ok ((), after)) : ∀ a ∈ items, P a after := by
  induction items generalizing before with
  | nil => exact fun _ member => absurd member List.not_mem_nil
  | cons first rest ih =>
      rw [forM_cons] at ran
      obtain ⟨_, between, here, later⟩ := run_bind_eq_ok ran
      have leads := Leading.forM leading rest _ _ _ later
      exact List.forall_mem_cons.mpr ⟨stays leads (brings here), ih later⟩

theorem exprsOf_read {shape : StoredShape} {trees : List StoredExpr}
    (read : shape.exprs.mapM before.store.exprTree = .ok trees) :
    (exprsOf shape).run before = .ok (trees.flatMap Expr.within, before) := by
  rw [exprsOf, run_get, run_lift read]
  rfl

theorem exprsOf_eq_ok {shape : StoredShape} {exprs : List StoredExpr}
    (ran : (exprsOf shape).run before = .ok (exprs, after)) :
    after = before ∧ ∃ trees, shape.exprs.mapM before.store.exprTree = .ok trees ∧
      exprs = trees.flatMap Expr.within := by
  rw [exprsOf, run_get] at ran
  obtain ⟨trees, read, ran⟩ := run_lift_eq_ok ran
  cases ran
  exact ⟨rfl, trees, read, rfl⟩

theorem chargeCalls_charges {shape : StoredShape}
    (ran : (chargeCalls context id shape).run before = .ok ((), after)) :
    Charged context after shape := by
  have leads := leading_chargeCalls context id shape before () after ran
  rw [chargeCalls_eq] at ran
  obtain ⟨exprs, between, here, ran⟩ := run_bind_eq_ok ran
  obtain ⟨same, trees, read, whole⟩ := exprsOf_eq_ok here
  subst same whole
  obtain ⟨_, _, here, ran⟩ := run_bind_eq_ok ran
  cases here
  have calls := forM_each (P := fun (call : StoredExpr) work => call.label ∈ work.doneExprs)
    (fun call => .bind (leading_finishExpr call.label) fun _ => leading_charge context id)
    (fun leads member => leads.doneExprs _ member) (fun {call _ _} ran => by
      obtain ⟨_, _, here, ran⟩ := run_bind_eq_ok ran
      cases here
      exact (leading_charge context id _ _ _ ran).doneExprs _ (mem_insert.mpr (.inr rfl))) ran
  refine ⟨trees, Store.exprTrees_persist leads.exprs _ trees read, fun expr member => ?_⟩
  -- a call that was due is done now, and what was not due never comes to be
  cases due : isCharged context between expr with
  | false => exact leads.uncharged due
  | true =>
      have done :=
        Std.ExtTreeSet.contains_iff_mem.mpr (calls expr (List.mem_filter.mpr ⟨member, due⟩))
      rw [isCharged, done, Bool.not_true, Bool.false_and]

theorem Charged.still {shape : StoredShape} (charged : Charged context before shape) (id : StmtId) :
    (chargeCalls context id shape).run before = .ok ((), before) := by
  obtain ⟨trees, read, each⟩ := charged
  have none : (trees.flatMap Expr.within).filter (isCharged context before) = [] :=
    List.filter_eq_nil_iff.mpr fun expr member => by rw [each expr member]; exact Bool.false_ne_true
  rw [chargeCalls_eq, run_then (exprsOf_read read), run_get,
    none]
  rfl

theorem forM_still {A : Type} {act : A → Edit Unit} {items : List A}
    (each : ∀ a ∈ items, (act a).run before = .ok ((), before)) :
    (items.forM act).run before = .ok ((), before) := by
  induction items with
  | nil => rfl
  | cons first rest ih =>
      rw [forM_cons, run_then (each first List.mem_cons_self)]
      exact ih fun a member => each a (List.mem_cons_of_mem _ member)

section
variable {nested : BlockId → Edit Unit}

theorem visit_found (fresh : id ∉ before.doneStmts)
    (ran : (visit context nested id).run before = .ok ((), after)) :
    ∃ entry, before.store.stmts[id]? = some entry := by
  rw [visit, run_get] at ran
  simp only [contains_eq_false fresh, Bool.false_eq_true, ↓reduceIte] at ran
  obtain ⟨entry, there, _⟩ := run_lift_eq_ok ran
  exact ⟨entry, Store.of_found there⟩

theorem visit_passes {settled : Work → BlockId → Prop} (leading : ∀ block, Leading (nested block))
    (stays : ∀ {block before after}, Leads before after → settled before block →
      settled after block) (settles : ∀ {block before after}, (nested block).run before = .ok ((),
      after) → settled after block) (ran : (visit context nested id).run before = .ok ((), after)) :
    Passed context after (settled after) id := by
  have leads := leading_visit leading id before () after ran
  by_cases done : id ∈ before.doneStmts
  · exact .inl (leads.done id done)
  · obtain ⟨entry, there⟩ := visit_found done ran
    rw [visit_entry done there] at ran
    cases marked : isMarked entry.shape with
    | true =>
        -- the mark is set first, and what follows keeps it
        obtain ⟨rest, leading', same⟩ := @handle_marked context id entry.shape marked nested leading
        rw [same] at ran
        exact .inl ((leading' _ _ _ ran).done id (mem_insert.mpr (.inr rfl)))
    | false =>
        rw [handle_unmarked marked] at ran
        obtain ⟨_, between, here, ran⟩ := run_bind_eq_ok ran
        have charged :=
          (chargeCalls_charges here).leads (Leading.forM leading entry.shape.bodies _ _ _ ran)
        have bodies :=
          forM_each (P := fun block work => settled work block) leading stays settles ran
        obtain ⟨later, inAfter, same⟩ := leads.shapes id entry there
        rw [← same] at marked charged bodies
        exact .inr ⟨later, inAfter, marked, charged, bodies⟩

/-- Where nothing is left to do a visit changes nothing. -/
theorem visit_still {settled : BlockId → Prop}
    (still : ∀ block, settled block → (nested block).run before = .ok ((), before))
    (passed : Passed context before settled id) :
    (visit context nested id).run before = .ok ((), before) := by
  by_cases done : id ∈ before.doneStmts
  · exact visit_done done nested
  · obtain ⟨entry, there, unmarked, charged, bodies⟩ := passed.resolve_left done
    rw [visit_entry done there, handle_unmarked unmarked, run_then (charged.still id)]
    exact forM_still fun block member => still block (bodies block member)

end

theorem walkWithin_settles {depth : Nat}
    (ran : (walkWithin context depth block).run before = .ok ((), after)) :
    Settled context after depth block := by
  induction depth generalizing block before after with
  | zero => cases ran
  | succ depth ih =>
      have leads := leading_walkWithin (depth + 1) block before () after ran
      rw [walkWithin, run_get] at ran
      obtain ⟨members, listed, ran⟩ := run_lift_eq_ok ran
      have each := forM_each (leading_visit fun block => leading_walkWithin depth block)
          (fun leads passed => passed.leads leads fun _ inner =>
          inner.leads leads (Nat.le_refl depth)) (visit_passes (leading_walkWithin depth)
          (fun leads inner => inner.leads leads (Nat.le_refl depth)) ih) ran
      -- the walk went through the list as it was, and what has come into it since is done
      obtain ⟨later, there, inside⟩ := leads.lists block members (Store.of_found listed)
      exact ⟨later, there, fun id member => (inside id member).elim (each id) .inl⟩

theorem walkWithin_still {depth : Nat} (settled : Settled context before depth block) :
    (walkWithin context depth block).run before = .ok ((), before) := by
  induction depth generalizing block with
  | zero => exact settled.elim
  | succ depth ih =>
      obtain ⟨members, listed, each⟩ := settled
      have found : before.store.block block = .ok members := by
        rw [Store.block, listed, Store.found]
      rw [walkWithin, run_get, run_lift found]
      exact forM_still fun id member => visit_still (fun _ inner => ih inner) (each id member)

/-- A walk that has come to its end changes nothing when it is walked again. -/
theorem walk_again (ran : (walk context block).run before = .ok ((), after)) :
    (walk context block).run after = .ok ((), after) := by
  have walked : (walkWithin context (before.store.stmts.size + 1) block).run before =
      .ok ((), after) := ran
  have leads := leading_walkWithin _ block before () after walked
  have settled := (walkWithin_settles walked).leads .rfl (Nat.add_le_add_right leads.stmts_size 1)
  exact walkWithin_still settled

def Work.start (program : Program) : Work := ⟨program.store, 1, ∅, ∅, ⟨0, 0, 0, 0⟩⟩

def frame (context : Context) (block : BlockId) : Edit Unit := do
  let reset ← inject (Counter.reset context.counter)
  onStore (·.insertStmt block 0 reset)
  let display ← inject (Counter.display context.counter)
  onStore (·.pushStmt block display)

theorem scope_eq_ok {program : Program} {classify : Bool} {scope : Scope}
    (body : program.scopeBody scope = .ok (some block))
    (ran : (Instrument.scope program classify scope).run before = .ok ((), after)) :
    ∃ context framed walked,
      contextOf { program with store := before.store } classify scope = .ok context ∧
      (frame context block).run before = .ok ((), framed) ∧
      (walk context block).run framed = .ok ((), walked) ∧
      after =
        { walked with
          doneStmts := ∅, tally := { walked.tally with scopes := walked.tally.scopes + 1 } } := by
  rw [Instrument.scope, run_lift body] at ran
  obtain ⟨_, _, here, ran⟩ := run_bind_eq_ok ran
  cases here
  obtain ⟨context, contexts, ran⟩ := run_lift_eq_ok ran
  have parts : (do
      frame context block
      walk context block
      modify fun work => { work with doneStmts := ∅ }
      count fun tally => { tally with scopes := tally.scopes + 1 } : Edit Unit).run before =
        .ok ((), after) := by
    simp only [frame, bind_assoc]
    exact ran
  obtain ⟨_, framed, framing, parts⟩ := run_bind_eq_ok parts
  obtain ⟨_, walked, walking, parts⟩ := run_bind_eq_ok parts
  cases parts
  exact ⟨context, framed, walked, contexts, framing, walking, rfl⟩

end Instrument

namespace Program

open Instrument

theorem Holds.walk_start {program : Program} {layout : Layout} (holds : program.Holds layout)
    (context : Context) {region : Region} (member : region ∈ layout.regions) :
    ∃ walked, (walk context region.body.1).run (Work.start program) = .ok ((), walked) := by
  have start : (Work.start program).store.Holds (layout.rebody fun region => region.body.2) := by
    rw [Layout.rebody_self]
    exact holds.store
  obtain ⟨_, ready⟩ := ready_region holds start member rfl (Nat.le_refl _) (Nat.le_refl _) rfl
    fun _ _ => Std.ExtTreeSet.not_mem_empty
  have sized (stmt) (inside : stmt ∈ region.body.2) : Visits program.store.stmts.size
      program.store.exprs.size context (Work.start program).store.stmts.size stmt :=
    visits stmt (ready.size_le inside)
  have listed : (Work.start program).store.Lists region.body.1 ([] ++ region.body.2 ++ []) := by
    rw [List.nil_append, List.append_nil]
    exact (holds.store.region_body member).1
  obtain ⟨_, walked, _, _, ran, _⟩ :=
    walk_run sized ready listed (fun _ none => absurd none List.not_mem_nil) fun _ none =>
      absurd none List.not_mem_nil
  exact ⟨walked, ran⟩

/-- Visiting again inserts nothing. When the turn of a scope comes in an instrumentation, and also
when its body is the first thing to be walked, in whatever context, the walk of the body succeeds.
The same walk from what that leaves, in the same context and before anything is forgotten, leaves
all of the work as it is. -/
theorem walking_again_inserts_nothing {source : List Char} {program : Program}
    (parsed : parse source = .ok program) (classify : Bool) :
    ∃ scopes, program.scopes = .ok scopes ∧ ∀ front scope back, scopes = front ++ scope :: back →
      ∃ block, program.scopeBody scope = .ok (some block) ∧
        (∃ before context framed walked,
          (front.forM (Instrument.scope program classify)).run (Work.start program) =
            .ok ((), before) ∧
          contextOf { program with store := before.store } classify scope = .ok context ∧
          (frame context block).run before = .ok ((), framed) ∧
          (walk context block).run framed = .ok ((), walked) ∧
          (Instrument.scope program classify scope).run before = .ok ((),
            { walked with
              doneStmts := ∅,
              tally := { walked.tally with scopes := walked.tally.scopes + 1 } }) ∧
          (walk context block).run walked = .ok ((), walked)) ∧
        ∀ context, ∃ walked, (walk context block).run (Work.start program) = .ok ((), walked) ∧
          (walk context block).run walked = .ok ((), walked) := by
  obtain ⟨layout, holds⟩ := parse_holds parsed
  have start : program.store.Holds (layout.rebody fun region => region.body.2) := by
    rw [Layout.rebody_self]
    exact holds.store
  obtain ⟨_, last, whole, _⟩ :=
    scopes_run holds classify [] layout.regions rfl (Work.start program) start (fun _ _ => rfl)
      (Nat.le_refl _) (Nat.le_refl _) rfl fun _ _ _ _ => Std.ExtTreeSet.not_mem_empty
  refine ⟨layout.regions.map Region.scope, holds.scopes, fun front scope back split => ?_⟩
  have inside : scope ∈ layout.regions.map Region.scope := by
    rw [split]
    exact List.mem_append_right _ List.mem_cons_self
  obtain ⟨region, member, rfl⟩ := List.mem_map.mp inside
  refine ⟨region.body.1, holds.scopeBody member, ?_, fun context => ?_⟩
  · -- the whole instrumentation succeeds, so that the scopes before this one and this one do
    rw [split, forM_append] at whole
    obtain ⟨_, before, early, later⟩ := run_bind_eq_ok whole
    rw [forM_cons] at later
    obtain ⟨_, after, own, _⟩ := run_bind_eq_ok later
    obtain ⟨context, framed, walked, contexts, framing, walking, rfl⟩ :=
      scope_eq_ok (holds.scopeBody member) own
    exact ⟨before, context, framed, walked, early, contexts, framing, walking,
      own, walk_again walking⟩
  · obtain ⟨walked, walking⟩ := holds.walk_start context member
    exact ⟨walked, walking, walk_again walking⟩

theorem calls_in_branches_walking_again_inserts_nothing :
    ∃ program,
      parse "if f(1)\n g(2)\nend\nfor i = h(3)\n return\nend\nfunction k\nx = f(4);\nend\n".toList =
        .ok program ∧
      ∃ scopes, program.scopes = .ok scopes ∧ ∀ front scope back, scopes = front ++ scope :: back →
        ∃ block, program.scopeBody scope = .ok (some block) ∧
          (∃ before context framed walked,
            (front.forM (Instrument.scope program true)).run (Work.start program) =
              .ok ((), before) ∧
            contextOf { program with store := before.store } true scope = .ok context ∧
            (frame context block).run before = .ok ((), framed) ∧
            (walk context block).run framed = .ok ((), walked) ∧
            (Instrument.scope program true scope).run before = .ok ((),
              { walked with
                doneStmts := ∅,
                tally := { walked.tally with scopes := walked.tally.scopes + 1 } }) ∧
            (walk context block).run walked = .ok ((), walked)) ∧
          ∀ context, ∃ walked, (walk context block).run (Work.start program) = .ok ((), walked) ∧
            (walk context block).run walked = .ok ((), walked) := by
  obtain ⟨program, parsed⟩ := exists_ok (by decide +kernel :
    (parse "if f(1)\n g(2)\nend\nfor i = h(3)\n return\nend\nfunction k\nx = f(4);\nend\n".toList).toOption.isSome)
  exact ⟨program, parsed, walking_again_inserts_nothing parsed true⟩

end Program
end ScriptFlow
