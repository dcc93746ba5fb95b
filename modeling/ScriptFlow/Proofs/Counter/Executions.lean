import ScriptFlow.Proofs.Counter.Activations

/-!
Executions of instrumented scopes. The counter of a scope is zeroed first and displayed once, last
or right before the return that ends the run; without the counter statements the runs of an
instrumented scope are the runs that it had before.
-/

namespace ScriptFlow

open Weave

/-- The run of a scope starts with the zeroing of its counter; the counter is displayed once, as the
last thing or right before the return. -/
def Framed (size : StmtId) (counter : String) (returned : Bool) (trace : List Event) : Prop :=
  occurrences (·.Performs size (showing counter)) trace = 1 ∧
    ∃ reset middle display last, trace = reset :: (middle ++ display :: last) ∧
      reset.Performs size (zeroing counter) ∧ display.Performs size (showing counter) ∧
      if returned then ∃ site, site.id < size ∧ last = [.ran site .leave] else last = []

def Silent (size : StmtId) (counter : String) (trace : List Event) : Prop :=
  ∀ event ∈ trace, ¬ event.Performs size (showing counter)

/-- The counter is displayed right before the return, if the run returned, and nowhere else. -/
def Closes (size : StmtId) (counter : String) : Bool → List Event → Prop
  | false, trace => Silent size counter trace
  | true, trace =>
    ∃ before display site, trace = before ++ [display, .ran site .leave] ∧ site.id < size ∧
      display.Performs size (showing counter) ∧ Silent size counter before

namespace Closes

variable {size : StmtId} {counter : String} {event : Event}

theorem additive (size : StmtId) (counter : String) : Additive (Closes size counter) where
  nil _ member := absurd member List.not_mem_nil
  append := by
    intro returned trace others first second
    have both {back : List Event} (silent : Silent size counter back) :
        Silent size counter (trace ++ back) :=
      fun event member => (List.mem_append.mp member).elim (first event) (silent event)
    cases returned with
    | false => exact both second
    | true =>
        obtain ⟨before, display, site, rfl, old, shown, silent⟩ := second
        exact ⟨trace ++ before, display, site, (List.append_assoc ..).symm, old, shown, both silent⟩

theorem single (other : ¬ event.Performs size (showing counter)) :
    Closes size counter false [event] :=
  fun _ member => List.mem_singleton.mp member ▸ other

theorem placed {stmts : StmtId} {exprs : ExprId} {context : Instrument.Context} :
    Placed stmts exprs context fun _ _ new _ =>
      Additive.OnRuns (Closes stmts context.counter) (.body new) where
  nil := (additive _ _).nil_runs
  charge added runs := (additive _ _).plain (plain_increment added)
    (single fun performs => own_increment_ne_display (added.performs.own_eq performs)) runs
  leave := by
    intro _ _ site display body new early added runs trace outcome run
    obtain ⟨others, rfl, tail⟩ := (plain_display added).run_cons.mp run
    have returns {trace : List Event} {outcome : Outcome}
        (run : Run (.stmt (.node site .leave)) trace outcome) :
        trace = [.ran site .leave] ∧ outcome = .left := by
      cases run with
      | plain _ _ => exact ⟨rfl, rfl⟩
      | take choice _ _ => cases choice
      | pass passes => cases passes
      | loop loops _ => cases loops
    -- The display runs right before the return, which ends the run.
    cases tail with
    | next head _ => cases (returns head).2
    | skip head _ =>
        obtain ⟨rfl, rfl⟩ := returns head
        exact ⟨[], _, site, rfl, early, added.performs, (additive _ _).nil⟩
  loop := by
    intro number _ _ loop _ _ _ _ woven inner runs
    have other {stmt : StoredStmt}
        (touches : stmt.event.Touches stmts (Counter.ofLoop context.name number)) :
        Closes stmts context.counter false [stmt.event] := single fun performs =>
      Counter.ofScope_ne_ofLoop _ _ ((performs.touches (.inr (.inr rfl))).unique touches)
    refine (additive _ _).followed
      (woven.runs (additive _ _) (other (woven.reset.touches (.inl rfl))) (fun charge member => ?_)
      (single (not_performs_early woven.early)) (single ?_) (other (woven.increment.touches
        (.inr (.inl rfl)))) (other (woven.display.touches (.inr (.inr rfl)))) inner) runs
    · exact single fun performs =>
        own_increment_ne_display ((woven.charges charge member).performs.own_eq performs)
    · rintro ⟨_, _, same⟩
      cases same
  keep := by
    intro _ _ _ site shape shape' _ _ early still goes own bodies runs
    have noLoop := still
    rw [← StmtShape.own_isLoop, ← own, StmtShape.own_isLoop] at noLoop
    refine (additive _ _).cons
      ((additive _ _).stmt noLoop (StmtShape.stays goes own) (single (not_performs_early early))
      (fun branch => single ?_) (bodies.results fun _ _ _ _ inner => inner)) runs
    rintro ⟨_, _, same⟩
    cases same

end Closes

theorem framed {stmts : StmtId} {exprs : ExprId} {counter : String} {reset display : StoredStmt}
    {inner : List StoredStmt} (zeroed : Added stmts exprs (zeroing counter) reset)
    (shown : Added stmts exprs (showing counter) display)
    (closes : Additive.OnRuns (Closes stmts counter) (.body inner)) {trace : List Event}
    {outcome : Outcome} (completed : outcome = .done ∨ outcome = .left)
    (run : Run (.body (reset :: (inner ++ [display]))) trace outcome) :
    Framed stmts counter (outcome = .left) trace := by
  have resets : ¬ reset.event.Performs stmts (showing counter) := fun performs =>
    own_reset_ne_display (zeroed.performs.own_eq performs)
  obtain ⟨others, rfl, after⟩ := (plain_reset zeroed).run_cons.mp run
  -- the run gets to the display at the end, or it was left by a return with a display right in
  -- front of it
  rcases after.split with ⟨first, second, rfl, goes, ends⟩ | ⟨early, goes⟩
  · obtain ⟨none, rfl, last⟩ := (plain_display shown).run_cons.mp ends
    cases last
    have silent : Closes stmts counter false first := closes first .done goes
    refine ⟨?_, reset.event, first, display.event, [], rfl, zeroed.performs, shown.performs, rfl⟩
    rw [occurrences_elsewhere resets, occurrences_append, occurrences_none silent,
      occurrences_here shown.performs, occurrences_nil]
  · obtain rfl := completed.resolve_left early
    obtain ⟨before, display', site, rfl, old, shown', silent⟩ : Closes stmts counter true others :=
      closes others .left goes
    refine ⟨?_, reset.event, before, display', _, rfl, zeroed.performs, shown', site, old, rfl⟩
    have leaves : ¬ (Event.ran site .leave).Performs stmts (showing counter) :=
      not_performs_early old
    rw [occurrences_elsewhere resets, occurrences_append, occurrences_none silent,
      occurrences_here shown', occurrences_elsewhere leaves, occurrences_nil]

/-- How the runs of an instrumented scope go with those that it had before. -/
structure CountsRuns (size : StmtId) (scope : String) (before after : List StoredStmt) : Prop where
  erased : ∀ trace outcome, Run (.body after) trace outcome →
      Run (.body before) (erase size trace) outcome
  lifted : ∀ trace outcome, Run (.body before) trace outcome →
    ∃! trace', Run (.body after) trace' outcome ∧ erase size trace' = trace
  framed : ∀ trace outcome, Run (.body after) trace outcome → outcome = .done ∨ outcome = .left →
    Framed size (scope ++ "_func") (outcome = .left) trace
  loops : ∀ site shape inner, .node site shape ∈ Stmt.within after → shape.loopBody? = some inner →
    ∃ number : Nat, ∀ trace outcome, Run (.body after) trace outcome →
      Activations size (scope ++ "_loop_" ++ toString number) site inner (outcome = .left) trace

theorem Weave.scope_counts {stmts : StmtId} {exprs : ExprId}
    {context : Instrument.Context} {body new : List StoredStmt} {number : Nat}
    (traced : new.map (Stmt.traced stmts exprs) = ((Weave.scope context body).run number).1)
    (distinct : (Stmt.numbers new).Nodup) : CountsRuns stmts context.name body new := by
  have retraces := (Retraces.sideBySide stmts exprs).scope traced
  -- The added statements are plain, so a run is determined by what it is without them.
  have kept : (Code.body new).Kept stmts := by
    refine ⟨distinct, fun stmt member late => ?_, fun _ _ same => by cases same⟩
    obtain ⟨counter, _, about⟩ := (scope_named traced).2.1 stmt member late
    rcases about with own | own | own
    · exact plain_of_own own ⟨counter, .inl rfl⟩
    · exact plain_of_own own ⟨counter, .inr (.inl rfl)⟩
    · exact plain_of_own own ⟨counter, .inr (.inr rfl)⟩
  refine ⟨retraces.erased, fun trace outcome run => ?_, fun trace outcome run completed => ?_, ?_⟩
  · obtain ⟨trace', runs, same⟩ := retraces.lifted trace outcome run
    exact ⟨trace', ⟨runs, same⟩, fun other also => also.1.unique kept runs (also.2.trans same.symm)⟩
  · obtain ⟨reset, inner, display, rfl, zeroed, shown, closes⟩ := Closes.placed.scope traced
    exact framed zeroed shown closes completed run
  · obtain ⟨reset, inner, display, rfl, zeroed, shown, counted⟩ := counted_placed.scope traced
    have both :=
      counted.followed (.plain (shown.leaf rfl) (plain_display shown) (Event.neutral_scope
        (shown.touches (.inr (.inr rfl)))) (@counted_placed stmts exprs context).nil)
    have whole := both.plain (zeroed.leaf rfl) (plain_reset zeroed)
        (Event.neutral_scope (zeroed.touches (.inl rfl)))
    intro site shape loopBody visited loops
    obtain ⟨loop, _, _, runs⟩ := whole.loops distinct site shape loopBody visited loops
    exact ⟨loop, runs _ List.mem_cons_self⟩

namespace Program

/-- The counters of an instrumented program count what they are for in every run of every scope. -/
theorem instrument_counts_runs {source : List Char} {program : Program}
    (parsed : parse source = .ok program) (classify : Bool) :
    ∃ (result : Program) (tally : Tally) (scopes : List Scope),
      program.instrument classify = .ok (result, tally) ∧ program.scopes = .ok scopes ∧
      ∀ scope ∈ scopes, ∃ (header : Option Header) (before after : List StoredStmt),
        program.header? scope = .ok header ∧
        program.scopeTrees scope = .ok before ∧ result.scopeTrees scope = .ok after ∧
        CountsRuns program.store.stmts.size (header.elim "script" Header.name) before after := by
  obtain ⟨layout, holds⟩ := parse_holds parsed
  obtain ⟨final, result, tally, ran, held, woven⟩ := holds.instrument classify
  refine ⟨result, tally, layout.regions.map Region.scope, ran, holds.scopes,
    fun scope inScopes => ?_⟩
  obtain ⟨region, member, rfl⟩ := List.mem_map.mp inScopes
  have inResult : region.rebody final ∈ (layout.rebody final).regions := by
    rw [Layout.regions_rebody]
    exact List.mem_map_of_mem member
  obtain ⟨number, traced⟩ := mapM_run_mem woven region member
  refine ⟨region.header, region.body.2, final region, holds.header? member, holds.scopeTrees member,
    held.scopeTrees inResult, Weave.scope_counts traced.symm ?_⟩
  exact held.store.numbers_nodup (Program.Holds.region_mem_bodies inResult)

theorem return_in_loop_counts_runs :
    ∃ program, parse "while f(1)
 if x
 return
 end
end
function f(x)
for i = x
break
end
end
".toList = .ok program ∧
      ∃ (result : Program) (tally : Tally) (scopes : List Scope),
        program.instrument true = .ok (result, tally) ∧ program.scopes = .ok scopes ∧
        ∀ scope ∈ scopes, ∃ (header : Option Header) (before after : List StoredStmt),
          program.header? scope = .ok header ∧
          program.scopeTrees scope = .ok before ∧ result.scopeTrees scope = .ok after ∧
          CountsRuns program.store.stmts.size (header.elim "script" Header.name) before after := by
  obtain ⟨program, parsed⟩ := exists_ok (by decide +kernel : (parse
    "while f(1)
 if x
 return
 end
end
function f(x)
for i = x
break
end
end
".toList).toOption.isSome)
  exact ⟨program, parsed, instrument_counts_runs parsed true⟩

end Program
end ScriptFlow
