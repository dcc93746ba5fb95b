import ScriptFlow.Proofs.Counter.Scopes

/-!
What an instrumented program looks like. Scope by scope its statements are the woven ones, and the
scopes, their headers and their lists are those of the program before.
-/

namespace ScriptFlow

namespace Program

open Store (Checked)

/-- The woven statements of every scope, in scope order, by the program's own statements and kinds
of names; loops are numbered from one through all scopes. -/
def woven (program : Program) (classify : Bool) : Checked (List (List WovenStmt)) := do
  let works ← (← program.scopes).mapM fun scope => do
    let vocabulary ← program.vocabulary scope
    let name := (← program.header? scope).elim "script" Header.name
    let context : Instrument.Context := ⟨name, fun name => classify && vocabulary.isFunction name⟩
    return (context, ← program.scopeTrees scope)
  return ((works.mapM fun work => Weave.scope work.1 work.2).run 1).1

/-- The statements of every scope as seen from a store with so many statements and expressions. -/
def traced (program : Program) (stmts exprs : Nat) : Checked (List (List WovenStmt)) := do
  (← program.scopes).mapM fun scope =>
    return (← program.scopeTrees scope).map (Stmt.traced stmts exprs)

theorem parse_file {source : List Char} {program : Program} (parsed : parse source = .ok program) :
    ∃ file, File.parse source = .ok file ∧ program = ofFile file := by
  rw [parse] at parsed
  cases read : File.parse source with
  | error error =>
      rw [read] at parsed
      cases parsed
  | ok file =>
      rw [read] at parsed
      cases parsed
      exact ⟨file, rfl, rfl⟩

theorem parse_holds {source : List Char} {program : Program} (parsed : parse source = .ok program) :
    ∃ layout, program.Holds layout := by
  obtain ⟨file, _, rfl⟩ := parse_file parsed
  obtain ⟨layout, holds, _⟩ := ofFile_holds file
  exact ⟨layout, holds⟩

theorem Holds.woven {program : Program} {layout : Layout} (holds : program.Holds layout)
    (classify : Bool) : program.woven classify = .ok ((layout.regions.mapM fun region =>
      Weave.scope (layout.context classify region) region.body.2).run 1).1 := by
  have works : (layout.regions.map Region.scope).mapM (fun scope => do
      let vocabulary ← program.vocabulary scope
      let name := (← program.header? scope).elim "script" Header.name
      let context : Instrument.Context := ⟨name, fun name => classify && vocabulary.isFunction name⟩
      return (context, ← program.scopeTrees scope)) =
      (.ok (layout.regions.map fun region => (layout.context classify region, region.body.2)) :
        Checked _) := by
    apply mapM_map_ok
    intro region member
    rw [holds.vocabulary member, holds.header? member, holds.scopeTrees member]
    cases classify <;> rfl
  rw [Program.woven, holds.scopes, ok_bind, works, ok_bind, List.mapM_map]
  rfl

theorem Holds.traced {program : Program} {layout : Layout}
    (holds : program.Holds layout) (stmts exprs : Nat) : program.traced stmts exprs =
      .ok (layout.regions.map fun region => region.body.2.map (Stmt.traced stmts exprs)) := by
  rw [Program.traced, holds.scopes, ok_bind]
  apply mapM_map_ok
  intro region member
  rw [holds.scopeTrees member]
  rfl

/-- Instrumenting a parsed program succeeds and leaves exactly the woven statements in every
scope. -/
theorem instrument_leaves_woven {source : List Char} {program : Program}
    (parsed : parse source = .ok program) (classify : Bool) :
    ∃ (result : Program) (tally : Tally) (scopes : List Scope) (woven : List (List WovenStmt)),
      program.instrument classify = .ok (result, tally) ∧
      program.scopes = .ok scopes ∧ result.scopes = .ok scopes ∧
      (∀ scope ∈ scopes, result.header? scope = program.header? scope ∧
        result.scopeBody scope = program.scopeBody scope) ∧
      program.woven classify = .ok woven ∧
      result.traced program.store.stmts.size program.store.exprs.size = .ok woven := by
  obtain ⟨layout, holds⟩ := parse_holds parsed
  obtain ⟨final, result, tally, ran, held, woven⟩ := holds.instrument classify
  have regions := @Layout.regions_rebody final layout
  refine ⟨result, tally, layout.regions.map Region.scope, _, ran, holds.scopes, ?_,
    fun scope member => ?_, holds.woven classify, ?_⟩
  · rw [held.scopes, regions, List.map_map]
    rfl
  · obtain ⟨region, inside, rfl⟩ := List.mem_map.mp member
    have inResult : region.rebody final ∈ (layout.rebody final).regions := by
      rw [regions]
      exact List.mem_map_of_mem inside
    have header := held.header? inResult
    have body := held.scopeBody inResult
    rw [Region.rebody] at header body
    exact ⟨header.trans (holds.header? inside).symm, body.trans (holds.scopeBody inside).symm⟩
  · rw [held.traced, regions, List.map_map, woven]
    rfl

theorem call_in_loop_leaves_woven :
    ∃ program, parse "while f(1)\n x = g;\nend\nreturn\n".toList = .ok program ∧
      ∃ (result : Program) (tally : Tally) (scopes : List Scope) (woven : List (List WovenStmt)),
        program.instrument true = .ok (result, tally) ∧
        program.scopes = .ok scopes ∧ result.scopes = .ok scopes ∧
        (∀ scope ∈ scopes, result.header? scope = program.header? scope ∧
          result.scopeBody scope = program.scopeBody scope) ∧
        program.woven true = .ok woven ∧
        result.traced program.store.stmts.size program.store.exprs.size = .ok woven := by
  have succeeds : (parse "while f(1)\n x = g;\nend\nreturn\n".toList).toOption.isSome = true := by
    decide +kernel
  cases read : parse "while f(1)\n x = g;\nend\nreturn\n".toList with
  | error _ =>
      rw [read] at succeeds
      cases succeeds
  | ok program => exact ⟨program, rfl, instrument_leaves_woven read true⟩

end Program
end ScriptFlow
