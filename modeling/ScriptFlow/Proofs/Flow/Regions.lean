import ScriptFlow.Proofs.Flow.Annotate
import ScriptFlow.Proofs.Program.Views

/-!
The analysis of a program that holds a layout. Scope by scope it is the walk over the statements
that the layout has there, and no statement has two points.
-/

namespace ScriptFlow

namespace Layout

variable (layout : Layout)

def points (region : Region) : Except Flow.Error (List Flow.Point) :=
  (Flow.annotate (layout.vocabulary region).isFunction region.body.2).mapError .illFormed

variable {layout} {region : Region}

theorem points_ok {list : List Flow.Point} (ran : layout.points region = .ok list) :
    ∃ into, Flow.annotateBody (layout.vocabulary region).isFunction region.body.2 ∅ =
      .ok (into, list) := by
  rw [points, Flow.annotate_eq] at ran
  cases walked : Flow.annotateBody (layout.vocabulary region).isFunction region.body.2 ∅ with
  | error error =>
      rw [walked] at ran
      cases ran
  | ok walk =>
      rw [walked] at ran
      cases ran
      exact ⟨walk.1, rfl⟩

end Layout

namespace Program.Holds

variable {program : Program} {layout : Layout}

theorem annotateScope (holds : program.Holds layout)
    {region : Region} (member : region ∈ layout.regions) :
    program.annotateScope region.scope = layout.points region := by
  rw [Program.annotateScope, holds.vocabulary member, holds.scopeTrees member]
  rfl

theorem analyze (holds : program.Holds layout) : program.analyze =
      (do return Flow.byStatement (← layout.regions.mapM layout.points).flatten) := by
  have each : (layout.regions.map Region.scope).mapM program.annotateScope =
      layout.regions.mapM layout.points := by
    rw [List.mapM_map]
    exact mapM_congr_mem fun region member => holds.annotateScope member
  rw [Program.analyze, holds.scopes, ← each]
  rfl

theorem points_nodup (holds : program.Holds layout) {lists : List (List Flow.Point)}
    (ran : layout.regions.mapM layout.points = .ok lists) :
    (lists.flatten.map Flow.Point.id).Nodup := by
  have walked := forall₂_of_mapM_ok ran
  have numbers :
      (lists.flatten.map Flow.Point.id).Perm (stmtsOf (layout.regions.map Region.body)) := by
    generalize layout.regions = regions at walked
    clear ran
    induction walked with
    | nil => exact .nil
    | cons head _ ih =>
        obtain ⟨into, run⟩ := Layout.points_ok head
        rw [List.flatten_cons, List.map_append, List.map_cons, stmtsOf, List.flatMap_cons]
        exact (Flow.points_numbers run).append ih
  rw [Layout.regions_bodies] at numbers
  exact numbers.nodup_iff.mpr holds.store.stmts.nodup

end Program.Holds
end ScriptFlow
