import ScriptFlow.Proofs.Counter.Instrumented

/-!
Instrumenting again. An instrumented program is as good as a parsed one, so that it can be
instrumented any number of times.
-/

namespace ScriptFlow

namespace Program

open Store (Checked)

/-- One instrumentation after another, each with its own choice. -/
def instrumentAll (program : Program) (choices : List Bool) : Checked Program :=
  choices.foldlM (fun program classify => Prod.fst <$> program.instrument classify) program

theorem instrumentAll_cons {program result : Program} {tally : Tally} {classify : Bool}
    (ran : program.instrument classify = .ok (result, tally)) (rest : List Bool) :
    program.instrumentAll (classify :: rest) = result.instrumentAll rest := by
  rw [instrumentAll, List.foldlM_cons, ran]
  rfl

/-- What holds of a program, and of the outcome of an instrumentation when it holds before, holds in
the end. -/
theorem Holds.instrumentAll {P : Program → Prop}
    (step : ∀ {program result : Program}
      {layout : Layout} {classify : Bool} {tally : Tally}, program.Holds layout →
      program.instrument classify = .ok (result, tally) → P program → P result) {program : Program}
    {layout : Layout} (holds : program.Holds layout) (start : P program) (choices : List Bool) :
    ∃ (result : Program) (layout' : Layout), program.instrumentAll choices = .ok result ∧
      result.Holds layout' ∧ P result := by
  induction choices generalizing program layout with
  | nil => exact ⟨program, layout, rfl, holds, start⟩
  | cons classify rest ih =>
      obtain ⟨final, result, tally, ran, held, _⟩ := holds.instrument classify
      obtain ⟨last, layout', runs, holds', property⟩ := ih held (step holds ran start)
      exact ⟨last, layout', (instrumentAll_cons ran rest).trans runs, holds', property⟩

end Program
end ScriptFlow
