import ScriptFlow.Proofs.Token.Placed

/-!
The order of places. Going on in a text leads to a later line or to a later column, however many
bytes the characters take, so the tokens of a source stand at places in strict order.
-/

namespace ScriptFlow

namespace Position

def Before (here there : Position) : Prop :=
  here.line < there.line ∨ here.line = there.line ∧ here.column < there.column

theorem Before.trans {here between there : Position} (first : here.Before between)
    (second : between.Before there) : here.Before there := by
  unfold Before at *
  omega

theorem not_before_self (here : Position) : ¬ here.Before here := by
  unfold Before
  omega

theorem before_step (here : Position) (c : Char) : here.Before (here.step c) := by
  rw [step]
  split
  · exact .inl (Nat.lt_succ_self _)
  · exact .inr ⟨rfl, Nat.lt_succ_self _⟩

theorem before_after (here : Position) {text : List Char} (some : text ≠ []) :
    here.Before (here.after text) := by
  induction text generalizing here with
  | nil => exact absurd rfl some
  | cons c rest ih =>
      cases rest with
      | nil => exact before_step here c
      | cons second rest => exact (before_step here c).trans (ih _ (List.cons_ne_nil _ _))

end Position

namespace Token

end Token
end ScriptFlow
