import ScriptFlow.Proofs.Rounds
import ScriptFlow.Proofs.Token.Steps

/-!
Where no expression begins. Only some kinds of tokens stand in front of an expression; at any other
one the readers of expressions fail, and so do those that begin with an expression.
-/

namespace ScriptFlow

open Token TokenReader

def Token.Kind.beginsExpr : Kind → Bool
  | number | singleQuoted | doubleQuoted | word | endKey => true
  | openParen | openBracket | openBrace | plus | dash | tilde => true
  | _ => false

namespace Expr

variable {kind : Kind} {context : Context} {level : Nat} {first next bound : TokenReader ParsedExpr}
  {nested operand : Nested}

theorem refuses_chain (refuses : Refuses kind first) (next : TokenReader ParsedExpr) :
    Refuses kind (chain context level first next) :=
  refuses.bind _

theorem refuses_rangeOver (refuses : Refuses kind bound) :
    Refuses kind (rangeOver bound) := refuses.bind _

theorem signAt_other (other : kind.beginsExpr = false) {cursor : Cursor}
    (here : cursor.next? = some kind) : signAt cursor = none := by
  rw [signAt, here]
  cases kind <;> first | rfl | cases other

theorem refuses_primary (other : kind.beginsExpr = false) :
    Refuses kind (primary nested context) := by
  rintro ⟨last, ahead⟩ here
  cases ahead with
  | nil => cases here
  | cons token rest =>
      obtain ⟨sort, text, start, position⟩ := token
      have same : sort = kind := Option.some.inj here
      subst same
      refine ⟨⟨some ⟨sort, text, start, position⟩, .expression (some sort)⟩, ?_⟩
      cases sort <;> first | rfl | cases other

theorem refuses_suffixed (other : kind.beginsExpr = false) :
    Refuses kind (suffixed nested context) :=
  (refuses_primary other).bind _

theorem refuses_whole (refuses : Refuses kind (operand context)) :
    Refuses kind (whole operand context) := by
  have chained {tighter : TokenReader ParsedExpr} (refuses : Refuses kind tighter) (level : Nat) :
      Refuses kind (chain context level tighter tighter) := refuses_chain refuses tighter
  have products := chained refuses Level.product
  have ranges := refuses_rangeOver (chained products Level.sum)
  have comparisons := chained ranges Level.comparison
  have elAnds := chained comparisons Level.elAnd
  have elOrs := chained elAnds Level.elOr
  exact chained (chained elOrs Level.shortAnd) Level.shortOr

section
variable (other : kind.beginsExpr = false)
include other

theorem refuses_power : Refuses kind (power operand context) :=
  refuses_chain (refuses_suffixed other) _

theorem refuses_exponent : Refuses kind (exponent operand context) := by
  refine refuses_get fun cursor here => ?_
  rw [signAt_other other here]
  exact refuses_suffixed other cursor here

theorem refuses_operandWithin (allowance : Nat) :
    Refuses kind (operandWithin allowance context) := by
  cases allowance with
  | zero => exact fun cursor _ => ⟨⟨cursor.ahead.head?, .exhausted⟩, rfl⟩
  | succ allowance =>
      refine refuses_get fun cursor here => ?_
      rw [signAt_other other here]
      exact refuses_power other cursor here

theorem refuses_reader : Refuses kind reader :=
  refuses_get fun cursor => refuses_whole (refuses_operandWithin other _) cursor

end
end Expr
end ScriptFlow
