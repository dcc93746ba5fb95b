import Mathlib.Data.List.Forall2
import ScriptFlow.Proofs.Token.Steps

/-!
What a reader takes, and how it fails. A reader stands at a cursor; it takes tokens that fit what it
gives, or it fails in a way that is fine there. Which cursors one may stand at and which failures
are fine is left open: the rules ask only that one may go on from where one stands.
-/

namespace ScriptFlow

def Reason.looksBack : Reason → Bool
  | expression _ | parameterName _ => true
  | _ => false

def Reason.looksAhead : Reason → Bool
  | token _ | anyOf _ | statement | variableName | endOfStatement _ => true
  | _ => false

namespace TokenReader

open Token (Kind)

/-- From one cursor to the other, just these tokens are taken. -/
structure Passes (cursor : Cursor) (used : List Token) (after : Cursor) : Prop where
  ahead : cursor.ahead = used ++ after.ahead
  last : after.last = lastOf cursor.last used

/-- Where one may stand, and which failures are fine. -/
structure Ground where
  stands : Cursor → Prop
  fine : Failure → Prop
  moves : ∀ {cursor used after}, stands cursor → Passes cursor used after → stands after
  next : ∀ {cursor reason}, stands cursor → reason.looksAhead = true →
      fine ⟨cursor.ahead.head?, reason⟩
  last : ∀ {cursor reason}, stands cursor → (cursor.ahead = [] ∨ cursor.last ≠ none) →
      reason.looksBack = true → fine ⟨cursor.last, reason⟩

/-- The reader takes tokens that fit what it gives, or it fails in a way that is fine. -/
def Takes {A : Type} (ground : Ground) (cursor : Cursor) (reader : TokenReader A)
    (P : A → List Token → Prop) : Prop :=
  ground.stands cursor → match reader.run cursor with
    | .ok (a, after) => ∃ used, Passes cursor used after ∧ P a used
    | .error failure => ground.fine failure

namespace Passes

variable {cursor between after : Cursor} {used later : List Token}

theorem refl (cursor : Cursor) : Passes cursor [] cursor := ⟨rfl, rfl⟩

theorem trans (first : Passes cursor used between) (second : Passes between later after) :
    Passes cursor (used ++ later) after := by
  constructor
  · rw [first.ahead, second.ahead, List.append_assoc]
  · rw [second.last, first.last, lastOf_append]

theorem length (passes : Passes cursor used after) :
    cursor.ahead.length = used.length + after.ahead.length := by
  rw [passes.ahead, List.length_append]

theorem behind {token : Token} (passes : Passes cursor [token] after) : after.last ≠ none := by
  rw [passes.last]
  exact Option.some_ne_none token

theorem shorter (passes : Passes cursor used after) (some : used ≠ []) :
    after.ahead.length < cursor.ahead.length := by
  have positive := List.length_pos_iff.mpr some
  have lengths := passes.length
  omega

end Passes

variable {A B : Type} {ground : Ground} {cursor : Cursor} {P : A → List Token → Prop}
  {Q : B → List Token → Prop}

namespace Takes

theorem taken {reader : TokenReader A} (takes : Takes ground cursor reader P)
    (stands : ground.stands cursor) {a : A} {after : Cursor}
    (ran : reader.run cursor = .ok (a, after)) : ∃ used, Passes cursor used after ∧ P a used := by
  have outcome := takes stands
  rw [ran] at outcome
  exact outcome

theorem failed {reader : TokenReader A} (takes : Takes ground cursor reader P)
    (stands : ground.stands cursor) {failure : Failure} (ran : reader.run cursor = .error failure) :
    ground.fine failure := by
  have outcome := takes stands
  rw [ran] at outcome
  exact outcome

theorem imp {reader : TokenReader A} {P' : A → List Token → Prop}
    (takes : Takes ground cursor reader P) (weaker : ∀ a used, P a used → P' a used) :
    Takes ground cursor reader P' := by
  intro stands
  have outcome := takes stands
  split at outcome
  · obtain ⟨used, passes, holds⟩ := outcome
    exact ⟨used, passes, weaker _ _ holds⟩
  · exact outcome

theorem bind {reader : TokenReader A} {next : A → TokenReader B}
    (first : Takes ground cursor reader P)
    (more : ∀ a used after, Passes cursor used after →
      P a used → Takes ground after (next a) fun b later => Q b (used ++ later)) :
    Takes ground cursor (reader >>= next) Q := by
  intro stands
  cases ran : reader.run cursor with
  | error failure =>
      rw [StateT.run_bind, ran]
      exact first.failed stands ran
  | ok result =>
      obtain ⟨a, after⟩ := result
      obtain ⟨used, passes, holds⟩ := first.taken stands ran
      have second := more a used after passes holds (ground.moves stands passes)
      rw [run_bind_eq ran]
      split at second
      · obtain ⟨later, onward, holds'⟩ := second
        exact ⟨used ++ later, passes.trans onward, holds'⟩
      · exact second

end Takes

theorem takes_pure {a : A} (holds : P a []) : Takes ground cursor (pure a) P :=
  fun _ => ⟨[], .refl cursor, holds⟩

theorem takes_failNext {reason : Reason} (front : reason.looksAhead = true) :
    Takes ground cursor (failNext reason) P :=
  fun stands => ground.next stands front

theorem takes_failLast {reason : Reason} (behind : cursor.ahead = [] ∨ cursor.last ≠ none)
    (back : reason.looksBack = true) : Takes ground cursor (failLast reason) P :=
  fun stands => ground.last stands behind back

theorem Takes.map {reader : TokenReader A} {f : A → B}
    (takes : Takes ground cursor reader fun a used => Q (f a) used) :
    Takes ground cursor (f <$> reader) Q := by
  rw [← bind_pure_comp]
  refine takes.bind fun a used _ _ holds => takes_pure ?_
  rwa [List.append_nil]

theorem takes_get {next : Cursor → TokenReader B} (takes : Takes ground cursor (next cursor) Q) :
    Takes ground cursor (get >>= next) Q := takes

theorem takes_peek {next : Option Kind → TokenReader B}
    (takes : Takes ground cursor (next cursor.next?) Q) :
    Takes ground cursor (peek >>= next) Q := takes

theorem takes_nextIs {kind : Kind} {next : Bool → TokenReader B}
    (takes : Takes ground cursor (next (cursor.next? == some kind)) Q) :
    Takes ground cursor (nextIs kind >>= next) Q := takes

theorem takes_step {reader : TokenReader A} {next : A → TokenReader B} {a : A} {used : List Token}
    {after : Cursor} (ran : reader.run cursor = .ok (a, after)) (passes : Passes cursor used after)
    (more : Takes ground after (next a) fun b later => Q b (used ++ later)) :
    Takes ground cursor (reader >>= next) Q := by
  have first : Takes ground cursor reader fun a' used' => a' = a ∧ used' = used := by
    intro _
    rw [ran]
    exact ⟨used, passes, rfl, rfl⟩
  refine first.bind fun a' used' after' passes' same => ?_
  obtain ⟨rfl, rfl⟩ := same
  have here : after' = after := by
    have ahead := List.append_cancel_left (passes'.ahead.symm.trans passes.ahead)
    have last := passes'.last.trans passes.last.symm
    cases after'
    cases after
    simp only at ahead last
    rw [ahead, last]
  rw [here]
  exact more

theorem next?_of_ahead {token : Token} {rest : List Token} (ahead : cursor.ahead = token :: rest) :
    cursor.next? = some token.kind := by
  rw [Cursor.next?, ahead]
  rfl

theorem passes_token {token : Token} {rest : List Token} (ahead : cursor.ahead = token :: rest) :
    Passes cursor [token] ⟨some token, rest⟩ := ⟨ahead, rfl⟩

theorem run_take {token : Token} {rest : List Token} (ahead : cursor.ahead = token :: rest) :
    take.run cursor = .ok (some token, ⟨some token, rest⟩) := by
  obtain ⟨last, tokens⟩ := cursor
  cases ahead
  rfl

theorem takes_take {next : Option Token → TokenReader B}
    (ended : cursor.ahead = [] → Takes ground cursor (next none) Q)
    (taken : ∀ token after, cursor.next? = some token.kind → Passes cursor [token] after →
      Takes ground after (next (some token)) fun b later => Q b (token :: later)) :
    Takes ground cursor (take >>= next) Q := by
  cases ahead : cursor.ahead with
  | nil =>
      have ran : take.run cursor = .ok (none, cursor) := by
        obtain ⟨last, tokens⟩ := cursor
        cases ahead
        rfl
      exact takes_step ran (.refl cursor) (ended ahead)
  | cons token rest =>
      have passes := passes_token ahead
      exact takes_step (run_take ahead) passes (taken token _ (next?_of_ahead ahead) passes)

theorem takes_skip {kind : Kind} {next : Option Token → TokenReader B}
    (here : cursor.next? = some kind)
    (taken : ∀ token after, token.kind = kind → Passes cursor [token] after →
      Takes ground after (next (some token)) fun b later => Q b (token :: later)) :
    Takes ground cursor (take >>= next) Q := by
  apply takes_take
  · intro none
    rw [Cursor.next?, none] at here
    cases here
  · intro token after same passes
    rw [here] at same
    exact taken token after (Option.some.inj same).symm passes

theorem takes_eat {kind : Kind} {next : Bool → TokenReader B}
    (taken : ∀ token after, token.kind = kind → Passes cursor [token] after →
      Takes ground after (next true) fun b later => Q b (token :: later))
    (left : cursor.next? ≠ some kind → Takes ground cursor (next false) Q) :
    Takes ground cursor (eat kind >>= next) Q := by
  by_cases here : cursor.next? = some kind
  · obtain ⟨last, ahead⟩ := cursor
    cases ahead with
    | nil => cases here
    | cons token rest =>
        have same : token.kind = kind := Option.some.inj here
        exact takes_step (reads_eat same) ⟨rfl, rfl⟩ (taken token _ same ⟨rfl, rfl⟩)
  · exact takes_step (run_eat_other here) (.refl cursor) (left here)

theorem takes_expect {kind : Kind} {next : Token → TokenReader B}
    (taken : ∀ token after, token.kind = kind → Passes cursor [token] after →
      Takes ground after (next token) fun b later => Q b (token :: later)) :
    Takes ground cursor (expect kind >>= next) Q := by
  have fails (ran : (expect kind).run cursor = .error ⟨cursor.ahead.head?, .token kind⟩) :
      Takes ground cursor (expect kind >>= next) Q := by
    intro stands
    rw [StateT.run_bind, ran]
    exact ground.next stands rfl
  obtain ⟨last, ahead⟩ := cursor
  cases ahead with
  | nil => exact fails rfl
  | cons token rest =>
      by_cases same : token.kind = kind
      · exact takes_step (reads_expect same) ⟨rfl, rfl⟩ (taken token _ same ⟨rfl, rfl⟩)
      · refine fails ?_
        change (if token.kind = kind then _ else failNext _ : TokenReader Token).run _ = _
        rw [if_neg same]
        rfl

theorem takes_separators {next : Unit → TokenReader B}
    (more : ∀ used after, (∀ token ∈ used, token.kind.separates = true) → Passes cursor used after →
      Takes ground after (next ()) fun b later => Q b (used ++ later)) :
    Takes ground cursor (separators >>= next) Q := by
  obtain ⟨last, ahead⟩ := cursor
  obtain ⟨used, rest, same, all, skipped⟩ := skipSeparators_eq last ahead
  have ran : separators.run ⟨last, ahead⟩ = .ok ((), ⟨lastOf last used, rest⟩) :=
    congrArg (fun cursor => Except.ok ((), cursor)) skipped
  have passes : Passes ⟨last, ahead⟩ used ⟨lastOf last used, rest⟩ := ⟨same, rfl⟩
  exact takes_step ran passes (more used _ all passes)

def PartOf (P : A → List Token → Prop) (E : List Token → Prop) : Option A → List Token → Prop
  | some a, used => used ≠ [] ∧ P a used
  | none, used => E used

/-- Collecting takes what the parts take, one after another, and what ends them. As every part takes
a token, the tokens ahead are enough of an allowance. -/
theorem takes_collect {part : TokenReader (Option A)} {E : List Token → Prop}
    (each : ∀ after,
      after.ahead.length ≤ cursor.ahead.length → Takes ground after part (PartOf P E)) :
    Takes ground cursor (collect part) fun as used =>
      ∃ lists last, List.Forall₂ P as lists ∧ E last ∧ used = lists.flatten ++ last := by
  have within (allowance : Nat) : ∀ after, after.ahead.length ≤ cursor.ahead.length →
      after.ahead.length < allowance →
      Takes ground after (collectWithin part allowance) fun as used =>
        ∃ lists last, List.Forall₂ P as lists ∧ E last ∧ used = lists.flatten ++ last := by
    induction allowance with
    | zero => exact fun _ _ enough => absurd enough (Nat.not_lt_zero _)
    | succ allowance ih =>
        intro here inside enough
        refine (each here inside).bind fun found used after passes holds => ?_
        cases found with
        | none => exact takes_pure ⟨[], used, .nil, holds, List.append_nil _⟩
        | some a =>
            have shorter := passes.shorter holds.1
            refine (ih after (by omega) (by omega)).bind fun as more _ _ rest => takes_pure ?_
            obtain ⟨lists, last, all, ends, rfl⟩ := rest
            refine ⟨used :: lists, last, .cons holds.2 all, ends, ?_⟩
            rw [List.append_nil, List.flatten_cons, List.append_assoc]
  exact takes_get (within _ cursor (Nat.le_refl _) (Nat.lt_succ_self _))

end TokenReader
end ScriptFlow
