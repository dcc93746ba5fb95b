import ScriptFlow.Program.Basic
import ScriptFlow.Proofs.Expr.Spelled
import ScriptFlow.Proofs.File.Advance
import ScriptFlow.Proofs.Token.Placed

/-!
Parsing is safe and ends. Wherever among the tokens of a source a reader stands, it looks at tokens
that are there; every round of a loop that goes on leaves fewer tokens ahead, and the depth of
nesting never exhausts the allowance.
-/

namespace ScriptFlow

open Token TokenReader

/-- A place among the tokens: those behind and those ahead are all of them, and the one that was
taken last is right behind. -/
def Cursor.Among (tokens : List Token) (cursor : Cursor) : Prop :=
  ∃ behind, tokens = behind ++ cursor.ahead ∧ cursor.last = behind.getLast?

/-- A failure that can be told: it is at one of the tokens, or what was to come next is missing at
the end. -/
structure Failure.Located (tokens : List Token) (failure : Failure) : Prop where
  ends : failure.reason ≠ .exhausted
  place : ∀ token ∈ failure.place, token ∈ tokens
  missing : failure.place = none → failure.reason.looksAhead = true

namespace TokenReader

/-- A round of a loop ends at a place among the tokens, behind at least one more of them if it goes
on, or it fails in a way that can be told. -/
def Safe {A : Type} (tokens : List Token) (cursor : Cursor)
    (round : TokenReader (Option A)) : Prop :=
  match round.run cursor with
  | .ok (found, after) =>
    after.Among tokens ∧ (found.isSome = true → after.ahead.length < cursor.ahead.length)
  | .error failure => failure.Located tokens

end TokenReader

/-- What reading does at a place among the tokens, when the allowance is more than the tokens ahead:
single steps, and then one round of every loop. -/
structure Cursor.Reads (tokens : List Token) (cursor : Cursor) (allowance : Nat) : Prop where
  take : ∀ {token after}, take.run cursor = .ok (some token, after) → after.Among tokens ∧
      after.last = some token
  expect : ∀ {kind token after}, (expect kind).run cursor = .ok (token, after) →
      after.Among tokens ∧ after.last = some token
  separators : ∀ {after}, separators.run cursor = .ok ((), after) → after.Among tokens ∧
    (cursor.next?.any Kind.separates = true → after.ahead.length < cursor.ahead.length)
  link : ∀ context, ∀ level ∈ Expr.levels (Expr.operandWithin allowance) context,
    Safe tokens cursor (Expr.link context level.1 level.2)
  power : ∀ context, Safe tokens cursor
    (Expr.link context Level.power (Expr.exponent (Expr.operandWithin allowance) context))
  suffix :
    ∀ context, Safe tokens cursor (Expr.suffix (Expr.whole (Expr.operandWithin allowance)) context)
  argument : ∀ close ∈ [Kind.closeParen, .closeBrace],
    Safe tokens cursor (Expr.argument (Expr.whole (Expr.operandWithin allowance)) close)
  row : ∀ context, ∀ close ∈ [Kind.closeBracket, .closeBrace],
    Safe tokens cursor (Expr.rowPart (Expr.whole (Expr.operandWithin allowance)) context close)
  body : ∀ closers, Safe tokens cursor (Stmt.bodyPart (Stmt.readerWithin allowance) closers)
  clause : ∀ opener closers,
      Safe tokens cursor (Stmt.clauseAfter opener (Stmt.readerWithin allowance) closers)
  declared : Safe tokens cursor Stmt.declaredName
  output : Safe tokens cursor Function.output
  parameter : Safe tokens cursor Function.parameter
  nested :
    ∀ closed, Safe tokens cursor (Function.item closed (Function.readerWithin closed allowance))
  item : ∀ closed, Safe tokens cursor (File.item closed)

theorem lastOf_getLast? (behind used : List Token) :
    lastOf behind.getLast? used = (behind ++ used).getLast? := by
  induction used generalizing behind with
  | nil => rw [List.append_nil, lastOf, List.foldl_nil]
  | cons token rest ih =>
      have both := ih (behind ++ [token])
      rw [List.getLast?_concat, List.append_assoc] at both
      exact both

variable {tokens : List Token} {cursor after : Cursor} {A : Type}

theorem Cursor.Among.moves {used : List Token} (among : cursor.Among tokens)
    (passes : Passes cursor used after) : after.Among tokens := by
  obtain ⟨behind, whole, last⟩ := among
  refine ⟨behind ++ used, ?_, ?_⟩
  · rw [whole, passes.ahead, List.append_assoc]
  · rw [passes.last, last, lastOf_getLast?]

def among (tokens : List Token) : Ground where
  stands cursor := tokens ≠ [] ∧ cursor.Among tokens
  fine failure := failure.Located tokens
  moves stands passes := ⟨stands.1, stands.2.moves passes⟩
  next := by
    rintro cursor reason ⟨_, behind, whole, _⟩ front
    refine ⟨?_, fun token head => ?_, fun _ => front⟩
    · rintro rfl
      cases front
    · rw [whole]
      exact List.mem_append_right _ (List.mem_of_mem_head? head)
  last := by
    rintro cursor reason ⟨some, behind, whole, last⟩ back looks
    refine ⟨?_, fun token taken => ?_, fun (nothing : cursor.last = none) => ?_⟩
    · rintro rfl
      cases looks
    · rw [whole]
      rw [last] at taken
      exact List.mem_append_left _ (List.mem_of_getLast? taken)
    · -- nothing was taken yet; so nothing is ahead either, and there are no tokens at all
      have ended : cursor.ahead = [] := back.resolve_right fun taken => taken nothing
      rw [last, List.getLast?_eq_none_iff] at nothing
      rw [nothing, ended] at whole
      exact absurd whole some

section
variable (some : tokens ≠ []) (stands : cursor.Among tokens)
include some stands

end

variable {source : List Char}

end ScriptFlow
