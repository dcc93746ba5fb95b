import ScriptFlow.Proofs.Expr.Inorder

/-!
Readers of statements, functions and files advance. Each of them takes a token or fails in a way
that is fine, and so does every round of their loops that is not the last one.
-/

namespace ScriptFlow

open Token TokenReader

namespace TokenReader

variable {A : Type} {ground : Ground} {room : Nat} {cursor : Cursor}

/-- With fewer tokens ahead than that, the reader takes at least one of them. -/
def Advances (ground : Ground) (room : Nat) (reader : TokenReader A) : Prop :=
  ∀ cursor, cursor.ahead.length < room → Takes ground cursor reader fun _ used => used ≠ []

def GoesOn : Option A → List Token → Prop := PartOf (fun _ _ => True) (fun _ => True)

theorem takes_rounds {part : TokenReader (Option A)}
    (each : ∀ after, after.ahead.length ≤ cursor.ahead.length → Takes ground after part GoesOn) :
    Takes ground cursor (collect part) fun _ _ => True :=
  (takes_collect each).imp fun _ _ _ => trivial

theorem goesOn_behind {B : Type} {reader : TokenReader B} {f : B → A}
    (skipped : List Token) (advances : Takes ground cursor reader fun _ used => used ≠ []) :
    Takes ground cursor (do return some (f (← reader))) fun found used =>
      GoesOn found (skipped ++ used) := by
  refine advances.bind fun _ used _ _ some => takes_pure ⟨fun none => some ?_, trivial⟩
  exact (List.append_eq_nil_iff.mp (List.append_eq_nil_iff.mp none).2).1

end TokenReader

variable {A : Type} {ground : Ground} {room : Nat} {cursor : Cursor}

theorem Expr.advances_reader (cursor : Cursor) :
    Takes ground cursor reader fun _ used => used ≠ [] :=
  (spelling_reader cursor).imp fun _ _ spells => spells.some

namespace Stmt

variable {nested : TokenReader ParsedStmt} {closers : List Kind}

theorem takes_declaredName : Takes ground cursor declaredName GoesOn := by
  apply takes_nextIs
  cases here : cursor.next? == some Kind.word with
  | true =>
    exact takes_skip (eq_of_beq here) fun token after _ _ =>
      takes_pure ⟨List.cons_ne_nil _ _, trivial⟩
  | false => exact takes_pure trivial

theorem takes_declared {kind : Kind} (here : cursor.next? = some kind) :
    Takes ground cursor declared fun _ used => used ≠ [] := by
  refine takes_skip here fun token after _ _ => ?_
  refine (takes_rounds fun _ _ => takes_declaredName).bind fun names used between _ _ => ?_
  split
  · have fails : Takes ground between (failNext .variableName) fun (_ : Unit) _ =>
        False := takes_failNext rfl
    exact fails.bind fun _ _ _ _ none => none.elim
  · exact takes_pure (List.cons_ne_nil _ _)

theorem takes_terminator : Takes ground cursor terminator fun _ _ => True := by
  apply takes_peek
  cases next : cursor.next? with
  | none => exact takes_pure trivial
  | some kind =>
      have separator (quiet : Bool) : Takes ground cursor (do
          let _ ← take
          return quiet) fun _ _ => True := takes_skip next fun _ _ _ _ => takes_pure trivial
      cases kind
      case semicolon => exact separator true
      case comma => exact separator false
      case newline => exact separator false
      -- the closers of bodies end a statement too; nothing else does
      all_goals first
        | exact takes_pure trivial
        | exact takes_failNext rfl

theorem advances_evalOrAssign : Takes ground cursor evalOrAssign fun _ used => used ≠ [] := by
  refine (Expr.advances_reader cursor).bind fun first used _ _ some => ?_
  have stays (later : List Token) : used ++ later ≠ [] :=
    fun none => some (List.append_eq_nil_iff.mp none).1
  refine takes_eat (fun token after _ _ => ?_) fun _ => ?_
  · refine (Expr.advances_reader after).bind fun value _ _ _ _ => ?_
    exact takes_terminator.bind fun _ _ _ _ _ => takes_pure (stays _)
  · exact takes_terminator.bind fun _ _ _ _ _ => takes_pure (stays _)

section
variable (inner : Advances ground room nested)
include inner

theorem takes_bodyPart (inside : cursor.ahead.length < room) :
    Takes ground cursor (bodyPart nested closers) GoesOn := by
  refine takes_separators fun skipped after _ passes => takes_peek ?_
  have lengths := passes.length
  cases after.next? with
  | none => exact takes_failNext rfl
  | some kind =>
      change Takes ground after (if closers.contains kind = true then _ else _) _
      split
      · exact takes_pure trivial
      · exact goesOn_behind skipped (inner after (by omega))

theorem takes_body (inside : cursor.ahead.length < room) :
    Takes ground cursor (body nested closers) fun _ _ => True := by
  rw [body_eq]
  exact takes_rounds fun here within => takes_bodyPart inner (by omega)

theorem takes_clause (inside : cursor.ahead.length < room) :
    Takes ground cursor (clause nested closers) fun _ _ => True := by
  refine (Expr.advances_reader cursor).bind fun guard used after passes some => ?_
  have shorter := passes.shorter some
  exact (takes_body inner (by omega)).bind fun stmts _ _ _ _ => takes_pure trivial

theorem takes_clauseAfter {opener : Kind} (inside : cursor.ahead.length < room) :
    Takes ground cursor (clauseAfter opener nested closers) GoesOn := by
  refine takes_eat (fun token after _ passes => ?_) fun _ => takes_pure trivial
  have shorter := passes.shorter (List.cons_ne_nil _ _)
  exact (takes_clause inner (by omega)).bind fun clause _ _ _ _ =>
    takes_pure ⟨List.cons_ne_nil _ _, trivial⟩

theorem takes_otherwise {opener : Kind} (inside : cursor.ahead.length < room) :
    Takes ground cursor (otherwise opener nested) fun _ _ => True := by
  refine takes_eat (fun token after _ passes => ?_) fun _ => ?_
  · have shorter := passes.shorter (List.cons_ne_nil _ _)
    refine (Takes.map (Q := fun _ _ => True) (takes_body inner (by omega))).bind
      fun last _ _ _ _ => ?_
    exact takes_expect fun _ _ _ _ => takes_pure trivial
  · exact takes_expect fun _ _ _ _ => takes_pure trivial

theorem advances_branch (inside : cursor.ahead.length < room + 1) :
    Takes ground cursor (branch nested) fun _ used => used ≠ [] := by
  refine takes_expect fun token after _ passes => ?_
  have shorter := passes.shorter (List.cons_ne_nil _ _)
  refine (takes_clause inner (by omega)).bind fun first used after' passes' _ => ?_
  have lengths := passes'.length
  refine (takes_rounds fun here within => takes_clauseAfter inner (by omega)).bind
    fun rest used after'' passes'' _ => ?_
  have lengths' := passes''.length
  exact (takes_otherwise inner (by omega)).bind fun last _ _ _ _ =>
    takes_pure (List.cons_ne_nil _ _)

theorem advances_switch (inside : cursor.ahead.length < room + 1) :
    Takes ground cursor (switch nested) fun _ used => used ≠ [] := by
  refine takes_expect fun token after _ passes => ?_
  have shorter := passes.shorter (List.cons_ne_nil _ _)
  refine (Expr.advances_reader after).bind fun subject used after' passes' _ => ?_
  have lengths := passes'.length
  refine takes_separators fun skipped behind _ passed => ?_
  have lengths' := passed.length
  refine (takes_rounds fun here within => takes_clauseAfter inner (by omega)).bind
    fun cases used after'' passes'' _ => ?_
  have lengths'' := passes''.length
  exact (takes_otherwise inner (by omega)).bind fun last _ _ _ _ =>
    takes_pure (List.cons_ne_nil _ _)

theorem takes_loopBody (inside : cursor.ahead.length < room) :
    Takes ground cursor (loopBody nested) fun _ _ => True :=
  (takes_body inner inside).bind fun _ _ _ _ _ => takes_expect fun _ _ _ _ => takes_pure trivial

theorem advances_forLoop (inside : cursor.ahead.length < room + 1) :
    Takes ground cursor (forLoop nested) fun _ used => used ≠ [] := by
  refine takes_expect fun _ after _ passes => takes_expect fun var after' _ passes' =>
    takes_expect fun _ after'' _ passes'' => ?_
  have lengths := passes.length
  have lengths' := passes'.length
  have lengths'' := passes''.length
  refine (Expr.advances_reader after'').bind fun range used behind onward _ => ?_
  have rest := onward.length
  simp only [List.length_singleton] at lengths
  exact (takes_loopBody inner (by omega)).bind fun _ _ _ _ _ => takes_pure (List.cons_ne_nil _ _)

theorem advances_whileLoop (inside : cursor.ahead.length < room + 1) :
    Takes ground cursor (whileLoop nested) fun _ used => used ≠ [] := by
  refine takes_expect fun _ after _ passes => ?_
  have shorter := passes.shorter (List.cons_ne_nil _ _)
  refine (Expr.advances_reader after).bind fun cond used behind onward _ => ?_
  have rest := onward.length
  exact (takes_loopBody inner (by omega)).bind fun _ _ _ _ _ => takes_pure (List.cons_ne_nil _ _)

end

theorem takes_keyword {shape : ParsedShape} {kind : Kind} (here : cursor.next? = some kind) :
    Takes ground cursor (keyword shape) fun _ used => used ≠ [] :=
  takes_skip here fun _ _ _ _ => takes_pure (List.cons_ne_nil _ _)

theorem advances_shapeReader (inner : Advances ground room nested)
    (inside : cursor.ahead.length < room + 1) {kind : Kind} (here : cursor.next? = some kind) :
    Takes ground cursor (shapeReader nested kind) fun _ used => used ≠ [] := by
  cases kind
  case ifKey => exact advances_branch inner inside
  case switchKey => exact advances_switch inner inside
  case forKey => exact advances_forLoop inner inside
  case whileKey => exact advances_whileLoop inner inside
  case breakKey => exact takes_keyword here
  case continueKey => exact takes_keyword here
  case returnKey => exact takes_keyword here
  case globalKey => exact Takes.map (takes_declared here)
  case persistentKey => exact Takes.map (takes_declared here)
  all_goals exact advances_evalOrAssign

theorem advances_readerWithin (allowance : Nat) :
    Advances ground allowance (readerWithin allowance) := by
  induction allowance with
  | zero => exact fun _ inside => absurd inside (Nat.not_lt_zero _)
  | succ allowance inner =>
      intro cursor inside
      apply takes_get
      obtain ⟨last, ahead⟩ := cursor
      cases ahead with
      | nil => exact takes_failNext rfl
      | cons first rest => exact Takes.map (advances_shapeReader inner inside rfl)

theorem advances_reader (cursor : Cursor) : Takes ground cursor reader fun _ used => used ≠ [] :=
  takes_get (advances_readerWithin _ cursor (Nat.lt_succ_self _))

end Stmt

namespace Function

variable {closed : Bool} {nested : TokenReader ParsedFunction}

theorem takes_name : Takes ground cursor name fun _ used => used ≠ [] :=
  takes_expect fun _ _ _ _ => takes_pure (List.cons_ne_nil _ _)

theorem takes_output : Takes ground cursor output GoesOn := by
  refine takes_eat (fun _ _ _ _ => takes_pure trivial) fun _ => ?_
  refine takes_name.bind fun output used _ _ some => ?_
  have stays (later : List Token) : used ++ later ≠ [] :=
    fun none => some (List.append_eq_nil_iff.mp none).1
  exact takes_eat (fun _ _ _ _ => takes_pure ⟨stays _, trivial⟩) fun _ =>
    takes_pure ⟨stays _, trivial⟩

theorem takes_outputsAndName : Takes ground cursor outputsAndName fun _ _ => True := by
  refine takes_eat (fun _ after _ _ => ?_) fun _ => ?_
  · refine (takes_rounds fun _ _ => takes_output).bind fun outputs _ _ _ _ => ?_
    exact takes_expect fun _ _ _ _ => takes_name.bind fun _ _ _ _ _ => takes_pure trivial
  · refine takes_name.bind fun first _ _ _ _ => ?_
    exact takes_eat (fun _ _ _ _ => takes_name.bind fun _ _ _ _ _ => takes_pure trivial) fun _ =>
      takes_pure trivial

theorem takes_input : Takes ground cursor input fun _ used => used ≠ [] := by
  refine takes_take (fun ended => takes_failLast (.inl ended) rfl) fun token after _ passes => ?_
  obtain ⟨kind, text, start, position⟩ := token
  cases kind
  case word => exact takes_pure (List.cons_ne_nil _ _)
  case tilde => exact takes_pure (List.cons_ne_nil _ _)
  all_goals exact takes_failLast (.inr passes.behind) rfl

theorem takes_parameter : Takes ground cursor parameter GoesOn := by
  refine takes_eat (fun _ _ _ _ => takes_pure trivial) fun _ => ?_
  refine takes_input.bind fun parameter used _ _ some => takes_nextIs ?_
  have stays (later : List Token) : used ++ later ≠ [] :=
    fun none => some (List.append_eq_nil_iff.mp none).1
  split
  · exact takes_pure ⟨stays _, trivial⟩
  · exact takes_expect fun _ _ _ _ => takes_pure ⟨stays _, trivial⟩

theorem takes_inputs : Takes ground cursor inputs fun _ _ => True := by
  rw [inputs_eq]
  exact takes_eat (fun _ _ _ _ => takes_rounds fun _ _ => takes_parameter) fun _ =>
    takes_pure trivial

theorem takes_item (inner : Advances ground room nested) (inside : cursor.ahead.length < room) :
    Takes ground cursor (item closed nested) GoesOn := by
  refine takes_separators fun skipped after _ passes => takes_peek ?_
  have lengths := passes.length
  cases next : after.next? with
  | none => exact takes_pure trivial
  | some kind =>
      cases kind
      case endKey =>
        change Takes ground after (if closed = true then _ else _) _
        split
        · exact takes_skip next fun _ _ _ _ => takes_pure trivial
        · exact goesOn_behind skipped (Stmt.advances_reader after)
      case functionKey =>
        change Takes ground after (if closed = true then _ else _) _
        split
        · exact goesOn_behind skipped (inner after (by omega))
        · exact takes_pure trivial
      all_goals exact goesOn_behind skipped (Stmt.advances_reader after)

theorem advances_readerWithin (allowance : Nat) :
    Advances ground allowance (readerWithin closed allowance) := by
  induction allowance with
  | zero => exact fun _ inside => absurd inside (Nat.not_lt_zero _)
  | succ allowance inner =>
      intro cursor inside
      refine takes_expect fun first after _ passes => ?_
      have shorter := passes.shorter (List.cons_ne_nil _ _)
      refine takes_outputsAndName.bind fun names used between passes' _ =>
        takes_inputs.bind fun inputs used' behind passes'' _ => ?_
      have lengths := passes'.length
      have lengths' := passes''.length
      refine (takes_rounds fun here within => takes_item inner (by omega)).bind
        fun items _ _ _ _ => takes_pure ?_
      exact List.cons_ne_nil _ _

theorem advances_reader (cursor : Cursor) :
    Takes ground cursor (reader closed) fun _ used => used ≠ [] :=
  takes_get (advances_readerWithin _ cursor (Nat.lt_succ_self _))

end Function

namespace File

variable {closed : Bool}

theorem takes_item : Takes ground cursor (item closed) GoesOn := by
  refine takes_separators fun skipped after _ passes => takes_peek ?_
  cases after.next? with
  | none => exact takes_pure trivial
  | some kind =>
      cases kind
      case functionKey => exact goesOn_behind skipped (Function.advances_reader after)
      all_goals exact goesOn_behind skipped (Stmt.advances_reader after)

end File
end ScriptFlow
