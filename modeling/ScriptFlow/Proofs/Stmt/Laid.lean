import ScriptFlow.Proofs.File.Safe
import ScriptFlow.Proofs.Stmt.Layer

/-!
Where statements are read. A statement is labelled with the place of the token that reading it
starts at, and takes that token before it reads the statements in it; so the places of the
statements of a body are in order among those of the tokens that were taken.
-/

namespace ScriptFlow

open Token TokenReader

namespace TokenReader

variable {A : Type} {ground : Ground} {cursor : Cursor} {reader : TokenReader A}
  {P : A → List Token → Prop}

theorem Takes.witnessed (takes : Takes ground cursor reader P) :
    Takes ground cursor reader fun a used =>
    P a used ∧ ground.stands cursor ∧ ∃ after, Passes cursor used after ∧
      reader.run cursor = .ok (a, after) := by
  intro stands
  have outcome := takes stands
  cases ran : reader.run cursor with
  | error failure =>
      rw [ran] at outcome
      exact outcome
  | ok result =>
      obtain ⟨a, after⟩ := result
      rw [ran] at outcome
      obtain ⟨used, passes, holds⟩ := outcome
      exact ⟨used, passes, holds, stands, after, passes, rfl⟩

end TokenReader

namespace Stmt

/-- At one of the tokens the statement is read, with no bound on how deep it nests, and it is
labelled with the place of that token. -/
def StartsIn (tokens : List Token) (stmt : ParsedStmt) : Prop :=
  ∃ front first rest allowance after, tokens = front ++ first :: rest ∧
    (first :: rest).length < allowance ∧
    (readerWithin allowance).run ⟨front.getLast?, first :: rest⟩ = .ok (stmt, after) ∧
    stmt.label = first.position

theorem StartsIn.token {tokens : List Token} {stmt : ParsedStmt} (starts : stmt.StartsIn tokens) :
    ∃ token ∈ tokens, stmt.label = token.position := by
  obtain ⟨front, first, rest, _, _, whole, _, _, same⟩ := starts
  refine ⟨first, ?_, same⟩
  rw [whole]
  exact List.mem_append_right _ List.mem_cons_self

/-- Each statement of the body starts at one of the tokens, and their places are in order among
those of the tokens that were taken. -/
structure Laid (tokens : List Token) (body : List ParsedStmt) (used : List Token) : Prop where
  starts : ∀ stmt ∈ within body, stmt.StartsIn tokens
  ordered : ((within body).map label).Sublist (used.map Token.position)

variable {tokens used later : List Token}

namespace Laid

variable {body others : List ParsedStmt}

theorem nil (used : List Token) : Laid tokens [] used := by
  constructor
  · rw [within_nil]
    exact fun _ member => absurd member List.not_mem_nil
  · rw [within_nil]
    exact List.nil_sublist _

theorem mono (laid : Laid tokens body used) (inside : used.Sublist later) :
    Laid tokens body later :=
  ⟨laid.starts, laid.ordered.trans (inside.map _)⟩

theorem append (first : Laid tokens body used) (second : Laid tokens others later) :
    Laid tokens (body ++ others) (used ++ later) := by
  constructor
  · rw [within_append]
    exact List.forall_mem_append.mpr ⟨first.starts, second.starts⟩
  · rw [within_append, List.map_append, List.map_append]
    exact first.ordered.append second.ordered

theorem some {stmt : ParsedStmt} (laid : Laid tokens [stmt] used) : used ≠ [] := by
  rintro rfl
  have none := laid.ordered
  rw [List.map_nil, List.sublist_nil, List.map_eq_nil_iff, within_cons] at none
  exact List.cons_ne_nil _ _ none

end Laid

def LaidShape (tokens : List Token) (shape : ParsedShape) (used : List Token) : Prop :=
  ∃ first rest, used = first :: rest ∧ Laid tokens shape.bodies.flatten rest

theorem laidShape_leaf {shape : ParsedShape} (some : used ≠ []) (leaf : shape.bodies = []) :
    LaidShape tokens shape used := by
  obtain ⟨first, rest, rfl⟩ := List.exists_cons_of_ne_nil some
  rw [LaidShape, leaf]
  exact ⟨first, rest, rfl, .nil rest⟩

variable {A : Type} {room : Nat} {nested : TokenReader ParsedStmt}
  {closers : List Kind} {cursor : Cursor}

theorem laid_collect {part : TokenReader (Option A)} {bodyOf : A → List ParsedStmt}
    (each : ∀ after, after.ahead.length ≤ cursor.ahead.length → Takes (among tokens) after part
      (PartOf (fun a used => Laid tokens (bodyOf a) used) fun _ => True)) :
    Takes (among tokens) cursor (collect part) fun parts used =>
      Laid tokens (parts.flatMap bodyOf) used := by
  refine (takes_collect each).imp fun parts used taken => ?_
  obtain ⟨lists, last, all, _, rfl⟩ := taken
  have whole : Laid tokens (parts.flatMap bodyOf) lists.flatten := by
    clear each
    induction all with
    | nil => exact .nil []
    | cons head _ ih => exact head.append ih
  exact whole.mono (List.sublist_append_left _ _)

/-- The reader lays a statement among fewer tokens than that. -/
def Lays (tokens : List Token) (room : Nat) (reader : TokenReader ParsedStmt) : Prop :=
  ∀ cursor, cursor.ahead.length < room → Takes (among tokens) cursor reader fun stmt used =>
    Laid tokens [stmt] used

section
variable (inner : Lays tokens room nested)
include inner

theorem laid_body (inside : cursor.ahead.length < room) :
    Takes (among tokens) cursor (body nested closers) fun stmts used => Laid tokens stmts used := by
  have part (here : Cursor) (within : here.ahead.length ≤ cursor.ahead.length) :
      Takes (among tokens) here (bodyPart nested closers)
      (PartOf (fun stmt used => Laid tokens [stmt] used) fun _ => True) := by
    refine takes_separators fun skipped after _ passes => takes_peek ?_
    have lengths := passes.length
    cases after.next? with
    | none => exact takes_failNext rfl
    | some kind =>
        change Takes (among tokens) after (if closers.contains kind = true then _ else _) _
        split
        · exact takes_pure trivial
        · refine (inner after (by omega)).bind fun stmt used _ _ laid => takes_pure ?_
          rw [List.append_nil]
          have laid := laid.mono (List.sublist_append_right skipped used)
          exact ⟨laid.some, laid⟩
  rw [body_eq]
  refine (laid_collect part).imp fun stmts used laid => ?_
  rwa [List.flatMap_singleton'] at laid

theorem laid_clause (inside : cursor.ahead.length < room) :
    Takes (among tokens) cursor (clause nested closers) fun found used => used ≠ [] ∧
      Laid tokens found.2 used := by
  refine (Expr.advances_reader cursor).bind fun guard used after passes some => ?_
  have shorter := passes.shorter some
  refine (laid_body inner (by omega)).bind fun stmts taken _ _ laid => takes_pure ?_
  rw [List.append_nil]
  constructor
  · exact fun none => some (List.append_eq_nil_iff.mp none).1
  · exact laid.mono (List.sublist_append_right _ _)

theorem laid_clauses {opener : Kind} (inside : cursor.ahead.length < room) :
    Takes (among tokens) cursor (collect (clauseAfter opener nested closers)) fun clauses used =>
      Laid tokens (clauses.flatMap Prod.snd) used := by
  refine laid_collect fun here within => takes_eat (fun token after _ passes => ?_) fun _ =>
    takes_pure trivial
  have shorter := passes.shorter (List.cons_ne_nil _ _)
  refine (laid_clause inner (by omega)).bind fun found used _ _ laid => takes_pure ?_
  rw [List.append_nil]
  exact ⟨List.cons_ne_nil _ _, laid.2.mono (List.sublist_cons_self _ _)⟩

theorem laid_otherwise {opener : Kind} (inside : cursor.ahead.length < room) :
    Takes (among tokens) cursor (otherwise opener nested) fun last used =>
      Laid tokens last.toList.flatten used := by
  refine takes_eat (fun token after _ passes => ?_) fun _ => ?_
  · have shorter := passes.shorter (List.cons_ne_nil _ _)
    refine Takes.bind (P := fun last used => Laid tokens (Option.toList last).flatten used)
      (Takes.map ((laid_body inner (by omega)).imp fun stmts used laid => ?_))
      fun last used _ _ laid => ?_
    · rwa [Option.toList_some, List.flatten_singleton]
    · exact takes_expect fun closer _ _ _ => takes_pure (laid.mono (by simp))
  · exact takes_expect fun _ _ _ _ => takes_pure (.nil _)

theorem laid_branch (inside : cursor.ahead.length < room + 1) :
    Takes (among tokens) cursor (branch nested) (LaidShape tokens) := by
  refine takes_expect fun token after _ passes => ?_
  have shorter := passes.shorter (List.cons_ne_nil _ _)
  refine (laid_clause inner (by omega)).bind fun first used after' passes' laid => ?_
  have lengths := passes'.length
  refine (laid_clauses inner (by omega)).bind fun rest more after'' passes'' laid' => ?_
  have lengths' := passes''.length
  refine (laid_otherwise inner (by omega)).bind fun last final _ _ laid'' =>
    takes_pure ⟨token, _, rfl, ?_⟩
  have bodies : (StmtShape.branch (first :: rest) last : ParsedShape).bodies.flatten =
      first.2 ++ (rest.flatMap Prod.snd ++ last.toList.flatten) := by
    rw [StmtShape.bodies, List.map_cons, List.cons_append, List.flatten_cons,
      List.flatten_append, List.flatMap_def]
  rw [bodies, List.append_nil]
  exact laid.2.append (laid'.append laid'')

theorem laid_switch (inside : cursor.ahead.length < room + 1) :
    Takes (among tokens) cursor (switch nested) (LaidShape tokens) := by
  refine takes_expect fun token after _ passes => ?_
  have shorter := passes.shorter (List.cons_ne_nil _ _)
  refine (Expr.advances_reader after).bind fun subject used after' passes' _ => ?_
  have lengths := passes'.length
  refine takes_separators fun skipped behind _ passed => ?_
  have lengths' := passed.length
  refine (laid_clauses inner (by omega)).bind fun cases more after'' passes'' laid => ?_
  have lengths'' := passes''.length
  refine (laid_otherwise inner (by omega)).bind fun last final _ _ laid' =>
    takes_pure ⟨token, _, rfl, ?_⟩
  have bodies : (StmtShape.switch subject cases last : ParsedShape).bodies.flatten =
      cases.flatMap Prod.snd ++ last.toList.flatten := by
    rw [StmtShape.bodies, List.flatten_append, List.flatMap_def]
  rw [bodies, List.append_nil]
  refine (laid.append laid').mono ?_
  exact (List.sublist_append_right skipped _).trans (List.sublist_append_right used _)

theorem laid_loopBody (inside : cursor.ahead.length < room) :
    Takes (among tokens) cursor (loopBody nested) fun stmts used => Laid tokens stmts used :=
  (laid_body inner inside).bind fun _ _ _ _ laid =>
    takes_expect fun _ _ _ _ => takes_pure (laid.mono (List.sublist_append_left _ _))

theorem laid_forLoop (inside : cursor.ahead.length < room + 1) :
    Takes (among tokens) cursor (forLoop nested) (LaidShape tokens) := by
  refine takes_expect fun token after _ passes => takes_expect fun var after' _ passes' =>
    takes_expect fun gets after'' _ passes'' => ?_
  have lengths := passes.length
  have lengths' := passes'.length
  have lengths'' := passes''.length
  refine (Expr.advances_reader after'').bind fun range used behind onward _ => ?_
  have rest := onward.length
  simp only [List.length_singleton] at lengths
  refine (laid_loopBody inner (by omega)).bind fun stmts taken _ _ laid =>
    takes_pure ⟨token, _, rfl, ?_⟩
  rw [StmtShape.bodies, List.flatten_singleton, List.append_nil]
  exact laid.mono (((List.sublist_append_right used taken).cons gets).cons var)

theorem laid_whileLoop (inside : cursor.ahead.length < room + 1) :
    Takes (among tokens) cursor (whileLoop nested) (LaidShape tokens) := by
  refine takes_expect fun token after _ passes => ?_
  have shorter := passes.shorter (List.cons_ne_nil _ _)
  refine (Expr.advances_reader after).bind fun cond used behind onward _ => ?_
  have rest := onward.length
  refine (laid_loopBody inner (by omega)).bind fun stmts taken _ _ laid =>
    takes_pure ⟨token, _, rfl, ?_⟩
  rw [StmtShape.bodies, List.flatten_singleton, List.append_nil]
  exact laid.mono (List.sublist_append_right _ _)

end

theorem laid_evalOrAssign : Takes (among tokens) cursor evalOrAssign (LaidShape tokens) := by
  refine (Expr.advances_reader cursor).bind fun first used _ _ some => ?_
  have stays (later : List Token) : used ++ later ≠ [] :=
    fun none => some (List.append_eq_nil_iff.mp none).1
  refine takes_eat (fun token after _ _ => ?_) fun _ => ?_
  · refine (Expr.advances_reader after).bind fun value _ _ _ _ => ?_
    exact takes_terminator.bind fun _ _ _ _ _ => takes_pure (laidShape_leaf (stays _) rfl)
  · exact takes_terminator.bind fun _ _ _ _ _ => takes_pure (laidShape_leaf (stays _) rfl)

theorem laid_keyword {shape : ParsedShape} {kind : Kind} (here : cursor.next? = some kind)
    (leaf : shape.bodies = []) : Takes (among tokens) cursor (keyword shape) (LaidShape tokens) :=
  takes_skip here fun _ _ _ _ => takes_pure (laidShape_leaf (List.cons_ne_nil _ _) leaf)

theorem laid_shapeReader (inner : Lays tokens room nested)
    (inside : cursor.ahead.length < room + 1) {kind : Kind} (here : cursor.next? = some kind) :
    Takes (among tokens) cursor (shapeReader nested kind) (LaidShape tokens) := by
  cases kind
  case ifKey => exact laid_branch inner inside
  case switchKey => exact laid_switch inner inside
  case forKey => exact laid_forLoop inner inside
  case whileKey => exact laid_whileLoop inner inside
  case breakKey => exact laid_keyword here rfl
  case continueKey => exact laid_keyword here rfl
  case returnKey => exact laid_keyword here rfl
  case globalKey =>
    exact Takes.map ((takes_declared here).imp fun _ _ some => laidShape_leaf some rfl)
  case persistentKey =>
    exact Takes.map ((takes_declared here).imp fun _ _ some => laidShape_leaf some rfl)
  all_goals exact laid_evalOrAssign

theorem laid_readerWithin (allowance : Nat) : Lays tokens allowance (readerWithin allowance) := by
  induction allowance with
  | zero => exact fun _ inside => absurd inside (Nat.not_lt_zero _)
  | succ allowance inner =>
      intro cursor inside
      have read : Takes (among tokens) cursor (readerWithin (allowance + 1)) fun stmt used =>
          ∃ shape first rest, stmt = .node first.position shape ∧ used = first :: rest ∧
            Laid tokens shape.bodies.flatten rest := by
        apply takes_get
        obtain ⟨last, ahead⟩ := cursor
        cases ahead with
        | nil => exact takes_failNext rfl
        | cons first rest =>
            have shapes : Takes (among tokens) ⟨last, first :: rest⟩
                (shapeReader (readerWithin allowance) first.kind) (LaidShape tokens) :=
              laid_shapeReader inner inside rfl
            refine Takes.map (shapes.witnessed.imp fun shape used laid => ?_)
            obtain ⟨⟨taken, others, rfl, laid⟩, _, after, passes, _⟩ := laid
            -- the first token that the shape took is the one that gives the label
            obtain ⟨rfl, _⟩ := List.cons.inj passes.ahead
            exact ⟨shape, first, others, rfl, rfl, laid⟩
      refine read.witnessed.imp fun stmt used found => ?_
      obtain ⟨⟨shape, first, rest, rfl, rfl, laid⟩, ⟨_, front, whole, last⟩, after, passes, ran⟩ :=
        found
      have ahead : cursor.ahead = first :: (rest ++ after.ahead) := passes.ahead
      constructor
      · rw [within_node]
        refine List.forall_mem_cons.mpr ⟨?_, laid.starts⟩
        refine ⟨front, first, rest ++ after.ahead, allowance + 1, after, ahead ▸ whole,
          ahead ▸ inside, ?_, rfl⟩
        rw [← last, ← ahead]
        exact ran
      · rw [within_node, List.map_cons, List.map_cons]
        exact laid.ordered.cons_cons _

theorem laid_reader (cursor : Cursor) :
    Takes (among tokens) cursor reader fun stmt used => Laid tokens [stmt] used :=
  takes_get (laid_readerWithin _ cursor (Nat.lt_succ_self _))

end Stmt
end ScriptFlow
