import ScriptFlow.Proofs.Expr.Told
import ScriptFlow.Proofs.Stmt.Readable

/-!
Reading gives readable statements. Every reader of statements gives what can be said by a text, and
passes the landmarks of what it gives.
-/

namespace ScriptFlow.Stmt

open Token TokenReader

structure Told (stmt : ParsedStmt) (marks : List Landmark) : Prop where
  readable : stmt.Readable
  marks : marks = stmt.landmarks

def BodyTold (body : List ParsedStmt) (marks : List Landmark) : Prop :=
  (∀ stmt ∈ body, stmt.Readable) ∧ marks = body.flatMap landmarks

structure ClauseTold (clause : ParsedExpr × List ParsedStmt) (marks : List Landmark) : Prop where
  guard : clause.1.Readable false false
  body : ∀ stmt ∈ clause.2, stmt.Readable
  marks : marks = StmtShape.clauseLandmarks Expr.landmarks (·.flatMap landmarks) clause

structure ShapeTold (shape : ParsedShape) (marks : List Landmark) : Prop where
  readable : shape.Readable
  bodies : ∀ body ∈ shape.bodies, ∀ stmt ∈ body, stmt.Readable
  marks : marks = shape.landmarks Expr.landmarks (·.flatMap landmarks)

variable {nested : TokenReader ParsedStmt} {closers : List Kind} {cursor : Cursor}

section
variable (inner : ∀ cursor, Gives cursor nested Told)
include inner

theorem gives_body (cursor : Cursor) : Gives cursor (body nested closers) BodyTold := by
  refine Gives.imp (gives_collect (P := Told) fun here =>
    gives_separators fun after => gives_peek ?_) ?_
  · cases after.next? with
    | none => exact gives_failNext _
    | some kind =>
        change Gives after (if _ then _ else _) _
        split
        · exact gives_pure rfl
        · refine (inner after).bind fun stmt marks _ told => gives_pure ?_
          rw [List.append_nil]
          exact told
  · rintro stmts marks ⟨lists, all, rfl⟩
    refine ⟨fun stmt member => ?_, Expr.flatten_eq_flatMap (all.imp fun _ _ told => told.marks)⟩
    obtain ⟨_, _, told⟩ := exists_right_of_forall₂ all member
    exact told.readable

theorem gives_clause (cursor : Cursor) : Gives cursor (clause nested closers) ClauseTold := by
  refine (Expr.telling_reader cursor).bind fun guard marks after told => ?_
  refine (gives_body inner after).bind fun stmts others _ given =>
    gives_pure ⟨told.readable, given.1, ?_⟩
  rw [List.append_nil, told.marks, given.2, StmtShape.clauseLandmarks]

theorem gives_clauses {opener : Kind} (plain : opener.isLandmark = false) (cursor : Cursor) :
    Gives cursor (collect (clauseAfter opener nested closers)) fun clauses marks =>
      (∀ clause ∈ clauses, clause.1.Readable false false ∧ ∀ stmt ∈ clause.2, stmt.Readable) ∧
          marks = clauses.flatMap
          (StmtShape.clauseLandmarks Expr.landmarks (·.flatMap landmarks)) := by
  refine Gives.imp (gives_collect (P := ClauseTold) fun here => ?_) ?_
  · refine gives_eat plain (fun after => ?_) fun _ => gives_pure rfl
    refine (gives_clause inner after).bind fun clause marks _ told => gives_pure ?_
    rw [List.append_nil]
    exact told
  · rintro clauses marks ⟨lists, all, rfl⟩
    refine ⟨fun clause member => ?_, Expr.flatten_eq_flatMap (all.imp fun _ _ told => told.marks)⟩
    obtain ⟨_, _, told⟩ := exists_right_of_forall₂ all member
    exact ⟨told.guard, told.body⟩

theorem gives_otherwise {opener : Kind} (plain : opener.isLandmark = false) (cursor : Cursor) :
    Gives cursor (otherwise opener nested) fun last marks =>
      (∀ body ∈ last, ∀ stmt ∈ body, stmt.Readable) ∧
        marks = last.toList.flatMap (·.flatMap landmarks) := by
  refine gives_eat plain (fun after => ?_) fun _ => ?_
  · refine Gives.bind (P := fun last marks => ∃ body, last = some body ∧ BodyTold body marks)
      (Gives.map ((gives_body inner after).imp fun body _ told => ⟨body, rfl, told⟩)) ?_
    rintro last marks _ ⟨stmts, rfl, readable, rfl⟩
    refine gives_expect fun _ _ _ => gives_pure ⟨fun body member => ?_, ?_⟩
    · cases member
      exact readable
    · simp [Kind.landmark?, Kind.isLandmark]
  · exact gives_expect fun _ _ _ =>
      gives_pure ⟨fun _ none => absurd none (Option.not_mem_none _), rfl⟩

theorem gives_branch (cursor : Cursor) : Gives cursor (branch nested) ShapeTold := by
  refine gives_expect fun _ after _ => ?_
  refine (gives_clause inner after).bind fun first marks after told => ?_
  refine (gives_clauses inner rfl after).bind fun rest others after given => ?_
  refine (gives_otherwise inner rfl after).bind fun last later _ ended => gives_pure ⟨?_, ?_, ?_⟩
  · refine ⟨fun expr member => ?_, ?_, nofun, nofun, nofun, nofun⟩
    · rcases List.mem_cons.mp member with rfl | member
      · exact told.guard
      · obtain ⟨clause, inside, rfl⟩ := List.mem_map.mp member
        exact (given.1 clause inside).1
    · rintro _ _ ⟨⟩
      exact List.cons_ne_nil _ _
  · intro body member
    rcases List.mem_append.mp member with member | member
    · rcases List.mem_cons.mp member with rfl | member
      · exact told.body
      · obtain ⟨clause, inside, rfl⟩ := List.mem_map.mp member
        exact (given.1 clause inside).2
    · exact ended.1 body (Option.mem_toList.mp member)
  · simp [StmtShape.landmarks, told.marks, given.2, ended.2, Kind.landmark?, Kind.isLandmark]

theorem gives_switch (cursor : Cursor) : Gives cursor (switch nested) ShapeTold := by
  refine gives_expect fun _ after _ => ?_
  refine (Expr.telling_reader after).bind fun subject marks after told =>
    gives_separators fun after => ?_
  refine (gives_clauses inner rfl after).bind fun cases others after given => ?_
  refine (gives_otherwise inner rfl after).bind fun last later _ ended => gives_pure ⟨?_, ?_, ?_⟩
  · refine ⟨fun expr member => ?_, nofun, nofun, nofun, nofun, nofun⟩
    rcases List.mem_cons.mp member with rfl | member
    · exact told.readable
    · obtain ⟨clause, inside, rfl⟩ := List.mem_map.mp member
      exact (given.1 clause inside).1
  · intro body member
    rcases List.mem_append.mp member with member | member
    · obtain ⟨clause, inside, rfl⟩ := List.mem_map.mp member
      exact (given.1 clause inside).2
    · exact ended.1 body (Option.mem_toList.mp member)
  · simp [StmtShape.landmarks, told.marks, given.2, ended.2, Kind.landmark?, Kind.isLandmark]

theorem gives_loopBody (cursor : Cursor) : Gives cursor (loopBody nested) BodyTold := by
  refine (gives_body inner cursor).bind fun stmts marks after told =>
    gives_expect fun _ _ _ => gives_pure ?_
  simpa [Kind.landmark?, Kind.isLandmark] using told

theorem gives_forLoop (cursor : Cursor) : Gives cursor (forLoop nested) ShapeTold := by
  refine gives_expect fun _ after _ => gives_expect fun var after isName =>
    gives_expect fun _ after _ => ?_
  refine (Expr.telling_reader after).bind fun range marks after told => ?_
  refine (gives_loopBody inner after).bind fun stmts others _ given => gives_pure ⟨?_, ?_, ?_⟩
  · refine ⟨fun expr member => ?_, nofun, fun name member => ?_, nofun, nofun, nofun⟩
    · rw [List.mem_singleton.mp member]
      exact told.readable
    · cases member
      rw [Token.name, String.toList_ofList]
      exact isName
  · intro body member
    rw [List.mem_singleton.mp member]
    exact given.1
  · simp [StmtShape.landmarks, StmtShape.exprs, StmtShape.guards, StmtShape.bodies, told.marks,
      given.2, Kind.landmark?, Kind.isLandmark]

theorem gives_whileLoop (cursor : Cursor) : Gives cursor (whileLoop nested) ShapeTold := by
  refine gives_expect fun _ after _ => ?_
  refine (Expr.telling_reader after).bind fun cond marks after told => ?_
  refine (gives_loopBody inner after).bind fun stmts others _ given => gives_pure ⟨?_, ?_, ?_⟩
  · refine ⟨fun expr member => ?_, nofun, nofun, nofun, nofun, nofun⟩
    rw [List.mem_singleton.mp member]
    exact told.readable
  · intro body member
    rw [List.mem_singleton.mp member]
    exact given.1
  · simp [StmtShape.landmarks, StmtShape.exprs, StmtShape.guards, StmtShape.bodies, told.marks,
      given.2, Kind.landmark?, Kind.isLandmark]

end

theorem gives_declared {kind : Kind} (next : cursor.next? = some kind)
    (plain : kind.isLandmark = false) : Gives cursor declared fun names marks =>
      (names ≠ [] ∧ ∀ name ∈ names, IsName name.toList) ∧ marks = [] := by
  refine gives_skip next plain fun _ after => ?_
  refine Gives.bind
    (P := fun names marks => (∀ name ∈ names, IsName name.toList) ∧ marks = []) ?_ ?_
  · refine Gives.imp (gives_collect (P := fun name marks => IsName name.toList ∧
        marks = []) fun here => gives_nextIs ?_) ?_
    · split
      · next word =>
          have word := beq_iff_eq.mp word
          refine gives_take (fun _ => gives_pure rfl) fun token after same admits => gives_pure ?_
          rw [word] at same
          rw [← Option.some.inj same] at admits ⊢
          refine ⟨?_, rfl⟩
          rw [Token.name, String.toList_ofList]
          exact admits
      · exact gives_pure rfl
    · rintro names marks ⟨lists, all, rfl⟩
      refine ⟨fun name member => ?_, ?_⟩
      · obtain ⟨_, _, isName, _⟩ := exists_right_of_forall₂ all member
        exact isName
      · refine List.flatten_eq_nil_iff.mpr fun marks member => ?_
        obtain ⟨_, _, _, none⟩ := exists_left_of_forall₂ all member
        exact none
  · rintro names marks behind ⟨all, rfl⟩
    change Gives behind (if names.isEmpty then _ else _) _
    cases names with
    | nil => exact gives_failNext _
    | cons first rest => exact gives_pure ⟨⟨List.cons_ne_nil _ _, all⟩, rfl⟩

theorem shapeTold_declaration {names : List String} {marks : List Landmark}
    (told : (names ≠ [] ∧ ∀ name ∈ names, IsName name.toList) ∧ marks = []) :
    ShapeTold (.global names) marks ∧ ShapeTold (.persistent names) marks := by
  obtain ⟨⟨some, all⟩, rfl⟩ := told
  refine ⟨⟨⟨nofun, nofun, nofun, all, ?_, nofun⟩, nofun, rfl⟩,
    ⟨⟨nofun, nofun, nofun, all, nofun, ?_⟩, nofun, rfl⟩⟩
  · exact fun same => some (StmtShape.global.inj same)
  · exact fun same => some (StmtShape.persistent.inj same)

theorem gives_terminator (cursor : Cursor) : Gives cursor terminator fun _ marks => marks = [] := by
  refine gives_peek ?_
  cases next : cursor.next? with
  | none => exact gives_pure rfl
  | some kind =>
      cases kind with
      | semicolon | comma | newline => exact gives_skip next rfl fun _ _ => gives_pure rfl
      | endKey | elseKey | elseifKey | caseKey | otherwiseKey => exact gives_pure rfl
      | _ => exact gives_failNext _

theorem told_eval {expr : ParsedExpr} {marks : List Landmark} (quiet : Bool)
    (told : Expr.Told false expr marks) : ShapeTold (.eval expr quiet) marks := by
  refine ⟨⟨fun own member => ?_, nofun, nofun, nofun, nofun, nofun⟩, nofun, ?_⟩
  · rw [List.mem_singleton.mp member]
    exact told.readable
  · simp [StmtShape.landmarks, StmtShape.exprs, StmtShape.bodies, told.marks]

theorem told_assign {target value : ParsedExpr} {marks others : List Landmark} (quiet : Bool)
    (targets : Expr.Told false target marks) (values : Expr.Told false value others) :
    ShapeTold (.assign target value quiet) (marks ++ others) := by
  refine ⟨⟨fun own member => ?_, nofun, nofun, nofun, nofun, nofun⟩, nofun, ?_⟩
  · simp only [StmtShape.exprs, List.mem_cons, List.not_mem_nil, or_false] at member
    rcases member with rfl | rfl
    · exact targets.readable
    · exact values.readable
  · simp [StmtShape.landmarks, StmtShape.exprs, StmtShape.bodies, targets.marks, values.marks]

theorem gives_evalOrAssign (cursor : Cursor) : Gives cursor evalOrAssign ShapeTold := by
  refine (Expr.telling_reader cursor).bind fun first marks after told => ?_
  refine gives_eat rfl (fun after => ?_) fun _ => ?_
  · refine (Expr.telling_reader after).bind fun value others after told' => ?_
    refine (gives_terminator after).bind fun quiet later _ none => gives_pure ?_
    rw [none, List.append_nil, List.append_nil]
    exact told_assign quiet told told'
  · refine (gives_terminator after).bind fun quiet later _ none => gives_pure ?_
    rw [none, List.append_nil, List.append_nil]
    exact told_eval quiet told

theorem gives_keyword {kind : Kind} {shape : ParsedShape} (next : cursor.next? = some kind)
    (plain : kind.isLandmark = false) (told : ShapeTold shape []) :
    Gives cursor (keyword shape) ShapeTold := gives_skip next plain fun _ _ => gives_pure told

theorem gives_shapeReader {kind : Kind} (inner : ∀ cursor, Gives cursor nested Told)
    (next : cursor.next? = some kind) : Gives cursor (shapeReader nested kind) ShapeTold := by
  have bare {shape : ParsedShape} (readable : shape.Readable) (still : shape.bodies = [])
      (none : shape.landmarks Expr.landmarks (·.flatMap landmarks) = []) : ShapeTold shape [] :=
    ⟨readable, by rw [still]; nofun, none.symm⟩
  cases kind with
  | ifKey => exact gives_branch inner cursor
  | switchKey => exact gives_switch inner cursor
  | forKey => exact gives_forLoop inner cursor
  | whileKey => exact gives_whileLoop inner cursor
  | breakKey | continueKey | returnKey =>
      exact gives_keyword next rfl (bare ⟨nofun, nofun, nofun, nofun, nofun, nofun⟩ rfl rfl)
  | globalKey =>
      refine (gives_declared next rfl).bind fun names marks _ told => gives_pure ?_
      rw [List.append_nil]
      exact (shapeTold_declaration told).1
  | persistentKey =>
      refine (gives_declared next rfl).bind fun names marks _ told => gives_pure ?_
      rw [List.append_nil]
      exact (shapeTold_declaration told).2
  | _ => exact gives_evalOrAssign cursor

theorem gives_readerWithin (allowance : Nat) (cursor : Cursor) :
    Gives cursor (readerWithin allowance) Told := by
  induction allowance generalizing cursor with
  | zero => exact gives_failNext _
  | succ allowance ih =>
      refine gives_get ?_
      obtain ⟨last, ahead⟩ := cursor
      cases ahead with
      | nil => exact gives_failNext _
      | cons first rest =>
          refine (@gives_shapeReader _ ⟨last, first :: rest⟩ first.kind ih rfl).bind
            fun shape marks _ told => gives_pure ?_
          rw [List.append_nil]
          exact ⟨readable_node.mpr ⟨told.readable, told.bodies⟩,
            told.marks.trans (landmarks_node _ _).symm⟩

theorem gives_reader (cursor : Cursor) : Gives cursor Stmt.reader Told :=
  gives_get (gives_readerWithin _ cursor)

end ScriptFlow.Stmt
