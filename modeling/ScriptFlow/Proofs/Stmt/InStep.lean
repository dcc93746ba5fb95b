import ScriptFlow.Proofs.Expr.InStep
import ScriptFlow.Proofs.Store.Allocation

/-!
Two runs of the readers of statements. From alike cursors the runs agree up to what they do not have
in common of places. Where an `end` of a function stands behind a statement and a comma in the other
run, the other run takes the comma with the statement.
-/

namespace ScriptFlow

open Token TokenReader

/-- From alike cursors the runs of the reader agree on what is kept of the result, and leave alike
cursors. -/
def Pairing.Keeps {A C : Type} (pairing : Pairing) (nest : Nest) (kept : A → C)
    (reader : TokenReader A) : Prop :=
  ∀ here there, pairing.Alike nest here there →
    Agree reader reader here there fun a b after after' => kept a = kept b ∧
    pairing.Alike nest after after'

/-- The cursors are alike, or the other run has already taken the comma for the `end` ahead. -/
inductive Pairing.Ended (pairing : Pairing) (nest : Nest) : Cursor → Cursor → Prop where
  | alike {here there : Cursor} (alike : pairing.Alike nest here there) :
      Ended pairing nest here there
  | strayed {last : Option Token} {token : Token} {rest : List Token}
      {between there : Cursor} (alike : pairing.Alike nest ⟨last, token :: rest⟩ between)
      (strays : nest.Strays ⟨last, token :: rest⟩ between)
      (onward : pairing.Alike (nest.after .endKey) ⟨some token, rest⟩ there) :
      Ended pairing nest ⟨last, token :: rest⟩ there

theorem Pairing.Ended.settled {pairing : Pairing} {nest : Nest} {here there : Cursor}
    (ended : pairing.Ended nest here there) (settled : nest.endsFunction = false) :
    pairing.Alike nest here there := by
  cases ended with
  | alike alike => exact alike
  | strayed _ strays _ => exact absurd (strays.ends.symm.trans settled) (by decide)

namespace Stmt

abbrev seen (view : Position → Position) : ParsedStmt → ParsedStmt := relabel view id

def seenShape (view : Position → Position) (shape : ParsedShape) : ParsedShape :=
  shape.map id (·.map (seen view))

theorem seen_node (view : Position → Position) (position : Position) (shape : ParsedShape) :
    seen view (.node position shape) = .node (view position) (seenShape view shape) :=
  relabel_node _ _ _ _

theorem seen_id (stmt : ParsedStmt) : seen (fun position => position) stmt = stmt := by
  induction stmt using Stmt.induction with
  | node position shape ih =>
      have bodies : ∀ body ∈ shape.bodies, body.map (seen fun position => position) = body :=
        fun body inside => by
        have same := List.map_congr_left fun inner member => ih inner
            (List.mem_flatten.mpr ⟨body, inside, member⟩)
        rwa [List.map_id'] at same
      rw [seen_node, seenShape, StmtShape.map_congr (fun _ _ => rfl) bodies]
      exact congrArg (node position) (StmtShape.map_id shape)

variable {pairing : Pairing} {nest : Nest} {openers : List Kind} {here there : Cursor}
  {nested : TokenReader ParsedStmt} {closers : List Kind} {opener : Kind}

def NestedInStep (pairing : Pairing) (nested : TokenReader ParsedStmt) : Prop :=
  ∀ openers here there, pairing.Alike ⟨[], openers⟩ here there →
    Agree nested nested here there fun a b after after' =>
    seen pairing.view a = seen pairing.view b ∧ pairing.Ended ⟨[], openers⟩ after after'

theorem settled_opener (other : opener ≠ .functionKey) :
    (Nest.mk [] (opener :: openers)).endsFunction = false := by
  rw [Nest.endsFunction, List.head?_cons]
  exact beq_eq_false_iff_ne.mpr fun same => other (Option.some.inj same)

theorem map_of_forall₂ {A C : Type} {f : A → C} {as bs : List A}
    (same : List.Forall₂ (fun a b => f a = f b) as bs) : as.map f = bs.map f := by
  induction same with
  | nil => rfl
  | cons head _ ih => rw [List.map_cons, List.map_cons, head, ih]

section
variable (inner : NestedInStep pairing nested)
include inner

theorem agree_bodyPart (settled : (Nest.mk [] openers).endsFunction = false)
    (alike : pairing.Alike ⟨[], openers⟩ here there) :
    Agree (bodyPart nested closers) (bodyPart nested closers) here there
      (Round (fun a b => seen pairing.view a = seen pairing.view b) (pairing.Alike ⟨[], openers⟩)
      (pairing.Alike ⟨[], openers⟩)) := by
  refine Pairing.agree_separators alike (Pairing.next_eq · settled)
    fun after after' alike => agree_peek ?_
  rw [Pairing.next_eq alike settled]
  cases after.next? with
  | none => exact agree_failNext _ _
  | some kind =>
      change Agree (if closers.contains kind = true then _ else _)
        (if closers.contains kind = true then _ else _) _ _ _
      split
      · exact agree_pure alike
      · refine (inner openers after after' alike).bind fun a b _ _ same => agree_pure ?_
        exact ⟨same.1, same.2.settled settled⟩

theorem keeps_body (settled : (Nest.mk [] openers).endsFunction = false) :
    pairing.Keeps ⟨[], openers⟩ (·.map (seen pairing.view)) (body nested closers) := by
  intro here there alike
  rw [body_eq]
  refine (agree_collect (pairing.length alike) alike fun _ _ => agree_bodyPart inner settled).imp
    fun as bs _ _ same => ?_
  exact ⟨map_of_forall₂ same.1, same.2⟩

def seenClause (view : Position → Position) (clause : ParsedExpr × List ParsedStmt) :
    ParsedExpr × List ParsedStmt :=
  Prod.map id (·.map (seen view)) clause

theorem keeps_clause (settled : (Nest.mk [] openers).endsFunction = false) :
    pairing.Keeps ⟨[], openers⟩ (seenClause pairing.view) (clause nested closers) := by
  intro here there alike
  refine (Expr.inStep_reader here there alike).bind fun guard _ after after' same => ?_
  obtain ⟨rfl, alike⟩ := same
  refine (keeps_body inner settled after after' alike).bind fun as bs _ _ same => agree_pure ?_
  exact ⟨congrArg (Prod.mk guard) same.1, same.2⟩

theorem agree_clauseAfter (settled : (Nest.mk [] openers).endsFunction = false)
    (simple : opener.isSimple = true) (alike : pairing.Alike ⟨[], openers⟩ here there) :
    Agree (clauseAfter opener nested closers) (clauseAfter opener nested closers) here there
      (Round (fun a b => seenClause pairing.view a = seenClause pairing.view b)
        (pairing.Alike ⟨[], openers⟩)
        (pairing.Alike ⟨[], openers⟩)) := by
  refine Pairing.agree_eatSimple simple alike (fun after after' alike => ?_) (agree_pure alike)
  exact (keeps_clause inner settled after after' alike).bind fun a b _ _ same => agree_pure same

theorem agree_otherwise {key : Kind}
    (settled : (Nest.mk [] (opener :: openers)).endsFunction = false)
    (simple : key.isSimple = true) (alike : pairing.Alike ⟨[], opener :: openers⟩ here there) :
    Agree (otherwise key nested) (otherwise key nested) here there fun a b after after' =>
      a.map (·.map (seen pairing.view)) = b.map (·.map (seen pairing.view)) ∧
        pairing.Alike ⟨[], openers⟩ after after' := by
  have closes {last last' : Option (List ParsedStmt)}
      (same : last.map (·.map (seen pairing.view)) = last'.map (·.map (seen pairing.view)))
      {here there : Cursor} (alike : pairing.Alike ⟨[], opener :: openers⟩ here there) : Agree (do
        let _ ← expect .endKey
        return last) (do
        let _ ← expect .endKey
        return last') here there fun a b after after' =>
        a.map (·.map (seen pairing.view)) = b.map (·.map (seen pairing.view)) ∧
          pairing.Alike ⟨[], openers⟩ after after' :=
    Pairing.agree_expect alike rfl (.inl settled)
      (fun _ => .closer (List.cons_ne_nil _ _)) fun _ _ _ _ _ alike _ => agree_pure ⟨same, alike⟩
  refine Pairing.agree_eatSimple simple alike (fun after after' alike => ?_) (closes rfl alike)
  have bodies : pairing.Keeps ⟨[], opener :: openers⟩ _ (body nested [.endKey]) :=
    keeps_body inner settled
  refine (Agree.map (Q := fun a b after after' => a.map (·.map (seen pairing.view)) = b.map
      (·.map (seen pairing.view)) ∧ pairing.Alike ⟨[], opener :: openers⟩ after after') ?_).bind
    fun last last' after after' same => closes same.1 same.2
  exact (bodies after after' alike).imp fun a b _ _ same => ⟨congrArg some same.1, same.2⟩

theorem agree_branch (alike : pairing.Alike ⟨[], openers⟩ here there) :
    Agree (branch nested) (branch nested) here there fun a b after after' =>
      seenShape pairing.view a = seenShape pairing.view b ∧
        pairing.Alike ⟨[], openers⟩ after after' := by
  refine Pairing.agree_expect alike rfl (.inr (by decide))
    (fun _ => .plain rfl) fun _ _ after after' _ alike _ => ?_
  have settled : (Nest.mk [] (Kind.ifKey :: openers)).endsFunction = false :=
    settled_opener (by decide)
  refine (keeps_clause inner settled after after' alike).bind
    fun first first' after after' same => ?_
  refine (agree_collect (pairing.length same.2) same.2 fun _ _ =>
    agree_clauseAfter inner settled rfl).bind fun rest rest' after after' same' => ?_
  refine (agree_otherwise inner settled rfl same'.2).bind fun last last' after after' same'' =>
    agree_pure ⟨?_, same''.2⟩
  have clauses : (first :: rest).map (seenClause pairing.view) =
      (first' :: rest').map (seenClause pairing.view) := by
    rw [List.map_cons, List.map_cons, same.1, map_of_forall₂ same'.1]
  exact congrArg₂ StmtShape.branch clauses same''.1

theorem agree_switch (alike : pairing.Alike ⟨[], openers⟩ here there) :
    Agree (switch nested) (switch nested) here there fun a b after after' =>
      seenShape pairing.view a = seenShape pairing.view b ∧
        pairing.Alike ⟨[], openers⟩ after after' := by
  refine Pairing.agree_expect alike rfl (.inr (by decide))
    (fun _ => .plain rfl) fun _ _ after after' _ alike _ => ?_
  have settled : (Nest.mk [] (Kind.switchKey :: openers)).endsFunction = false :=
    settled_opener (by decide)
  refine (Expr.inStep_reader after after' alike).bind fun subject _ after after' same => ?_
  obtain ⟨rfl, alike⟩ := same
  refine Pairing.agree_separators alike (Pairing.next_eq · settled) fun after after' alike => ?_
  refine (agree_collect (pairing.length alike) alike fun _ _ =>
    agree_clauseAfter inner settled rfl).bind fun cases cases' after after' same => ?_
  refine (agree_otherwise inner settled rfl same.2).bind fun last last' after after' same' =>
    agree_pure ⟨?_, same'.2⟩
  exact congrArg₂ (StmtShape.switch subject) (map_of_forall₂ same.1) same'.1

theorem agree_loopBody (settled : (Nest.mk [] (opener :: openers)).endsFunction = false)
    (alike : pairing.Alike ⟨[], opener :: openers⟩ here there) :
    Agree (loopBody nested) (loopBody nested) here there fun a b after after' =>
      a.map (seen pairing.view) = b.map (seen pairing.view) ∧
        pairing.Alike ⟨[], openers⟩ after after' := by
  refine (keeps_body inner settled here there alike).bind fun stmts stmts' after after' same => ?_
  exact Pairing.agree_expect same.2 rfl (.inl settled)
    (fun _ => .closer (List.cons_ne_nil _ _)) fun _ _ _ _ _ alike _ =>
    agree_pure ⟨same.1, alike⟩

theorem agree_forLoop (alike : pairing.Alike ⟨[], openers⟩ here there) :
    Agree (forLoop nested) (forLoop nested) here there fun a b after after' =>
      seenShape pairing.view a = seenShape pairing.view b ∧
        pairing.Alike ⟨[], openers⟩ after after' := by
  refine Pairing.agree_expect alike rfl (.inr (by decide))
    (fun _ => .plain rfl) fun _ _ _ _ _ alike _ => ?_
  refine Pairing.agree_expectSimple rfl alike fun var var' _ _ fellows alike _ => ?_
  refine Pairing.agree_expectSimple rfl alike fun _ _ after after' _ alike _ => ?_
  have settled : (Nest.mk [] (Kind.forKey :: openers)).endsFunction = false :=
    settled_opener (by decide)
  refine (Expr.inStep_reader after after' alike).bind fun range _ after after' same => ?_
  obtain ⟨rfl, alike⟩ := same
  refine (agree_loopBody inner settled alike).bind fun stmts stmts' _ _ same =>
    agree_pure ⟨?_, same.2⟩
  rw [Expr.name_eq fellows]
  exact congrArg (StmtShape.forLoop var.name range) same.1

theorem agree_whileLoop (alike : pairing.Alike ⟨[], openers⟩ here there) :
    Agree (whileLoop nested) (whileLoop nested) here there fun a b after after' =>
      seenShape pairing.view a = seenShape pairing.view b ∧
        pairing.Alike ⟨[], openers⟩ after after' := by
  refine Pairing.agree_expect alike rfl (.inr (by decide))
    (fun _ => .plain rfl) fun _ _ after after' _ alike _ => ?_
  have settled : (Nest.mk [] (Kind.whileKey :: openers)).endsFunction = false :=
    settled_opener (by decide)
  refine (Expr.inStep_reader after after' alike).bind fun cond _ after after' same => ?_
  obtain ⟨rfl, alike⟩ := same
  exact (agree_loopBody inner settled alike).bind fun stmts stmts' _ _ same =>
    agree_pure ⟨congrArg (StmtShape.whileLoop cond) same.1, same.2⟩

end

theorem agree_declaredName (alike : pairing.Alike nest here there) :
    Agree declaredName declaredName here there
      (Round Eq (pairing.Alike nest) (pairing.Alike nest)) := by
  apply agree_nextIs
  rw [Bool.eq_iff_iff.mpr
    (beq_iff_eq.trans ((Pairing.next_iff alike (.inr (by decide))).trans beq_iff_eq.symm))]
  cases next : here.next? == some Kind.word with
  | false => exact agree_pure alike
  | true =>
      exact Pairing.agree_takeSimple rfl alike (eq_of_beq next) fun _ _ _ _ fellows alike _ =>
        agree_pure ⟨(Expr.name_eq fellows).symm, alike⟩

theorem agree_declared {kind : Kind} (simple : kind.isSimple = true)
    (next : here.next? = some kind) (alike : pairing.Alike nest here there) :
    Agree declared declared here there fun a b after after' => a = b ∧
      pairing.Alike nest after after' := by
  refine Pairing.agree_takeSimple simple alike next fun _ _ after after' _ alike _ => ?_
  refine (agree_collect (pairing.length alike) alike fun _ _ => agree_declaredName).bind
    fun names names' after after' same => ?_
  obtain ⟨same, alike⟩ := same
  rw [List.forall₂_eq_eq_eq] at same
  subst same
  split
  · have fails : Agree (failNext .variableName)
        (failNext .variableName) after after' fun (_ _ : Unit) _ _ => False := agree_failNext _ _
    exact fails.bind fun _ _ _ _ none => none.elim
  · exact agree_pure ⟨rfl, alike⟩

theorem agree_terminator (alike : pairing.Alike nest here there) :
    Agree terminator terminator here there fun a b after after' => a = b ∧
      pairing.Ended nest after after' := by
  apply agree_peek
  rcases pairing.next alike with same | strays
  · rw [same]
    cases next : here.next? with
    | none => exact agree_pure ⟨rfl, .alike alike⟩
    | some kind =>
        have separator (separates : kind.separates = true) (quiet : Bool) : Agree (do
              let _ ← take
              return quiet) (do
              let _ ← take
              return quiet) here there fun a b after after' => a = b ∧
                pairing.Ended nest after after' := by
          obtain ⟨last, token, rest, rfl, sort⟩ := Pairing.ahead_of_next next
          obtain ⟨last', token', rest', rfl, sort'⟩ := Pairing.ahead_of_next (same.trans next)
          have onward :=
            (Pairing.onward alike (sort'.trans sort.symm) (by rw [sort]; exact .separator separates)
              (by rw [sort]; exact Kind.sign_separator separates)).2
          rw [sort, Nest.after_separator separates] at onward
          exact Agree.step rfl rfl (agree_pure ⟨rfl, .alike onward⟩)
        cases kind
        case semicolon => exact separator rfl true
        case comma => exact separator rfl false
        case newline => exact separator rfl false
        -- the closers of bodies end a statement too; nothing else does
        all_goals first
          | exact agree_pure ⟨rfl, .alike alike⟩
          | exact agree_failNext _ _
  · rw [strays.here, strays.there]
    obtain ⟨last, token, rest, rfl, sort⟩ := Pairing.ahead_of_next strays.here
    obtain ⟨last', token', rest', rfl, sort'⟩ := Pairing.ahead_of_next strays.there
    have taken : Agree (pure false) (do
        let _ ← take
        return false) ⟨last, token :: rest⟩ ⟨last', token' :: rest'⟩ fun a b after after' => a = b ∧
          pairing.Ended nest after after' :=
      ⟨rfl, .strayed alike strays (pairing.stray alike strays)⟩
    exact taken

theorem agree_evalOrAssign (alike : pairing.Alike nest here there) :
    Agree evalOrAssign evalOrAssign here there fun a b after after' =>
      seenShape pairing.view a = seenShape pairing.view b ∧ pairing.Ended nest after after' := by
  refine (Expr.inStep_reader here there alike).bind fun first _ after after' same => ?_
  obtain ⟨rfl, alike⟩ := same
  refine Pairing.agree_eatSimple rfl alike (fun after after' alike => ?_) ?_
  · refine (Expr.inStep_reader after after' alike).bind fun value _ after after' same => ?_
    obtain ⟨rfl, alike⟩ := same
    refine (agree_terminator alike).bind fun quiet _ _ _ same => agree_pure ?_
    exact ⟨by rw [same.1], same.2⟩
  · refine (agree_terminator alike).bind fun quiet _ _ _ same => agree_pure ?_
    exact ⟨by rw [same.1], same.2⟩

theorem agree_keyword {kind : Kind} {shape : ParsedShape} (simple : kind.isSimple = true)
    (next : here.next? = some kind) (alike : pairing.Alike nest here there) :
    Agree (keyword shape) (keyword shape) here there fun a b after after' =>
      seenShape pairing.view a = seenShape pairing.view b ∧ pairing.Ended nest after after' := by
  exact Pairing.agree_takeSimple simple alike next fun _ _ _ _ _ alike _ =>
    agree_pure ⟨rfl, .alike alike⟩

theorem agree_shapeReader (inner : NestedInStep pairing nested) {kind : Kind}
    (next : here.next? = some kind) (alike : pairing.Alike ⟨[], openers⟩ here there) :
    Agree (shapeReader nested kind) (shapeReader nested kind) here there fun a b after after' =>
      seenShape pairing.view a = seenShape pairing.view b ∧
      pairing.Ended ⟨[], openers⟩ after after' := by
  have bodied {reader : TokenReader ParsedShape}
    (agrees : Agree reader reader here there fun a b after after' =>
      seenShape pairing.view a = seenShape pairing.view b ∧
        pairing.Alike ⟨[], openers⟩ after after') :
      Agree reader reader here there fun a b after after' =>
        seenShape pairing.view a = seenShape pairing.view b ∧
          pairing.Ended ⟨[], openers⟩ after after' :=
    agrees.imp fun _ _ _ _ same => ⟨same.1, .alike same.2⟩
  have declares (shape : List String → ParsedShape)
      (simple : kind.isSimple = true) : Agree (do return shape (← declared))
      (do return shape (← declared)) here there fun a b after after' =>
        seenShape pairing.view a = seenShape pairing.view b ∧
          pairing.Ended ⟨[], openers⟩ after after' :=
    (agree_declared simple next alike).bind fun _ _ _ _ same =>
      agree_pure ⟨by rw [same.1], .alike same.2⟩
  cases kind
  case ifKey => exact bodied (agree_branch inner alike)
  case switchKey => exact bodied (agree_switch inner alike)
  case forKey => exact bodied (agree_forLoop inner alike)
  case whileKey => exact bodied (agree_whileLoop inner alike)
  case breakKey => exact agree_keyword rfl next alike
  case continueKey => exact agree_keyword rfl next alike
  case returnKey => exact agree_keyword rfl next alike
  case globalKey => exact declares .global rfl
  case persistentKey => exact declares .persistent rfl
  all_goals exact agree_evalOrAssign alike

theorem inStep_readerWithin (allowance : Nat) : NestedInStep pairing (readerWithin allowance) := by
  induction allowance with
  | zero => exact fun _ _ _ _ => agree_failNext _ _
  | succ allowance inner =>
      intro openers here there alike
      have lengths := pairing.length alike
      apply agree_get
      obtain ⟨last, ahead⟩ := here
      obtain ⟨last', ahead'⟩ := there
      cases ahead with
      | nil =>
          cases ahead' with
          | nil => exact agree_failNext _ _
          | cons => cases lengths
      | cons first rest =>
          cases ahead' with
          | nil => cases lengths
          | cons first' rest' =>
              have shapes : Agree (shapeReader (readerWithin allowance) first.kind)
                  (shapeReader (readerWithin allowance) first'.kind)
                  ⟨last, first :: rest⟩ ⟨last', first' :: rest'⟩ fun a b after after' =>
                  seenShape pairing.view a = seenShape pairing.view b ∧
                    pairing.Ended ⟨[], openers⟩ after after' := by
                rcases pairing.next alike with same | strays
                · rw [Option.some.inj same]
                  exact agree_shapeReader inner rfl alike
                -- neither an `end` nor a comma begins a statement of its own kind
                · have ends : first.kind = .endKey := Option.some.inj strays.here
                  have comma : first'.kind = .comma := Option.some.inj strays.there
                  rw [ends, comma]
                  exact agree_evalOrAssign alike
              by_cases ends : first.kind = .newline
              -- no statement begins with the end of a line
              · have ends' : first'.kind = .newline := by
                  rcases pairing.next alike with same | strays
                  · exact (Option.some.inj same).trans ends
                  · exact absurd (ends.symm.trans (Option.some.inj strays.here)) (by decide)
                have refuses : Refuses .newline evalOrAssign := (Expr.refuses_reader rfl).bind _
                refine Agree.map ?_
                rw [ends, ends']
                exact agree_refused refuses refuses (congrArg some ends) (congrArg some ends')
              · refine Agree.map (shapes.imp fun a b after after' same => ?_)
                refine ⟨?_, same.2⟩
                rw [seen_node, seen_node, same.1, pairing.place alike ends]

theorem inStep_reader : NestedInStep pairing reader := by
  intro openers here there alike
  apply agree_get
  rw [pairing.length alike]
  exact inStep_readerWithin _ openers here there alike

end Stmt
end ScriptFlow
