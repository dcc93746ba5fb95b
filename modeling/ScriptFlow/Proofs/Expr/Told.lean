import ScriptFlow.Proofs.Expr.Readable
import ScriptFlow.Proofs.Rounds

/-!
Reading gives readable expressions. Every reader of expressions gives what is readable where it
stands, and passes the landmarks of what it gives.
-/

namespace ScriptFlow.Expr

open Token TokenReader

structure Told (inIndex : Bool) (expr : ParsedExpr) (marks : List Landmark) : Prop where
  readable : Readable inIndex false expr
  marks : marks = expr.landmarks

/-- The reader gives what is readable in its context. -/
def Telling (context : Context) (reader : TokenReader ParsedExpr) : Prop :=
  ∀ cursor, Gives cursor reader (Told context.inIndex)

variable {nested : Nested} {context : Context} {first next operand : TokenReader ParsedExpr}

theorem flatten_eq_flatMap {A : Type} {f : A → List Landmark} {as : List A}
    {lists : List (List Landmark)} (same : List.Forall₂ (fun a marks => marks = f a) as lists) :
    lists.flatten = as.flatMap f := by
  induction same with
  | nil => rfl
  | cons head _ ih => rw [List.flatten_cons, List.flatMap_cons, head, ih]

theorem joinLeft_told {inIndex : Bool} {links : List (BinaryOp × ParsedExpr)}
    {lists : List (List Landmark)} {head : ParsedExpr}
    {marks : List Landmark} (told : Told inIndex head marks)
    (others : List.Forall₂ (fun link marks => Told inIndex link.2 marks) links lists) :
    Told inIndex (links.foldl joinLeft head) (marks ++ lists.flatten) := by
  induction others generalizing head marks with
  | nil => rwa [List.flatten_nil, List.append_nil]
  | @cons link later _ _ right _ ih =>
      rw [List.flatten_cons, ← List.append_assoc]
      refine @ih (joinLeft head link) _ ⟨.binary _ told.readable right.readable, ?_⟩
      rw [joinLeft, bare, landmarks_binary, told.marks, right.marks]

theorem operatorAt_plain {level : Nat} {cursor : Cursor} {op : BinaryOp}
    (found : operatorAt context level cursor = some op) :
    ∃ kind, cursor.next? = some kind ∧ kind.isLandmark = false := by
  rw [operatorAt] at found
  cases here : cursor.next? with
  | none =>
      rw [here] at found
      cases found
  | some kind =>
      refine ⟨kind, rfl, ?_⟩
      rw [here] at found
      cases kind <;> first | rfl | cases found

theorem telling_chain {level : Nat} (firsts : Telling context first)
    (nexts : Telling context next) : Telling context (chain context level first next) := by
  intro cursor
  refine (firsts cursor).bind fun head marks after told => ?_
  refine Gives.bind (P := fun links marks => ∃ lists,
    List.Forall₂ (fun link marks => Told context.inIndex link.2 marks) links lists ∧
    marks = lists.flatten) (gives_collect fun here => gives_get ?_) fun links others _ given => ?_
  · cases found : operatorAt context level here with
    | none => exact gives_pure rfl
    | some op =>
        obtain ⟨kind, ahead, plain⟩ := operatorAt_plain found
        refine gives_skip ahead plain fun _ behind => ?_
        refine (nexts behind).bind fun right marks _ told => gives_pure ?_
        rwa [List.append_nil]
  · obtain ⟨lists, all, rfl⟩ := given
    refine gives_pure ?_
    rw [List.append_nil]
    exact joinLeft_told told all

theorem telling_rangeOver (bounds : Telling context operand) :
    Telling context (rangeOver operand) := by
  intro cursor
  refine (bounds cursor).bind fun start marks after told => ?_
  refine gives_eat rfl (fun behind => ?_) fun _ => ?_
  · refine (bounds behind).bind fun second others after' told' => ?_
    refine gives_eat rfl (fun behind' => ?_) fun _ => ?_
    · refine (bounds behind').bind fun third last _ told'' => gives_pure ⟨?_, ?_⟩
      · refine .range told.readable (fun middle member => ?_) told''.readable
        cases member
        exact told'.readable
      · simp [bare, told.marks, told'.marks, told''.marks]
    · refine gives_pure ⟨.range told.readable nofun told'.readable, ?_⟩
      simp [bare, told.marks, told'.marks]
  · exact gives_pure (by rwa [List.append_nil])

theorem gives_closing {close : Kind} {arg : ParsedExpr}
    {P : Option ParsedExpr → List Landmark → Prop} {cursor : Cursor}
    (holds : P (some arg) []) : Gives cursor (do
      unless ← nextIs close do
        let _ ← expect .comma
      return some arg) P := by
  refine gives_nextIs ?_
  split
  · exact gives_pure holds
  · exact gives_expect fun _ _ _ => gives_pure holds

theorem gives_arguments {close : Kind} (plain : close.isLandmark = false)
    (inner : ∀ context, Telling context (nested context)) (cursor : Cursor) :
    Gives cursor (arguments nested close) fun args marks =>
      (∀ arg ∈ args, Readable true true arg) ∧ marks = args.flatMap landmarks := by
  refine Gives.imp (gives_collect (P := fun arg marks => Readable true true arg ∧
      marks = arg.landmarks) fun here => ?_) ?_
  · refine gives_eat plain (fun after => gives_pure rfl) fun _ => gives_get ?_
    cases lone : loneColon here with
    | true => exact gives_skip (loneColon_next lone) rfl fun _ after => gives_closing ⟨.colon, rfl⟩
    | false =>
        refine (inner ⟨false, true⟩ here).bind fun arg marks after told =>
          gives_closing ⟨told.readable.argument, ?_⟩
        rw [List.append_nil, told.marks]
  · rintro args marks ⟨lists, all, rfl⟩
    refine ⟨fun arg member => ?_, flatten_eq_flatMap (all.imp fun _ _ both => both.2)⟩
    obtain ⟨_, _, readable, _⟩ := exists_right_of_forall₂ all member
    exact readable

def RowPart.Told (inIndex : Bool) : RowPart → List Landmark → Prop
  | .element expr, marks => Expr.Told inIndex expr marks
  | _, marks => marks = []

theorem rowsOf_told {inIndex : Bool} {parts : List RowPart} {lists : List (List Landmark)}
    {row : List ParsedExpr} (elements : ∀ element ∈ row, Readable inIndex false element)
    (told : List.Forall₂ (RowPart.Told inIndex) parts lists) :
    ([] ∉ rowsOf row parts ∧ ∀ row' ∈ rowsOf row parts, ∀ element ∈ row',
      Readable inIndex false element) ∧ row.flatMap landmarks ++
      lists.flatten = (rowsOf row parts).flatMap (·.flatMap landmarks) := by
  -- the row so far has been checked; a row end puts it down unless it is empty
  induction told generalizing row with
  | nil =>
      rw [rowsOf]
      cases row with
      | nil => exact ⟨⟨nofun, nofun⟩, rfl⟩
      | cons first rest => simpa using List.forall_mem_cons.mp elements
  | @cons part marks parts lists head tail ih =>
      cases part with
      | element expr =>
          have more := @ih (row ++ [expr]) fun element member => by
            rcases List.mem_append.mp member with old | new
            · exact elements element old
            · rw [List.mem_singleton.mp new]
              exact head.readable
          rw [rowsOf]
          refine ⟨more.1, ?_⟩
          rw [← more.2, List.flatten_cons, head.marks]
          simp
      | comma =>
          rw [rowsOf, List.flatten_cons, show marks = [] from head]
          exact ih elements
      | rowEnd =>
          have more := @ih [] nofun
          rw [rowsOf, List.flatten_cons, show marks = [] from head]
          cases row with
          | nil => exact more
          | cons first rest =>
              refine ⟨⟨?_, ?_⟩, ?_⟩
              · exact fun member => (List.mem_cons.mp member).elim nofun more.1.1
              · exact List.forall_mem_cons.mpr ⟨elements, more.1.2⟩
              · have rest := more.2
                simp only [List.flatMap_nil, List.nil_append] at rest
                simp [rest]

theorem gives_rows {close : Kind} (plain : close.isLandmark = false)
    (inner : ∀ context, Telling context (nested context)) (cursor : Cursor) :
    Gives cursor (rows nested context close) fun rows marks =>
      ([] ∉ rows ∧ ∀ row ∈ rows, ∀ element ∈ row, Readable context.inIndex false element) ∧
        marks = rows.flatMap (·.flatMap landmarks) := by
  refine Gives.bind (gives_collect (P := RowPart.Told context.inIndex) fun here => gives_peek ?_) ?_
  · cases next : here.next? with
    | none => exact gives_failNext _
    | some kind =>
        have skipped (found : Option RowPart) (still : kind.isLandmark = false)
            (holds : IfAny (RowPart.Told context.inIndex) found []) :
            Gives here (do
              let _ ← take
              return found) (IfAny (RowPart.Told context.inIndex)) :=
          gives_skip next still fun _ after => gives_pure holds
        have element : Gives here (do return some (.element (← nested ⟨true, context.inIndex⟩)))
            (IfAny (RowPart.Told context.inIndex)) := by
          refine (inner ⟨true, context.inIndex⟩ here).bind
            fun expr marks after told => gives_pure ?_
          rw [List.append_nil]
          exact told
        -- The closing mark ends the rows, a separator is a part of its own, and anything else
        -- begins an element.
        by_cases ends : kind = close
        · have same : (kind = close) = True := eq_true ends
          simp only [same, if_true]
          exact skipped none (ends ▸ plain) rfl
        · have same : (kind = close) = False := eq_false ends
          simp only [same, if_false]
          cases kind with
          | semicolon | newline => exact skipped (some .rowEnd) rfl rfl
          | comma => exact skipped (some .comma) rfl rfl
          | _ => exact element
  · rintro parts marks after ⟨lists, told, rfl⟩
    refine gives_pure ?_
    rw [List.append_nil]
    exact rowsOf_told nofun told

theorem told_literal {inIndex : Bool} {quoting : Quoting}
    {token : Token} (text : IsQuoted quoting token.text) :
    Told inIndex (literal quoting token) [(quoting.kind, token.text)] := by
  obtain ⟨inner, plain, same⟩ := text
  rw [literal, same, decode_encode]
  refine ⟨.str quoting (by rwa [String.toList_ofList]), ?_⟩
  rw [bare, landmarks_str, String.toList_ofList]

theorem telling_primary (inner : ∀ context, Telling context (nested context)) :
    Telling context (primary nested context) := by
  intro cursor
  refine gives_take (fun _ => gives_failLast _) fun token after _ admits => ?_
  obtain ⟨kind, text, start, position⟩ := token
  cases kind
  case number =>
    refine gives_pure ⟨.num ?_, rfl⟩
    rw [Token.name, String.toList_ofList]
    exact admits
  case word =>
    refine gives_pure ⟨.name ?_, rfl⟩
    rw [Token.name, String.toList_ofList]
    exact admits
  case singleQuoted => exact gives_pure (told_literal admits)
  case doubleQuoted => exact gives_pure (told_literal admits)
  case openParen =>
    refine (inner ⟨false, context.inIndex⟩ after).bind fun expr marks behind told => ?_
    refine gives_expect fun _ _ _ => gives_pure ?_
    change Told context.inIndex expr (marks ++ [])
    rw [List.append_nil]
    exact told
  case openBracket =>
    refine (gives_rows rfl inner after).bind fun rows marks _ told =>
      gives_pure ⟨.matrix told.1.1 told.1.2, ?_⟩
    rw [List.append_nil, bare, landmarks_matrix]
    exact told.2
  case openBrace =>
    refine (gives_rows rfl inner after).bind fun rows marks _ told =>
      gives_pure ⟨.cell told.1.1 told.1.2, ?_⟩
    rw [List.append_nil, bare, landmarks_cell]
    exact told.2
  -- A last index is only read inside of an index, where it is readable.
  case endKey =>
    change Gives after (if Kind.endKey = .endKey ∧ context.inIndex = true then _ else _) _
    split
    · next inside =>
        refine gives_pure ⟨?_, rfl⟩
        rw [inside.2]
        exact .last
    · exact gives_failLast _
  all_goals
    exact gives_failLast _

def Suffix.Told (suffix : Suffix) (marks : List Landmark) : Prop :=
  ∀ {inIndex base}, Readable inIndex false base → Readable inIndex false (suffix.apply base) ∧
    (suffix.apply base).landmarks = base.landmarks ++ marks

theorem gives_opened {cursor : Cursor} {opener close : Kind} {index : List ParsedExpr → Suffix}
    (brackets : (opener, close) ∈ [(Kind.openParen, Kind.closeParen), (.openBrace, .closeBrace)])
    (next : cursor.next? = some opener) (inner : ∀ context, Telling context (nested context))
    (readable : ∀ {inIndex base args}, Readable inIndex false base →
      (∀ arg ∈ args, Readable true true arg) → Readable inIndex false ((index args).apply base))
    (landmarks_eq : ∀ base args, ((index args).apply base).landmarks = base.landmarks ++
      args.flatMap landmarks) : Gives cursor (do
      let _ ← take
      return some (index (← arguments nested close))) (IfAny Suffix.Told) := by
  have plain : opener.isLandmark = false ∧ close.isLandmark = false := by
    simp only [List.mem_cons, Prod.mk.injEq, List.not_mem_nil, or_false] at brackets
    rcases brackets with ⟨rfl, rfl⟩ | ⟨rfl, rfl⟩ <;> exact ⟨rfl, rfl⟩
  refine gives_skip next plain.1 fun _ after => ?_
  refine (gives_arguments plain.2 inner after).bind fun args marks _ told => gives_pure fun base =>
    ⟨readable base told.1, ?_⟩
  rw [List.append_nil, told.2]
  exact landmarks_eq _ args

theorem gives_suffix (inner : ∀ context, Telling context (nested context)) (cursor : Cursor) :
    Gives cursor (suffix nested context) (IfAny Suffix.Told) := by
  refine gives_get ?_
  cases next : cursor.next? with
  | none => exact gives_pure rfl
  | some kind =>
      cases kind <;> try exact gives_pure rfl
      case dot =>
        refine gives_skip next rfl fun _ after => gives_expect fun token _ admits =>
          gives_pure fun readable => ⟨?_, ?_⟩
        · refine .field readable ?_
          rw [Token.name, String.toList_ofList]
          exact admits
        · exact (landmarks_field _ _ _).trans (List.append_nil _).symm
      case dotQuote =>
        refine gives_skip next rfl fun _ after => gives_pure fun readable =>
          ⟨.transpose .plain readable, ?_⟩
        exact landmarks_transpose () _ .plain
      case quote =>
        refine gives_take (fun none => ?_) fun token after same _ => gives_pure fun readable =>
          ⟨.transpose .conjugate readable, ?_⟩
        · rw [none] at next
          cases next
        · rw [next] at same
          rw [← Option.some.inj same]
          exact landmarks_transpose () _ .conjugate
      case openParen =>
        change Gives cursor (if _ then _ else _) _
        split
        · exact gives_pure rfl
        · exact gives_opened (by decide) next inner .param (landmarks_param () · ·)
      case openBrace =>
        change Gives cursor (if _ then _ else _) _
        split
        · exact gives_pure rfl
        · exact gives_opened (by decide) next inner .cellIndex (landmarks_cellIndex () · ·)

theorem apply_told {inIndex : Bool} {suffixes : List Suffix}
    {lists : List (List Landmark)} {base : ParsedExpr} {marks : List Landmark}
    (told : Told inIndex base marks) (others : List.Forall₂ Suffix.Told suffixes lists) :
    Told inIndex (suffixes.foldl Suffix.apply base) (marks ++ lists.flatten) := by
  induction others generalizing base marks with
  | nil => rwa [List.flatten_nil, List.append_nil]
  | @cons suffix later _ _ head _ ih =>
      obtain ⟨readable, landmarks⟩ := head told.readable
      rw [List.flatten_cons, ← List.append_assoc]
      exact @ih (suffix.apply base) _ ⟨readable, by rw [landmarks, told.marks]⟩

theorem telling_suffixed (inner : ∀ context, Telling context (nested context)) :
    Telling context (suffixed nested context) := by
  intro cursor
  refine (telling_primary inner cursor).bind fun base marks after told => ?_
  refine (gives_collect (gives_suffix inner)).bind fun suffixes others _ given => gives_pure ?_
  obtain ⟨lists, all, rfl⟩ := given
  rw [List.append_nil]
  exact apply_told told all

theorem telling_whole (inner : ∀ context, Telling context (nested context)) (context : Context) :
    Telling context (whole nested context) :=
  have level {tighter : TokenReader ParsedExpr} (told : Telling context tighter) (level : Nat) :
      Telling context (chain context level tighter tighter) := telling_chain told told
  have sums := level (level (inner context) Level.product) Level.sum
  level (level (level (level (level (telling_rangeOver sums) _) _) _) _) _

theorem signAt_plain {cursor : Cursor} {op : UnaryOp} (found : signAt cursor = some op) :
    ∃ kind, cursor.next? = some kind ∧ kind.isLandmark = false := by
  rw [signAt] at found
  cases here : cursor.next? with
  | none =>
      rw [here] at found
      cases found
  | some kind =>
      refine ⟨kind, rfl, ?_⟩
      rw [here] at found
      cases kind <;> first | rfl | cases found

theorem telling_power (inner : ∀ context, Telling context (nested context)) (context : Context) :
    Telling context (power nested context) := by
  have bases : Telling context (suffixed (whole nested) context) :=
    telling_suffixed (telling_whole inner)
  refine telling_chain bases fun cursor => gives_get ?_
  cases signAt cursor with
  | none => exact bases cursor
  | some op => exact inner context cursor

theorem telling_operandWithin (allowance : Nat) (context : Context) :
    Telling context (operandWithin allowance context) := by
  induction allowance generalizing context with
  | zero => exact fun _ => gives_failNext _
  | succ allowance ih =>
      intro cursor
      refine gives_get ?_
      cases found : signAt cursor with
      | none => exact telling_power ih context cursor
      | some op =>
          obtain ⟨kind, next, plain⟩ := signAt_plain found
          refine gives_skip next plain fun _ after => ?_
          refine (ih context after).bind fun expr marks _ told =>
            gives_pure ⟨.unary op told.readable, ?_⟩
          rw [List.append_nil, bare, landmarks_unary, told.marks]

/-- Whatever is read as an expression is readable outside of any index. -/
theorem telling_reader (cursor : Cursor) : Gives cursor Expr.reader (Told false) :=
  gives_get (telling_whole (telling_operandWithin _) ⟨false, false⟩ cursor)

end ScriptFlow.Expr
