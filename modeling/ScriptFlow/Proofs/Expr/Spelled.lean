import ScriptFlow.Proofs.Expr.Readable
import ScriptFlow.Proofs.Token.Segment

/-!
How expressions are written. The lexemes of a readable expression are a segment; no quote stands
right behind a quoted text in it when no quote transposes a text.
-/

namespace ScriptFlow

open Token Token.Lexeme

theorem Token.quoting_writes (quoting : Quoting) {inner : List Char} (onLine : '\n' ∉ inner) :
    quoting.kind.Writes (Quoted.encode quoting inner) := by
  cases quoting <;> exact ⟨inner, onLine, rfl⟩

namespace Expr

variable {Label : Type}

def isText : Expr Label → Bool
  | node _ (.str _ _) => true
  | _ => false

def quotesText : Expr Label → Bool
  | node _ (.transpose .conjugate operand) => operand.isText
  | _ => false

/-- No quote in the expression transposes a text. -/
def Faithful (expr : Expr Label) : Prop := ∀ inner ∈ expr.within, inner.quotesText = false

def level (expr : Expr Label) : Nat := expr.phrase.level

def writtenAt (level : Nat) (expr : Expr Label) : List Lexeme := expr.phrase.operand level

theorem writtenAt_low {level : Nat} {expr : Expr Label} (low : expr.level < level) :
    expr.writtenAt level = [mark .openParen] ++ expr.lexemes ++ [mark .closeParen] := if_pos low

theorem writtenAt_high {level : Nat} {expr : Expr Label} (high : level ≤ expr.level) :
    expr.writtenAt level = expr.lexemes :=
  if_neg (Nat.not_lt.mpr high)

section
variable (label : Label) (text key : String) (quoting : Quoting)
  (base left right start stop : Expr Label) (args : List (Expr Label))
  (rows : List (List (Expr Label))) (step : Option (Expr Label))

theorem phrase_node (shape : ExprShape (Expr Label)) :
    phrase (.node label shape) = Phrase.ofShape (shape.map phrase) :=
  fold_node _ _ _

theorem faithful_node (shape : ExprShape (Expr Label)) :
    Faithful (.node label shape) ↔ quotesText (.node label shape) = false ∧
      ∀ operand ∈ shape.operands, operand.Faithful := by
  rw [Faithful, within_node, List.forall_mem_cons]
  refine and_congr_right fun _ =>
    ⟨fun all operand below inner inside => ?_, fun all inner inside => ?_⟩
  · exact all inner (List.mem_flatMap.mpr ⟨operand, below, inside⟩)
  · obtain ⟨operand, below, own⟩ := List.mem_flatMap.mp inside
    exact all operand below inner own

theorem lexemes_num : lexemes (.node label (.num text)) = [token .number text.toList] := rfl

theorem lexemes_str : lexemes (.node label (.str text quoting)) =
      [token quoting.kind (Quoted.encode quoting text.toList)] := by
  cases quoting <;> rfl

theorem lexemes_name : lexemes (.node label (.name text)) = [word text] := rfl

theorem lexemes_last : lexemes (.node label .last) = [mark .endKey] := rfl

theorem lexemes_param : lexemes (.node label (.param base args)) = base.writtenAt Level.atom ++
      ([mark .openParen] ++ separated .comma (args.map lexemes) ++ [mark .closeParen]) := by
  rw [lexemes, phrase_node]
  simp [ExprShape.map, Phrase.ofShape, Phrase.atom, Phrase.list, writtenAt, Function.comp_def]
  rfl

theorem lexemes_cellIndex :
    lexemes (.node label (.cellIndex base args)) = base.writtenAt Level.atom ++
      ([mark .openBrace] ++ separated .comma (args.map lexemes) ++ [mark .closeBrace]) := by
  rw [lexemes, phrase_node]
  simp [ExprShape.map, Phrase.ofShape, Phrase.atom, Phrase.list, writtenAt, Function.comp_def]
  rfl

theorem lexemes_field : lexemes (.node label (.field base key)) = base.writtenAt Level.atom ++
      ([mark .dot] ++ [word key]) := by
  rw [lexemes, phrase_node]
  rfl

def writtenRows : List Lexeme :=
  separated .semicolon (rows.map fun row => separated .comma (row.map lexemes))

theorem lexemes_matrix : lexemes (.node label (.matrix rows)) = [mark .openBracket] ++
      writtenRows rows ++ [mark .closeBracket] := by
  rw [lexemes, phrase_node]
  simp [ExprShape.map, Phrase.ofShape, Phrase.atom, Phrase.rows, Phrase.list,
    writtenRows, Function.comp_def]
  rfl

theorem lexemes_cell : lexemes (.node label (.cell rows)) = [mark .openBrace] ++ writtenRows rows ++
      [mark .closeBrace] := by
  rw [lexemes, phrase_node]
  simp [ExprShape.map, Phrase.ofShape, Phrase.atom, Phrase.rows, Phrase.list,
    writtenRows, Function.comp_def]
  rfl

theorem lexemes_unary (op : UnaryOp) :
    lexemes (.node label (.unary op base)) = [mark op.kind] ++ base.writtenAt Level.unary := by
  rw [lexemes, phrase_node]
  rfl

theorem lexemes_transpose (op : TransposeOp) :
    lexemes (.node label (.transpose op base)) = base.writtenAt Level.atom ++ [mark op.kind] := by
  rw [lexemes, phrase_node]
  rfl

theorem lexemes_binary (op : BinaryOp) :
    lexemes (.node label (.binary left op right)) = left.writtenAt op.level ++ blank ::
      ([mark op.kind] ++ blank :: right.writtenAt (op.level + 1)) := by
  rw [lexemes, phrase_node]
  simp [ExprShape.map, Phrase.ofShape, writtenAt]

theorem lexemes_range_none : lexemes (.node label (.range start none stop)) =
    start.writtenAt (Level.range + 1) ++ ([mark .colon] ++ stop.writtenAt (Level.range + 1)) := by
  rw [lexemes, phrase_node]
  simp [ExprShape.map, Phrase.ofShape, writtenAt]

theorem lexemes_range_some (middle : Expr Label) :
    lexemes (.node label (.range start (some middle) stop)) =
      start.writtenAt (Level.range + 1) ++ ([mark .colon] ++ (middle.writtenAt (Level.range + 1) ++
      ([mark .colon] ++ stop.writtenAt (Level.range + 1)))) := by
  rw [lexemes, phrase_node]
  simp [ExprShape.map, Phrase.ofShape, writtenAt]

end

theorem level_lt_atom (op : BinaryOp) : op.level < Level.atom := by cases op <;> decide

theorem level_le (expr : Expr Label) : expr.level ≤ Level.atom := by
  obtain ⟨label, shape⟩ := expr
  rw [level, phrase_node]
  cases shape with
  | unary => exact (by decide : Level.unary ≤ Level.atom)
  | range => exact (by decide : Level.range ≤ Level.atom)
  | binary left op right => exact Nat.le_of_lt (level_lt_atom op)
  | _ => exact Nat.le_refl _

/-- The expression in a place that asks for the level, with the kinds that it begins and ends with
there. -/
structure Spelled (inIndex : Bool) (level : Nat) (expr : Expr Label)
    (first last : Kind) : Prop where
  segment : Segment first last expr.Faithful (expr.writtenAt level)
  begins : first.begins = true
  ends : last.ends = true
  unsigned : Level.unary < level → UnaryOp.ofKind? first = none
  value : first ≠ .colon ∧ last ≠ .colon
  outside : inIndex = false → first ≠ .endKey
  text : level = Level.atom → last.isText = expr.isText

variable {inIndex : Bool} {expr : Expr Label} {first last : Kind} {clean : Prop}
  {lexemes : List Lexeme}

theorem spelled_own (written : expr.lexemes = lexemes) (segment : Segment first last clean lexemes)
    (same : clean ↔ expr.Faithful) (begins : first.begins = true) (ends : last.ends = true)
    (unsigned : Level.unary < expr.level → UnaryOp.ofKind? first = none)
    (value : first ≠ .colon ∧ last ≠ .colon) (outside : inIndex = false → first ≠ .endKey)
    (text : expr.level = Level.atom → last.isText = expr.isText) :
    ∃ first last, Spelled inIndex expr.level expr first last := by
  refine ⟨first, last, ?_, begins, ends, unsigned, value, outside, text⟩
  rw [writtenAt_high (Nat.le_refl expr.level), written]
  exact segment.congr same

theorem Spelled.own (spelled : Spelled inIndex expr.level expr first last) :
    Segment first last expr.Faithful expr.lexemes := by
  rw [← writtenAt_high (Nat.le_refl expr.level)]
  exact spelled.segment

theorem Spelled.solid (spelled : Spelled inIndex expr.level expr first last) :
    Solid expr.Faithful expr.lexemes :=
  ⟨first, last, spelled.own, spelled.begins, spelled.ends⟩

theorem Spelled.elsewhere (spelled : Spelled inIndex expr.level expr first last) (level : Nat) :
    ∃ first last, Spelled inIndex level expr first last := by
  rcases Nat.lt_or_ge expr.level level with low | high
  · refine ⟨.openParen, .closeParen, ?_, rfl, rfl, fun _ => rfl, ⟨nofun, nofun⟩,
      fun _ => nofun, fun tight => ?_⟩
    · rw [writtenAt_low low]
      exact segment_enclosed (by simp) (.inr spelled.solid)
    · rw [tight] at low
      obtain ⟨label, shape⟩ := expr
      cases shape with
      | str => exact absurd low (Nat.lt_irrefl _)
      | _ => rfl
  · refine ⟨first, last, ?_, spelled.begins, spelled.ends,
      fun tight => spelled.unsigned (Nat.lt_of_lt_of_le tight high), spelled.value, spelled.outside,
      fun tight => spelled.text (Nat.le_antisymm expr.level_le (tight ▸ high))⟩
    rw [writtenAt_high high]
    exact spelled.own

theorem Readable.argument_cases (readable : Readable inIndex true expr) :
    (∃ label, expr = .node label .colon) ∨ Readable inIndex false expr := by
  cases readable with
  | num number => exact .inr (.num number)
  | str quoting plain => exact .inr (.str quoting plain)
  | name isName => exact .inr (.name isName)
  | colon => exact .inl ⟨_, rfl⟩
  | last => exact .inr .last
  | param heads arguments => exact .inr (.param heads arguments)
  | cellIndex heads arguments => exact .inr (.cellIndex heads arguments)
  | field bases isName => exact .inr (.field bases isName)
  | matrix filled elements => exact .inr (.matrix filled elements)
  | cell filled elements => exact .inr (.cell filled elements)
  | unary op operands => exact .inr (.unary op operands)
  | transpose op operands => exact .inr (.transpose op operands)
  | binary op lefts rights => exact .inr (.binary op lefts rights)
  | range starts steps stops => exact .inr (.range starts steps stops)

def OperandsSpelled (shape : ExprShape (Expr Label)) : Prop :=
  ∀ operand ∈ shape.operands, ∀ inIndex, Readable inIndex false operand →
    ∃ first last, Spelled inIndex operand.level operand first last

theorem OperandsSpelled.at {shape : ExprShape (Expr Label)} (spelled : OperandsSpelled shape)
    {operand : Expr Label} (below : operand ∈ shape.operands)
    (readable : Readable inIndex false operand) (level : Nat) :
    ∃ first last, Spelled inIndex level operand first last := by
  obtain ⟨first, last, own⟩ := spelled operand below inIndex readable
  exact own.elsewhere level

theorem solid_argument {arg : Expr Label} (readable : Readable inIndex true arg)
    (spelled : Readable inIndex false arg → ∃ first last,
      Spelled inIndex arg.level arg first last) : Solid arg.Faithful arg.lexemes := by
  rcases readable.argument_cases with ⟨label, rfl⟩ | value
  · refine ⟨.colon, .colon, (@Segment.mark .colon rfl).congr (iff_of_true trivial ?_), rfl, rfl⟩
    exact (faithful_node _ _).mpr ⟨rfl, fun _ member => absurd member List.not_mem_nil⟩
  · obtain ⟨first, last, own⟩ := spelled value
    exact own.solid

theorem solid_arguments {args : List (Expr Label)}
    (readable : ∀ arg ∈ args, Readable true true arg)
    (spelled : ∀ arg ∈ args, ∀ inIndex,
      Readable inIndex false arg → ∃ first last, Spelled inIndex arg.level arg first last) :
    separated .comma (args.map Expr.lexemes) = [] ∧ (∀ arg ∈ args, arg.Faithful) ∨
      Solid (∀ arg ∈ args, arg.Faithful) (separated .comma (args.map Expr.lexemes)) := by
  cases args with
  | nil => exact .inl ⟨rfl, fun _ member => absurd member List.not_mem_nil⟩
  | cons first rest =>
      refine .inr (solid_separated (.inl rfl) (fun arg member => ?_) (List.cons_ne_nil _ _))
      exact solid_argument (readable arg member) (spelled arg member true)

theorem solid_rows {rows : List (List (Expr Label))} (filled : [] ∉ rows)
    (readable : ∀ row ∈ rows, ∀ element ∈ row, Readable inIndex false element)
    (spelled : ∀ row ∈ rows, ∀ element ∈ row, ∀ inIndex, Readable inIndex false element →
      ∃ first last, Spelled inIndex element.level element first last) :
    writtenRows rows = [] ∧ (∀ element ∈ rows.flatten, element.Faithful) ∨
      Solid (∀ element ∈ rows.flatten, element.Faithful) (writtenRows rows) := by
  have same : (∀ row ∈ rows, ∀ element ∈ row, element.Faithful) ↔
      ∀ element ∈ rows.flatten, element.Faithful := by
    simp only [List.mem_flatten]
    exact ⟨fun all element ⟨row, inside, own⟩ => all row inside element own,
      fun all row inside element own => all element ⟨row, inside, own⟩⟩
  rw [← same]
  cases rows with
  | nil => exact .inl ⟨rfl, fun _ member => absurd member List.not_mem_nil⟩
  | cons first rest =>
      refine .inr (solid_separated (.inr rfl) (fun row inside => ?_) (List.cons_ne_nil _ _))
      refine solid_separated (.inl rfl) (fun element own => ?_) fun none => filled (none ▸ inside)
      obtain ⟨first, last, own⟩ :=
        spelled row inside element own inIndex (readable row inside element own)
      exact own.solid

section
variable {label : Label} {base left right start stop : Expr Label} {args : List (Expr Label)}
  {rows : List (List (Expr Label))}

theorem segment_op {kind : Kind}
    (isOp : (UnaryOp.ofKind? kind).isSome = true ∨ (BinaryOp.ofKind? kind).isSome = true) :
    Segment kind kind True [mark kind] ∧ kind ≠ .dot ∧ kind ≠ .quote := by
  cases kind <;> first
    | exact ⟨.mark rfl, by decide, by decide⟩
    | (rcases isOp with none | none <;> cases none)

theorem spelled_indexed {opener closer : Kind}
    (brackets : (opener, closer) ∈
      [(Kind.openParen, Kind.closeParen), (.openBracket, .closeBracket), (.openBrace, .closeBrace)])
    (trails : opener.trails = true) {expr : Expr Label} (plain : expr.isText = false)
    (shape : expr.Faithful ↔ base.Faithful ∧ ∀ arg ∈ args, arg.Faithful)
    (written : expr.lexemes = base.writtenAt Level.atom ++
      ([mark opener] ++ separated .comma (args.map Expr.lexemes) ++ [mark closer]))
    (bases : ∃ first last, Spelled inIndex Level.atom base first last)
    (arguments : separated .comma (args.map Expr.lexemes) = [] ∧ (∀ arg ∈ args, arg.Faithful) ∨
      Solid (∀ arg ∈ args, arg.Faithful) (separated .comma (args.map Expr.lexemes))) :
    ∃ first last, Spelled inIndex expr.level expr first last := by
  obtain ⟨first, last, spelled⟩ := bases
  have closes : closer.ends = true ∧ closer ≠ .colon ∧ opener ≠ .quote ∧ closer.isText = false := by
    simp only [List.mem_cons, Prod.mk.injEq, List.not_mem_nil, or_false] at brackets
    rcases brackets with ⟨rfl, rfl⟩ | ⟨rfl, rfl⟩ | ⟨rfl, rfl⟩ <;> decide
  obtain ⟨ends, value, opens, text⟩ := closes
  have whole := spelled.segment.touching (segment_enclosed brackets arguments)
      (touches_of_ends spelled.ends trails opens) opens
  refine spelled_own written whole shape.symm spelled.begins ends
    (fun _ => spelled.unsigned (by decide)) ⟨spelled.value.1, value⟩ spelled.outside fun _ => ?_
  rw [plain, text]

theorem spelled_transpose {op : TransposeOp}
    (bases : ∃ first last, Spelled inIndex Level.atom base first last) :
    ∃ first last, Spelled inIndex (level (.node label (.transpose op base)))
      (.node label (.transpose op base)) first last := by
  obtain ⟨first, last, spelled⟩ := bases
  have touches : last.touches op.kind = true := by
    have ends := spelled.ends
    have value := spelled.value.2
    cases op with
    | plain => exact touches_of_ends ends rfl (by decide)
    | conjugate => cases last <;> first | rfl | exact absurd rfl value | cases ends
  have marked : Segment op.kind op.kind True [mark op.kind] := by cases op <;> exact .mark rfl
  refine spelled_own (lexemes_transpose _ _ _) (spelled.segment.append marked touches)
    ?_ spelled.begins (by cases op <;> rfl) (fun _ => spelled.unsigned (by decide))
    ⟨spelled.value.1, by cases op <;> decide⟩ spelled.outside fun _ => by
    cases op <;> rfl
  rw [faithful_node, true_and, and_comm, Kind.spoils, spelled.text rfl]
  refine and_congr ?_ (by simp [ExprShape.operands])
  cases op with
  | conjugate => rw [TransposeOp.kind, beq_self_eq_true, Bool.and_true, quotesText]
  | plain => exact iff_of_true (Bool.and_false _) rfl

theorem spelled_binary {op : BinaryOp}
    (lefts : ∃ first last, Spelled inIndex op.level left first last)
    (rights : ∃ first last, Spelled inIndex (op.level + 1) right first last) :
    ∃ first last, Spelled inIndex (level (.node label (.binary left op right)))
      (.node label (.binary left op right)) first last := by
  obtain ⟨first, _, spelled⟩ := lefts
  obtain ⟨_, last, others⟩ := rights
  obtain ⟨marked, stays, plain⟩ := segment_op (.inr (by rw [BinaryOp.ofKind?_kind]; rfl) :
    (UnaryOp.ofKind? op.kind).isSome = true ∨ (BinaryOp.ofKind? op.kind).isSome = true)
  have back := marked.spaced others.segment stays (plain_of_begins others.begins)
  have whole := spelled.segment.spaced back (stays_of_ends spelled.ends) plain
  refine spelled_own (lexemes_binary _ _ _ _) whole ?_ spelled.begins others.ends (fun tight =>
    spelled.unsigned tight) ⟨spelled.value.1, others.value.2⟩ spelled.outside fun atom =>
    absurd atom (Nat.ne_of_lt (level_lt_atom op))
  rw [faithful_node]
  simp [quotesText, ExprShape.operands]

theorem spelled_range {step : Option (Expr Label)}
    (starts : ∃ first last, Spelled inIndex (Level.range + 1) start first last)
    (steps : ∀ middle ∈ step, ∃ first last, Spelled inIndex (Level.range + 1) middle first last)
    (stops : ∃ first last, Spelled inIndex (Level.range + 1) stop first last) :
    ∃ first last, Spelled inIndex (level (.node label (.range start step stop)))
      (.node label (.range start step stop)) first last := by
  obtain ⟨first, _, spelled⟩ := starts
  obtain ⟨_, last, others⟩ := stops
  have colon : Segment .colon .colon True [mark .colon] := .mark rfl
  -- A colon touches whatever an operand begins with.
  have begins {kind : Kind} (begins : kind.begins = true) : Kind.colon.touches kind = true :=
    Bool.or_eq_true_iff.mpr (.inl begins)
  have back := colon.touching others.segment (begins others.begins) (plain_of_begins others.begins)
  have loose : Level.range = Level.atom →
      last.isText = isText (.node label (.range start step stop)) := fun same => by
    cases same
  cases step with
  | none =>
      have whole :=
        spelled.segment.touching back (touches_of_ends spelled.ends rfl (by decide)) (by decide)
      refine spelled_own (lexemes_range_none _ _ _) whole ?_ spelled.begins others.ends
        (fun tight => absurd tight (by decide : ¬ Level.unary < Level.range))
        ⟨spelled.value.1, others.value.2⟩ spelled.outside loose
      rw [faithful_node]
      simp [quotesText, ExprShape.operands]
  | some middle =>
      obtain ⟨_, _, between⟩ := steps middle rfl
      have inner :=
        between.segment.touching back (touches_of_ends between.ends rfl (by decide)) (by decide)
      have behind := colon.touching inner (begins between.begins) (plain_of_begins between.begins)
      have whole :=
        spelled.segment.touching behind (touches_of_ends spelled.ends rfl (by decide)) (by decide)
      refine spelled_own (lexemes_range_some _ _ _ _) whole ?_ spelled.begins others.ends
        (fun tight => absurd tight (by decide : ¬ Level.unary < Level.range))
        ⟨spelled.value.1, others.value.2⟩ spelled.outside loose
      rw [faithful_node]
      simp [quotesText, ExprShape.operands]

theorem spelled_unary {op : UnaryOp}
    (bases : ∃ first last, Spelled inIndex Level.unary base first last) :
    ∃ first last, Spelled inIndex (level (.node label (.unary op base)))
      (.node label (.unary op base)) first last := by
  obtain ⟨_, last, spelled⟩ := bases
  have marked := segment_op (.inl (by rw [UnaryOp.ofKind?_kind]; rfl) :
    (UnaryOp.ofKind? op.kind).isSome = true ∨ (BinaryOp.ofKind? op.kind).isSome = true)
  have begins {kind : Kind} (begins : kind.begins = true) : op.kind.touches kind = true := by
    cases op <;> exact Bool.or_eq_true_iff.mpr (.inl (Bool.or_eq_true_iff.mpr (.inl begins)))
  have whole := marked.1.touching spelled.segment (begins spelled.begins)
      (plain_of_begins spelled.begins)
  refine spelled_own (lexemes_unary _ _ _) whole ?_ (by cases op <;> rfl) spelled.ends
    (fun tight => absurd (tight : Level.unary < Level.unary) (Nat.lt_irrefl _))
    ⟨by cases op <;> decide, spelled.value.2⟩ (fun _ => by cases op <;> decide) fun same => by
    cases same
  rw [faithful_node]
  simp [quotesText, ExprShape.operands]

end

/-- A readable expression is written as a segment, and clean exactly when it is faithful. -/
theorem Readable.spelled (readable : Readable inIndex false expr) :
    ∃ first last, Spelled inIndex expr.level expr first last := by
  induction expr using Expr.induction generalizing inIndex with
  | node label shape ih =>
      have below : OperandsSpelled shape :=
        fun operand inside inIndex readable => ih operand inside readable
      -- Without operands, an expression that quotes no text is faithful as it stands.
      have bare {inIndex : Bool} (none : shape.operands = [])
          (plain : quotesText (.node label shape) = false) : True ↔ Faithful (.node label shape) :=
        iff_of_true trivial ((faithful_node _ _).mpr ⟨plain, by rw [none]; nofun⟩)
      cases readable with
      | num number =>
          exact spelled_own (lexemes_num _ _) (.single number) (@bare false rfl rfl) rfl rfl
            (fun _ => rfl) ⟨nofun, nofun⟩ (fun _ => nofun) fun _ => rfl
      | @str _ _ _ text quoting plain =>
          have written := quoting_writes quoting plain
          cases quoting <;>
            exact spelled_own (lexemes_str _ _ _) (.single written) (@bare false rfl rfl) rfl rfl
            (fun _ => rfl) ⟨nofun, nofun⟩ (fun _ => nofun) fun _ => rfl
      | name isName =>
          exact spelled_own (lexemes_name _ _) (.single isName) (@bare false rfl rfl) rfl rfl
            (fun _ => rfl) ⟨nofun, nofun⟩ (fun _ => nofun) fun _ => rfl
      | last =>
          exact spelled_own (lexemes_last _) (.mark rfl) (@bare false rfl rfl) rfl rfl
            (fun _ => rfl) ⟨nofun, nofun⟩ (fun outside => by cases outside) fun _ => rfl
      | param heads arguments =>
          refine spelled_indexed (by simp) rfl rfl ?_ (lexemes_param _ _ _)
            (below.at List.mem_cons_self heads _) ?_
          · rw [faithful_node]
            simp [quotesText, ExprShape.operands]
          · exact solid_arguments arguments fun arg member =>
              below arg (List.mem_cons_of_mem _ member)
      | cellIndex heads arguments =>
          refine spelled_indexed (by simp) rfl rfl ?_ (lexemes_cellIndex _ _ _)
            (below.at List.mem_cons_self heads _) ?_
          · rw [faithful_node]
            simp [quotesText, ExprShape.operands]
          · exact solid_arguments arguments fun arg member =>
              below arg (List.mem_cons_of_mem _ member)
      | field bases isName =>
          obtain ⟨first, last, spelled⟩ := below.at List.mem_cons_self bases Level.atom
          have key := (@Segment.mark .dot rfl).touching
              (.single isName : Segment .word .word True [word _]) rfl (by decide)
          have whole :=
            spelled.segment.touching key (touches_of_ends spelled.ends rfl (by decide)) (by decide)
          refine spelled_own (lexemes_field _ _ _) whole ?_ spelled.begins rfl (fun _ =>
            spelled.unsigned (by decide)) ⟨spelled.value.1, by decide⟩ spelled.outside fun _ => rfl
          rw [faithful_node]
          simp [quotesText, ExprShape.operands]
      | matrix filled elements =>
          have rows := solid_rows filled elements fun row inside element own =>
            below element (List.mem_flatten.mpr ⟨row, inside, own⟩)
          refine spelled_own (lexemes_matrix _ _) (segment_enclosed (by simp) rows) ?_ rfl rfl
            (fun _ => rfl) ⟨by decide, by decide⟩ (fun _ => by decide) fun _ => rfl
          rw [faithful_node]
          exact (and_iff_right rfl).symm
      | cell filled elements =>
          have rows := solid_rows filled elements fun row inside element own =>
            below element (List.mem_flatten.mpr ⟨row, inside, own⟩)
          refine spelled_own (lexemes_cell _ _) (segment_enclosed (by simp) rows) ?_ rfl rfl
            (fun _ => rfl) ⟨by decide, by decide⟩ (fun _ => by decide) fun _ => rfl
          rw [faithful_node]
          exact (and_iff_right rfl).symm
      | unary op operands => exact spelled_unary (below.at List.mem_cons_self operands _)
      | transpose op operands => exact spelled_transpose (below.at List.mem_cons_self operands _)
      | binary op lefts rights =>
          exact spelled_binary (below.at List.mem_cons_self lefts _)
            (below.at (List.mem_cons_of_mem _ List.mem_cons_self) rights _)
      | @range _ _ _ start step stop starts steps stops =>
          refine spelled_range (below.at List.mem_cons_self starts _) (fun middle inside => ?_) ?_
          · exact below.at (by simp [ExprShape.operands, Option.mem_def.mp inside])
              (steps middle inside) _
          · exact below.at (by simp [ExprShape.operands]) stops _

theorem landmark_plain {kind : Kind} (plain : kind.isLandmark = false) :
    Token.landmarks [mark kind] = [] := by
  rw [landmarks_cons, Lexeme.mark, Lexeme.landmark?, Kind.landmark?, plain]
  rfl

theorem landmarks_separated {kind : Kind}
    (plain : kind.isLandmark = false) (parts : List (List Lexeme)) :
    Token.landmarks (separated kind parts) = parts.flatMap Token.landmarks := by
  induction parts with
  | nil => rfl
  | cons part rest ih =>
      cases rest with
      | nil => rw [separated_single, List.flatMap_singleton]
      | cons next rest =>
          have gap : Token.landmarks (blank :: separated kind (next :: rest)) =
              Token.landmarks (separated kind (next :: rest)) := rfl
          rw [separated_cons, ← List.singleton_append, landmarks_append, landmarks_append,
            landmark_plain plain, gap, ih, List.nil_append]
          rfl

theorem landmarks_writtenAt (level : Nat) (expr : Expr Label) :
    Token.landmarks (expr.writtenAt level) = Token.landmarks expr.lexemes := by
  rcases Nat.lt_or_ge expr.level level with low | high
  · rw [writtenAt_low low, landmarks_append, landmarks_append, landmark_plain rfl,
      landmark_plain rfl, List.append_nil, List.nil_append]
  · rw [writtenAt_high high]

theorem landmarks_lexemes (expr : Expr Label) : Token.landmarks expr.lexemes = expr.landmarks := by
  induction expr using Expr.induction with
  | node label shape ih =>
      -- Commas, brackets and blanks are no landmarks, so what is left of a list is what its
      -- expressions have.
      have list {exprs : List (Expr Label)} (below : ∀ expr ∈ exprs, expr ∈ shape.operands) :
          Token.landmarks (separated .comma (exprs.map Expr.lexemes)) =
          exprs.flatMap landmarks := by
        rw [landmarks_separated rfl, List.flatMap_map]
        exact List.flatMap_congr fun expr member => ih expr (below expr member)
      have grid {rows : List (List (Expr Label))}
          (below : ∀ expr ∈ rows.flatten, expr ∈ shape.operands) :
          Token.landmarks (writtenRows rows) = rows.flatMap (·.flatMap landmarks) := by
        rw [writtenRows, landmarks_separated rfl, List.flatMap_map]
        exact List.flatMap_congr fun row inside => list fun expr own =>
          below expr (List.mem_flatten.mpr ⟨row, inside, own⟩)
      cases shape with
      | num | name | colon | last => rfl
      | str text quoting => cases quoting <;> rfl
      | param head args =>
          rw [lexemes_param, landmarks_append, landmarks_append, landmarks_append,
            landmarks_writtenAt, landmark_plain rfl, landmark_plain rfl,
            ih head List.mem_cons_self, list fun arg member => List.mem_cons_of_mem _ member,
            landmarks_param, List.append_nil, List.nil_append]
      | cellIndex head args =>
          rw [lexemes_cellIndex, landmarks_append, landmarks_append, landmarks_append,
            landmarks_writtenAt, landmark_plain rfl, landmark_plain rfl,
            ih head List.mem_cons_self, list fun arg member => List.mem_cons_of_mem _ member,
            landmarks_cellIndex, List.append_nil, List.nil_append]
      | field base key =>
          rw [lexemes_field, landmarks_append, landmarks_append, landmarks_writtenAt,
            ih base List.mem_cons_self, landmarks_field, landmark_plain rfl]
          exact List.append_nil _
      | matrix rows =>
          rw [lexemes_matrix, landmarks_append, landmarks_append, landmark_plain rfl, landmark_plain
            rfl, grid fun _ member => member, landmarks_matrix, List.append_nil, List.nil_append]
      | cell rows =>
          rw [lexemes_cell, landmarks_append, landmarks_append, landmark_plain rfl, landmark_plain
            rfl, grid fun _ member => member, landmarks_cell, List.append_nil, List.nil_append]
      | unary op operand =>
          rw [lexemes_unary, landmarks_append, landmarks_writtenAt,
            ih operand List.mem_cons_self, landmarks_unary]
          cases op <;> rfl
      | transpose op operand =>
          rw [lexemes_transpose, landmarks_append, landmarks_writtenAt,
            ih operand List.mem_cons_self, landmarks_transpose]
          cases op <;> rfl
      | binary left op right =>
          have plain : Token.landmarks [mark op.kind] = [] := by cases op <;> rfl
          have gap (rest : List Lexeme) :
              Token.landmarks (blank :: rest) = Token.landmarks rest := rfl
          rw [lexemes_binary, landmarks_append, gap, landmarks_append, plain, gap,
            landmarks_writtenAt, landmarks_writtenAt, ih left List.mem_cons_self,
            ih right (by simp [ExprShape.operands]), landmarks_binary, List.nil_append]
      | range start step stop =>
          have first := ih start (by simp [ExprShape.operands])
          have last := ih stop (by simp [ExprShape.operands])
          cases step with
          | none =>
              rw [lexemes_range_none, landmarks_append, landmarks_append, landmark_plain rfl,
                landmarks_writtenAt, landmarks_writtenAt, first, last, landmarks_range]
              rfl
          | some middle =>
              rw [lexemes_range_some, landmarks_append, landmarks_append,
                landmarks_append, landmarks_append, landmark_plain rfl,
                landmarks_writtenAt, landmarks_writtenAt, landmarks_writtenAt, first, last,
                ih middle (by simp [ExprShape.operands]), landmarks_range]
              simp

end Expr
end ScriptFlow
