import ScriptFlow.Proofs.Expr.Balanced
import ScriptFlow.Proofs.Stmt.Readable
import ScriptFlow.Stmt.Printer

/-!
How statements are written. A readable statement is written as lines that may stand one below the
other and in which everything that is opened is closed; they are clean exactly when no quote
transposes a text.
-/

namespace ScriptFlow

open Token Token.Lexeme File Written

variable {Label Mark : Type}

/-- Well-formed lexemes that end a line and do not begin with a quote. What has to hold for no quote
to stand right behind a quoted text, the landmarks and the count of what opens and closes are kept
beside them. -/
structure Lines (clean : Prop) (marks : List Landmark) (count : Int)
    (lexemes : List Lexeme) : Prop where
  written : ∀ lexeme ∈ lexemes, lexeme.Written
  chain : lexemes.IsChain fun front back => front.touches back = true
  head : ∀ first ∈ lexemes.head?, first.kind? ≠ some .quote
  last : ∀ last ∈ lexemes.getLast?, last = newline
  clean : Unspoiled lexemes ↔ clean
  marks : Token.landmarks lexemes = marks
  tallies : Tallies 0 count lexemes

structure OnLine (clean : Prop) (marks : List Landmark) (count : Int)
    (lexemes : List Lexeme) : Prop where
  segment : ∃ first last, Segment first last clean lexemes ∧ first ≠ .quote ∧
      last.touches .newline = true
  marks : Token.landmarks lexemes = marks
  tallies : Tallies 0 count lexemes

section
variable {clean other : Prop} {marks more : List Landmark} {count counts : Int}
  {front back lexemes : List Lexeme}

theorem lines_nil : Lines True [] 0 [] where
  written := nofun
  chain := .nil
  head := nofun
  last := nofun
  clean := iff_of_true .nil trivial
  marks := rfl
  tallies := tallies_nil

theorem Lines.congr (lines : Lines clean marks count lexemes) (same : clean ↔ other)
    (marks' : marks = more) (count' : count = counts) : Lines other more counts lexemes := by
  subst marks' count'
  exact ⟨lines.written, lines.chain, lines.head, lines.last, lines.clean.trans same,
    lines.marks, lines.tallies⟩

theorem newline_touches {next : Lexeme} (plain : next.kind? ≠ some .quote) :
    newline.touches next = true := by
  cases next with
  | gap => rfl
  | token kind text => exact bne_iff_ne.mpr fun same => plain (congrArg some same)

theorem Lines.append (fronts : Lines clean marks count front)
    (backs : Lines other more counts back) :
    Lines (clean ∧ other) (marks ++ more) (count + counts) (front ++ back) where
  written lexeme member :=
    (List.mem_append.mp member).elim (fronts.written lexeme) (backs.written lexeme)
  chain := by
    refine List.isChain_append.mpr ⟨fronts.chain, backs.chain, fun last ends first starts => ?_⟩
    rw [fronts.last last ends]
    exact newline_touches (backs.head first starts)
  head first starts := by
    rw [List.head?_append] at starts
    rcases Option.or_eq_some_iff.mp starts with own | ⟨_, own⟩
    · exact fronts.head first own
    · exact backs.head first own
  last last ends := by
    rw [List.getLast?_append] at ends
    rcases Option.or_eq_some_iff.mp ends with own | ⟨_, own⟩
    · exact backs.last last own
    · exact fronts.last last own
  clean := by
    rw [Unspoiled, List.isChain_append]
    refine and_congr fronts.clean ((and_iff_left fun last ends first _ => ?_).trans backs.clean)
    rw [fronts.last last ends]
    cases first <;> rfl
  marks := by rw [landmarks_append, fronts.marks, backs.marks]
  tallies := fronts.tallies.append backs.tallies

theorem OnLine.ended (onLine : OnLine clean marks count lexemes) :
    Lines clean marks count (lexemes ++ [newline]) ∧
      ∃ kind text rest, lexemes ++ [newline] = token kind text :: rest := by
  obtain ⟨⟨first, last, segment, plain, touch⟩, same, tallies⟩ := onLine
  have ended : Segment first .newline (clean ∧ True) (lexemes ++ [newline]) :=
    segment.touching (.single rfl) touch (by decide)
  obtain ⟨text, head⟩ := ended.head
  obtain ⟨rest, starts⟩ := List.head?_eq_some_iff.mp head
  refine ⟨⟨ended.written, ended.chain, ?_, ?_, ended.clean.trans (and_iff_left trivial), ?_, ?_⟩,
    first, text, rest, starts⟩
  · rw [head]
    rintro _ ⟨⟩ same
    exact plain (Option.some.inj same)
  · rw [List.getLast?_append_of_ne_nil _ (List.cons_ne_nil _ _)]
    rintro _ ⟨⟩
    rfl
  · rw [landmarks_append, same]
    exact List.append_nil _
  · have both := tallies.append (tallies_plain rfl : Tallies 0 0 [newline])
    rwa [Int.add_zero] at both

theorem OnLine.lines (onLine : OnLine clean marks count lexemes) (depth : Nat) :
    Lines clean marks count (line lexemes depth) := by
  obtain ⟨ended, kind, text, rest, starts⟩ := onLine.ended
  cases depth with
  | zero => exact ended
  | succ depth =>
      rw [line, indentation, List.append_assoc, List.singleton_append]
      -- The indentation is a gap in front, and the line itself begins with a token.
      have blanks : Lexeme.Written (.gap .blanks (List.replicate (2 * (depth + 1)) ' ')) := by
        refine ⟨rfl, ?_, fun c member => ?_⟩
        · rw [Ne, List.replicate_eq_nil_iff]
          omega
        · rw [List.eq_of_mem_replicate member]
          rfl
      refine ⟨List.forall_mem_cons.mpr ⟨blanks, ended.written⟩, List.isChain_cons.mpr ⟨?_,
          ended.chain⟩, ?_, ?_, ?_, ended.marks, tallies_gap _ _ ended.tallies⟩
      · rw [starts]
        rintro _ ⟨⟩
        exact bne_iff_ne.mpr fun same =>
          ended.head (token kind text) (by rw [starts]; rfl) (congrArg some same)
      · rintro _ ⟨⟩
        nofun
      · rw [List.getLast?_cons_of_ne_nil (by rw [starts]; exact List.cons_ne_nil _ _)]
        exact ended.last
      · rw [Unspoiled, List.isChain_cons]
        exact (and_iff_right fun _ _ => rfl).trans ended.clean

/-- By how much a keyword outside of brackets changes the count of what opens and closes. -/
def worth (kind : Kind) : Int := if opens kind then 1 else if kind = .endKey then -1 else 0

theorem onLine_key {kind : Kind} (keyword : kind ∈ Kind.keywords) :
    OnLine True (kind.landmark? []).toList (worth kind) [mark kind] := by
  simp only [Kind.keywords, List.mem_cons, List.not_mem_nil, or_false] at keyword
  rcases keyword with rfl | rfl | rfl | rfl | rfl | rfl | rfl | rfl | rfl | rfl | rfl | rfl | rfl
    | rfl | rfl <;> exact ⟨⟨_, _, .mark rfl, by decide, rfl⟩, rfl, fun _ => rfl⟩

theorem onLine_word {name : String} (isName : IsName name.toList) : OnLine True [] 0 [word name] :=
  ⟨⟨_, _, .single isName, by decide, rfl⟩, rfl, tallies_plain rfl⟩

theorem onLine_gets : OnLine True [] 0 [mark .gets] :=
  ⟨⟨_, _, .mark rfl, by decide, rfl⟩, rfl, tallies_plain rfl⟩

theorem OnLine.spaced (fronts : OnLine clean marks count front)
    (backs : OnLine other more counts back) :
    OnLine (clean ∧ other) (marks ++ more) (count + counts) (front ++ blank :: back) := by
  obtain ⟨⟨first, last, segment, plain, touch⟩, same, tallies⟩ := fronts
  obtain ⟨⟨next, final, others, plain', touch'⟩, same', tallies'⟩ := backs
  refine ⟨⟨first, final, segment.spaced others ?_ plain', plain, touch'⟩, ?_,
    tallies.append (tallies_gap _ _ tallies')⟩
  · rintro rfl
    cases touch
  · rw [landmarks_append, same, ← same']
    rfl

theorem OnLine.congr (onLine : OnLine clean marks count lexemes) (same : clean ↔ other)
    (marks' : marks = more) (count' : count = counts) : OnLine other more counts lexemes := by
  subst marks' count'
  obtain ⟨⟨first, last, segment, facts⟩, marks, tallies⟩ := onLine
  exact ⟨⟨first, last, segment.congr same, facts⟩, marks, tallies⟩

theorem onLine_words {names : List String} (all : ∀ name ∈ names, IsName name.toList)
    (some : names ≠ []) : OnLine True [] 0 (Stmt.words names) := by
  induction names with
  | nil => exact absurd rfl some
  | cons name rest ih =>
      have own := onLine_word (all name List.mem_cons_self)
      cases rest with
      | nil => exact own
      | cons next rest =>
          have others :=
            ih (fun name member => all name (List.mem_cons_of_mem _ member)) (List.cons_ne_nil _ _)
          have split : Stmt.words (name :: next :: rest) = [word name] ++ blank ::
              Stmt.words (next :: rest) := by
            simp [Stmt.words, List.intercalate]
          rw [split]
          exact (own.spaced others).congr (and_self_iff) rfl rfl

theorem Expr.Readable.onLine {expr : Expr Mark} (readable : expr.Readable false false) :
    OnLine expr.Faithful expr.landmarks 0 expr.lexemes := by
  obtain ⟨first, last, spelled⟩ := readable.spelled
  exact ⟨⟨first, last, spelled.own, plain_of_begins spelled.begins, touches_of_ends spelled.ends rfl
      (by decide)⟩, expr.landmarks_lexemes, readable.tallies ⟨Int.le_refl 0, nofun⟩⟩

theorem Expr.Readable.onLine_ended {expr : Expr Mark} (readable : expr.Readable false false)
    (quiet : Bool) : OnLine expr.Faithful expr.landmarks 0 (expr.lexemes ++ Stmt.ended quiet) := by
  obtain ⟨first, last, spelled⟩ := readable.spelled
  cases quiet with
  | false =>
      rw [Stmt.ended, if_neg Bool.false_ne_true, List.append_nil]
      exact readable.onLine
  | true =>
      have whole :=
        spelled.own.touching (.mark rfl : Segment .semicolon .semicolon True [mark .semicolon])
          (touches_of_ends spelled.ends rfl (by decide)) (by decide)
      refine ⟨⟨first, .semicolon, whole.congr (and_iff_left trivial), plain_of_begins
          spelled.begins, rfl⟩, ?_, readable.onLine.tallies.silent (tallies_plain rfl)⟩
      rw [landmarks_append, expr.landmarks_lexemes]
      exact List.append_nil _

theorem lines_keyword {kind : Kind} (keyword : kind ∈ Kind.keywords) (depth : Nat) :
    Lines True (kind.landmark? []).toList (worth kind) (Written.keyword kind depth) :=
  (onLine_key keyword).lines depth

theorem lines_headed {kind : Kind} (keyword : kind ∈ Kind.keywords)
    (onLine : OnLine clean marks count lexemes) (depth : Nat) :
    Lines clean ((kind.landmark? []).toList ++ marks) (worth kind + count)
      (headed kind lexemes depth) :=
  ((onLine_key keyword).spaced onLine |>.congr (and_iff_right trivial) rfl rfl).lines depth

theorem lines_block {A : Type} {items : List A} {written : A → Written}
    {clean : A → Prop} {marks : A → List Landmark} {depth : Nat}
    (each : ∀ item ∈ items, Lines (clean item) (marks item) 0 (written item depth)) :
    Lines (∀ item ∈ items, clean item) (items.flatMap marks) 0
      (block (items.map written) depth) := by
  induction items with
  | nil => exact lines_nil.congr (by simp) rfl rfl
  | cons item rest ih =>
      have both := (each item List.mem_cons_self).append
          (ih fun item member => each item (List.mem_cons_of_mem _ member))
      exact both.congr (by simp) rfl rfl

end

namespace Stmt

def Faithful (stmt : Stmt Label (Expr Mark)) : Prop :=
  ∀ inner ∈ within [stmt], ∀ expr ∈ inner.shape.exprs, expr.Faithful

theorem faithful_node {label : Label}
    {shape : StmtShape (Expr Mark) (List (Stmt Label (Expr Mark)))} :
    Faithful (.node label shape) ↔ (∀ expr ∈ shape.exprs, expr.Faithful) ∧
      ∀ body ∈ shape.bodies, ∀ inner ∈ body, inner.Faithful :=
  forall_within_node

theorem written_node (label : Label)
    (shape : StmtShape (Expr Mark) (List (Stmt Label (Expr Mark)))) :
    written (.node label shape) = writtenShape (shape.map id (·.map written)) := fold_node _ _ _

def LinesBody (body : List (Stmt Label (Expr Mark))) : Prop :=
  ∀ depth, Lines (∀ stmt ∈ body, stmt.Faithful) (body.flatMap landmarks) 0
    (block (body.map written) depth)

section
variable {clause : Expr Mark × List (Stmt Label (Expr Mark))}
  {clauses : List (Expr Mark × List (Stmt Label (Expr Mark)))}
  {otherwise : Option (List (Stmt Label (Expr Mark)))}

def FaithfulClause (clause : Expr Mark × List (Stmt Label (Expr Mark))) : Prop :=
  clause.1.Faithful ∧ ∀ stmt ∈ clause.2, stmt.Faithful

abbrev clauseMarks : Expr Mark × List (Stmt Label (Expr Mark)) → List Landmark :=
  StmtShape.clauseLandmarks Expr.landmarks (·.flatMap landmarks)

theorem lines_clause {kind : Kind} (sort : kind ∈ [Kind.ifKey, .elseifKey, .caseKey])
    (guards : clause.1.Readable false false) (body : LinesBody clause.2) (depth : Nat) :
    Lines (FaithfulClause clause) (clauseMarks clause) (worth kind)
      (writtenClause kind (clause.map id (·.map written)) depth) := by
  have facts : kind ∈ Kind.keywords ∧ (kind.landmark? []).toList = [] := by
    simp only [List.mem_cons, List.not_mem_nil, or_false] at sort
    rcases sort with rfl | rfl | rfl <;> exact ⟨by decide, rfl⟩
  have both := (lines_headed facts.1 guards.onLine depth).append
      ((body (depth + 1)).append lines_nil)
  refine both.congr (by simp [FaithfulClause]) ?_ (by omega)
  rw [facts.2, List.nil_append, List.append_nil]
  rfl

theorem faithful_clauses :
    (∀ clause ∈ clauses, FaithfulClause clause) ↔ (∀ expr ∈ clauses.map Prod.fst, expr.Faithful) ∧
      ∀ body ∈ clauses.map Prod.snd, ∀ stmt ∈ body, stmt.Faithful := by
  simp only [FaithfulClause, List.forall_mem_map]
  exact ⟨fun all => ⟨fun clause member => (all clause member).1,
      fun clause member => (all clause member).2⟩,
    fun both clause member => ⟨both.1 clause member, both.2 clause member⟩⟩

theorem lines_clauses {kind : Kind} (sort : kind ∈ [Kind.elseifKey, .caseKey])
    (guards : ∀ clause ∈ clauses, clause.1.Readable false false)
    (bodies : ∀ clause ∈ clauses, LinesBody clause.2) (depth : Nat) :
    Lines (∀ clause ∈ clauses, FaithfulClause clause) (clauses.flatMap clauseMarks) 0
      (block ((clauses.map (Prod.map id (·.map written))).map (writtenClause kind)) depth) := by
  have none : worth kind = 0 := by
    simp only [List.mem_cons, List.not_mem_nil, or_false] at sort
    rcases sort with rfl | rfl <;> rfl
  rw [List.map_map]
  refine lines_block fun clause member => ?_
  exact (lines_clause (List.mem_cons_of_mem _ sort) (guards clause member)
    (bodies clause member) depth).congr Iff.rfl rfl none

theorem lines_otherwise {kind : Kind} (sort : kind ∈ [Kind.elseKey, .otherwiseKey])
    (bodies : ∀ body ∈ otherwise, LinesBody body) (depth : Nat) :
    Lines (∀ body ∈ otherwise, ∀ stmt ∈ body, stmt.Faithful)
      (otherwise.toList.flatMap (·.flatMap landmarks)) 0
      (writtenOtherwise kind (otherwise.map (·.map written)) depth) := by
  cases otherwise with
  | none => exact lines_nil.congr (by simp) rfl rfl
  | some body =>
      have facts : kind ∈ Kind.keywords ∧ (kind.landmark? []).toList = [] ∧ worth kind = 0 := by
        simp only [List.mem_cons, List.not_mem_nil, or_false] at sort
        rcases sort with rfl | rfl <;> exact ⟨by decide, rfl, rfl⟩
      have both :=
        (lines_keyword facts.1 depth).append ((bodies body rfl (depth + 1)).append lines_nil)
      refine both.congr (by simp) ?_ (by rw [facts.2.2]; rfl)
      rw [facts.2.1, List.nil_append, List.append_nil]
      simp

end

theorem lines_shape {shape : StmtShape (Expr Mark) (List (Stmt Label (Expr Mark)))}
    (readable : shape.Readable) (bodies : ∀ body ∈ shape.bodies, LinesBody body) (depth : Nat) :
    Lines ((∀ expr ∈ shape.exprs, expr.Faithful) ∧ ∀ body ∈ shape.bodies, ∀ stmt ∈ body,
      stmt.Faithful) (shape.landmarks Expr.landmarks (·.flatMap landmarks)) 0
      (writtenShape (shape.map id (·.map written)) depth) := by
  -- a header line, the bodies one level deeper and the end; only the statements with bodies need
  -- the induction
  have ends := lines_keyword (by decide : Kind.endKey ∈ Kind.keywords) depth
  cases shape with
  | eval expr quiet =>
      refine ((readable.exprs expr (by simp [StmtShape.exprs])).onLine_ended quiet |>.lines
        depth).congr ?_ ?_ rfl
      · simp [StmtShape.exprs, StmtShape.bodies]
      · simp [StmtShape.landmarks, StmtShape.exprs, StmtShape.bodies]
  | assign target value quiet =>
      have targets := (readable.exprs target (by simp [StmtShape.exprs])).onLine
      have values := (readable.exprs value (by simp [StmtShape.exprs])).onLine_ended quiet
      have whole := (targets.spaced (onLine_gets.spaced values)).lines depth
      have split : target.lexemes ++ [blank, mark .gets, blank] ++ value.lexemes ++ ended quiet =
          target.lexemes ++ blank :: ([mark .gets] ++ blank :: (value.lexemes ++ ended quiet)) := by
        simp
      rw [StmtShape.map, writtenShape, id_eq, id_eq, split]
      refine whole.congr ?_ ?_ rfl
      · simp [StmtShape.exprs, StmtShape.bodies]
      · simp [StmtShape.landmarks, StmtShape.exprs, StmtShape.bodies]
  | branch clauses otherwise =>
      have guards (clause) (member : clause ∈ clauses) : clause.1.Readable false false :=
        readable.exprs clause.1 (List.mem_map_of_mem member)
      have inner (clause) (member : clause ∈ clauses) : LinesBody clause.2 :=
        bodies clause.2 (List.mem_append_left _ (List.mem_map_of_mem member))
      have last :=
        lines_otherwise (by simp : Kind.elseKey ∈ [Kind.elseKey, .otherwiseKey]) (fun body member =>
        bodies body (List.mem_append_right _ (Option.mem_toList.mpr member))) depth
      cases clauses with
      | nil => exact absurd rfl (readable.clauses _ _ rfl)
      | cons first rest =>
          have opened := lines_clause (by simp : Kind.ifKey ∈ [Kind.ifKey, .elseifKey, .caseKey])
              (guards first List.mem_cons_self) (inner first List.mem_cons_self) depth
          have others := lines_clauses (by simp : Kind.elseifKey ∈ [Kind.elseifKey, .caseKey])
              (fun clause member => guards clause (List.mem_cons_of_mem _ member))
              (fun clause member => inner clause (List.mem_cons_of_mem _ member)) depth
          have whole := (opened.append others).append (last.append (ends.append lines_nil))
          refine whole.congr ?_ ?_ rfl
          · rw [← List.forall_mem_cons, faithful_clauses]
            simp only [StmtShape.exprs, StmtShape.guards, StmtShape.bodies,
              List.forall_mem_append, Option.mem_toList]
            tauto
          · simp [StmtShape.landmarks, Kind.landmark?, Kind.isLandmark, clauseMarks]
  | switch subject cases otherwise =>
      have guards (clause) (member : clause ∈ cases) : clause.1.Readable false false :=
        readable.exprs clause.1 (List.mem_cons_of_mem _ (List.mem_map_of_mem member))
      have inner (clause) (member : clause ∈ cases) : LinesBody clause.2 :=
        bodies clause.2 (List.mem_append_left _ (List.mem_map_of_mem member))
      have last := lines_otherwise (by simp : Kind.otherwiseKey ∈ [Kind.elseKey, .otherwiseKey])
          (fun body member =>
        bodies body (List.mem_append_right _ (Option.mem_toList.mpr member))) (depth + 1)
      have head := lines_headed (by decide : Kind.switchKey ∈ Kind.keywords)
          (readable.exprs subject List.mem_cons_self).onLine depth
      have items :=
        lines_clauses (by simp : Kind.caseKey ∈ [Kind.elseifKey, .caseKey]) guards inner (depth + 1)
      have whole :=
        head.append ((items.append (last.append lines_nil)).append (ends.append lines_nil))
      have split :
          writtenShape ((StmtShape.switch subject cases otherwise).map id (·.map written)) depth =
          headed .switchKey subject.lexemes depth ++
            (block ((cases.map (Prod.map id (·.map written))).map (writtenClause .caseKey))
              (depth + 1) ++
              (writtenOtherwise .otherwiseKey (otherwise.map (·.map written)) (depth + 1) ++ []) ++
                (Written.keyword .endKey depth ++ [])) := by
        simp [StmtShape.map, writtenShape, block, deeper]
      rw [split]
      refine whole.congr ?_ ?_ rfl
      · rw [faithful_clauses]
        simp only [StmtShape.exprs, StmtShape.guards, StmtShape.bodies, List.forall_mem_append,
          Option.mem_toList, List.forall_mem_cons]
        tauto
      · simp [StmtShape.landmarks, Kind.landmark?, Kind.isLandmark, clauseMarks]
  | forLoop var range body =>
      have ranges := (readable.exprs range (by simp [StmtShape.exprs, StmtShape.guards])).onLine
      have head := (onLine_word (readable.var var rfl)).spaced (onLine_gets.spaced ranges)
      have inner := bodies body (by simp [StmtShape.bodies]) (depth + 1)
      have whole := (lines_headed (by decide : Kind.forKey ∈ Kind.keywords) head depth).append
          (inner.append (ends.append lines_nil))
      refine whole.congr ?_ ?_ rfl
      · simp [StmtShape.exprs, StmtShape.guards, StmtShape.bodies]
      · simp [StmtShape.landmarks, StmtShape.exprs, StmtShape.guards, StmtShape.bodies,
          Kind.landmark?, Kind.isLandmark]
  | whileLoop cond body =>
      have head := (readable.exprs cond (by simp [StmtShape.exprs, StmtShape.guards])).onLine
      have inner := bodies body (by simp [StmtShape.bodies]) (depth + 1)
      have whole := (lines_headed (by decide : Kind.whileKey ∈ Kind.keywords) head depth).append
          (inner.append (ends.append lines_nil))
      refine whole.congr ?_ ?_ rfl
      · simp [StmtShape.exprs, StmtShape.guards, StmtShape.bodies]
      · simp [StmtShape.landmarks, StmtShape.exprs, StmtShape.guards, StmtShape.bodies,
          Kind.landmark?, Kind.isLandmark]
  | breakLoop | continueLoop | leave =>
      refine (lines_keyword (by decide) depth).congr ?_ rfl rfl
      simp [StmtShape.exprs, StmtShape.guards, StmtShape.bodies]
  | global names =>
      have words := onLine_words readable.declared fun none => readable.declares.1
          (congrArg StmtShape.global none)
      refine (lines_headed (by decide : Kind.globalKey ∈ Kind.keywords) words depth).congr ?_ rfl
        rfl
      simp [StmtShape.exprs, StmtShape.guards, StmtShape.bodies]
  | persistent names =>
      have words := onLine_words readable.declared fun none => readable.declares.2
          (congrArg StmtShape.persistent none)
      refine (lines_headed (by decide : Kind.persistentKey ∈ Kind.keywords) words depth).congr ?_
        rfl rfl
      simp [StmtShape.exprs, StmtShape.guards, StmtShape.bodies]

/-- A readable statement is written as lines in which everything that is opened is closed. -/
theorem Readable.lines {stmt : Stmt Label (Expr Mark)} (readable : stmt.Readable) (depth : Nat) :
    Lines stmt.Faithful stmt.landmarks 0 (stmt.written depth) := by
  induction stmt using Stmt.induction generalizing depth with
  | node label shape ih =>
      obtain ⟨own, inner⟩ := readable_node.mp readable
      rw [written_node, landmarks_node]
      refine (lines_shape own (fun body inside depth => ?_) depth).congr faithful_node.symm rfl rfl
      exact lines_block fun stmt member =>
        ih stmt (List.mem_flatten.mpr ⟨body, inside, member⟩) (inner body inside stmt member) depth

end Stmt

end ScriptFlow
