import ScriptFlow.Proofs.Expr.Reread
import ScriptFlow.Proofs.Stmt.Spelled
import ScriptFlow.Stmt.Parser

/-!
Reading back statements. A readable statement is found again in its written form, apart from its
place; the end of its last line may be left to what comes next.
-/

namespace ScriptFlow

open Token TokenReader Token.Lexeme Written

variable {Label : Type}

namespace Stmt

def unplaced : Stmt Label ParsedExpr → Stmt Unit ParsedExpr := relabel (fun _ => ()) id

theorem unplaced_node (label : Label)
    (shape : StmtShape ParsedExpr (List (Stmt Label ParsedExpr))) :
    unplaced (.node label shape) = .node () (shape.map id (·.map unplaced)) := relabel_node _ _ _ _

def SameShape (shape : StmtShape ParsedExpr (List (Stmt Label ParsedExpr)))
    (found : ParsedShape) : Prop :=
  found.map id (·.map unplaced) = shape.map id (·.map unplaced)

def SameBody (body : List (Stmt Label ParsedExpr)) (found : List ParsedStmt) : Prop :=
  found.map unplaced = body.map unplaced

def starts : Kind → Bool
  | .ifKey | .switchKey | .forKey | .whileKey | .breakKey | .continueKey | .returnKey
      | .globalKey | .persistentKey =>
    true
  | .endKey => false
  | kind => kind.begins

def closes : Kind → Bool
  | .endKey | .elseKey | .elseifKey | .caseKey | .otherwiseKey => true
  | _ => false

structure Heard (stmt : Stmt Label ParsedExpr) (depth : Nat) : Prop where
  heard : ∃ core tail kind text rest, stmt.written depth = indentation depth ++ (core ++ tail) ∧
      (tail = [] ∨ tail = [newline]) ∧
    core = token kind text :: rest ∧ starts kind = true ∧
    ∀ allowance, (kinds core).length ≤ allowance →
      Finds (fun next => tail = [] ∨ next = some .newline) (readerWithin allowance) core
        (·.unplaced = stmt.unplaced)

variable {nested : TokenReader ParsedStmt} {closers : List Kind}

def Closing (closers : List Kind) (next : Option Kind) : Prop := ∃ kind ∈ closers, next = some kind

theorem starts_facts {kind : Kind} (start : starts kind = true) :
    closes kind = false ∧ kind.separates = false := by
  cases kind <;> first | exact ⟨rfl, rfl⟩ | cases start

theorem closes_facts {kind : Kind} (close : closes kind = true) : kind.separates = false := by
  cases kind <;> first | rfl | cases close

theorem Closing.plain {next : Option Kind} (closing : Closing closers next)
    (all : ∀ kind ∈ closers, closes kind = true) : ∀ kind ∈ next, kind.separates = false := by
  obtain ⟨kind, member, rfl⟩ := closing
  rintro _ ⟨⟩
  exact closes_facts (all kind member)

section
variable {A : Type} {P : A → Prop} {ahead : Option Kind → Prop}
  {lexemes : List Lexeme} {depth : Nat}

theorem finds_indented {reader : TokenReader A} (finds : Finds ahead reader lexemes P) :
    Finds ahead reader (indentation depth ++ lexemes) P := by
  cases depth with
  | zero => exact finds
  | succ depth => exact finds_gap finds

@[simp] theorem kinds_indentation : kinds (indentation depth) = [] := by cases depth <;> rfl

@[simp] theorem nextOf_indented (behind : Option Kind) :
    nextOf (indentation depth) behind = behind := by
  cases depth <;> rfl

end

theorem finds_body_end {lexemes : List Lexeme} (separating : Separating lexemes)
    (closing : ∀ kind ∈ closers, closes kind = true) :
    Finds (Closing closers) (bodyPart nested closers) lexemes (· = none) := by
  rw [← List.append_nil lexemes]
  refine finds_separators separating ?_ (finds_peek ?_)
  · exact fun _ allowed => allowed.plain closing
  · rintro _ ⟨kind, close, rfl⟩
    have inside : closers.contains kind = true := List.contains_iff_mem.mpr close
    change Finds _ (if closers.contains kind = true then _ else _) _ _
    rw [if_pos inside]
    exact finds_pure rfl

theorem finds_bodyPart {inner : Option Kind → Prop} {seps core rest : List Lexeme} {kind : Kind}
    {text : List Char} {depth : Nat} {P : ParsedStmt → Prop} (separating : Separating seps)
    (closing : ∀ kind ∈ closers, closes kind = true) (begins : core = token kind text :: rest)
    (start : starts kind = true) (finds : Finds inner nested core P) :
    Finds inner (bodyPart nested closers) (seps ++ (indentation depth ++ core)) fun found =>
      ∃ stmt, found = some stmt ∧ P stmt := by
  have next (behind : Option Kind) : nextOf (indentation depth ++ core) behind = some kind := by
    rw [nextOf_append, nextOf_indented, begins, nextOf_token]
  refine finds_separators separating (fun behind _ => ?_) (finds_peek fun behind allowed => ?_)
  · rw [next]
    rintro _ ⟨⟩
    exact (starts_facts start).2
  · have outside : closers.contains kind = false := by
      rw [← Bool.not_eq_true, List.contains_iff_mem]
      intro inside
      have both := (starts_facts start).1
      rw [closing kind inside] at both
      cases both
    rw [next]
    change Finds _ (if closers.contains kind = true then _ else _) _ _
    rw [outside]
    exact (finds_indented (finds.at allowed)).result fun stmt holds => ⟨stmt, rfl, holds⟩

theorem findsAll_body {stmts : List (Stmt Label ParsedExpr)} {depth allowance : Nat}
    {seps : List Lexeme} (heard : ∀ stmt ∈ stmts, Heard stmt depth)
    (closing : ∀ kind ∈ closers, closes kind = true) (separating : Separating seps)
    (enough : (kinds (block (stmts.map written) depth)).length ≤ allowance) :
    FindsAll (Closing closers) (bodyPart (readerWithin allowance) closers)
      (seps ++ block (stmts.map written) depth) (SameBody stmts) := by
  induction stmts generalizing seps with
  | nil =>
      have none : block (([] : List (Stmt Label ParsedExpr)).map written) depth = [] := rfl
      rw [none, List.append_nil]
      exact findsAll_end (finds_body_end separating closing) rfl
  | cons stmt rest ih =>
      obtain ⟨core, tail, kind, text, behind, split, left, begins, start, reads⟩ :=
        (heard stmt List.mem_cons_self).heard
      have whole : block ((stmt :: rest).map written) depth =
          indentation depth ++ (core ++ tail) ++ block (rest.map written) depth := by
        rw [← split]
        rfl
      have parts : seps ++ (indentation depth ++ (core ++ tail) ++ block (rest.map written) depth) =
          (seps ++ (indentation depth ++ core)) ++ (tail ++ block (rest.map written) depth) := by
        simp
      rw [whole] at enough ⊢
      simp only [kinds_append, List.length_append] at enough
      have own := reads allowance (by omega)
      -- What is left of the statement behind its core is a separator, which the next statement
      -- begins with.
      have apart : Separating tail := by
        rcases left with rfl | rfl
        · exact fun _ member => absurd member List.not_mem_nil
        · exact fun kind member => by rw [List.mem_singleton.mp member]; rfl
      have others :=
        ih (fun stmt member => heard stmt (List.mem_cons_of_mem _ member)) apart (by omega)
      rw [parts]
      refine FindsAll.cons ?_ (finds_bodyPart separating closing begins start own) others
        (fun behind _ => ?_) ?_
      · simp [begins]
      · rcases left with rfl | rfl
        · exact .inl rfl
        · exact .inr rfl
      · intro found others same rest
        exact congrArg₂ List.cons same rest

def HeardBody (stmts : List (Stmt Label ParsedExpr)) : Prop :=
  ∀ stmt ∈ stmts, ∀ depth, Heard stmt depth

section
variable {stmts : List (Stmt Label ParsedExpr)} {depth allowance : Nat}

def bodyBelow (stmts : List (Stmt Label ParsedExpr)) (depth : Nat) : List Lexeme :=
  newline :: block (stmts.map written) depth

theorem finds_body (heard : HeardBody stmts) (closing : ∀ kind ∈ closers, closes kind = true)
    (enough : (kinds (bodyBelow stmts depth)).length ≤ allowance) :
    Finds (Closing closers) (body (readerWithin allowance) closers) (bodyBelow stmts depth)
      (SameBody stmts) := by
  have separating : Separating [newline] := fun kind member => by
    rw [List.mem_singleton.mp member]; rfl
  refine (findsAll_body (fun stmt member => heard stmt member depth) closing separating ?_).collect
  simp only [bodyBelow, kinds_newline, List.length_cons] at enough
  omega

abbrev Clause (Label : Type) := ParsedExpr × List (Stmt Label ParsedExpr)

def SameClause (clause : Clause Label) (found : ParsedExpr × List ParsedStmt) : Prop :=
  clause.1 = found.1 ∧ SameBody clause.2 found.2

structure HeardClause (clause : Clause Label) : Prop where
  guard : clause.1.Readable false false
  body : HeardBody clause.2

variable {clause : Clause Label} {clauses : List (Clause Label)} {opener last : Kind}

theorem finds_clause (heard : HeardClause clause) (closing : ∀ kind ∈ closers, closes kind = true)
    (enough : (kinds (bodyBelow clause.2 depth)).length ≤ allowance) :
    Finds (Closing closers) (Stmt.clause (readerWithin allowance) closers)
      (clause.1.lexemes ++ bodyBelow clause.2 depth) (SameClause clause) :=
  heard.guard.found.bind (fun _ same =>
    (finds_body heard.body closing enough).result fun _ others => ⟨same, others⟩) fun _ _ => rfl

def clauseCore (kind : Kind) (clause : Clause Label) (depth : Nat) : List Lexeme :=
  mark kind :: blank :: (clause.1.lexemes ++ bodyBelow clause.2 (depth + 1))

theorem writtenClause_eq (kind : Kind) (clause : Clause Label) (depth : Nat) :
    writtenClause kind (clause.map id (·.map written)) depth = indentation depth ++
      clauseCore kind clause depth := by
  simp [writtenClause, clauseCore, bodyBelow, block, headed, line, deeper]

theorem finds_clauseAfter (heard : HeardClause clause)
    (closing : ∀ kind ∈ closers, closes kind = true)
    (enough : (kinds (clauseCore opener clause depth)).length ≤ allowance) :
    Finds (Closing closers) (clauseAfter opener (readerWithin allowance) closers)
      (indentation depth ++ clauseCore opener clause depth) fun found =>
      ∃ other, found = some other ∧ SameClause clause other := by
  refine finds_indented (finds_eat (finds_gap ?_))
  refine (finds_clause heard closing ?_).result fun found same => ⟨found, rfl, same⟩
  simp only [clauseCore, kinds_mark, kinds_blank, kinds_append, List.length_cons,
    List.length_append] at enough
  omega

theorem closing_clauses (clauses : List (Clause Label)) {next : Option Kind}
    (closing : Closing [last, .endKey] next) : Closing [opener, last, .endKey] (nextOf (block
      ((clauses.map (Prod.map id (·.map written))).map (writtenClause opener)) depth) next) := by
  cases clauses with
  | nil =>
      obtain ⟨kind, member, rfl⟩ := closing
      exact ⟨kind, List.mem_cons_of_mem _ member, rfl⟩
  | cons clause rest =>
      have begins : block (((clause :: rest).map (Prod.map id (·.map written))).map
          (writtenClause opener)) depth = indentation depth ++ (clauseCore opener clause depth ++
          block ((rest.map (Prod.map id (·.map written))).map (writtenClause opener)) depth) := by
        rw [← List.append_assoc, ← writtenClause_eq]
        rfl
      refine ⟨opener, List.mem_cons_self, ?_⟩
      rw [begins, nextOf_append, nextOf_indented, nextOf_append]
      rfl

theorem findsAll_clauses (heard : ∀ clause ∈ clauses, HeardClause clause)
    (opens : closes opener = true) (lasts : closes last = true)
    (other : opener ≠ last ∧ opener ≠ .endKey) (enough : (kinds (block ((clauses.map
      (Prod.map id (·.map written))).map (writtenClause opener)) depth)).length ≤ allowance) :
    FindsAll (Closing [last, .endKey])
      (clauseAfter opener (readerWithin allowance) [opener, last, .endKey])
      (block ((clauses.map (Prod.map id (·.map written))).map (writtenClause opener)) depth)
      (List.Forall₂ SameClause clauses) := by
  have closing : ∀ kind ∈ [opener, last, Kind.endKey], closes kind = true := by
    simp only [List.forall_mem_cons]
    exact ⟨opens, lasts, rfl, fun _ none => absurd none List.not_mem_nil⟩
  induction clauses with
  | nil =>
      refine findsAll_end (finds_eat_other ?_ (finds_pure rfl)) .nil
      rintro _ ⟨kind, member, rfl⟩ same
      simp only [List.mem_cons, List.not_mem_nil, or_false] at member
      rcases member with rfl | rfl
      · exact other.1 (Option.some.inj same).symm
      · exact other.2 (Option.some.inj same).symm
  | cons clause rest ih =>
      have split : block (((clause :: rest).map (Prod.map id (·.map written))).map
          (writtenClause opener)) depth = (indentation depth ++ clauseCore opener clause depth) ++
          block ((rest.map (Prod.map id (·.map written))).map (writtenClause opener)) depth := by
        rw [← writtenClause_eq]
        rfl
      rw [split] at enough ⊢
      simp only [kinds_append, List.length_append, kinds_indentation, List.length_nil] at enough
      refine FindsAll.cons ?_
        (finds_clauseAfter (heard clause List.mem_cons_self) closing (by omega))
        (ih (fun clause member => heard clause (List.mem_cons_of_mem _ member)) (by omega)) ?_
        fun _ _ same others => .cons same others
      · simp [clauseCore]
      · exact fun _ closing => closing_clauses rest closing

theorem closing_end : ∀ kind ∈ [Kind.endKey], closes kind = true := fun kind member => by
  rw [List.mem_singleton.mp member]
  rfl

theorem closing_of_end (behind : Option Kind) :
    Closing [.endKey] (nextOf (indentation depth ++ [mark .endKey]) behind) := by
  rw [nextOf_append, nextOf_indented]
  exact ⟨.endKey, List.mem_singleton_self _, rfl⟩

theorem finds_loopBody {outer : Nat} (heard : HeardBody stmts)
    (enough : (kinds (bodyBelow stmts depth)).length ≤ allowance) :
    Finds (fun _ => True) (loopBody (readerWithin allowance))
      (bodyBelow stmts depth ++ (indentation outer ++ [mark .endKey])) (SameBody stmts) :=
  (finds_body heard closing_end enough).bind
    (fun _ same => finds_indented (finds_expect fun _ _ _ => finds_pure same)) fun behind _ =>
    closing_of_end behind

def SameOther (other : Option (List (Stmt Label ParsedExpr)))
    (found : Option (List ParsedStmt)) : Prop :=
  found.map (·.map unplaced) = other.map (·.map unplaced)

variable {other : Option (List (Stmt Label ParsedExpr))}

theorem writtenOtherwise_some (opener : Kind) (stmts : List (Stmt Label ParsedExpr)) (depth : Nat) :
    writtenOtherwise opener (some (stmts.map written)) depth = indentation depth ++
      (mark opener :: bodyBelow stmts (depth + 1)) := by
  simp [writtenOtherwise, bodyBelow, block, Written.keyword, line, deeper]

theorem finds_otherwise {outer : Nat} (heard : ∀ stmts ∈ other, HeardBody stmts)
    (differs : opener ≠ .endKey)
    (enough :
      (kinds (writtenOtherwise opener (other.map (·.map written)) depth)).length ≤ allowance) :
    Finds (fun _ => True) (otherwise opener (readerWithin allowance))
      (writtenOtherwise opener (other.map (·.map written)) depth ++
      (indentation outer ++ [mark .endKey])) (SameOther other) := by
  have ending {last : Option (List ParsedStmt)} (same : SameOther other last) :
      Finds (fun _ => True) (do
      let _ ← expect .endKey
      return last) (indentation outer ++ [mark .endKey]) (SameOther other) :=
    finds_indented (finds_expect fun _ _ _ => finds_pure same)
  cases other with
  | none =>
      refine finds_eat_other (fun behind _ => ?_) (ending rfl)
      have next : nextOf (writtenOtherwise opener
          ((none : Option (List (Stmt Label ParsedExpr))).map (·.map written)) depth ++
          (indentation outer ++ [mark .endKey])) behind = some .endKey := by
        rw [nextOf_append, nextOf_append, nextOf_indented]
        rfl
      rw [next]
      exact fun same => differs (Option.some.inj same).symm
  | some stmts =>
      rw [Option.map_some, writtenOtherwise_some] at enough ⊢
      simp only [kinds_append, kinds_indentation, kinds_mark, List.length_append, List.length_nil,
        List.length_cons] at enough
      rw [List.append_assoc, List.cons_append]
      refine finds_indented (finds_eat ?_)
      have inner := finds_body (heard stmts rfl) closing_end
          (by omega : (kinds (bodyBelow stmts (depth + 1))).length ≤ allowance)
      have mapped : Finds (Closing [.endKey]) (some <$> body (readerWithin allowance) [.endKey])
          (bodyBelow stmts (depth + 1)) (SameOther (some stmts)) :=
        inner.map fun found same => congrArg some same
      exact mapped.bind (fun _ same => ending same) fun behind _ => closing_of_end behind

theorem closing_otherwise {outer : Nat} (behind : Option Kind) :
    Closing [opener, .endKey] (nextOf (writtenOtherwise opener (other.map (·.map written)) depth ++
      (indentation outer ++ [mark .endKey])) behind) := by
  cases other with
  | none =>
      refine ⟨.endKey, List.mem_cons_of_mem _ List.mem_cons_self, ?_⟩
      rw [nextOf_append, nextOf_append, nextOf_indented]
      rfl
  | some stmts =>
      refine ⟨opener, List.mem_cons_self, ?_⟩
      rw [Option.map_some, writtenOtherwise_some, nextOf_append, nextOf_append, nextOf_indented]
      rfl

theorem heard_node {label : Label} {shape : StmtShape ParsedExpr (List (Stmt Label ParsedExpr))}
    {core tail rest : List Lexeme} {kind : Kind} {text : List Char}
    (split : writtenShape (shape.map id (·.map written)) depth =
      indentation depth ++ (core ++ tail)) (left : tail = [] ∨ tail = [newline])
    (begins : core = token kind text :: rest) (start : starts kind = true)
    (reads : ∀ allowance, (kinds core).length ≤ allowance + 1 → Finds (fun next => tail = [] ∨
      next = some .newline) (shapeReader (readerWithin allowance) kind) core (SameShape shape)) :
    Heard (.node label shape) depth := by
  refine ⟨core, tail, kind, text,
    rest, by rw [written_node, split], left, begins, start, fun allowance enough => ?_⟩
  -- the statement has a token of its own, which pays for reading its bodies one level deeper
  obtain ⟨allowance, rfl⟩ : ∃ fewer, allowance = fewer + 1 := by
    refine Nat.exists_eq_succ_of_ne_zero fun none => ?_
    rw [begins, kinds_token, none] at enough
    exact absurd enough (Nat.not_succ_le_zero _)
  refine finds_get fun cursor stands => ?_
  obtain ⟨last, offset, here, behind, rfl, _⟩ := stands
  have reads := reads allowance enough
  subst begins
  refine reads.result fun found same => ?_
  rw [unplaced_node, unplaced_node, same]

theorem sameShape_loop {found : List ParsedStmt} (same : SameBody stmts found) (var : String)
    (expr : ParsedExpr) : SameShape (.forLoop var expr stmts) (.forLoop var expr found) ∧
      SameShape (.whileLoop expr stmts) (.whileLoop expr found) :=
  ⟨congrArg (StmtShape.forLoop var expr) same, congrArg (StmtShape.whileLoop expr) same⟩

theorem heard_while {label : Label} {cond : ParsedExpr} (guard : cond.Readable false false)
    (heard : HeardBody stmts) : Heard (.node label (.whileLoop cond stmts)) depth := by
  have split : writtenShape ((StmtShape.whileLoop cond stmts).map id (·.map written)) depth =
      indentation depth ++ (mark .whileKey :: blank :: (cond.lexemes ++
      (bodyBelow stmts (depth + 1) ++ (indentation depth ++ [mark .endKey]))) ++ [newline]) := by
    simp [StmtShape.map, writtenShape, block, headed, line, deeper, bodyBelow, Written.keyword]
  refine heard_node split (.inr rfl) rfl rfl fun allowance enough => ?_
  simp only [kinds_mark, kinds_blank, kinds_append, List.length_cons, List.length_append] at enough
  refine finds_expect fun _ _ _ => finds_gap (guard.found.bind (fun _ same => ?_) fun _ _ => rfl)
  subst same
  exact ((finds_loopBody heard (by omega)).imp (fun _ _ => trivial) fun _ => id).result
    fun _ same => (sameShape_loop same "" cond).2

theorem heard_for {label : Label} {var : String} {range : ParsedExpr}
    (guard : range.Readable false false) (heard : HeardBody stmts) :
    Heard (.node label (.forLoop var range stmts)) depth := by
  have split : writtenShape ((StmtShape.forLoop var range stmts).map id (·.map written)) depth =
      indentation depth ++
      (mark .forKey :: blank :: word var :: blank :: mark .gets :: blank :: (range.lexemes ++
      (bodyBelow stmts (depth + 1) ++ (indentation depth ++ [mark .endKey]))) ++ [newline]) := by
    simp [StmtShape.map, writtenShape, block, headed, line, deeper, bodyBelow, Written.keyword]
  refine heard_node split (.inr rfl) rfl rfl fun allowance enough => ?_
  simp only [kinds_mark, kinds_blank, kinds_word, kinds_append, List.length_cons,
    List.length_append] at enough
  refine finds_expect fun _ _ _ =>
    finds_gap (finds_expect fun named _ same => finds_gap (finds_expect fun _ _ _ => finds_gap ?_))
  rw [name_of_text same]
  refine guard.found.bind (fun _ same => ?_) fun _ _ => rfl
  subst same
  exact ((finds_loopBody heard (by omega)).imp (fun _ _ => trivial) fun _ => id).result
    fun _ same => (sameShape_loop same var range).1

theorem sameClauses {found : List (ParsedExpr × List ParsedStmt)}
    (same : List.Forall₂ SameClause clauses found) :
    found.map (Prod.map id (·.map unplaced)) = clauses.map (Prod.map id (·.map unplaced)) := by
  induction same with
  | nil => rfl
  | cons head _ ih => exact congrArg₂ List.cons (Prod.ext head.1.symm head.2) ih

theorem heard_branch {label : Label} (heard : ∀ clause ∈ clauses, HeardClause clause)
    (some : clauses ≠ []) (others : ∀ stmts ∈ other, HeardBody stmts) :
    Heard (.node label (.branch clauses other)) depth := by
  obtain ⟨first, rest, rfl⟩ := List.exists_cons_of_ne_nil some
  have split : writtenShape ((StmtShape.branch (first :: rest) other).map id (·.map written))
      depth = indentation depth ++
      (clauseCore .ifKey first depth ++
        (block ((rest.map (Prod.map id (·.map written))).map (writtenClause .elseifKey)) depth ++
          (writtenOtherwise .elseKey (other.map (·.map written)) depth ++
            (indentation depth ++ [mark .endKey]))) ++ [newline]) := by
    have lines :
        writtenShape ((StmtShape.branch (first :: rest) other).map id (·.map written)) depth =
        (writtenClause .ifKey (first.map id (·.map written)) depth ++
          block ((rest.map (Prod.map id (·.map written))).map (writtenClause .elseifKey)) depth) ++
            (writtenOtherwise .elseKey (other.map (·.map written)) depth ++
                (Written.keyword .endKey depth ++ [])) := rfl
    rw [lines, writtenClause_eq]
    simp [Written.keyword, line]
  refine heard_node split (.inr rfl) rfl rfl fun allowance enough => ?_
  simp only [clauseCore, kinds_mark, kinds_blank, kinds_append, List.cons_append, List.append_assoc,
    List.length_cons, List.length_append] at enough ⊢
  refine finds_expect fun _ _ _ => finds_gap ?_
  rw [← List.append_assoc]
  have closing : ∀ kind ∈ [Kind.elseifKey, .elseKey, .endKey], closes kind = true := by decide
  refine (finds_clause (heard first List.mem_cons_self) closing (by omega)).bind
    (fun opened same => ?_) fun behind _ => by
    rw [nextOf_append]; exact closing_clauses rest (closing_otherwise behind)
  refine (findsAll_clauses (fun clause member => heard clause (List.mem_cons_of_mem _ member))
    rfl rfl (by decide) (by omega)).collect.bind (fun found all => ?_) fun behind _ =>
    closing_otherwise behind
  refine ((finds_otherwise others (by decide) (by omega)).imp (fun _ _ => trivial) fun _ =>
    id).result fun last ended => ?_
  exact congrArg₂ StmtShape.branch (sameClauses (.cons same all)) ended

theorem heard_switch {label : Label} {subject : ParsedExpr} (guard : subject.Readable false false)
    (heard : ∀ clause ∈ clauses, HeardClause clause) (others : ∀ stmts ∈ other, HeardBody stmts) :
    Heard (.node label (.switch subject clauses other)) depth := by
  have split : writtenShape ((StmtShape.switch subject clauses other).map id (·.map written))
      depth = indentation depth ++
      (mark .switchKey :: blank :: (subject.lexemes ++ ([newline] ++
        (block ((clauses.map (Prod.map id (·.map written))).map (writtenClause .caseKey))
          (depth + 1) ++
          (writtenOtherwise .otherwiseKey (other.map (·.map written)) (depth + 1) ++
              (indentation depth ++ [mark .endKey]))))) ++
            [newline]) := by
    simp [StmtShape.map, writtenShape, block, headed, line, deeper, Written.keyword]
  refine heard_node split (.inr rfl) rfl rfl fun allowance enough => ?_
  simp only [kinds_mark, kinds_blank, kinds_append, List.length_cons, List.length_append] at enough
  refine finds_expect fun _ _ _ => finds_gap (guard.found.bind (fun _ same => ?_) fun _ _ => rfl)
  subst same
  refine finds_separators (fun kind member => by rw [List.mem_singleton.mp member]; rfl)
    (fun behind _ next starts => ?_) ?_
  · rw [nextOf_append] at starts
    have all : ∀ kind ∈ [Kind.caseKey, .otherwiseKey, .endKey], closes kind = true := by decide
    refine Closing.plain ?_ all next starts
    exact closing_clauses clauses (closing_otherwise behind)
  · refine (findsAll_clauses heard rfl rfl (by decide) (by omega)).collect.bind
      (fun found all => ?_) fun behind _ => closing_otherwise behind
    refine ((finds_otherwise others (by decide) (by omega)).imp (fun _ _ => trivial) fun _ =>
      id).result fun last ended => ?_
    exact congrArg₂ (StmtShape.switch subject) (sameClauses all) ended

theorem heard_keyword {label : Label} {kind : Kind}
    {shape : StmtShape ParsedExpr (List (Stmt Label ParsedExpr))}
    (sort : (kind, shape) ∈
      [(Kind.breakKey, .breakLoop), (.continueKey, .continueLoop), (.returnKey, .leave)]) :
    Heard (.node label shape) depth := by
  have split : writtenShape (shape.map id (·.map written)) depth = indentation depth ++
      ([mark kind] ++ [newline]) := by
    simp only [List.mem_cons, Prod.mk.injEq, List.not_mem_nil, or_false] at sort
    rcases sort with ⟨rfl, rfl⟩ | ⟨rfl, rfl⟩ | ⟨rfl, rfl⟩ <;> exact List.append_assoc _ _ _
  have start : starts kind = true := by
    simp only [List.mem_cons, Prod.mk.injEq, List.not_mem_nil, or_false] at sort
    rcases sort with ⟨rfl, rfl⟩ | ⟨rfl, rfl⟩ | ⟨rfl, rfl⟩ <;> rfl
  refine heard_node split (.inr rfl) rfl start fun allowance _ => ?_
  simp only [List.mem_cons, Prod.mk.injEq, List.not_mem_nil, or_false] at sort
  rcases sort with ⟨rfl, rfl⟩ | ⟨rfl, rfl⟩ | ⟨rfl, rfl⟩
    <;> exact finds_take fun _ _ _ => finds_pure rfl

theorem findsAll_words (names : List String) :
    FindsAll (· = some .newline) declaredName (words names) (names = ·) := by
  have own (name : String) : Finds (fun _ => True) declaredName [word name] fun found =>
      ∃ other, found = some other ∧ name = other := by
    refine finds_nextIs fun _ _ => finds_take fun token _ same => finds_pure ⟨name, ?_, rfl⟩
    rw [Option.map_some, name_of_text same]
  have none : FindsAll (· = some .newline) declaredName [] (([] : List String) = ·) := by
    refine findsAll_end (finds_nextIs fun behind ends => ?_) rfl
    subst ends
    exact finds_pure rfl
  induction names with
  | nil => exact none
  | cons name rest ih =>
      cases rest with
      | nil =>
        exact .cons (List.cons_ne_nil _ _) (own name) none
          (fun _ _ => trivial) fun _ _ same others => by
          rw [same, others]
      | cons next rest =>
          have split : words (name :: next :: rest) = [word name] ++ blank ::
              words (next :: rest) := by
            simp [words, List.intercalate]
          rw [split]
          exact .cons (List.cons_ne_nil _ _) (own name) (findsAll_gap ih)
            (fun _ _ => trivial) fun _ _ same others => by
            rw [same, others]

theorem finds_declared {names : List String} (present : names ≠ []) (kind : Kind) :
    Finds (· = some .newline) declared (mark kind :: blank :: words names) (names = ·) := by
  refine finds_take fun _ _ _ => finds_gap ?_
  rw [← List.append_nil (words names)]
  refine (findsAll_words names).collect.bind (fun found same => ?_) fun _ => id
  subst same
  have some : names.isEmpty = false := List.isEmpty_eq_false_iff.mpr present
  change Finds _ (if names.isEmpty = true then _ else _) _ _
  rw [some]
  exact finds_pure rfl

theorem heard_declaration {label : Label} {names : List String} (present : names ≠ []) :
    Heard (.node label (.global names)) depth ∧ Heard (.node label (.persistent names)) depth := by
  have split (kind : Kind) : headed kind (words names) depth = indentation depth ++
      (mark kind :: blank :: words names ++ [newline]) := by
    simp [headed, line]
  have read (kind : Kind) : Finds (fun next => [newline] = [] ∨ next = some .newline) declared
      (mark kind :: blank :: words names) (names = ·) := (finds_declared present kind).imp
      (fun _ ends => ends.resolve_left (List.cons_ne_nil _ _)) fun _ => id
  exact ⟨
    heard_node (split .globalKey) (.inr rfl) rfl rfl fun _ _ =>
      (read .globalKey).result fun _ same => by rw [← same]; rfl,
    heard_node (split .persistentKey) (.inr rfl) rfl rfl fun _ _ =>
      (read .persistentKey).result fun _ same => by rw [← same]; rfl⟩

/-- The end of a statement without a body: what its reader takes of it and what it leaves. -/
def taken (quiet : Bool) : List Lexeme := if quiet then [mark .semicolon] else [newline]

def remaining (quiet : Bool) : List Lexeme := if quiet then [newline] else []

theorem finds_terminator (quiet : Bool) :
    Finds (fun _ => True) terminator (taken quiet) (quiet = ·) := by
  cases quiet <;> exact finds_peek fun _ _ => finds_take fun _ _ _ => finds_pure rfl

theorem halts_taken (quiet : Bool) (behind : Option Kind) :
    Expr.Halts Level.shortOr (nextOf (taken quiet) behind) ∧
      nextOf (taken quiet) behind ≠ some .gets := by
  cases quiet <;> exact ⟨rfl, nofun⟩

theorem line_ended (lexemes : List Lexeme) (quiet : Bool) :
    line (lexemes ++ ended quiet) depth = indentation depth ++
      ((lexemes ++ taken quiet) ++ remaining quiet) := by
  cases quiet <;> simp [line, ended, taken, remaining]

theorem remaining_cases (quiet : Bool) : remaining quiet = [] ∨ remaining quiet = [newline] := by
  cases quiet
  · exact .inl rfl
  · exact .inr rfl

theorem shapeReader_expr {expr : ParsedExpr} (readable : expr.Readable false false) :
    ∃ kind text rest, expr.lexemes = token kind text :: rest ∧ starts kind = true ∧
      ∀ nested, shapeReader nested kind = evalOrAssign := by
  obtain ⟨first, last, spelled⟩ := readable.spelled
  obtain ⟨text, head⟩ := spelled.own.head
  obtain ⟨rest, same⟩ := List.head?_eq_some_iff.mp head
  have begins := spelled.begins
  have outside := spelled.outside rfl
  refine ⟨first, text, rest, same, ?_, fun nested => ?_⟩
  · cases first <;> first | rfl | exact absurd rfl outside | cases begins
  · cases first <;> first | rfl | cases begins

theorem heard_eval {label : Label} {expr : ParsedExpr} (readable : expr.Readable false false)
    (quiet : Bool) : Heard (.node label (.eval expr quiet)) depth := by
  obtain ⟨kind, text, rest, begins, start, dispatch⟩ := shapeReader_expr readable
  refine heard_node (line_ended expr.lexemes quiet) (remaining_cases quiet)
    (by rw [begins]; rfl) start fun allowance _ => ?_
  rw [dispatch]
  refine readable.found.bind (fun _ same => ?_) fun behind _ => (halts_taken quiet behind).1
  subst same
  refine finds_eat_other (fun behind _ => (halts_taken quiet behind).2) ?_
  exact ((finds_terminator quiet).imp (fun _ _ => trivial) fun _ => id).result fun _ same => by
    rw [← same]; rfl

theorem heard_assign {label : Label} {target value : ParsedExpr}
    (targets : target.Readable false false) (values : value.Readable false false) (quiet : Bool) :
    Heard (.node label (.assign target value quiet)) depth := by
  obtain ⟨kind, text, rest, begins, start, dispatch⟩ := shapeReader_expr targets
  have shape : (StmtShape.assign target value quiet : StmtShape ParsedExpr
      (List (Stmt Label ParsedExpr))).map id (·.map written) = .assign target value quiet := rfl
  have split : writtenShape (.assign target value quiet) depth = indentation depth ++
      ((target.lexemes ++ blank :: mark .gets :: blank :: (value.lexemes ++ taken quiet)) ++
      remaining quiet) := by
    rw [writtenShape, line_ended]
    simp
  refine heard_node (shape ▸ split) (remaining_cases quiet)
    (by rw [begins]; rfl) start fun allowance _ => ?_
  rw [dispatch]
  refine targets.found.bind (fun _ same => ?_) fun _ _ => rfl
  subst same
  refine finds_gap (finds_eat (finds_gap ?_))
  refine values.found.bind (fun _ same => ?_) fun behind _ => (halts_taken quiet behind).1
  subst same
  exact ((finds_terminator quiet).imp (fun _ _ => trivial) fun _ => id).result fun _ same => by
    rw [← same]; rfl

end

/-- A readable statement is read back from what is written for it. -/
theorem Readable.heard {stmt : Stmt Label ParsedExpr} (readable : stmt.Readable) (depth : Nat) :
    Heard stmt depth := by
  induction stmt using Stmt.induction generalizing depth with
  | node label shape ih =>
      obtain ⟨own, inner⟩ := readable_node.mp readable
      have bodies (stmts) (inside : stmts ∈ shape.bodies) : HeardBody stmts :=
        fun stmt member depth =>
        ih stmt (List.mem_flatten.mpr ⟨stmts, inside, member⟩)
          (inner stmts inside stmt member) depth
      cases shape with
      | eval expr quiet => exact heard_eval (own.exprs expr List.mem_cons_self) quiet
      | assign target value quiet =>
          exact heard_assign (own.exprs target List.mem_cons_self)
            (own.exprs value (by simp [StmtShape.exprs])) quiet
      | branch clauses other =>
          refine heard_branch (fun clause member => ⟨?_, ?_⟩)
            (own.clauses _ _ rfl) fun stmts member => ?_
          · exact own.exprs clause.1 (List.mem_map_of_mem member)
          · exact bodies clause.2 (List.mem_append_left _ (List.mem_map_of_mem member))
          · exact bodies stmts (List.mem_append_right _ (Option.mem_toList.mpr member))
      | switch subject clauses other =>
          refine heard_switch (own.exprs subject List.mem_cons_self)
            (fun clause member => ⟨?_, ?_⟩) fun stmts member => ?_
          · exact own.exprs clause.1 (List.mem_cons_of_mem _ (List.mem_map_of_mem member))
          · exact bodies clause.2 (List.mem_append_left _ (List.mem_map_of_mem member))
          · exact bodies stmts (List.mem_append_right _ (Option.mem_toList.mpr member))
      | forLoop var range stmts =>
        exact heard_for (own.exprs range List.mem_cons_self) (bodies stmts List.mem_cons_self)
      | whileLoop cond stmts =>
        exact heard_while (own.exprs cond List.mem_cons_self) (bodies stmts List.mem_cons_self)
      | breakLoop => exact heard_keyword (.head _)
      | continueLoop => exact heard_keyword (.tail _ (.head _))
      | leave => exact heard_keyword (.tail _ (.tail _ (.head _)))
      | global names =>
        exact (heard_declaration fun none => own.declares.1 (congrArg StmtShape.global none)).1
      | persistent names =>
        exact (heard_declaration fun none => own.declares.2 (congrArg StmtShape.persistent none)).2

end Stmt
end ScriptFlow
