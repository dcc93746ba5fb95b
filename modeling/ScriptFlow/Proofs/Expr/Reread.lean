import ScriptFlow.Proofs.Expr.Spelled
import ScriptFlow.Proofs.Expr.Told
import ScriptFlow.Proofs.Rounds
import ScriptFlow.Proofs.Token.Finding

/-!
Reading back expressions. A readable expression is found again in its written form, at every level
of operators: where it binds loose enough for the level it is read as it is, otherwise between
parentheses.
-/

namespace ScriptFlow.Expr

open Token TokenReader Token.Lexeme

section
variable {Part : Type}

variable {inner ahead : Option Kind → Prop} {first : TokenReader ParsedExpr}
  {part : TokenReader (Option Part)} {join : ParsedExpr → Part → ParsedExpr}
  {lexemes front back : List Lexeme} {expr : ParsedExpr}

/-- In front of parts that the reader finds there, it takes the lexemes for the expression and goes
on with those parts. -/
def Grows (inner ahead : Option Kind → Prop) (first : TokenReader ParsedExpr)
    (part : TokenReader (Option Part)) (join : ParsedExpr → Part → ParsedExpr)
    (lexemes : List Lexeme) (expr : ParsedExpr) : Prop :=
  ∀ last offset here rest more parts,
    Parts part rest (lastOf last (place offset here lexemes)) more parts →
    inner (nextKind (more ++ rest)) → ahead (nextKind rest) → Reads (gather first part join) last
    (place offset here lexemes ++ more) rest (parts.foldl join expr)

theorem grows_first (finds : Finds inner first lexemes (expr = ·))
    (ends : Finds ahead part [] (· = none)) : Grows inner ahead first part join lexemes expr := by
  intro last offset here rest more parts found allowed halted
  obtain ⟨_, rfl, reads⟩ := finds last offset here _ allowed
  obtain ⟨_, rfl, ended⟩ :=
    ends (lastOf (lastOf last (place offset here lexemes)) more) offset here rest halted
  have collected : Reads (collect part) _ (more ++ []) rest parts := reads_collect found ended
  rw [List.append_nil] at collected
  have whole : Reads (collect part >>= fun parts => pure (parts.foldl join expr)) _
      (more ++ []) rest _ :=
    collected.bind (reads_pure _)
  rw [List.append_nil] at whole
  exact reads.bind whole

theorem Grows.finds (grows : Grows inner ahead first part join lexemes expr)
    (allows : ∀ kind, ahead kind → inner kind) :
    Finds ahead (gather first part join) lexemes (expr = ·) := by
  intro last offset here rest halted
  have reads := grows last offset here rest [] [] .nil (allows _ halted) halted
  rw [List.append_nil] at reads
  exact ⟨expr, rfl, reads⟩

/-- Right behind a token that ends there, the reader of parts takes the lexemes. -/
def Trails (inner : Option Kind → Prop) (part : TokenReader (Option Part)) (lexemes : List Lexeme)
    (found : Part) : Prop :=
  ∀ last offset here rest, last.map stop = some offset → inner (nextKind rest) →
    Reads part last (place offset here lexemes) rest (some found)

theorem Grows.extend {found : Part} (grows : Grows inner ahead first part join front expr)
    {last : Kind} (ends : ∃ text, front.getLast? = some (token last text))
    (trails : Trails inner part back found) (some : kinds back ≠ [])
    (allows : ∀ kind, inner (nextOf back kind)) :
    Grows inner ahead first part join (front ++ back) (join expr found) := by
  intro before offset here rest more parts later allowed halted
  have stops : (lastOf before (place offset here front)).map stop =
      .some (offset + byteLength (Lexeme.concat front)) := by
    obtain ⟨text, ends⟩ := ends
    obtain ⟨init, rfl⟩ := List.getLast?_eq_some_iff.mp ends
    rw [place_append, lastOf_append, concat_append, byteLength_append, ← Nat.add_assoc]
    simp [place, lastOf, stop, Lexeme.concat, Lexeme.text]
  rw [place_append] at later ⊢
  rw [lastOf_append] at later
  have reads := trails _ _ (here.after (Lexeme.concat front)) (more ++ rest) stops allowed
  have both :=
    grows before offset here rest _ _ (.cons (place_ne_nil some _ _) reads later) ?_ halted
  · rwa [List.append_assoc]
  · rw [List.append_assoc, nextKind_place]
    exact allows _

theorem trails_of_finds {found : Part} (finds : Finds inner part lexemes (· = some found)) :
    Trails inner part lexemes found := by
  intro last offset here rest _ allowed
  obtain ⟨_, rfl, reads⟩ := finds last offset here rest allowed
  exact reads

end

def prolongs : Kind → Bool
  | .openParen | .openBrace | .dot | .quote | .dotQuote => true
  | _ => false

/-- Whether an expression that is read at the level ends in front of that kind. -/
def halts (level : Nat) : Option Kind → Bool
  | none => true
  | some kind =>
      (BinaryOp.ofKind? kind).all (fun op => op.level < level) &&
        (kind != .colon || Level.range < level) && !prolongs kind

def Halts (level : Nat) (kind : Option Kind) : Prop := halts level kind = true

theorem Halts.mono {level tighter : Nat} {kind : Option Kind} (below : level ≤ tighter)
    (ends : Halts level kind) : Halts tighter kind := by
  cases kind with
  | none => rfl
  | some kind =>
      simp only [Halts, halts, Bool.and_eq_true, Bool.or_eq_true, Option.all_eq_true,
        decide_eq_true_eq] at ends ⊢
      exact ⟨⟨fun op found => Nat.lt_of_lt_of_le (ends.1.1 op found) below,
        ends.1.2.imp_right fun tight => Nat.lt_of_lt_of_le tight below⟩, ends.2⟩

theorem Halts.op {level : Nat} {kind : Kind} {op : BinaryOp} (ends : Halts level (some kind))
    (found : BinaryOp.ofKind? kind = some op) : op.level < level := by
  simp only [Halts, halts, Bool.and_eq_true, Option.all_eq_true, decide_eq_true_eq] at ends
  exact ends.1.1 op found

theorem Halts.colon {level : Nat} {kind : Option Kind} (ends : Halts level kind)
    (loose : level ≤ Level.range) : kind ≠ some .colon := by
  rintro rfl
  simp only [Halts, halts, Bool.and_eq_true, Bool.or_eq_true, decide_eq_true_eq] at ends
  exact ends.1.2.elim (fun other => by cases other) fun tight =>
    Nat.lt_irrefl _ (Nat.lt_of_lt_of_le tight loose)

theorem halts_op (op : BinaryOp) {level : Nat} (tighter : op.level < level) :
    Halts level (some op.kind) := by
  simp only [Halts, halts, BinaryOp.ofKind?_kind, Option.all_some,
    Bool.and_eq_true, decide_eq_true_eq]
  cases op <;> exact ⟨⟨tighter, rfl⟩, rfl⟩

theorem finds_link_end {context : Context} {level : Nat} {next : TokenReader ParsedExpr} :
    Finds (Halts level) (link context level next) [] (· = none) := by
  refine finds_get fun cursor stands => ?_
  obtain ⟨behind, ends, next⟩ := stands.next
  have ended : operatorAt context level cursor = none := by
    rw [operatorAt, next, nextOf_nil]
    cases found : behind.bind BinaryOp.ofKind? with
    | none => rfl
    | some op =>
        obtain ⟨kind, rfl, isOp⟩ := Option.bind_eq_some_iff.mp found
        exact if_neg fun both => absurd both.1 (Nat.ne_of_lt (ends.op isOp))
  rw [ended]
  exact finds_pure rfl

theorem finds_suffix_end {nested : Nested} {context : Context} {level : Nat} :
    Finds (Halts level) (suffix nested context) [] (· = none) := by
  refine finds_get fun cursor stands => ?_
  obtain ⟨behind, ends, next⟩ := stands.next
  rw [nextOf_nil] at next
  have other (kind : Kind) (next : cursor.next? = some kind) : prolongs kind = false := by
    subst behind
    rw [next] at ends
    simp only [Halts, halts, Bool.and_eq_true, Bool.not_eq_true'] at ends
    exact ends.2
  dsimp only
  split
  case h_6 => exact finds_pure rfl
  all_goals
    next same => exact absurd (other _ same) (by decide)

def follower (operand : Nested) (context : Context) (base : TokenReader ParsedExpr) :
    TokenReader ParsedExpr := do
  match signAt (← get) with
  | some _ => operand context
  | none => base

def signed (operand : Nested) (context : Context) (tighter : TokenReader ParsedExpr) :
    TokenReader ParsedExpr := do
  match signAt (← get) with
  | some op => do
      let _ ← take
      return bare (.unary op (← operand context))
  | none => tighter

def Follows (allowance : Nat) (context : Context) (level : Nat)
    (first next : TokenReader ParsedExpr) : Prop :=
  (level ≠ Level.range ∧ level ≠ Level.unary) ∧
    (next = first ∨ level = Level.power ∧ next = follower (operandWithin allowance) context first)

/-- The readers of the levels, each over that of the next tighter one. -/
inductive Rung (allowance : Nat) (context : Context) : Nat → TokenReader ParsedExpr → Prop where
  | atom : Rung allowance context Level.atom (suffixed (whole (operandWithin allowance)) context)
  | chain {level first next} (firsts : Rung allowance context (level + 1) first)
      (follows : Follows allowance context level first next) :
      Rung allowance context level (chain context level first next)
  | operand {tighter} (bases : Rung allowance context (Level.unary + 1) tighter) :
      Rung allowance context Level.unary (signed (operandWithin allowance) context tighter)
  | range {bound} (bounds : Rung allowance context (Level.range + 1) bound) :
      Rung allowance context Level.range (rangeOver bound)

theorem rung_operand (allowance : Nat) (context : Context) :
    Rung allowance context Level.unary (operandWithin (allowance + 1) context) :=
  .operand (.chain .atom ⟨⟨by decide, by decide⟩, .inr ⟨rfl, rfl⟩⟩)

theorem rung_whole (allowance : Nat) (context : Context) :
    Rung allowance context Level.shortOr (whole (operandWithin (allowance + 1)) context) := by
  have level (level : Nat) {tighter : TokenReader ParsedExpr}
      (other : level ≠ Level.range ∧ level ≠ Level.unary)
      (rung : Rung allowance context (level + 1) tighter) :
      Rung allowance context level (Expr.chain context level tighter tighter) :=
    .chain rung ⟨other, .inl rfl⟩
  have sums :=
    level Level.sum (by decide) (level Level.product (by decide) (rung_operand allowance context))
  have comparisons := level Level.comparison (by decide) (.range sums)
  exact level _ (by decide)
    (level _ (by decide) (level _ (by decide) (level Level.elAnd (by decide) comparisons)))

theorem Rung.level_le {allowance level : Nat} {context : Context} {reader : TokenReader ParsedExpr}
    (rung : Rung allowance context level reader) : level ≤ Level.atom := by
  induction rung with
  | atom => exact Nat.le_refl _
  | chain _ _ ih => exact Nat.le_of_succ_le ih
  | operand => decide
  | range => decide

/-- The lexemes are read as the expression at the level `top` and at every looser one, whatever
encloses it. -/
structure Voiced (inIndex : Bool) (top : Nat) (lexemes : List Lexeme)
    (expr : ParsedExpr) : Prop where
  plain : ∀ {allowance context level reader}, level ≤ top →
      Rung allowance context level reader → context.inIndex = inIndex →
      (kinds lexemes).length ≤ allowance + 1 → Finds (Halts level) reader lexemes (expr = ·)
  chained : ∀ {allowance context level first next}, level ≤ top →
      Rung allowance context (level + 1) first → Follows allowance context level first next →
      context.inIndex = inIndex → (kinds lexemes).length ≤ allowance + 1 →
      Grows (Halts (level + 1)) (Halts level) first (link context level next) joinLeft lexemes expr
  suffixed : ∀ {allowance context}, Level.atom ≤ top →
      context.inIndex = inIndex → (kinds lexemes).length ≤ allowance + 1 →
      Grows (fun _ => True) (Halts Level.atom) (primary (whole (operandWithin allowance)) context)
      (suffix (whole (operandWithin allowance)) context) Suffix.apply lexemes expr

variable {inIndex : Bool} {top : Nat} {lexemes : List Lexeme} {expr : ParsedExpr}

theorem Voiced.mono {loose : Nat} (voiced : Voiced inIndex top lexemes expr) (below : loose ≤ top) :
    Voiced inIndex loose lexemes expr :=
  ⟨fun less => voiced.plain (Nat.le_trans less below), fun less =>
    voiced.chained (Nat.le_trans less below), fun less => voiced.suffixed (Nat.le_trans less below)⟩

theorem voiced_of_top (bounded : top ≤ Level.atom)
    (unsigned : Level.unary < top → ∀ behind, (nextOf lexemes behind).bind UnaryOp.ofKind? = none)
    (own : ∀ {allowance context reader}, Rung allowance context top reader →
      context.inIndex = inIndex →
      (kinds lexemes).length ≤ allowance + 1 → Finds (Halts top) reader lexemes (expr = ·))
    (chained : ∀ {allowance context first next}, Rung allowance context (top + 1) first →
      Follows allowance context top first next → context.inIndex = inIndex →
        (kinds lexemes).length ≤ allowance + 1 →
        Grows (Halts (top + 1)) (Halts top) first (link context top next) joinLeft lexemes expr)
    (suffixed : ∀ {allowance context}, Level.atom ≤ top → context.inIndex = inIndex →
      (kinds lexemes).length ≤ allowance + 1 →
      Grows (fun _ => True) (Halts Level.atom) (primary (whole (operandWithin allowance)) context)
        (suffix (whole (operandWithin allowance)) context) Suffix.apply lexemes expr) : Voiced
          inIndex top lexemes expr := by
  have plain {allowance context level reader} (below : level ≤ top)
      (rung : Rung allowance context level reader) (inside : context.inIndex = inIndex)
      (enough : (kinds lexemes).length ≤ allowance + 1) :
      Finds (Halts level) reader lexemes (expr = ·) := by
    -- a looser reader first calls the one below it and then finds no operator of its own level
    induction rung with
    | atom =>
        rcases Nat.eq_or_lt_of_le below with rfl | less
        · exact own .atom inside enough
        · exact absurd less (Nat.not_lt.mpr bounded)
    | @chain level first next firsts follows ih =>
        rcases Nat.eq_or_lt_of_le below with rfl | less
        · exact own (.chain firsts follows) inside enough
        · rw [chain_eq]
          exact (grows_first (ih less) finds_link_end).finds fun kind ends =>
            ends.mono (Nat.le_succ _)
    | @operand tighter bases ih =>
        rcases Nat.eq_or_lt_of_le below with rfl | less
        · exact own (.operand bases) inside enough
        · refine finds_get fun cursor stands => ?_
          obtain ⟨behind, _, next⟩ := stands.next
          rw [signAt, next, unsigned less]
          exact (ih less).imp (fun _ ends => ends.mono (Nat.le_succ _)) fun _ => id
    | @range bound bounds ih =>
        rcases Nat.eq_or_lt_of_le below with rfl | less
        · exact own (.range bounds) inside enough
        · rw [← List.append_nil lexemes]
          refine (ih less).bind (fun start same => ?_) fun _ ends => ends.mono (Nat.le_succ _)
          refine finds_eat_other (fun _ ends => ends.colon (Nat.le_refl _)) (finds_pure same)
  refine ⟨plain, fun below firsts follows inside enough => ?_, suffixed⟩
  rcases Nat.eq_or_lt_of_le below with rfl | less
  · exact chained firsts follows inside enough
  · exact grows_first (plain less firsts inside enough) finds_link_end

theorem voiced_atom (unsigned : ∀ behind, (nextOf lexemes behind).bind UnaryOp.ofKind? = none)
    (suffixed : ∀ {allowance context}, context.inIndex = inIndex →
      (kinds lexemes).length ≤ allowance + 1 →
      Grows (fun _ => True) (Halts Level.atom) (primary (whole (operandWithin allowance)) context)
        (suffix (whole (operandWithin allowance)) context) Suffix.apply lexemes expr) : Voiced
          inIndex Level.atom lexemes expr := by
  refine voiced_of_top (Nat.le_refl _) (fun _ => unsigned) ?_
    (fun firsts => absurd firsts.level_le (by decide)) fun _ => suffixed
  intro allowance context reader rung inside enough
  generalize same : Level.atom = level at rung
  cases rung with
  | atom =>
      rw [suffixed_eq]
      exact (suffixed inside enough).finds fun _ _ => trivial
  | chain firsts => exact absurd (same ▸ firsts.level_le : Level.atom + 1 ≤ Level.atom) (by decide)
  | operand => cases same
  | range => cases same

theorem voiced_primary (unsigned : ∀ behind, (nextOf lexemes behind).bind UnaryOp.ofKind? = none)
    (finds : ∀ {allowance context}, context.inIndex = inIndex →
      (kinds lexemes).length ≤ allowance + 1 → Finds (fun _ =>
      True) (primary (whole (operandWithin allowance)) context) lexemes (expr = ·)) :
    Voiced inIndex Level.atom lexemes expr :=
  voiced_atom unsigned fun inside enough => grows_first (finds inside enough) finds_suffix_end

theorem Voiced.nested (voiced : Voiced inIndex top lexemes expr)
    (some : kinds lexemes ≠ []) {allowance : Nat} {context : Context}
    (inside : context.inIndex = inIndex) (enough : (kinds lexemes).length ≤ allowance) :
    Finds (Halts Level.shortOr) (whole (operandWithin allowance) context) lexemes (expr = ·) := by
  cases allowance with
  | zero => exact absurd (List.length_eq_zero_iff.mp (Nat.le_zero.mp enough)) some
  | succ allowance =>
    exact voiced.plain (Nat.zero_le _) (rung_whole allowance context) inside enough

theorem voiced_enclosed (voiced : Voiced inIndex top lexemes expr) (some : kinds lexemes ≠ []) :
    Voiced inIndex Level.atom ([mark .openParen] ++ lexemes ++ [mark .closeParen]) expr := by
  refine voiced_primary (fun _ => rfl) fun {allowance context} inside enough => ?_
  rw [List.append_assoc, List.singleton_append]
  refine finds_take fun token kind _ => ?_
  obtain ⟨kind, text, start, position⟩ := token
  cases kind
  have short : (kinds lexemes).length ≤ allowance := by
    simp at enough
    omega
  have inside : (Context.mk false context.inIndex).inIndex = inIndex := inside
  refine (voiced.nested some inside short).bind (fun inner same => ?_) fun _ _ => rfl
  exact finds_expect fun _ _ _ => finds_pure same

theorem Voiced.elsewhere (voiced : Voiced inIndex expr.level expr.lexemes expr)
    (some : kinds expr.lexemes ≠ []) {level : Nat} (bounded : level ≤ Level.atom) :
    Voiced inIndex level (expr.writtenAt level) expr := by
  rcases Nat.lt_or_ge expr.level level with low | high
  · rw [writtenAt_low low]
    exact (voiced_enclosed voiced some).mono bounded
  · rw [writtenAt_high high]
    exact voiced.mono high

theorem Spelled.next {level : Nat} {first last : Kind}
    (spelled : Spelled inIndex level expr first last) (behind : Option Kind) :
    nextOf (expr.writtenAt level) behind = some first := by
  obtain ⟨text, head⟩ := spelled.segment.head
  obtain ⟨rest, same⟩ := List.head?_eq_some_iff.mp head
  rw [same, nextOf_token]

theorem Spelled.kinds_ne_nil {level : Nat} {first last : Kind}
    (spelled : Spelled inIndex level expr first last) : kinds (expr.writtenAt level) ≠ [] := by
  obtain ⟨text, head⟩ := spelled.segment.head
  obtain ⟨rest, same⟩ := List.head?_eq_some_iff.mp head
  rw [same]
  exact List.cons_ne_nil _ _

theorem Spelled.no_sign {level : Nat} {first last : Kind}
    (spelled : Spelled inIndex level expr first last)
    (tight : Level.unary < level) (behind : Option Kind) :
    (nextOf (expr.writtenAt level) behind).bind UnaryOp.ofKind? = none := by
  rw [spelled.next]
  exact spelled.unsigned tight

section
variable {allowance : Nat} {context : Context} {first next : TokenReader ParsedExpr}
  {right : ParsedExpr} {left base : ParsedExpr}

theorem operatorAt_written {op : BinaryOp} {cursor : Cursor} {ahead : Option Kind → Prop}
    (starts : ∃ kind text, lexemes.head? = some (token kind text))
    (stands : Stands ahead (mark op.kind :: blank :: lexemes) cursor) :
    operatorAt context op.level cursor = some op := by
  obtain ⟨last, offset, here, rest, rfl, _⟩ := stands
  obtain ⟨kind, text, starts⟩ := starts
  obtain ⟨more, rfl⟩ := List.head?_eq_some_iff.mp starts
  have apart : Cursor.apartAfter
      ⟨last, place offset here (mark op.kind :: blank :: token kind text :: more) ++ rest⟩ = true :=
    decide_eq_true (Nat.lt_succ_self _)
  have found : (Cursor.next? ⟨last, place offset here (mark op.kind :: blank :: token kind text ::
      more) ++ rest⟩).bind BinaryOp.ofKind? = some op := BinaryOp.ofKind?_kind op
  rw [operatorAt, found]
  refine if_pos ⟨rfl, fun both => ?_⟩
  rw [startsElement, apart, Bool.not_true, Bool.and_false] at both
  cases both.2

theorem finds_link {op : BinaryOp} (starts : ∃ kind text, lexemes.head? = some (token kind text))
    (finds : Finds (Halts (op.level + 1)) next lexemes (right = ·)) :
    Finds (Halts (op.level + 1)) (link context op.level next)
      (blank :: ([mark op.kind] ++ blank :: lexemes)) (· = some (op, right)) := by
  refine finds_gap (finds_get fun cursor stands => ?_)
  rw [operatorAt_written starts stands]
  refine finds_take fun _ _ _ => finds_gap ?_
  exact finds.result fun _ same => same ▸ rfl

theorem Follows.finds {level : Nat} (follows : Follows allowance context level first next)
    (unsigned : Level.unary < level + 1 → ∀ behind,
      (nextOf lexemes behind).bind UnaryOp.ofKind? = none)
    (finds : Finds (Halts (level + 1)) first lexemes (right = ·)) :
    Finds (Halts (level + 1)) next lexemes (right = ·) := by
  obtain ⟨_, rfl | ⟨rfl, rfl⟩⟩ := follows
  · exact finds
  · refine finds_get fun cursor stands => ?_
    obtain ⟨behind, _, next⟩ := stands.next
    rw [signAt, next, unsigned (by decide)]
    exact finds

theorem voiced_binary {op : BinaryOp}
    (readable : Readable inIndex false (bare (.binary left op right)))
    (lefts : Voiced inIndex op.level (left.writtenAt op.level) left)
    (rights : Voiced inIndex (op.level + 1) (right.writtenAt (op.level + 1)) right) :
    Voiced inIndex op.level (bare (.binary left op right)).lexemes
      (bare (.binary left op right)) := by
  obtain ⟨_, _, spelled⟩ := readable.spelled
  cases readable with
  | binary _ leftReadable rightReadable =>
  obtain ⟨_, _, own⟩ := leftReadable.spelled
  obtain ⟨_, _, leftSpelled⟩ := own.elsewhere op.level
  obtain ⟨_, _, own⟩ := rightReadable.spelled
  obtain ⟨_, _, rightSpelled⟩ := own.elsewhere (op.level + 1)
  have split := lexemes_binary () left right op
  -- The left operand begins a chain of the level, and the operator with its right operand is the
  -- next link of it.
  have chained {allowance context first next} (firsts : Rung allowance context (op.level + 1) first)
      (follows : Follows allowance context op.level first next) (inside : context.inIndex = inIndex)
      (enough : (kinds (bare (.binary left op right)).lexemes).length ≤ allowance + 1) :
      Grows (Halts (op.level + 1)) (Halts op.level) first (link context op.level next) joinLeft
        (bare (.binary left op right)).lexemes (bare (.binary left op right)) := by
    rw [bare, split] at enough ⊢
    simp only [kinds_append, kinds_blank, kinds_mark, List.length_append, List.length_cons,
      kinds_nil] at enough
    have back :=
      follows.finds rightSpelled.no_sign (rights.plain (Nat.le_refl _) firsts inside (by omega))
    have starts : ∃ kind text, (right.writtenAt (op.level + 1)).head? = some (token kind text) :=
      ⟨_, rightSpelled.segment.head⟩
    exact (lefts.chained (Nat.le_refl _) firsts follows inside (by omega)).extend
      leftSpelled.segment.last (trails_of_finds (finds_link starts back))
      (List.cons_ne_nil _ _) fun _ => halts_op op (Nat.lt_succ_self _)
  refine voiced_of_top (Nat.le_of_lt (level_lt_atom op)) (fun tight => ?_) ?_ chained
    fun tight => absurd (level_lt_atom op) (Nat.not_lt.mpr tight)
  · rw [← writtenAt_high (Nat.le_refl (level (bare (.binary left op right))))]
    exact spelled.no_sign tight
  · intro allowance context reader rung inside enough
    generalize same : op.level = level at rung
    cases rung with
    | atom => exact absurd (level_lt_atom op) (Nat.not_lt.mpr (Nat.le_of_eq same.symm))
    | chain firsts follows =>
        subst same
        rw [chain_eq]
        exact (chained firsts follows inside enough).finds fun _ ends => ends.mono (Nat.le_succ _)
    | operand => cases op <;> cases same
    | range => cases op <;> cases same

theorem voiced_unary {op : UnaryOp} (some : kinds (base.writtenAt Level.unary) ≠ [])
    (bases : Voiced inIndex Level.unary (base.writtenAt Level.unary) base) :
    Voiced inIndex Level.unary (bare (.unary op base)).lexemes (bare (.unary op base)) := by
  refine voiced_of_top (by decide) (fun tight => absurd tight (Nat.lt_irrefl _)) ?_
    (fun _ follows => absurd rfl follows.1.2) fun tight => absurd tight (by decide)
  intro allowance context reader rung inside enough
  rw [bare, lexemes_unary, List.singleton_append] at enough ⊢
  generalize same : Level.unary = level at rung
  cases rung with
  | atom => cases same
  | range => cases same
  | chain _ follows => exact absurd same.symm follows.1.2
  | @operand tighter bases' =>
      refine finds_get fun cursor stands => ?_
      obtain ⟨_, _, next⟩ := stands.next
      have sign : signAt cursor = .some op := by
        rw [signAt, next]
        exact UnaryOp.ofKind?_kind op
      rw [sign]
      refine finds_take fun _ _ _ => ?_
      obtain ⟨fewer, rfl⟩ : ∃ fewer, allowance = fewer + 1 := by
        refine Nat.exists_eq_succ_of_ne_zero fun none => some (List.length_eq_zero_iff.mp ?_)
        simp at enough
        omega
      refine (bases.plain (Nat.le_refl _) (rung_operand fewer context) inside ?_).result
        fun _ same => same ▸ rfl
      simp at enough
      omega

theorem voiced_range {start stop : ParsedExpr} {step : Option ParsedExpr}
    (starts : Voiced inIndex (Level.range + 1) (start.writtenAt (Level.range + 1)) start)
    (steps : ∀ middle ∈ step,
      Voiced inIndex (Level.range + 1) (middle.writtenAt (Level.range + 1)) middle)
    (stops : Voiced inIndex (Level.range + 1) (stop.writtenAt (Level.range + 1)) stop) :
    Voiced inIndex Level.range (bare (.range start step stop)).lexemes
      (bare (.range start step stop)) := by
  refine voiced_of_top (by decide) (fun tight => absurd tight (by decide)) ?_
    (fun _ follows => absurd rfl follows.1.1) fun tight => absurd tight (by decide)
  intro allowance context reader rung inside enough
  generalize same : Level.range = level at rung
  cases rung with
  | atom => cases same
  | operand => cases same
  | chain _ follows => exact absurd same.symm follows.1.1
  | @range bound bounds =>
      have read {expr : ParsedExpr}
          (voiced : Voiced inIndex (Level.range + 1) (expr.writtenAt (Level.range + 1)) expr)
          (short : (kinds (expr.writtenAt (Level.range + 1))).length ≤ allowance + 1) :=
        voiced.plain (Nat.le_refl _) bounds inside short
      -- Without a step the second colon is looked for and not found; what follows a range is none.
      cases step with
      | none =>
          rw [bare, lexemes_range_none, List.singleton_append] at enough ⊢
          simp only [kinds_append, kinds_mark, List.length_append, List.length_cons] at enough
          refine (read starts (by omega)).bind (fun _ same => finds_eat ?_) fun _ _ => rfl
          rw [← List.append_nil (stop.writtenAt _)]
          refine (read stops (by omega)).bind (fun _ same' => ?_) fun _ ends =>
            ends.mono (by decide)
          refine finds_eat_other (fun _ ends => ends.colon (Nat.le_refl _)) (finds_pure ?_)
          rw [same, same', bare]
      | some middle =>
          rw [bare, lexemes_range_some, List.singleton_append, List.singleton_append] at enough ⊢
          simp only [kinds_append, kinds_mark, List.length_append, List.length_cons] at enough
          refine (read starts (by omega)).bind (fun _ same => finds_eat ?_) fun _ _ => rfl
          refine (read (steps middle rfl) (by omega)).bind
            (fun _ same' => finds_eat ?_) fun _ _ => rfl
          refine ((read stops (by omega)).imp (fun _ ends => ends.mono (by decide)) fun _ =>
            id).result fun _ same'' => ?_
          rw [same, same', same'', bare]

end

theorem voiced_num {text : String} :
    Voiced inIndex Level.atom (bare (.num text)).lexemes (bare (.num text)) := by
  refine voiced_primary (fun _ => rfl) fun _ _ => ?_
  rw [bare, lexemes_num]
  refine finds_take fun token kind same => ?_
  have named := name_of_text same
  obtain ⟨_, _, _, _⟩ := token
  cases kind
  exact finds_pure (by rw [named, bare])

theorem voiced_name {name : String} :
    Voiced inIndex Level.atom (bare (.name name)).lexemes (bare (.name name)) := by
  refine voiced_primary (fun _ => rfl) fun _ _ => ?_
  rw [bare, lexemes_name]
  refine finds_take fun token kind same => ?_
  have named := name_of_text same
  obtain ⟨_, _, _, _⟩ := token
  cases kind
  exact finds_pure (by rw [named, bare])

theorem voiced_str {text : String} {quoting : Quoting} :
    Voiced inIndex Level.atom (bare (.str text quoting)).lexemes (bare (.str text quoting)) := by
  refine voiced_primary (fun _ => by cases quoting <;> rfl) fun _ _ => ?_
  rw [bare, lexemes_str]
  refine finds_take fun token kind same => ?_
  have decoded : bare (.str text quoting) = literal quoting token := by
    rw [literal, same, decode_encode, String.ofList_toList]
  obtain ⟨_, _, _, _⟩ := token
  cases quoting <;> (cases kind; exact finds_pure decoded)

theorem voiced_last : Voiced true Level.atom (bare .last).lexemes (bare .last) := by
  refine voiced_primary (fun _ => rfl) fun {_ context} inside _ => ?_
  rw [bare, lexemes_last]
  refine finds_take fun token kind same => ?_
  obtain ⟨kind, text, start, position⟩ := token
  cases kind
  change Finds _ (if Kind.endKey = .endKey ∧ context.inIndex = true then _ else _) _ _
  rw [if_pos ⟨rfl, inside⟩]
  exact finds_pure rfl

variable {nested : Nested} {close : Kind} {ahead : Option Kind → Prop} {arg : ParsedExpr}
  {tail : List Lexeme}

def Closes (close : Kind) : Prop := close = .closeParen ∨ close = .closeBrace

theorem Closes.facts (closes : Closes close) :
    close ≠ .comma ∧ close ≠ .colon ∧ close.begins = false ∧ Halts Level.shortOr (some close) := by
  rcases closes with rfl | rfl <;> exact ⟨by decide, by decide, rfl, rfl⟩

theorem finds_colon (closes : Closes close) (behind : Behind close ahead tail) :
    Finds ahead (argument nested close) ([mark .colon] ++ tail) (some (bare .colon) = ·) := by
  refine finds_eat_other (fun _ _ same => closes.facts.2.1 (Option.some.inj same).symm)
    (finds_get fun cursor stands => ?_)
  have lone : loneColon cursor = true := by
    obtain ⟨last, offset, here, rest, rfl, allowed⟩ := stands
    rcases behind with rfl | ⟨rfl, all⟩
    · rfl
    · have second : nextKind rest = some close := all _ allowed
      cases rest with
      | nil => cases second
      | cons token more =>
          obtain ⟨kind, _, _, _⟩ := token
          cases second
          rcases closes with rfl | rfl <;> rfl
  rw [lone]
  exact finds_take fun _ _ _ => finds_behind closes.facts.1 behind

theorem finds_value {first : Kind} (closes : Closes close) (behind : Behind close ahead tail)
    (finds : Finds (Halts Level.shortOr) (nested ⟨false, true⟩) lexemes (arg = ·))
    (starts : ∀ behind, nextOf lexemes behind = some first)
    (begins : first.begins = true) (value : first ≠ .colon) :
    Finds ahead (argument nested close) (lexemes ++ tail) (some arg = ·) := by
  have next (kind : Option Kind) : nextOf (lexemes ++ tail) kind = some first := by
    rw [nextOf_append, starts]
  refine finds_eat_other (fun kind _ => ?_) (finds_get fun cursor stands => ?_)
  · rw [next]
    rintro ⟨⟩
    rw [closes.facts.2.2.1] at begins
    cases begins
  have other : loneColon cursor = false := by
    obtain ⟨_, _, same⟩ := stands.next
    rw [loneColon, same, next, beq_eq_false_iff_ne.mpr fun same => value (Option.some.inj same)]
    rfl
  rw [other]
  refine finds.bind (fun _ same => ?_) fun kind allowed => ?_
  · subst same
    exact finds_behind closes.facts.1 behind
  · rcases behind with rfl | ⟨rfl, all⟩
    · rfl
    · rw [all kind allowed]
      exact closes.facts.2.2.2

theorem finds_arguments {args : List ParsedExpr} (filled : ∀ arg ∈ args, kinds arg.lexemes ≠ [])
    (each : ∀ arg ∈ args, ∀ ahead tail, Behind close ahead tail →
      Finds ahead (argument nested close) (arg.lexemes ++ tail) (some arg = ·)) :
    Finds (fun _ => True) (arguments nested close)
      (separated .comma (args.map Expr.lexemes) ++ [mark close]) (args = ·) :=
  (findsParts_listed filled each).collect (finds_eat (finds_pure rfl)) fun _ _ => rfl

theorem trails_opened {context : Context} {opener : Kind} {args : List ParsedExpr}
    {wrap : List ParsedExpr → Suffix}
    (sort : opener = .openParen ∧ close = .closeParen ∧
      wrap = .arguments ∨ opener = .openBrace ∧ close = .closeBrace ∧ wrap = .cellArguments)
    (finds : Finds (fun _ => True) (arguments nested close) lexemes (args = ·)) :
    Trails (fun _ => True) (suffix nested context) (mark opener :: lexemes) (wrap args) := by
  intro last offset here rest stops _
  have tail : Finds (fun _ => True) (do
      let _ ← take
      return some (wrap (← arguments nested close))) (mark opener :: lexemes)
        (some (wrap args) = ·) := by
    refine finds_take fun _ _ _ => ?_
    exact finds.result fun _ same => by rw [same]
  obtain ⟨_, rfl, reads⟩ := tail last offset here rest trivial
  have attached :
      Cursor.apartBefore ⟨last, place offset here (mark opener :: lexemes) ++ rest⟩ = false := by
    cases last with
    | none => rfl
    | some token =>
      exact decide_eq_false (Nat.not_lt.mpr (Nat.le_of_eq (Option.some.inj stops).symm))
  refine reads_get ?_
  rcases sort with ⟨rfl, rfl, rfl⟩ | ⟨rfl, rfl, rfl⟩
  · change Reads (if (context.inLiteral && Cursor.apartBefore _) = true then _ else _) _ _ _ _
    rw [attached, Bool.and_false]
    exact reads
  · change Reads (if (context.inLiteral && Cursor.apartBefore _) = true then _ else _) _ _ _ _
    rw [attached, Bool.and_false]
    exact reads

theorem trails_field {context : Context} {key : String} :
    Trails (fun _ => True) (suffix nested context) ([mark .dot] ++ [word key]) (.field key) := by
  refine trails_of_finds (finds_get fun cursor stands => ?_)
  obtain ⟨_, _, next⟩ := stands.next
  have dot : cursor.next? = some .dot := next
  dsimp only
  rw [dot]
  exact finds_take fun _ _ _ => finds_expect fun token _ same =>
    finds_pure (by rw [name_of_text same])

theorem trails_transpose {context : Context} {op : TransposeOp} :
    Trails (fun _ => True) (suffix nested context) [mark op.kind] (.transpose op) := by
  refine trails_of_finds (finds_get fun cursor stands => ?_)
  obtain ⟨_, _, next⟩ := stands.next
  have quote : cursor.next? = some op.kind := next
  dsimp only
  rw [quote]
  cases op <;> exact finds_take fun _ _ _ => finds_pure rfl

theorem voiced_suffixed {base : ParsedExpr} {first last : Kind} {back : List Lexeme}
    {found : Suffix} (bases : Voiced inIndex Level.atom (base.writtenAt Level.atom) base)
    (spelled : Spelled inIndex Level.atom base first last) (some : kinds back ≠ [])
    (trails : ∀ {allowance context}, context.inIndex = inIndex → (kinds back).length ≤ allowance →
      Trails (fun _ => True) (suffix (whole (operandWithin allowance)) context) back found) :
    Voiced inIndex Level.atom (base.writtenAt Level.atom ++ back) (found.apply base) := by
  have positive := List.length_pos_iff.mpr spelled.kinds_ne_nil
  refine voiced_atom (fun behind => ?_) fun inside enough => ?_
  · rw [nextOf_append]
    exact spelled.no_sign (by decide) _
  · simp only [kinds_append, List.length_append] at enough
    exact (bases.suffixed (Nat.le_refl _) inside (by omega)).extend spelled.segment.last
      (trails inside (by omega)) some fun _ => trivial

section
variable {A Part : Type} {part : TokenReader (Option Part)} {written : A → List Lexeme}
  {parts : A → List Part} {items : List A} {kind : Kind} {found : Part}

theorem findsParts_separated {inner : Option Kind → Prop}
    (each : ∀ item ∈ items, FindsParts inner part (written item) (parts item = ·))
    (mark : Finds (fun _ => True) part [mark kind] (some found = ·)) (halts : inner (some kind)) :
    FindsParts inner part (separated kind (items.map written))
      (List.intercalate [found] (items.map parts) = ·) := by
  induction items with
  | nil => exact findsParts_nil rfl
  | cons item rest ih =>
      have own := each item List.mem_cons_self
      cases rest with
      | nil =>
          rw [List.map_singleton, List.map_singleton, separated_single]
          have same : List.intercalate [found] [parts item] = parts item := by
            simp [List.intercalate]
          rw [same]
          exact own
      | cons next rest =>
          have others := ih fun item member => each item (List.mem_cons_of_mem _ member)
          have same : List.intercalate [found] ((item :: next :: rest).map parts) =
              parts item ++ found :: List.intercalate [found] ((next :: rest).map parts) := by
            simp [List.intercalate]
          rw [List.map_cons, List.map_cons, separated_cons, same]
          have behind : FindsParts inner part
              ([Lexeme.mark kind] ++ blank :: separated kind ((next :: rest).map written))
              (found :: List.intercalate [found] ((next :: rest).map parts) = ·) :=
            .push (List.cons_ne_nil _ _) mark (findsParts_gap others) fun _ _ => trivial
          refine own.append behind (fun _ _ => halts) ?_
          rintro _ _ rfl rfl
          rfl

end

def ClosesRows (close : Kind) : Prop := close = .closeBracket ∨ close = .closeBrace

variable {context : Context}

theorem finds_element {first : Kind} (closes : ClosesRows close)
    (finds : Finds (Halts Level.shortOr) (nested ⟨true, context.inIndex⟩) lexemes (expr = ·))
    (starts : ∀ behind, nextOf lexemes behind = some first) (begins : first.begins = true) :
    Finds (Halts Level.shortOr) (rowPart nested context close) lexemes
      (some (.element expr) = ·) := by
  refine finds_peek fun behind allowed => ?_
  have element : Finds (· = behind) (do return some (.element (← nested ⟨true, context.inIndex⟩)))
      lexemes (some (RowPart.element expr) = ·) := by
    exact (finds.at allowed).result fun _ same => same ▸ rfl
  have other : (first = close) = False := eq_false fun same => by
    subst same
    rcases closes with rfl | rfl <;> cases begins
  rw [starts]
  simp only [other, if_false]
  cases first <;> first | exact element | cases begins

theorem finds_comma (closes : ClosesRows close) :
    Finds (fun _ => True) (rowPart nested context close) [mark .comma] (some .comma = ·) := by
  refine finds_peek fun _ _ => ?_
  rcases closes with rfl | rfl <;> exact finds_take fun _ _ _ => finds_pure rfl

theorem finds_rowEnd (closes : ClosesRows close) :
    Finds (fun _ => True) (rowPart nested context close) [mark .semicolon] (some .rowEnd = ·) := by
  refine finds_peek fun _ _ => ?_
  rcases closes with rfl | rfl <;> exact finds_take fun _ _ _ => finds_pure rfl

theorem finds_rows_end (closes : ClosesRows close) :
    Finds (fun _ => True) (rowPart nested context close) [mark close] (· = none) := by
  refine finds_peek fun _ _ => ?_
  rcases closes with rfl | rfl <;> exact finds_take fun _ _ _ => finds_pure rfl

def partsOfRow (row : List ParsedExpr) : List RowPart :=
  List.intercalate [.comma] (row.map ([.element ·]))

def partsOfRows (rows : List (List ParsedExpr)) : List RowPart :=
  List.intercalate [.rowEnd] (rows.map partsOfRow)

theorem rowsOf_row (before row : List ParsedExpr) (rest : List RowPart) :
    rowsOf before (partsOfRow row ++ rest) = rowsOf (before ++ row) rest := by
  induction row generalizing before with
  | nil => simp [partsOfRow, List.intercalate]
  | cons expr row ih =>
      cases row with
      | nil => simp [partsOfRow, List.intercalate, rowsOf]
      | cons next row =>
          have split : partsOfRow (expr :: next :: row) = .element expr :: .comma ::
              partsOfRow (next :: row) := by
            simp [partsOfRow, List.intercalate]
          rw [split, List.cons_append, List.cons_append, rowsOf, rowsOf, ih, List.append_assoc,
            List.singleton_append]

theorem rowsOf_rows {rows : List (List ParsedExpr)} (filled : [] ∉ rows) :
    rowsOf [] (partsOfRows rows) = rows := by
  induction rows with
  | nil => rfl
  | cons row rows ih =>
      rw [List.mem_cons, not_or] at filled
      have present : row.isEmpty = false := by
        rw [List.isEmpty_eq_false_iff]
        exact Ne.symm filled.1
      cases rows with
      | nil =>
          have single : partsOfRows [row] = partsOfRow row ++ [] := by
            simp [partsOfRows, List.intercalate]
          rw [single, rowsOf_row, List.nil_append, rowsOf, present]
          rfl
      | cons next rows =>
          have split : partsOfRows (row :: next :: rows) = partsOfRow row ++ .rowEnd ::
              partsOfRows (next :: rows) := by
            simp [partsOfRows, List.intercalate]
          rw [split, rowsOf_row, List.nil_append, rowsOf, present, ih filled.2]
          rfl

theorem finds_rows {rows : List (List ParsedExpr)} (closes : ClosesRows close)
    (filled : [] ∉ rows) (present : ∀ row ∈ rows, ∀ element ∈ row, kinds element.lexemes ≠ [])
    (elements : ∀ row ∈ rows, ∀ element ∈ row, Finds (Halts Level.shortOr)
      (rowPart nested context close) element.lexemes (some (.element element) = ·)) :
    Finds (fun _ => True) (Expr.rows nested context close)
      (writtenRows rows ++ [mark close]) (rows = ·) := by
  have parts : FindsParts (Halts Level.shortOr) (rowPart nested context close) (writtenRows rows)
      (partsOfRows rows = ·) := by
    refine findsParts_separated (fun row inside => ?_) (finds_rowEnd closes) rfl
    refine findsParts_separated (fun element own => ?_) (finds_comma closes) rfl
    exact .one (present row inside element own) (elements row inside element own)
  have ends : ∀ kind : Option Kind, True → Halts Level.shortOr (nextOf [mark close] kind) :=
    fun _ _ => by
    rcases closes with rfl | rfl <;> rfl
  refine (parts.collect (finds_rows_end closes) ends).result fun _ same => ?_
  rw [← same, rowsOf_rows filled]

def OperandsVoiced (shape : ExprShape ParsedExpr) : Prop :=
  ∀ operand ∈ shape.operands, ∀ inIndex, Readable inIndex false operand →
    Voiced inIndex operand.level operand.lexemes operand

theorem Readable.present (readable : Readable inIndex false expr) : kinds expr.lexemes ≠ [] := by
  obtain ⟨_, _, spelled⟩ := readable.spelled
  rw [← writtenAt_high (Nat.le_refl expr.level)]
  exact spelled.kinds_ne_nil

theorem OperandsVoiced.at {shape : ExprShape ParsedExpr} (voiced : OperandsVoiced shape)
    {operand : ParsedExpr} (below : operand ∈ shape.operands)
    (readable : Readable inIndex false operand) {level : Nat} (bounded : level ≤ Level.atom) :
    Voiced inIndex level (operand.writtenAt level) operand :=
  (voiced operand below inIndex readable).elsewhere readable.present bounded

theorem Readable.starts (readable : Readable inIndex false expr) :
    ∃ first, (∀ behind, nextOf expr.lexemes behind = some first) ∧
      first.begins = true ∧ first ≠ .colon := by
  obtain ⟨first, _, spelled⟩ := readable.spelled
  refine ⟨first, fun behind => ?_, spelled.begins, spelled.value.1⟩
  rw [← writtenAt_high (Nat.le_refl expr.level)]
  exact spelled.next behind

theorem length_separated {A : Type} (written : A → List Lexeme)
    (kind : Kind) {items : List A} {item : A} (member : item ∈ items) :
    (kinds (written item)).length ≤ (kinds (separated kind (items.map written))).length := by
  induction items with
  | nil => cases member
  | cons first rest ih =>
      cases rest with
      | nil =>
          rw [List.mem_singleton.mp member, List.map_singleton, separated_single]
      | cons next rest =>
          rw [List.map_cons, List.map_cons, separated_cons]
          simp only [kinds_append, kinds_mark, kinds_blank, List.length_append, List.length_cons]
          rcases List.mem_cons.mp member with rfl | later
          · omega
          · have below := ih later
            rw [List.map_cons] at below
            omega

theorem finds_written_arguments {args : List ParsedExpr} {allowance : Nat} (closes : Closes close)
    (readable : ∀ arg ∈ args, Readable true true arg)
    (voiced : ∀ arg ∈ args,
      ∀ inIndex, Readable inIndex false arg → Voiced inIndex arg.level arg.lexemes arg)
    (enough : (kinds (separated .comma (args.map Expr.lexemes))).length ≤ allowance) :
    Finds (fun _ => True) (arguments (whole (operandWithin allowance)) close)
      (separated .comma (args.map Expr.lexemes) ++ [mark close]) (args = ·) := by
  refine finds_arguments (fun arg member => ?_) fun arg member ahead tail behind => ?_
  · rcases (readable arg member).argument_cases with ⟨label, rfl⟩ | value
    · exact List.cons_ne_nil _ _
    · exact value.present
  · rcases (readable arg member).argument_cases with ⟨label, rfl⟩ | value
    · exact finds_colon closes behind
    · obtain ⟨first, starts, begins, plain⟩ := value.starts
      have short := Nat.le_trans (length_separated Expr.lexemes .comma member) enough
      exact finds_value closes behind
        ((voiced arg member true value).nested value.present rfl short) starts begins plain

theorem finds_written_rows {rows : List (List ParsedExpr)} {allowance : Nat} {context : Context}
    (closes : ClosesRows close) (filled : [] ∉ rows) (inside : context.inIndex = inIndex)
    (readable : ∀ row ∈ rows, ∀ element ∈ row, Readable inIndex false element)
    (voiced : ∀ row ∈ rows, ∀ element ∈ row, ∀ inIndex, Readable inIndex false element →
      Voiced inIndex element.level element.lexemes element)
    (enough : (kinds (writtenRows rows)).length ≤ allowance) :
    Finds (fun _ => True) (Expr.rows (whole (operandWithin allowance)) context close)
      (writtenRows rows ++ [mark close]) (rows = ·) := by
  refine finds_rows closes filled
    (fun row member element own => (readable row member element own).present) ?_
  intro row member element own
  have value := readable row member element own
  obtain ⟨first, starts, begins, plain⟩ := value.starts
  have short :=
    Nat.le_trans (length_separated Expr.lexemes .comma own) (Nat.le_trans (length_separated
      (fun row => separated .comma (row.map Expr.lexemes)) .semicolon member) enough)
  exact finds_element closes
    ((voiced row member element own inIndex value).nested value.present inside short) starts begins

/-- A readable expression is read back from its written form. -/
theorem Readable.voiced (readable : Readable inIndex false expr) :
    Voiced inIndex expr.level expr.lexemes expr := by
  induction expr using Expr.induction generalizing inIndex with
  | node label shape ih =>
      -- postfix forms start with their base, which is written as an atom and therefore read by the
      -- same reader
      have below : OperandsVoiced shape :=
        fun operand inside inIndex readable => ih operand inside readable
      have base {operand : ParsedExpr} (inside : operand ∈ shape.operands)
          (readable : Readable inIndex false operand) :
          Voiced inIndex Level.atom (operand.writtenAt Level.atom) operand :=
        below.at inside readable (Nat.le_refl _)
      have own {operand : ParsedExpr} (readable : Readable inIndex false operand) :
          ∃ first last, Spelled inIndex Level.atom operand first last := by
        obtain ⟨_, _, spelled⟩ := readable.spelled
        exact spelled.elsewhere _
      cases readable with
      | num number => exact voiced_num
      | str quoting plain => exact voiced_str
      | name isName => exact voiced_name
      | last => exact voiced_last
      | @param _ _ _ head args heads arguments =>
          obtain ⟨_, _, spelled⟩ := own heads
          rw [lexemes_param, List.append_assoc]
          change Voiced inIndex Level.atom _ (Suffix.apply head (.arguments args))
          refine voiced_suffixed (base List.mem_cons_self heads) spelled ?_ fun {_ _} _ enough => ?_
          · simp
          refine trails_opened (.inl ⟨rfl, rfl, rfl⟩)
            (finds_written_arguments (.inl rfl) arguments (fun arg member =>
            below arg (List.mem_cons_of_mem _ member)) ?_)
          simp at enough
          omega
      | @cellIndex _ _ _ head args heads arguments =>
          obtain ⟨_, _, spelled⟩ := own heads
          rw [lexemes_cellIndex, List.append_assoc]
          change Voiced inIndex Level.atom _ (Suffix.apply head (.cellArguments args))
          refine voiced_suffixed (base List.mem_cons_self heads) spelled ?_ fun {_ _} _ enough => ?_
          · simp
          refine trails_opened (.inr ⟨rfl, rfl, rfl⟩)
            (finds_written_arguments (.inr rfl) arguments (fun arg member =>
            below arg (List.mem_cons_of_mem _ member)) ?_)
          simp at enough
          omega
      | field bases isName =>
          obtain ⟨_, _, spelled⟩ := own bases
          rw [lexemes_field]
          exact voiced_suffixed (base List.mem_cons_self bases) spelled (by simp)
            fun _ _ => trails_field
      | matrix filled elements =>
          refine voiced_primary (fun _ => rfl) fun {_ _} inside enough => ?_
          rw [lexemes_matrix, List.append_assoc, List.singleton_append] at enough ⊢
          refine finds_take fun token kind _ => ?_
          obtain ⟨_, _, _, _⟩ := token
          cases kind
          refine (finds_written_rows (.inl rfl) filled inside elements
            (fun row inside element own =>
            below element (List.mem_flatten.mpr ⟨row, inside, own⟩)) ?_).result
              fun _ same => by rw [same, bare]
          simp at enough
          omega
      | cell filled elements =>
          refine voiced_primary (fun _ => rfl) fun {_ _} inside enough => ?_
          rw [lexemes_cell, List.append_assoc, List.singleton_append] at enough ⊢
          refine finds_take fun token kind _ => ?_
          obtain ⟨_, _, _, _⟩ := token
          cases kind
          refine (finds_written_rows (.inr rfl) filled inside elements
            (fun row inside element own =>
            below element (List.mem_flatten.mpr ⟨row, inside, own⟩)) ?_).result
              fun _ same => by rw [same, bare]
          simp at enough
          omega
      | unary op operands =>
          obtain ⟨_, _, spelled⟩ := operands.spelled
          obtain ⟨_, _, spelled⟩ := spelled.elsewhere Level.unary
          exact voiced_unary spelled.kinds_ne_nil (below.at List.mem_cons_self operands (by decide))
      | transpose op operands =>
          obtain ⟨_, _, spelled⟩ := own operands
          rw [lexemes_transpose]
          exact voiced_suffixed (base List.mem_cons_self operands) spelled (by simp) fun _ _ =>
            trails_transpose
      | binary op lefts rights =>
          exact voiced_binary (.binary op lefts rights)
            (below.at List.mem_cons_self lefts (Nat.le_of_lt (level_lt_atom op)))
            (below.at (List.mem_cons_of_mem _ List.mem_cons_self) rights (level_lt_atom op))
      | @range _ _ _ start step stop starts steps stops =>
          refine voiced_range (below.at List.mem_cons_self starts (by decide))
            (fun middle inside => ?_) ?_
          · exact below.at (by simp [ExprShape.operands, Option.mem_def.mp inside])
              (steps middle inside) (by decide)
          · exact below.at (by simp [ExprShape.operands]) stops (by decide)

/-- Where a statement begins an expression, what is written is read back in front of whatever does
not go on with it. -/
theorem Readable.found (readable : Readable false false expr) :
    Finds (Halts Level.shortOr) reader expr.lexemes (expr = ·) := by
  intro last offset here rest allowed
  have enough : (kinds expr.lexemes).length ≤
      (place offset here expr.lexemes ++ rest).length + 1 := by
    rw [List.length_append, length_place]
    omega
  obtain ⟨_, same, reads⟩ := readable.voiced.nested readable.present
    (rfl : (Context.mk false false).inIndex = false) enough last offset here rest allowed
  exact ⟨_, same, reads_get reads⟩

end ScriptFlow.Expr
