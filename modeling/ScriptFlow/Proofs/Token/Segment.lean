import ScriptFlow.Expr.Printer
import ScriptFlow.Proofs.Token.Scanning

/-!
Segments of a written text. A segment begins and ends with a token. Segments stand side by side when
the tokens at the border may touch, or with a blank in between, and then make a segment again.
-/

namespace ScriptFlow.Token

open Lexeme

/-- Well-formed lexemes from a token of one kind to a token of another. What has to hold for no
quote to stand right behind a quoted text is kept beside them. -/
structure Segment (first last : Kind) (clean : Prop) (lexemes : List Lexeme) : Prop where
  written : ∀ lexeme ∈ lexemes, lexeme.Written
  chain : lexemes.IsChain fun front back => front.touches back = true
  head : ∃ text, lexemes.head? = some (token first text)
  last : ∃ text, lexemes.getLast? = some (token last text)
  clean : Unspoiled lexemes ↔ clean

namespace Segment

variable {first last next final kind : Kind} {clean other : Prop} {front back lexemes : List Lexeme}

theorem single {text : List Char} (written : kind.Writes text) :
    Segment kind kind True [token kind text] where
  written _ member := by
    rw [List.mem_singleton.mp member]
    exact written
  chain := .singleton _
  head := ⟨text, rfl⟩
  last := ⟨text, rfl⟩
  clean := iff_of_true (.singleton _) trivial

theorem mark (spelled : kind.Writes kind.spelling.toList) :
    Segment kind kind True [Lexeme.mark kind] := single spelled

theorem congr (segment : Segment first last clean lexemes) (same : clean ↔ other) :
    Segment first last other lexemes :=
  ⟨segment.written, segment.chain, segment.head, segment.last, segment.clean.trans same⟩

theorem ne_nil (segment : Segment first last clean lexemes) : lexemes ≠ [] := by
  obtain ⟨text, head⟩ := segment.head
  rintro rfl
  cases head

theorem append (fronts : Segment first last clean front)
    (backs : Segment next final other back) (touch : last.touches next = true) :
    Segment first final (clean ∧ other ∧ last.spoils next = false) (front ++ back) := by
  obtain ⟨border, ends⟩ := fronts.last
  obtain ⟨text, starts⟩ := backs.head
  refine ⟨fun lexeme member => ?_, ?_, ?_, ?_, ?_⟩
  · exact (List.mem_append.mp member).elim (fronts.written lexeme) (backs.written lexeme)
  · refine List.isChain_append.mpr ⟨fronts.chain, backs.chain, ?_⟩
    rw [ends, starts]
    rintro _ ⟨⟩ _ ⟨⟩
    exact touch
  · rw [List.head?_append_of_ne_nil _ fronts.ne_nil]
    exact fronts.head
  · rw [List.getLast?_append_of_ne_nil _ backs.ne_nil]
    exact backs.last
  · rw [Unspoiled, List.isChain_append, ends, starts]
    refine and_congr fronts.clean
      (and_congr backs.clean ⟨fun spoils => spoils _ rfl _ rfl, fun spoils => ?_⟩)
    rintro _ ⟨⟩ _ ⟨⟩
    exact spoils

theorem touching (fronts : Segment first last clean front) (backs : Segment next final other back)
    (touch : last.touches next = true) (plain : next ≠ .quote) :
    Segment first final (clean ∧ other) (front ++ back) := by
  have still : last.spoils next = false := by
    rw [Kind.spoils, beq_eq_false_iff_ne.mpr plain, Bool.and_false]
  exact (fronts.append backs touch).congr (and_congr_right fun _ => and_iff_left still)

theorem spaced (fronts : Segment first last clean front)
    (backs : Segment next final other back) (stays : last ≠ .dot) (plain : next ≠ .quote) :
    Segment first final (clean ∧ other) (front ++ blank :: back) := by
  obtain ⟨border, ends⟩ := fronts.last
  obtain ⟨text, starts⟩ := backs.head
  have written : blank.Written :=
    ⟨rfl, List.cons_ne_nil _ _, fun c member => by rw [List.mem_singleton.mp member]; rfl⟩
  refine ⟨fun lexeme member => ?_, ?_, ?_, ?_, ?_⟩
  · rcases List.mem_append.mp member with early | late
    · exact fronts.written lexeme early
    · rcases List.mem_cons.mp late with rfl | late
      · exact written
      · exact backs.written lexeme late
  · refine List.isChain_append.mpr ⟨fronts.chain, List.isChain_cons.mpr ⟨?_, backs.chain⟩, ?_⟩
    · rw [starts]
      rintro _ ⟨⟩
      exact bne_iff_ne.mpr plain
    · rw [ends]
      rintro _ ⟨⟩ _ ⟨⟩
      exact bne_iff_ne.mpr stays
  · rw [List.head?_append_of_ne_nil _ fronts.ne_nil]
    exact fronts.head
  · rw [List.getLast?_append_of_ne_nil _ (List.cons_ne_nil _ _),
      List.getLast?_cons_of_ne_nil backs.ne_nil]
    exact backs.last
  -- the blank keeps a quote behind it from following the text in front of it
  · rw [Unspoiled, List.isChain_append, List.isChain_cons]
    refine and_congr fronts.clean ((and_iff_left ?_).trans ((and_iff_right ?_).trans backs.clean))
    · rw [ends]
      rintro _ ⟨⟩ _ ⟨⟩
      rfl
    · intro _ _
      rfl

end Segment

/-- What may stand as an operand, an argument or a row. -/
def Solid (clean : Prop) (lexemes : List Lexeme) : Prop :=
  ∃ first last, Segment first last clean lexemes ∧ first.begins = true ∧ last.ends = true

theorem separated_cons (kind : Kind) (part next : List Lexeme) (rest : List (List Lexeme)) :
    separated kind (part :: next :: rest) = part ++ mark kind :: blank ::
      separated kind (next :: rest) := by
  simp [separated, List.intercalate]

theorem separated_single (kind : Kind) (part : List Lexeme) : separated kind [part] = part := by
  simp [separated, List.intercalate]

theorem touches_of_ends {front back : Kind} (ends : front.ends = true) (trails : back.trails = true)
    (plain : back ≠ .quote) : front.touches back = true := by
  cases front <;> first
    | exact trails
    | exact Bool.or_eq_true_iff.mpr (.inr (Bool.and_eq_true_iff.mpr ⟨trails, bne_iff_ne.mpr plain⟩))
    | cases ends

theorem stays_of_ends {kind : Kind} (ends : kind.ends = true) : kind ≠ .dot := by
  rintro rfl
  cases ends

theorem plain_of_begins {kind : Kind} (begins : kind.begins = true) : kind ≠ .quote := by
  rintro rfl
  cases begins

section
variable {A : Type} {kind : Kind} {written : A → List Lexeme} {clean : A → Prop}
  {other : Prop} {items : List A}

theorem solid_separated (sort : kind = .comma ∨ kind = .semicolon)
    (solid : ∀ a ∈ items, Solid (clean a) (written a)) (some : items ≠ []) :
    Solid (∀ a ∈ items, clean a) (separated kind (items.map written)) := by
  have sep : Segment kind kind True [mark kind] := .mark (by rcases sort with rfl | rfl <;> rfl)
  have trails : kind.trails = true ∧ kind ≠ .quote ∧ kind ≠ .dot := by
    rcases sort with rfl | rfl <;> decide
  induction items with
  | nil => exact absurd rfl some
  | cons a rest ih =>
      obtain ⟨first, last, segment, begins, ends⟩ := solid a List.mem_cons_self
      cases rest with
      | nil =>
          rw [List.map_singleton, separated_single]
          exact ⟨first, last, segment.congr (by simp), begins, ends⟩
      | cons b rest =>
          obtain ⟨next, final, others, begins', ends'⟩ :=
            ih (fun c member => solid c (List.mem_cons_of_mem _ member)) (List.cons_ne_nil _ _)
          have marked := segment.touching sep (touches_of_ends ends trails.1 trails.2.1) trails.2.1
          have whole := marked.spaced others trails.2.2 (plain_of_begins begins')
          rw [List.map_cons, List.map_cons, separated_cons]
          rw [List.append_assoc] at whole
          exact ⟨first, final, whole.congr (by simp), begins, ends'⟩

theorem segment_enclosed {opener closer : Kind}
    (brackets : (opener, closer) ∈
      [(Kind.openParen, Kind.closeParen), (.openBracket, .closeBracket), (.openBrace, .closeBrace)])
    {inner : List Lexeme} (filled : inner = [] ∧ other ∨ Solid other inner) :
    Segment opener closer other ([mark opener] ++ inner ++ [mark closer]) := by
  have facts : opener.Writes opener.spelling.toList ∧ closer.Writes closer.spelling.toList ∧
      closer ≠ .quote ∧ closer.trails = true ∧ opener.touches closer = true ∧
      ∀ kind : Kind, kind.begins = true → opener.touches kind = true := by
    simp only [List.mem_cons, Prod.mk.injEq, List.not_mem_nil, or_false] at brackets
    rcases brackets with ⟨rfl, rfl⟩ | ⟨rfl, rfl⟩ | ⟨rfl, rfl⟩ <;> exact ⟨rfl,
      rfl, by decide, rfl, rfl, fun kind begins => Bool.or_eq_true_iff.mpr (.inl begins)⟩
  obtain ⟨opens, closes, plain, trails, touch, begins⟩ := facts
  rcases filled with ⟨rfl, holds⟩ | ⟨first, last, segment, starts, ends⟩
  · exact ((Segment.mark opens).touching (.mark closes) touch plain).congr (by simp [holds])
  · have opened := (Segment.mark opens).touching segment (begins first starts)
        (plain_of_begins starts)
    exact (opened.touching (.mark closes) (touches_of_ends ends trails plain) plain).congr (by simp)

end

end ScriptFlow.Token
