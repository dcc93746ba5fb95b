import ScriptFlow.Proofs.Token.Linewise

/-!
What stands between tokens. Blanks, comments, continued lines and block comments fill every stretch
in front of, between and behind the tokens of a text, so nothing of a text is dropped.
-/

namespace ScriptFlow.Token

open Lexeme

/-- An item that is skipped, in front of what stands behind it. -/
inductive Skips : List Char → List Char → Prop where
  | blanks {item behind : List Char} (filled : item ≠ [])
      (blank : ∀ c ∈ item, c = ' ' ∨ c = '\t' ∨ c = '\r' ∨ c = '\x0c') : Skips item behind
  | comment {mark : Char} {line behind : List Char} (opens : mark = '%' ∨ mark = '#')
      (onLine : '\n' ∉ line) (ends : ∀ c ∈ behind.head?, c = '\n') : Skips (mark :: line) behind
  | continuation {line behind : List Char} (onLine : '\n' ∉ line) :
      Skips ('.' :: '.' :: '.' :: (line ++ ['\n'])) behind
  | lastContinuation {line : List Char} (onLine : '\n' ∉ line) :
      Skips ('.' :: '.' :: '.' :: line) []
  | blockComment {inner behind : List Char} (opens : inner.head? = some '\n')
      (first : ¬['%', '\x7d'] <:+: inner ++ ['%']) :
      Skips ('%' :: '\x7b' :: (inner ++ ['%', '\x7d'])) behind
  | lastBlockComment {inner : List Char} (opens : ∀ c ∈ inner.head?, c = '\n')
      (never : ¬['%', '\x7d'] <:+: inner) : Skips ('%' :: '\x7b' :: inner) []

inductive Skipped : List Char → List Char → Prop where
  | nil {behind : List Char} : Skipped [] behind
  | cons {item more behind : List Char} (first : Skips item (more ++ behind))
      (rest : Skipped more behind) : Skipped (item ++ more) behind

theorem newline_of_head {ahead : List Char} (stops : Stops notNewline ahead) :
    ∀ c ∈ ahead.head?, c = '\n' := by
  intro c first
  have ends := stops c first
  rw [notNewline, bne_eq_false_iff_eq] at ends
  exact ends

theorem run_onLine (ahead : List Char) : '\n' ∉ ahead.take (run notNewline ahead) := by
  intro member
  have onLine := mem_take_run member
  contradiction

variable {c : Char} {ahead : List Char} {kind : Gap} {length : Nat}

theorem skips_blanks (blank : isBlank c = true) :
    Skips (c :: ahead.take (run isBlank ahead)) (ahead.drop (run isBlank ahead)) := by
  have each (d : Char) (blank : isBlank d = true) : d = ' ' ∨ d = '\t' ∨ d = '\r' ∨ d = '\x0c' := by
    simpa [isBlank, or_assoc] using blank
  apply Skips.blanks (List.cons_ne_nil _ _)
  intro d member
  rcases List.mem_cons.mp member with rfl | later
  · exact each d blank
  · exact each d (mem_take_run later)

theorem skips_block (stops : Stops notNewline ahead) :
    Skips ('%' :: '\x7b' :: ahead.take (blockEnd ahead)) (ahead.drop (blockEnd ahead)) := by
  rcases blockEnd_first ahead with ⟨inner, behind, rfl, count, first⟩ | ⟨whole, never⟩
  · have front : (inner ++ '%' :: '\x7d' :: behind).take (inner.length + 2) =
        inner ++ ['%', '\x7d'] := by
      rw [List.take_length_add_append]
      rfl
    rw [count, front]
    apply Skips.blockComment _ first
    -- in an empty block the closing mark would stand where the line has to end
    cases inner with
    | nil => exact absurd (newline_of_head stops '%' rfl) (by decide)
    | cons d more => exact congrArg some (newline_of_head stops d rfl)
  · rw [whole, List.take_length, List.drop_length]
    exact .lastBlockComment (newline_of_head stops) never

theorem skips_comment (mark : c = '%' ∨ c = '#') (ran : comment c ahead = (.inr kind, length)) :
    Skips (c :: ahead.take length) (ahead.drop length) := by
  by_cases block : c = '%' ∧ opensBlock ahead = true
  · rw [comment, if_pos block] at ran
    cases ran
    obtain ⟨rfl, opens⟩ := block
    cases ahead with
    | nil => cases opens
    | cons d rest =>
        obtain ⟨rfl, stops⟩ := (opensBlock_cons d rest).mp opens
        rw [Nat.add_comm]
        exact skips_block stops
  · rw [comment, if_neg block] at ran
    cases ran
    exact .comment mark (run_onLine ahead) (newline_of_head (stops_drop_run notNewline ahead))

theorem skips_dotted (ran : dotted ahead = (.inr kind, length)) :
    Skips ('.' :: ahead.take length) (ahead.drop length) := by
  unfold dotted at ran
  split at ran
  case h_1 rest =>
    cases ran
    have onLine := run_onLine rest
    have stops := newline_of_head (stops_drop_run notNewline rest)
    have shift : ∀ count, ('.' :: '.' :: rest).take (2 + count) = '.' :: '.' :: rest.take count ∧
        ('.' :: '.' :: rest).drop (2 + count) = rest.drop count := by
      intro count
      rw [Nat.add_comm]
      exact ⟨rfl, rfl⟩
    rw [Nat.add_assoc, (shift _).1, (shift _).2, List.take_add, ← List.drop_drop]
    generalize rest.take (run notNewline rest) = line at onLine
    generalize rest.drop (run notNewline rest) = behind at stops
    cases behind with
    | nil =>
        rw [List.take_nil, List.drop_nil, List.append_nil]
        exact .lastContinuation onLine
    | cons d more =>
        rw [stops d rfl]
        exact .continuation onLine
  case h_7 => split at ran <;> cases ran
  all_goals cases ran

theorem skips_read {before : Option Kind} (ran : read before c ahead = (.inr kind, length)) :
    Skips (c :: ahead.take length) (ahead.drop length) := by
  -- Texts and marks are tokens, never gaps.
  have quoted_token (kind' : Kind) (mark : Char) :
      quoted kind' mark ahead ≠ (.inr kind, length) := by
    rw [quoted]
    split <;> exact fun same => by cases same
  have either_token (one : Kind) (second : Char)
      (two : Kind) : either one second two ahead ≠ (.inr kind, length) := by
    rw [either]
    split <;> exact fun same => by cases same
  unfold read at ran
  split at ran
  · next blank =>
      cases ran
      exact skips_blanks blank
  split at ran
  · cases ran
  split at ran
  · cases ran
  split at ran
  case h_1 => exact skips_comment (.inl rfl) ran
  case h_2 => exact skips_comment (.inr rfl) ran
  case h_3 => exact skips_dotted ran
  case h_4 => exact absurd ran (quoted_token _ _)
  case h_5 =>
    split at ran
    · cases ran
    · exact absurd ran (quoted_token _ _)
  case h_16 | h_17 | h_18 | h_19 | h_20 | h_21 | h_22 => exact absurd ran (either_token _ _ _)
  all_goals cases ran

/-- The tokens, each in its place from the offset on, and skipped items between them make up the
text. -/
inductive Tiles : Nat → List Char → List Token → Prop where
  | last {offset : Nat} {gap : List Char} (skipped : Skipped gap []) : Tiles offset gap []
  | token {offset : Nat} {gap behind : List Char} {token : Token} {rest : List Token}
      (skipped : Skipped gap (token.text ++ behind)) (filled : token.text ≠ [])
      (starts : token.start = offset + byteLength gap) (more : Tiles token.stop behind rest) :
      Tiles offset (gap ++ (token.text ++ behind)) (token :: rest)

def endOf (place : Nat) (before : List Token) : Nat := (before.getLast?.map stop).getD place

def startOf (place : Nat) (behind : List Token) : Nat := (behind.head?.map Token.start).getD place

theorem endOf_cons (place : Nat) (first : Token) (rest : List Token) :
    endOf place (first :: rest) = endOf first.stop rest := by
  rw [endOf, endOf, List.getLast?_cons]
  cases rest.getLast? <;> rfl

namespace Tiles

variable {offset : Nat} {text : List Char} {tokens : List Token}

theorem first {token : Token} {behind : List Char} {rest : List Token}
    (filled : token.text ≠ []) (more : Tiles token.stop behind rest) :
    Tiles token.start (token.text ++ behind) (token :: rest) :=
  @Tiles.token token.start [] behind token rest .nil filled rfl more

theorem skip {item : List Char} (first : Skips item text)
    (tiles : Tiles (offset + byteLength item) text tokens) :
    Tiles offset (item ++ text) tokens := by
  cases tiles with
  | last skipped =>
      apply Tiles.last
      rw [← List.append_nil text] at first
      exact .cons first skipped
  | token skipped filled starts more =>
      rw [← List.append_assoc]
      apply Tiles.token (.cons first skipped) filled _ more
      rw [starts, byteLength_append, Nat.add_assoc]

/-- However a text is scanned, the tokens placed and the gaps tile it. -/
theorem scan (before : Option Kind) (source : List Char) (offset : Nat) (here : Position) :
    Tiles offset source (place offset here (scan before source)) := by
  -- by the rounds of the scan: a token is put in front of the tiling of what is behind it, a gap in
  -- front of the first gap there
  fun_induction Token.scan before source generalizing offset here with
  | case1 => exact .last .nil
  | case2 before c ahead sort length ran lexeme ih =>
      have parts : c :: ahead = (c :: ahead.take length) ++ ahead.drop length := by
        rw [List.cons_append, List.take_append_drop]
      cases sort with
      | inl kind =>
          rw [parts]
          exact @Tiles.first ⟨kind, c :: ahead.take length, offset, here⟩ _ _
            (List.cons_ne_nil _ _) (ih _ _)
      | inr kind =>
          rw [parts]
          exact .skip (skips_read ran) (ih _ _)

theorem placed (tiles : Tiles offset text tokens) :
    ∀ token ∈ tokens, ∃ front back, text = front ++ (token.text ++ back) ∧
      token.start = offset + byteLength front := by
  induction tiles with
  | last => exact fun _ member => absurd member List.not_mem_nil
  | @token offset gap behind first rest _ _ starts _ ih =>
      intro token member
      rcases List.mem_cons.mp member with rfl | later
      · exact ⟨gap, behind, rfl, starts⟩
      · obtain ⟨front, back, same, start⟩ := ih token later
        refine ⟨gap ++ (first.text ++ front), back, ?_, ?_⟩
        · rw [same, List.append_assoc, List.append_assoc]
        · rw [start, stop, starts, byteLength_append, byteLength_append]
          omega

theorem filled (tiles : Tiles offset text tokens) : ∀ token ∈ tokens, token.start < token.stop := by
  induction tiles with
  | last => exact fun _ member => absurd member List.not_mem_nil
  | token _ filled _ _ ih =>
      intro token member
      rcases List.mem_cons.mp member with rfl | later
      · have := byteLength_pos filled
        rw [stop]
        omega
      · exact ih token later

theorem ordered (tiles : Tiles offset text tokens) :
    tokens.Pairwise fun front back => front.stop ≤ back.start := by
  induction tiles with
  | last => exact .nil
  | token _ _ _ more ih =>
      apply List.Pairwise.cons _ ih
      intro token member
      obtain ⟨front, _, _, starts⟩ := more.placed token member
      omega

theorem between (tiles : Tiles offset text tokens) {before behind : List Token}
    (split : tokens = before ++ behind) : ∃ front gap back, text = front ++ (gap ++ back) ∧
      offset + byteLength front = endOf offset before ∧
      offset + byteLength (front ++ gap) = startOf (offset + byteLength text) behind ∧
      Skipped gap back := by
  induction tiles generalizing before with
  | @last offset gap skipped =>
      obtain ⟨rfl, rfl⟩ := List.append_eq_nil_iff.mp split.symm
      exact ⟨[], gap, [], by rw [List.append_nil, List.nil_append], rfl, rfl, skipped⟩
  | @token offset gap ahead first rest skipped _ starts _ ih =>
      -- in front of the first token stands its own gap; any other place is in what comes after that
      -- token
      cases before with
      | nil =>
          rw [List.nil_append] at split
          subst split
          exact ⟨[], gap, first.text ++ ahead, rfl, rfl, starts.symm, skipped⟩
      | cons other more =>
          obtain ⟨rfl, rest_eq⟩ := List.cons.inj split
          obtain ⟨front, between, back, same, ends, begins, skipped⟩ := ih rest_eq
          refine ⟨gap ++ (first.text ++ front), between, back, ?_, ?_, ?_, skipped⟩
          · rw [same, List.append_assoc, List.append_assoc]
          · rw [endOf_cons, ← ends, stop, starts, byteLength_append, byteLength_append]
            omega
          · rw [byteLength_append] at begins ⊢
            simp only [byteLength_append, stop, starts, ← Nat.add_assoc] at begins ⊢
            exact begins

end Tiles

/-- How tokens lie in a text: each fills a stretch of it that begins and ends between two
characters, one behind the other, and all stretches between them are made up of skipped items. -/
structure Tiling (source : List Char) (tokens : List Token) : Prop where
  filled : ∀ token ∈ tokens, token.start < token.stop
  aligned : ∀ token ∈ tokens, ∃ front back, source = front ++ (token.text ++ back) ∧
      token.start = byteLength front ∧ token.stop = byteLength (front ++ token.text)
  ordered : tokens.Pairwise fun front back => front.stop ≤ back.start
  skipped : ∀ before behind, tokens = before ++ behind →
      ∃ front gap back, source = front ++ (gap ++ back) ∧ byteLength front = endOf 0 before ∧
      byteLength (front ++ gap) = startOf (byteLength source) behind ∧ Skipped gap back

/-- The tokens of every text tile it together with what is skipped in front of, between and behind
them. -/
theorem ofSource_tiling (source : List Char) : Tiling source (ofSource source) := by
  have tiles : Tiles 0 source (ofSource source) := .scan none source 0 Position.start
  constructor
  · exact tiles.filled
  · intro token member
    obtain ⟨front, back, same, starts⟩ := tiles.placed token member
    rw [Nat.zero_add] at starts
    refine ⟨front, back, same, starts, ?_⟩
    rw [stop, starts, byteLength_append]
  · exact tiles.ordered
  · intro before behind split
    have between := tiles.between split
    simpa only [Nat.zero_add] using between

/-- A continued line, a text without an end in which a character takes two bytes, and a block
comment. -/
example : (ofSource "x ... é\n '\u00e9 %\n%\x7b\ny %\x7d".toList).map
    (fun token => (token.kind, token.start, token.stop)) =
    [(.word, 0, 1), (.invalid, 10, 15), (.newline, 15, 16)] := by
  decide +kernel

end ScriptFlow.Token
