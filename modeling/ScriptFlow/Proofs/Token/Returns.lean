import ScriptFlow.Proofs.Token.Tiling

/-!
Carriage returns in front of newlines. Reading a token looks at most to the end of its line, and
does not notice how the line ends; the carriage return goes to what is skipped in front of the
newline. So the tokens are the same and stand in the same places, but for the newlines themselves
and the gaps in front of them.
-/

namespace ScriptFlow.Token

open Lexeme

/-- The text with a carriage return in front of every newline. -/
def withReturns (text : List Char) : List Char :=
  text.flatMap fun c => if c = '\n' then ['\r', '\n'] else [c]

section
variable {c : Char} {text : List Char} {length : Nat}

theorem returns_newline (text : List Char) :
    withReturns ('\n' :: text) = '\r' :: '\n' :: withReturns text := rfl

theorem returns_other (other : c ≠ '\n') (text : List Char) :
    withReturns (c :: text) = c :: withReturns text := by
  rw [withReturns, List.flatMap_cons, if_neg other]
  rfl

theorem returns_append (front back : List Char) :
    withReturns (front ++ back) = withReturns front ++ withReturns back :=
  List.flatMap_append

theorem returns_head (mark : Char) (other : mark ≠ '\r') (text : List Char)
    (head : mark ∈ (withReturns text).head?) : mark ∈ text.head? := by
  cases text with
  | nil => exact head
  | cons c rest =>
      by_cases ends : c = '\n'
      · rw [ends, returns_newline] at head
        exact absurd (Option.some.inj head).symm other
      · rwa [returns_other ends] at head

theorem take_returns (onLine : '\n' ∉ text.take length) :
    (withReturns text).take length = text.take length := by
  induction text generalizing length with
  | nil => rfl
  | cons c rest ih =>
      cases length with
      | zero => rfl
      | succ length =>
          rw [List.take_succ_cons, List.mem_cons, not_or] at onLine
          rw [returns_other (Ne.symm onLine.1), List.take_succ_cons,
            List.take_succ_cons, ih onLine.2]

theorem drop_returns (onLine : '\n' ∉ text.take length) :
    (withReturns text).drop length = withReturns (text.drop length) := by
  induction text generalizing length with
  | nil => rw [List.drop_nil]; exact List.drop_nil
  | cons c rest ih =>
      cases length with
      | zero => rfl
      | succ length =>
          rw [List.take_succ_cons, List.mem_cons, not_or] at onLine
          rw [returns_other (Ne.symm onLine.1), List.drop_succ_cons,
            List.drop_succ_cons, ih onLine.2]

theorem returns_front (onLine : '\n' ∉ text.take length) :
    withReturns text = text.take length ++ withReturns (text.drop length) := by
  rw [← take_returns onLine, ← drop_returns onLine, List.take_append_drop]

theorem returns_onLine {line : List Char} (onLine : '\n' ∉ line) : withReturns line = line := by
  have whole : '\n' ∉ line.take line.length := by rwa [List.take_length]
  rw [returns_front whole, List.take_length, List.drop_length]
  exact List.append_nil line

theorem after_returns (here : Position) (text : List Char) :
    here.after (withReturns text) = here.after text := by
  induction text generalizing here with
  | nil => rfl
  | cons c rest ih =>
      by_cases ends : c = '\n'
      · rw [ends, returns_newline]
        exact ih _
      · rw [returns_other ends]
        exact ih _

end

/-- How far a text is read, at most to the end of its first line, and however its lines end. -/
structure WithinLine (length : List Char → Nat) : Prop where
  onLine (text : List Char) : '\n' ∉ text.take (length text)
  returns (text : List Char) : length (withReturns text) = length text

namespace WithinLine

variable {first second : List Char → Nat}

theorem andThen (front : WithinLine first) (back : WithinLine second) :
    WithinLine fun text => first text + second (text.drop (first text)) := by
  constructor
  · intro text
    rw [List.take_add, List.mem_append, not_or]
    exact ⟨front.onLine text, back.onLine _⟩
  · intro text
    rw [front.returns, drop_returns (front.onLine text), back.returns]

theorem run {inClass : Char → Bool} (newline : inClass '\n' = false)
    (carriage : inClass '\r' = false) : WithinLine (run inClass) := by
  constructor
  · intro text member
    exact absurd (mem_take_run member) (by rw [newline]; decide)
  · intro text
    induction text with
    | nil => rfl
    | cons c rest ih =>
        by_cases ends : c = '\n'
        · simp only [ends, returns_newline, run_cons, newline, carriage,
            Bool.false_eq_true, if_false]
        · rw [returns_other ends, run_cons, run_cons, ih]

theorem digits : WithinLine (Token.run Char.isDigit) := run rfl rfl

theorem fraction : WithinLine fraction := by
  have other {text : List Char} (plain : '.' ∉ text.head?) : Token.fraction text = 0 :=
    fraction_other fun c head same => plain (same ▸ head)
  constructor
  · intro text
    by_cases point : '.' ∈ text.head?
    · obtain ⟨rest, rfl⟩ := List.head?_eq_some_iff.mp point
      rw [fraction_point]
      split
      · exact List.not_mem_nil
      · rw [Nat.add_comm, List.take_succ_cons, List.mem_cons, not_or]
        exact ⟨by decide, digits.onLine rest⟩
    · rw [other point]
      exact List.not_mem_nil
  · intro text
    by_cases point : '.' ∈ text.head?
    · obtain ⟨rest, rfl⟩ := List.head?_eq_some_iff.mp point
      rw [returns_other (by decide), fraction_point, fraction_point, digits.returns]
    · rw [other point, other fun head => point (returns_head '.' (by decide) text head)]

theorem signLength : WithinLine signLength := by
  constructor
  · intro text
    rcases signLength_cases text with ⟨sign, rest, isSign, rfl⟩ | none
    · rw [show Token.signLength (sign :: rest) =
        1 by rcases isSign with rfl | rfl <;> rfl, List.take_succ_cons]
      rcases isSign with rfl | rfl <;> exact fun member => by cases List.mem_singleton.mp member
    · rw [none]
      exact List.not_mem_nil
  · intro text
    cases text with
    | nil => rfl
    | cons c rest =>
        by_cases ends : c = '\n'
        · rw [ends]
          rfl
        · rw [returns_other ends, signLength_cons, signLength_cons]

theorem exponent : WithinLine exponent := by
  have power := signLength.andThen digits
  constructor
  · intro text
    cases text with
    | nil => exact List.not_mem_nil
    | cons c rest =>
        rw [exponent_cons]
        split
        · next mark =>
            split
            · exact List.not_mem_nil
            · rw [Nat.add_assoc, Nat.add_comm, List.take_succ_cons, List.mem_cons, not_or]
              exact ⟨by rcases mark with rfl | rfl <;> decide, power.onLine rest⟩
        · exact List.not_mem_nil
  · intro text
    cases text with
    | nil => rfl
    | cons c rest =>
        by_cases ends : c = '\n'
        · rw [ends]
          rfl
        · rw [returns_other ends, exponent_cons, exponent_cons, signLength.returns,
            drop_returns (signLength.onLine rest), digits.returns]

theorem decimals : WithinLine decimals := fraction.andThen exponent

end WithinLine

theorem closing_onLine {mark : Char} (newline : mark ≠ '\n') {text : List Char} {length : Nat}
    (closed : closing? mark text = some length) : '\n' ∉ text.take length := by
  fun_induction closing? mark text generalizing length with
  | case1 => cases closed
  | case2 rest ih =>
      obtain ⟨inner, inside, rfl⟩ := Option.map_eq_some_iff.mp closed
      simpa [Ne.symm newline] using ih inside
  | case3 =>
      cases closed
      simpa using Ne.symm newline
  | case4 =>
      cases closed
      simpa using Ne.symm newline
  | case5 => cases closed
  | case6 c rest other plain ih =>
      obtain ⟨inner, inside, rfl⟩ := Option.map_eq_some_iff.mp closed
      simpa [Ne.symm plain] using ih inside

theorem closing_returns {mark : Char} (newline : mark ≠ '\n') (carriage : mark ≠ '\r')
    (text : List Char) : closing? mark (withReturns text) = closing? mark text := by
  fun_induction closing? mark text with
  | case1 => rfl
  | case2 rest ih => rw [returns_other newline, returns_other newline, closing_pair, ih]
  | case3 d rest other =>
      have single : mark ∉ (withReturns (d :: rest)).head? := fun head =>
        other (Option.some.inj (returns_head mark carriage (d :: rest) head))
      rw [returns_other newline, closing_single single]
  | case4 =>
      rw [returns_other newline]
      exact closing_single fun head => by cases head
  | case5 rest other =>
      rw [returns_newline, closing_other (Ne.symm carriage), closing_other other,
        if_neg (by decide), if_pos rfl]
      rfl
  | case6 c rest other plain ih => rw [returns_other plain, closing_other other, if_neg plain, ih]

/-- What is read in front of a text, and in front of the text with carriage returns: a token in the
same way, and what is skipped in the same way too, or with the carriage return behind it. -/
inductive Reread (text : List Char) : Reading → Reading → Prop where
  | token {kind : Kind} {length : Nat} (onLine : '\n' ∉ text.take length) :
      Reread text (.inl kind, length) (.inl kind, length)
  | invalid {length length' : Nat} : Reread text (.inl .invalid, length) (.inl .invalid, length')
  | gap {kind : Gap} {length : Nat} :
      Reread text (.inr kind, length) (.inr kind, (withReturns (text.take length)).length)
  | ending {kind : Gap} {length : Nat} {below : List Char}
      (onLine : '\n' ∉ text.take length) (ends : text.drop length = '\n' :: below) :
      Reread text (.inr kind, length) (.inr kind, (text.take length).length + 1)

section
variable {c : Char} {text ahead : List Char}

theorem WithinLine.reread {length : List Char → Nat}
    (within : WithinLine length) (kind : Kind) (text : List Char) :
    Reread text (.inl kind, length text) (.inl kind, length (withReturns text)) := by
  rw [within.returns]
  exact .token (within.onLine text)

theorem reread_mark (kind : Kind) (text : List Char) : Reread text (.inl kind, 0) (.inl kind, 0) :=
  .token List.not_mem_nil

theorem reread_run {inClass : Char → Bool} (newline : inClass '\n' = false)
    (carriage : inClass '\r' = true) (kind : Gap) (text : List Char) :
    Reread text (.inr kind, run inClass text) (.inr kind, run inClass (withReturns text)) := by
  have inside : ∀ c ∈ text.take (run inClass text), inClass c = true :=
    fun c member => mem_take_run member
  have onLine : '\n' ∉ text.take (run inClass text) :=
    fun member => absurd (inside _ member) (by rw [newline]; decide)
  have stops := stops_drop_run inClass text
  have front := returns_front onLine
  cases behind : text.drop (run inClass text) with
  | nil =>
      rw [behind] at front
      rw [front, run_append inside (fun _ head => by cases head), ← returns_onLine onLine]
      exact .gap
  | cons d below =>
      rw [behind] at front stops
      -- What is skipped ends at a newline, whose return is skipped as well, or within the line.
      by_cases ends : d = '\n'
      · subst ends
        have crosses : ∀ c ∈ text.take (run inClass text) ++ ['\r'], inClass c = true := by
          simpa [or_imp, forall_and, carriage] using inside
        have split : withReturns text = (text.take (run inClass text) ++ ['\r']) ++ '\n' ::
            withReturns below := by
          rw [front, returns_newline, List.append_assoc]
          rfl
        rw [split, run_append crosses (fun c head => by cases head; exact newline),
          List.length_append]
        exact .ending onLine behind
      · rw [front, returns_other ends, run_append inside
          (fun c head => by cases head; exact stops d rfl), ← returns_onLine onLine]
        exact .gap

theorem reread_either (one : Kind) {second : Char} (newline : second ≠ '\n')
    (carriage : second ≠ '\r') (two : Kind) (ahead : List Char) :
    Reread ahead (either one second two ahead) (either one second two (withReturns ahead)) := by
  rw [either, either]
  by_cases doubled : ahead.head? = some second
  · obtain ⟨rest, rfl⟩ := List.head?_eq_some_iff.mp doubled
    rw [returns_other newline, List.head?_cons, List.head?_cons, if_pos rfl]
    apply Reread.token
    simpa using Ne.symm newline
  · have single : (withReturns ahead).head? ≠ some second :=
      fun head => doubled (returns_head second carriage ahead head)
    rw [if_neg doubled, if_neg single]
    exact reread_mark one ahead

theorem reread_quoted (kind : Kind) {mark : Char} (newline : mark ≠ '\n')
    (carriage : mark ≠ '\r') (ahead : List Char) :
    Reread ahead (quoted kind mark ahead) (quoted kind mark (withReturns ahead)) := by
  rw [quoted, quoted, closing_returns newline carriage]
  cases closed : closing? mark ahead with
  | none => exact .invalid
  | some length => exact .token (closing_onLine newline closed)

theorem opensBlock_returns (ahead : List Char) :
    opensBlock (withReturns ahead) = true ↔ ahead = ['\x7b'] := by
  constructor
  · intro opens
    match ahead with
    | [] => cases opens
    | [c] =>
        by_cases ends : c = '\n'
        · rw [ends] at opens
          cases opens
        · rw [returns_other ends] at opens
          rw [((opensBlock_cons _ _).mp opens).1]
    | c :: d :: rest =>
        by_cases ends : c = '\n'
        · rw [ends, returns_newline] at opens
          exact absurd ((opensBlock_cons _ _).mp opens).1 (by decide)
        · rw [returns_other ends] at opens
          have stops := ((opensBlock_cons _ _).mp opens).2
          by_cases below : d = '\n'
          · rw [below, returns_newline] at stops
            exact absurd (newline_of_stops stops) (by decide)
          · rw [returns_other below] at stops
            exact absurd (newline_of_stops stops) below
  · rintro rfl
    rfl

theorem reread_comment
    (lines : (comment c ahead).1 = .inr .blockComment → '\n' ∉ ahead.take (comment c ahead).2) :
    Reread ahead (comment c ahead) (comment c (withReturns ahead)) := by
  by_cases block : c = '%' ∧ opensBlock ahead = true
  · have onLine := lines (by rw [comment, if_pos block])
    rw [comment, if_pos block] at onLine
    obtain ⟨rfl, opens⟩ := block
    cases ahead with
    | nil => cases opens
    | cons d below =>
        obtain ⟨rfl, stops⟩ := (opensBlock_cons _ _).mp opens
        cases below with
        | nil => exact .gap
        | cons e rest =>
            obtain ⟨length, same⟩ :=
              Nat.exists_eq_succ_of_ne_zero (Nat.ne_of_gt (blockEnd_pos (List.cons_ne_nil e rest)))
            -- A block comment opens at the end of its line, so one with anything below it holds a
            -- newline.
            refine absurd ?_ onLine
            rw [List.drop_succ_cons, List.drop_zero, same, Nat.add_comm, List.take_succ_cons,
              List.take_succ_cons, newline_of_stops stops]
            exact List.mem_cons_of_mem _ List.mem_cons_self
  · have plain : ¬(c = '%' ∧ opensBlock (withReturns ahead) = true) := by
      rintro ⟨rfl, opens⟩
      rw [(opensBlock_returns ahead).mp opens] at block
      exact block ⟨rfl, rfl⟩
    rw [comment, comment, if_neg block, if_neg plain]
    exact reread_run rfl rfl .comment ahead

theorem line_split (text : List Char) : ∃ line behind, text = line ++ behind ∧ '\n' ∉ line ∧
      (behind = [] ∨ ∃ below, behind = '\n' :: below) := by
  refine ⟨text.take (run notNewline text), text.drop (run notNewline text),
    (List.take_append_drop _ _).symm, run_onLine text, ?_⟩
  have stops := stops_drop_run notNewline text
  cases behind : text.drop (run notNewline text) with
  | nil => exact .inl rfl
  | cons d below =>
      rw [behind] at stops
      exact .inr ⟨below, by rw [newline_of_stops stops]⟩

theorem reread_continuation (ahead : List Char) : Reread ('.' :: '.' :: ahead)
      (dotted ('.' :: '.' :: ahead)) (dotted ('.' :: '.' :: withReturns ahead)) := by
  have reads (line behind : List Char) (onLine : '\n' ∉ line)
      (stops : Stops notNewline behind) : dotted ('.' :: '.' :: (line ++ behind)) =
      (.inr .continuation, 2 + line.length + (behind.take 1).length) := by
    have length : run notNewline (line ++ behind) = line.length :=
      run_append (fun c member => bne_iff_ne.mpr fun same => onLine (same ▸ member)) stops
    rw [dotted, length, List.drop_left]
  -- what is taken is the given text, and with carriage returns that text with its own
  have taken {front behind : List Char} {length length' : Nat}
      (here : length = front.length) (there : length' = (withReturns front).length) :
      Reread (front ++ behind) (.inr .continuation, length) (.inr .continuation, length') := by
    have gap := @Reread.gap (front ++ behind) .continuation length
    rwa [here, List.take_left, ← there, ← here] at gap
  obtain ⟨line, behind, rfl, onLine, rfl | ⟨below, rfl⟩⟩ := line_split ahead
  · have ended (c : Char) (head : c ∈ ([] : List Char).head?) : notNewline c = false := by
      cases head
    have read := reads line [] onLine ended
    rw [List.append_nil] at read
    have points : '\n' ∉ '.' :: '.' :: line := by simpa using onLine
    rw [List.append_nil, returns_onLine onLine, read, ← List.append_nil ('.' :: '.' :: line)]
    apply taken
    · simp only [List.length_cons, List.take_nil, List.length_nil]
      omega
    · rw [returns_onLine points]
      simp only [List.length_cons, List.take_nil, List.length_nil]
      omega
  · have crosses : '\n' ∉ line ++ ['\r'] := by simpa using onLine
    have split : withReturns (line ++ '\n' :: below) = (line ++ ['\r']) ++ '\n' ::
        withReturns below := by
      rw [returns_append, returns_onLine onLine, returns_newline, List.append_assoc]
      rfl
    have front : '.' :: '.' :: (line ++ '\n' :: below) =
        ('.' :: '.' :: (line ++ ['\n'])) ++ below := by
      simp
    rw [split, reads line _ onLine (stops_newline _), reads _ _ crosses (stops_newline _), front]
    apply taken
    · simp
      omega
    · rw [returns_other (by decide), returns_other (by decide), returns_append,
        returns_onLine onLine, returns_newline]
      simp [withReturns]
      omega

theorem reread_dotted (ahead : List Char) :
    Reread ahead (dotted ahead) (dotted (withReturns ahead)) := by
  cases ahead with
  | nil => exact reread_mark .dot []
  | cons c rest =>
      by_cases ends : c = '\n'
      · rw [ends, returns_newline, dotted_plain rfl (by decide), dotted_plain rfl (by decide)]
        exact reread_mark .dot _
      rw [returns_other ends]
      by_cases point : c = '.'
      · subst point
        by_cases second : '.' ∈ rest.head?
        · obtain ⟨more, rfl⟩ := List.head?_eq_some_iff.mp second
          exact reread_continuation more
        · rw [dotted_point second, dotted_point fun head =>
            second (returns_head '.' (by decide) rest head)]
          exact reread_mark .dot _
      by_cases digit : c.isDigit = true
      -- A number is made of digits, signs and exponents, none of which crosses a line.
      · have number := (WithinLine.digits.andThen WithinLine.exponent).reread .number (c :: rest)
        rw [returns_other ends] at number
        rw [dotted_digit digit, dotted_digit digit]
        exact number
      have digit : c.isDigit = false := Bool.eq_false_iff.mpr digit
      by_cases plain : c ∈ ['.', '*', '/', '\\', '^', '\'']
      · simp only [List.mem_cons, List.not_mem_nil, or_false] at plain
        rcases plain with rfl | rfl | rfl | rfl | rfl | rfl
        · exact absurd rfl point
        all_goals exact .token (by simp)
      · rw [dotted_plain digit plain, dotted_plain digit plain]
        exact reread_mark .dot _

/-- Reading in front of a text with carriage returns, wherever no block comment over several lines
begins. -/
theorem read_returns {before : Option Kind} (other : c ≠ '\n')
    (lines : (read before c ahead).1 = .inr .blockComment →
      '\n' ∉ ahead.take (read before c ahead).2) :
    Reread ahead (read before c ahead) (read before c (withReturns ahead)) := by
  by_cases blank : isBlank c = true
  · simp only [read, if_pos blank]
    exact reread_run rfl rfl .blanks ahead
  by_cases start : isWordStart c = true
  · have word : WithinLine (run isWordRest) := .run rfl rfl
    simp only [read, if_neg blank, if_pos start, word.returns, take_returns (word.onLine ahead)]
    exact .token (word.onLine ahead)
  by_cases digit : c.isDigit = true
  · rw [read_digit digit, read_digit digit]
    exact (WithinLine.digits.andThen WithinLine.decimals).reread .number ahead
  unfold read at lines ⊢
  rw [if_neg blank, if_neg start, if_neg digit] at lines ⊢
  rw [if_neg blank, if_neg start, if_neg digit]
  split
  -- Of what is left, comments and continuations alone reach a newline.
  case h_1 | h_2 => exact reread_comment lines
  case h_3 => exact reread_dotted ahead
  case h_4 => exact reread_quoted .doubleQuoted (by decide) (by decide) ahead
  case h_5 =>
    split
    · exact reread_mark .quote ahead
    · exact reread_quoted .singleQuoted (by decide) (by decide) ahead
  case h_16 | h_17 | h_18 | h_19 | h_20 | h_21 | h_22 =>
    exact reread_either _ (by decide) (by decide) _ ahead
  all_goals exact reread_mark _ ahead

end

/-- The same tokens in the same places, but for newlines and the gaps in front of them, as far as
they are valid. The tokens in front of them end at those offsets. -/
inductive Relined : Nat → Nat → List Token → List Token → Prop where
  | nil {stop stop' : Nat} : Relined stop stop' [] []
  | invalid {stop stop' : Nat} {token token' : Token} {rest rest' : List Token}
      (kind : token.kind = .invalid) (kind' : token'.kind = .invalid) :
      Relined stop stop' (token :: rest) (token' :: rest')
  | newline {stop stop' : Nat} {token token' : Token} {rest rest' : List Token}
      (kind : token.kind = .newline) (kind' : token'.kind = .newline)
      (text : token'.text = token.text) (more : Relined token.stop token'.stop rest rest') :
      Relined stop stop' (token :: rest) (token' :: rest')
  | token {stop stop' : Nat} {token token' : Token} {rest rest' : List Token}
      (kind : token'.kind = token.kind) (text : token'.text = token.text)
      (position : token'.position = token.position)
      (gap : stop' < token'.start ↔ stop < token.start)
      (more : Relined token.stop token'.stop rest rest') :
      Relined stop stop' (token :: rest) (token' :: rest')

variable {before : Option Kind} {c : Char} {ahead : List Char}

theorem place_gap_returns {kind : Gap} {length : Nat} (other : c ≠ '\n')
    (reread : Reread ahead (.inr kind, length) (read before c (withReturns ahead)))
    (offset : Nat) (here : Position) :
    ∃ bytes > 0, place offset here (scan before (withReturns (c :: ahead))) = place (offset + bytes)
      (here.after (c :: ahead.take length)) (scan none (withReturns (ahead.drop length))) := by
  have width (text : List Char) : 0 < byteLength (c :: text) :=
    byteLength_pos (List.cons_ne_nil c text)
  have split : withReturns ahead = withReturns (ahead.take length) ++
      withReturns (ahead.drop length) := by
    rw [← returns_append, List.take_append_drop]
  rw [returns_other other]
  generalize reads : read before c (withReturns ahead) = reading at reread
  cases reread with
  | gap =>
      refine ⟨byteLength (c :: withReturns (ahead.take length)), width _, ?_⟩
      rw [scan_of_read reads, split, List.take_left, List.drop_left]
      have place := after_returns here (c :: ahead.take length)
      rw [returns_other other] at place
      rw [← place]
      rfl
  | @ending _ _ below onLine ends =>
      -- the carriage return that is skipped here is a blank in front of the rest
      refine ⟨byteLength (c :: ahead.take length), width _, ?_⟩
      have front : withReturns ahead = (ahead.take length ++ ['\r']) ++ '\n' ::
          withReturns below := by
        rw [split, returns_onLine onLine, ends, returns_newline, List.append_assoc]
        rfl
      have cut : (ahead.take length).length + 1 = (ahead.take length ++ ['\r']).length := by
        rw [List.length_append, List.length_singleton]
      rw [ends, returns_newline, @place_blank '\r' (by decide), scan_of_read reads, front, cut,
        List.take_left, List.drop_left]
      change place (offset + byteLength (c :: ahead.take length ++ ['\r']))
        (here.after (c :: ahead.take length ++ ['\r'])) _ = _
      rw [byteLength_append, Position.after_append, Nat.add_assoc]
      rfl

/-- Scanning a text with carriage returns in front of its newlines, where no block comment runs over
several lines. -/
theorem place_returns (before : Option Kind) (source : List Char)
    (lines : ∀ text, .gap .blockComment text ∈ scan before source → '\n' ∉ text)
    {stop stop' offset offset' : Nat} (behind : stop ≤ offset) (behind' : stop' ≤ offset')
    (gap : stop' < offset' ↔ stop < offset) (here : Position) :
    Relined stop stop' (place offset here (scan before source))
      (place offset' here (scan before (withReturns source))) := by
  fun_induction scan before source generalizing stop stop' offset offset' here with
  | case1 =>
      rw [withReturns, List.flatMap_nil, scan]
      exact .nil
  | case2 before c ahead sort length reads lexeme ih =>
      have rest : ∀ text, .gap .blockComment text ∈ scan lexeme.kind? (ahead.drop length) →
          '\n' ∉ text :=
        fun text member => lines text (List.mem_cons_of_mem _ member)
      -- The newline is the only character that gets a return, which is a blank in front of it.
      by_cases ends : c = '\n'
      · subst ends
        cases reads
        rw [returns_newline, @place_blank '\r' (by decide), scan_of_read (read_newline none _)]
        exact .newline rfl rfl rfl (ih rest (Nat.le_refl _) (Nat.le_refl _)
          (iff_of_false (Nat.lt_irrefl _) (Nat.lt_irrefl _)) (here.after ['\n']))
      have reread : Reread ahead (sort, length) (read before c (withReturns ahead)) := by
        rw [← reads]
        refine read_returns ends fun block => ?_
        rw [reads] at block ⊢
        cases block
        exact fun inside => lines _ List.mem_cons_self (List.mem_cons_of_mem c inside)
      -- A gap may become longer by the returns in it, and is still skipped; a token stays on its
      -- line and has none.
      cases sort with
      | inr kind =>
          obtain ⟨bytes, positive, same⟩ := place_gap_returns ends reread offset' here
          have filled := byteLength_pos (List.cons_ne_nil c (ahead.take length))
          rw [same]
          change Relined stop stop' (place (offset + byteLength (c :: ahead.take length)) _
            (scan none (ahead.drop length))) _
          exact ih rest (by omega) (by omega) (iff_of_true (by omega) (by omega)) _
      | inl kind =>
          rw [returns_other ends]
          generalize reads' : read before c (withReturns ahead) = reading at reread
          cases reread with
          | token onLine =>
              rw [scan_of_read reads', take_returns onLine, drop_returns onLine]
              exact .token rfl rfl rfl gap (ih rest (Nat.le_refl _) (Nat.le_refl _)
                (iff_of_false (Nat.lt_irrefl _) (Nat.lt_irrefl _)) _)
          | invalid =>
              rw [scan_of_read reads']
              exact .invalid rfl rfl

end ScriptFlow.Token
