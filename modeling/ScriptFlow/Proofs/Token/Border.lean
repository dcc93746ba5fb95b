import ScriptFlow.Proofs.Token.Placed

/-!
How far ahead reading a lexeme looks. A lexeme that ends in front of a border, or at it, is read in
the same way when a newline or a comma stands behind the border instead of what stood there.
-/

namespace ScriptFlow.Token

/-- A character that prolongs nothing but what runs to the end of the line. -/
def IsBreak (c : Char) : Prop := c = '\n' ∨ c = ','

/-- What stands at the border, and what stands there instead. -/
structure Swap (back other : List Char) : Prop where
  breaks : ∃ c rest, other = c :: rest ∧ IsBreak c
  /-- What runs to the end of the line ends there as well. -/
  line : Stops notNewline back → Stops notNewline other

theorem stops_newline (below : List Char) : Stops notNewline ('\n' :: below) := by
  intro c first
  cases first
  rfl

theorem newline_of_stops {c : Char} {rest : List Char}
    (stops : Stops notNewline (c :: rest)) : c = '\n' := by
  simpa [notNewline] using stops c rfl

namespace Swap

variable {front back other : List Char}

theorem newline (below : List Char) : Swap back ('\n' :: below) :=
  ⟨⟨_, _, rfl, .inl rfl⟩, fun _ => stops_newline below⟩

theorem stops {inClass : Char → Bool} (swap : Swap back other) (newline : inClass '\n' = false)
    (comma : inClass ',' = false) : Stops inClass other := by
  obtain ⟨c, rest, rfl, breaks⟩ := swap.breaks
  intro d first
  cases first
  rcases breaks with rfl | rfl
  · exact newline
  · exact comma

theorem head_ne (swap : Swap back other) {mark : Char} (newline : '\n' ≠ mark)
    (comma : ',' ≠ mark) : mark ∉ other.head? := by
  obtain ⟨c, rest, rfl, breaks⟩ := swap.breaks
  intro first
  cases first
  rcases breaks with same | same
  · exact newline same.symm
  · exact comma same.symm

end Swap

theorem run_cons (inClass : Char → Bool) (c : Char) (rest : List Char) :
    run inClass (c :: rest) = if inClass c then run inClass rest + 1 else 0 := by
  rw [run, List.takeWhile_cons]
  split <;> rfl

theorem stops_of_run {inClass : Char → Bool} {text : List Char} (none : run inClass text = 0) :
    Stops inClass text := by
  have stops := stops_drop_run inClass text
  rwa [none] at stops

section
variable {front back other : List Char}

theorem run_border {inClass : Char → Bool} (stops : Stops inClass back → Stops inClass other)
    (inside : run inClass (front ++ back) ≤ front.length) :
    run inClass (front ++ other) = run inClass (front ++ back) := by
  induction front with
  | nil =>
      have none : run inClass back = 0 := Nat.le_zero.mp inside
      rw [List.nil_append, List.nil_append, none, run_of_stops (stops (stops_of_run none))]
  | cons c rest ih =>
      rw [List.cons_append, run_cons] at inside
      rw [List.cons_append, List.cons_append, run_cons, run_cons]
      split at inside
      · exact congrArg (if inClass c = true then · + 1 else 0) (ih (Nat.le_of_succ_le_succ inside))
      · next outside => rw [if_neg outside, if_neg outside]

theorem digits_border (swap : Swap back other)
    (inside : run Char.isDigit (front ++ back) ≤ front.length) :
    run Char.isDigit (front ++ other) = run Char.isDigit (front ++ back) :=
  run_border (fun _ => swap.stops rfl rfl) inside

theorem fraction_border (swap : Swap back other)
    (inside : fraction (front ++ back) ≤ front.length) :
    fraction (front ++ other) = fraction (front ++ back) := by
  cases front with
  | nil =>
      have none : fraction back = 0 := Nat.le_zero.mp inside
      rw [List.nil_append, List.nil_append, none, fraction_other]
      rintro d first rfl
      exact swap.head_ne (by decide) (by decide) first
  | cons c rest =>
      by_cases point : c = '.'
      · subst point
        have short : run Char.isDigit (rest ++ back) ≤ rest.length := by
          rw [List.cons_append, fraction_point, List.length_cons] at inside
          split at inside <;> omega
        rw [List.cons_append, List.cons_append, fraction_point, fraction_point,
          digits_border swap short]
      · rw [fraction_other, fraction_other]
        all_goals
          intro d first
          cases first
          exact point

theorem signLength_cons (c : Char) (rest : List Char) :
    signLength (c :: rest) = if c = '+' ∨ c = '-' then 1 else 0 := by
  by_cases sign : c = '+' ∨ c = '-'
  · rw [if_pos sign]
    rcases sign with rfl | rfl <;> rfl
  · rw [if_neg sign]
    rcases signLength_cases (c :: rest) with ⟨_, _, isSign, same⟩ | none
    · cases same
      exact absurd isSign sign
    · exact none

theorem signLength_append (c : Char) (rest behind : List Char) :
    signLength (c :: rest ++ behind) = signLength (c :: rest) := by
  rw [List.cons_append, signLength_cons, signLength_cons]

theorem drop_sign (c : Char) (rest behind : List Char) :
    (c :: rest ++ behind).drop (signLength (c :: rest)) =
      (c :: rest).drop (signLength (c :: rest)) ++ behind := by
  refine List.drop_append_of_le_length ?_
  rw [signLength_cons, List.length_cons]
  split <;> omega

theorem exponent_border (swap : Swap back other)
    (inside : exponent (front ++ back) ≤ front.length) :
    exponent (front ++ other) = exponent (front ++ back) := by
  obtain ⟨d, more, rfl, breaks⟩ := swap.breaks
  cases front with
  | nil =>
      have none : exponent back = 0 := Nat.le_zero.mp inside
      rw [List.nil_append, List.nil_append, none, exponent_cons,
        if_neg (by rcases breaks with rfl | rfl <;> decide)]
  | cons c rest =>
      rw [List.cons_append, exponent_cons, List.length_cons] at inside
      rw [List.cons_append, List.cons_append, exponent_cons, exponent_cons]
      split at inside
      · next mark =>
          rw [if_pos mark, if_pos mark]
          cases rest with
          | nil =>
              -- only a sign and digits of what stood behind could make an exponent here
              have none : run Char.isDigit (back.drop (signLength back)) = 0 := by
                by_contra digits
                rw [List.nil_append, if_neg digits] at inside
                simp only [List.length_nil] at inside
                omega
              have sign : signLength (d :: more) = 0 := by
                rcases breaks with rfl | rfl <;> rfl
              rw [List.nil_append, List.nil_append, if_pos none, sign, List.drop_zero,
                run_of_stops (swap.stops rfl rfl)]
              rfl
          | cons e rest =>
              rw [signLength_append, drop_sign] at inside
              have digits : run Char.isDigit ((e :: rest).drop (signLength (e :: rest)) ++ back) ≤
                  ((e :: rest).drop (signLength (e :: rest))).length := by
                rw [List.length_drop]
                split at inside <;> omega
              rw [signLength_append, signLength_append, drop_sign, drop_sign,
                digits_border swap digits]
      · next mark => rw [if_neg mark, if_neg mark]

theorem decimals_border (swap : Swap back other)
    (inside : decimals (front ++ back) ≤ front.length) :
    decimals (front ++ other) = decimals (front ++ back) := by
  rw [decimals] at inside
  have point : fraction (front ++ other) = fraction (front ++ back) :=
    fraction_border swap (by omega)
  have short : fraction (front ++ back) ≤ front.length := by omega
  rw [List.drop_append_of_le_length short] at inside
  have power : exponent (front.drop (fraction (front ++ back)) ++ other) =
      exponent (front.drop (fraction (front ++ back)) ++ back) :=
    exponent_border swap (by rw [List.length_drop]; omega)
  rw [decimals, decimals, point, List.drop_append_of_le_length short,
    List.drop_append_of_le_length short, power]

def quotedLength (mark : Char) (ahead : List Char) : Nat :=
  (closing? mark ahead).getD (run notNewline ahead)

theorem quotedLength_pair {mark : Char} (onLine : mark ≠ '\n') (rest : List Char) :
    quotedLength mark (mark :: mark :: rest) = quotedLength mark rest + 2 := by
  have inside : notNewline mark = true := bne_iff_ne.mpr onLine
  rw [quotedLength, closing_pair, quotedLength, run_cons, run_cons, inside]
  cases closing? mark rest <;> rfl

theorem quotedLength_other {mark c : Char} (other : c ≠ mark) (onLine : c ≠ '\n')
    (rest : List Char) : quotedLength mark (c :: rest) = quotedLength mark rest + 1 := by
  have inside : notNewline c = true := bne_iff_ne.mpr onLine
  rw [quotedLength, closing_other other, if_neg onLine, quotedLength, run_cons, inside]
  cases closing? mark rest <;> rfl

theorem quotedLength_single {mark : Char} {rest : List Char} (away : mark ∉ rest.head?) :
    quotedLength mark (mark :: rest) = 1 := by
  rw [quotedLength, closing_single away]
  rfl

theorem stops_of_quoted {mark : Char} (onLine : mark ≠ '\n') {text : List Char}
    (none : quotedLength mark text = 0) : Stops notNewline text := by
  cases text with
  | nil => exact nofun
  | cons c rest =>
      by_contra runs
      have plain : c ≠ '\n' := by
        rintro rfl
        exact runs (stops_newline rest)
      by_cases same : c = mark
      · subst same
        by_cases doubled : c ∈ rest.head?
        · obtain ⟨more, rfl⟩ := List.head?_eq_some_iff.mp doubled
          rw [quotedLength_pair onLine] at none
          cases none
        · rw [quotedLength_single doubled] at none
          cases none
      · rw [quotedLength_other same plain] at none
        cases none

theorem closing_of_stops {mark : Char} (onLine : mark ≠ '\n') {text : List Char}
    (stops : Stops notNewline text) : closing? mark text = none := by
  cases text with
  | nil => rfl
  | cons c rest =>
      rw [newline_of_stops stops, closing_other (Ne.symm onLine), if_pos rfl]

theorem closing_border {mark : Char} (swap : Swap back other) (away : mark ∉ other.head?)
    (onLine : mark ≠ '\n') (inside : quotedLength mark (front ++ back) ≤ front.length) :
    closing? mark (front ++ other) = closing? mark (front ++ back) := by
  fun_induction closing? mark front with
  | case1 =>
      rw [List.nil_append] at inside
      have stops := stops_of_quoted onLine (Nat.le_zero.mp inside)
      rw [List.nil_append, List.nil_append, closing_of_stops onLine stops,
        closing_of_stops onLine (swap.line stops)]
  | case2 rest ih =>
      have both (behind : List Char) : closing? mark (mark :: mark :: rest ++ behind) =
          (closing? mark (rest ++ behind)).map (· + 2) := closing_pair mark _
      rw [List.cons_append, List.cons_append, quotedLength_pair onLine] at inside
      rw [both, both, ih (Nat.le_of_add_le_add_right inside)]
  | case3 d rest differs =>
      have single (behind : List Char) : closing? mark (mark :: d :: rest ++ behind) = some 1 :=
        closing_single fun first => differs (Option.some.inj first)
      rw [single, single]
  | case4 =>
      -- A second mark right behind the border would have been read as part of the text.
      have single : mark ∉ back.head? := by
        intro doubled
        obtain ⟨more, rfl⟩ := List.head?_eq_some_iff.mp doubled
        rw [List.singleton_append, quotedLength_pair onLine, List.length_singleton] at inside
        omega
      rw [List.singleton_append, List.singleton_append, closing_single single, closing_single away]
  | case5 rest differs =>
      rw [List.cons_append, List.cons_append, closing_other differs, closing_other differs,
        if_pos rfl, if_pos rfl]
  | case6 c rest differs line ih =>
      rw [List.cons_append, quotedLength_other differs line] at inside
      rw [List.cons_append, List.cons_append, closing_other differs, closing_other differs,
        if_neg line, if_neg line, ih (Nat.le_of_succ_le_succ inside)]

theorem quoted_border {mark : Char} {kind : Kind} (swap : Swap back other)
    (away : mark ∉ other.head?) (onLine : mark ≠ '\n')
    (inside : (quoted kind mark (front ++ back)).2 ≤ front.length) :
    quoted kind mark (front ++ other) = quoted kind mark (front ++ back) := by
  have length : (quoted kind mark (front ++ back)).2 = quotedLength mark (front ++ back) := by
    rw [quoted, quotedLength]
    cases closing? mark (front ++ back) <;> rfl
  rw [length] at inside
  rw [quoted, quoted, closing_border swap away onLine inside]
  cases closed : closing? mark (front ++ back) with
  | some count => rfl
  | none =>
      rw [quotedLength, closed] at inside
      exact congrArg (fun length => (Sum.inl Kind.invalid, length)) (run_border swap.line inside)

theorem blockEnd_cons (c : Char) (rest : List Char) :
    blockEnd (c :: rest) = if c = '%' ∧ '\x7d' ∈ rest.head? then 2 else 1 + blockEnd rest := by
  split
  · next closes =>
      obtain ⟨rfl, head⟩ := closes
      obtain ⟨more, rfl⟩ := List.head?_eq_some_iff.mp head
      rfl
  · next goesOn =>
      rw [blockEnd]
      rintro more rfl rfl
      exact goesOn ⟨rfl, rfl⟩

theorem blockEnd_pos {text : List Char} (some : text ≠ []) : 0 < blockEnd text := by
  obtain ⟨c, rest, rfl⟩ := List.exists_cons_of_ne_nil some
  rw [blockEnd_cons]
  split <;> omega

theorem blockEnd_border (some : back ≠ []) (inside : blockEnd (front ++ back) ≤ front.length) :
    blockEnd (front ++ other) = blockEnd (front ++ back) := by
  induction front with
  | nil =>
      have positive := blockEnd_pos some
      rw [List.nil_append, List.length_nil] at inside
      omega
  | cons c rest ih =>
      rw [List.cons_append, blockEnd_cons, List.length_cons] at inside
      -- The two marks that close the comment both stand in front of the border.
      cases rest with
      | nil =>
          have positive := blockEnd_pos some
          rw [List.nil_append, List.length_nil] at inside
          split at inside <;> omega
      | cons d more =>
          change blockEnd (c :: (d :: more ++ other)) = blockEnd (c :: (d :: more ++ back))
          rw [blockEnd_cons, blockEnd_cons]
          split at inside
          · next closes =>
              rw [if_pos closes]
              exact if_pos closes
          · next goesOn =>
              rw [if_neg goesOn, ih (by omega)]
              exact if_neg goesOn

theorem opensBlock_cons (c : Char) (rest : List Char) :
    opensBlock (c :: rest) = true ↔ c = '\x7b' ∧ Stops notNewline rest := by
  constructor
  · intro opens
    unfold opensBlock at opens
    split at opens
    · next same =>
        cases same
        exact ⟨rfl, nofun⟩
    · next same =>
        cases same
        exact ⟨rfl, stops_newline _⟩
    · cases opens
  · rintro ⟨rfl, stops⟩
    cases rest with
    | nil => rfl
    | cons d more =>
        rw [newline_of_stops stops]
        rfl

theorem comment_border {c : Char} (swap : Swap back other)
    (closed : back = [] → (comment c (front ++ back)).1 ≠ .inr .blockComment)
    (inside : (comment c (front ++ back)).2 ≤ front.length) :
    comment c (front ++ other) = comment c (front ++ back) := by
  by_cases block : c = '%' ∧ opensBlock (front ++ back) = true
  · rw [comment, if_pos block] at inside closed
    obtain ⟨rfl, opens⟩ := block
    cases front with
    | nil => exact absurd inside (by simp)
    | cons x rest =>
        obtain ⟨rfl, stops⟩ := (opensBlock_cons _ _).mp opens
        have some : back ≠ [] := fun none => closed none rfl
        have stops' : Stops notNewline (rest ++ other) := by
          cases rest with
          | nil => exact swap.line stops
          | cons => exact stops
        have opens' : opensBlock ('\x7b' :: rest ++ other) = true :=
          (opensBlock_cons _ _).mpr ⟨rfl, stops'⟩
        have short : blockEnd (rest ++ back) ≤ rest.length := by
          change 1 + blockEnd (rest ++ back) ≤ rest.length + 1 at inside
          omega
        rw [comment, comment, if_pos ⟨rfl, opens'⟩, if_pos ⟨rfl, opens⟩]
        exact congrArg (fun length => (Sum.inr Gap.blockComment, 1 + length))
          (blockEnd_border some short)
  · rw [comment, if_neg block] at inside
    -- No block opens over the other text either: a brace at the border would have been part of the
    -- comment.
    have plain : ¬(c = '%' ∧ opensBlock (front ++ other) = true) := by
      rintro ⟨rfl, opens⟩
      cases front with
      | nil =>
          obtain ⟨d, more, rfl, breaks⟩ := swap.breaks
          obtain ⟨rfl, _⟩ := (opensBlock_cons _ _).mp opens
          rcases breaks with same | same <;> cases same
      | cons x rest =>
          obtain ⟨rfl, stops⟩ := (opensBlock_cons _ _).mp opens
          refine block ⟨rfl, (opensBlock_cons _ _).mpr ⟨rfl, ?_⟩⟩
          cases rest with
          | nil =>
              change run notNewline ('\x7b' :: back) ≤ 1 at inside
              rw [run_cons, if_pos (by decide)] at inside
              exact stops_of_run (Nat.le_zero.mp (Nat.le_of_succ_le_succ inside))
          | cons => exact stops
    rw [comment, comment, if_neg block, if_neg plain]
    exact congrArg (fun length => (Sum.inr Gap.comment, length)) (run_border swap.line inside)

theorem either_border {one two : Kind} {second : Char} (away : second ∉ other.head?)
    (inside : (either one second two (front ++ back)).2 ≤ front.length) :
    either one second two (front ++ other) = either one second two (front ++ back) := by
  cases front with
  | nil =>
      have single : back.head? ≠ some second := by
        intro doubled
        rw [either, List.nil_append, if_pos doubled] at inside
        cases inside
      rw [either, either, List.nil_append, List.nil_append, if_neg single]
      exact if_neg away
  | cons c rest => rfl

theorem dotted_point {rest : List Char} (single : '.' ∉ rest.head?) :
    dotted ('.' :: rest) = (.inl .dot, 0) := by
  unfold dotted
  split
  case h_1 more same =>
    cases same
    exact absurd rfl single
  case h_7 => rfl
  all_goals
    next same => cases same

theorem dotted_plain {c : Char} (digit : c.isDigit = false)
    (plain : c ∉ ['.', '*', '/', '\\', '^', '\'']) (rest : List Char) :
    dotted (c :: rest) = (.inl .dot, 0) := by
  unfold dotted
  split
  case h_7 =>
    rw [run_cons, digit]
    rfl
  all_goals
    next same =>
      cases same
      exact absurd (by decide) plain

theorem continuation_border (swap : Swap back other) (ended : back ≠ [])
    (inside : (dotted ('.' :: '.' :: front ++ back)).2 ≤ front.length + 2) :
    dotted ('.' :: '.' :: front ++ other) = dotted ('.' :: '.' :: front ++ back) := by
  have read (behind : List Char) : dotted ('.' :: '.' :: front ++ behind) =
      (.inr .continuation, 2 + run notNewline (front ++ behind) +
      (((front ++ behind).drop (run notNewline (front ++ behind))).take 1).length) := rfl
  rw [read, List.length_take] at inside
  have line : run notNewline (front ++ other) = run notNewline (front ++ back) :=
    run_border swap.line (by omega)
  have short : run notNewline (front ++ back) ≤ front.length := by omega
  rw [read, read, line, List.drop_append_of_le_length short, List.drop_append_of_le_length short,
    List.length_take, List.length_take]
  rw [List.length_drop, List.length_append] at inside
  have some := List.length_pos_iff.mpr ended
  have cut : 0 < (front.drop (run notNewline (front ++ back))).length := by
    rw [List.length_drop]
    omega
  rw [List.length_append, List.length_append, Nat.min_eq_left (by omega),
    Nat.min_eq_left (by omega)]

theorem dotted_none {text : List Char} (none : (dotted text).2 = 0) :
    dotted text = (.inl .dot, 0) := by
  revert none
  fun_cases dotted text with
  | case1 rest line =>
      intro none
      have short : 2 + line + ((rest.drop line).take 1).length = 0 := none
      omega
  | case7 => exact fun _ => rfl
  | case8 =>
      intro none
      have zero : run Char.isDigit text + exponent (text.drop (run Char.isDigit text)) = 0 := none
      have digits : run Char.isDigit text ≠ 0 := by assumption
      omega
  | _ => exact fun none => absurd none Nat.one_ne_zero

theorem dotted_border (swap : Swap back other)
    (ended : back = [] → (dotted (front ++ back)).1 ≠ .inr .continuation)
    (inside : (dotted (front ++ back)).2 ≤ front.length) :
    dotted (front ++ other) = dotted (front ++ back) := by
  cases front with
  | nil =>
      obtain ⟨d, more, rfl, breaks⟩ := swap.breaks
      rw [List.nil_append] at inside
      rw [List.nil_append, List.nil_append, dotted_none (Nat.le_zero.mp inside)]
      exact dotted_plain (by rcases breaks with rfl | rfl <;> rfl)
        (by rcases breaks with rfl | rfl <;> decide) more
  | cons c rest =>
      by_cases point : c = '.'
      · subst point
        cases rest with
        | nil =>
            have single : '.' ∉ back.head? := by
              intro doubled
              obtain ⟨more, rfl⟩ := List.head?_eq_some_iff.mp doubled
              have short : 2 + run notNewline more +
                  ((more.drop (run notNewline more)).take 1).length ≤ 1 := inside
              omega
            exact (dotted_point (swap.head_ne (by decide) (by decide))).trans
              (dotted_point single).symm
        | cons d more =>
            by_cases second : d = '.'
            · subst second
              refine continuation_border swap ?_ inside
              rintro rfl
              exact ended rfl rfl
            · have single (behind : List Char) :
                  dotted ('.' :: d :: more ++ behind) = (.inl .dot, 0) :=
                dotted_point fun first => second (Option.some.inj first)
              rw [single, single]
      -- Digits and a power behind the point, each within the front.
      · by_cases digit : c.isDigit = true
        · rw [List.cons_append, dotted_digit digit] at inside
          rw [List.cons_append, List.cons_append, dotted_digit digit, dotted_digit digit]
          rw [← List.cons_append, ← List.cons_append]
          have short : run Char.isDigit (c :: rest ++ back) ≤ (c :: rest).length :=
            Nat.le_trans (Nat.le_add_right _ _) inside
          rw [← List.cons_append, List.drop_append_of_le_length short] at inside
          have power : exponent ((c :: rest).drop (run Char.isDigit (c :: rest ++ back)) ++ other) =
              exponent ((c :: rest).drop (run Char.isDigit (c :: rest ++ back)) ++ back) :=
            exponent_border swap (by rw [List.length_drop]; dsimp only at inside; omega)
          rw [digits_border swap short, List.drop_append_of_le_length short,
            List.drop_append_of_le_length short, power]
        · have digit : c.isDigit = false := Bool.eq_false_iff.mpr digit
          by_cases plain : c ∈ ['.', '*', '/', '\\', '^', '\'']
          · simp only [List.mem_cons, List.not_mem_nil, or_false] at plain
            rcases plain with rfl | rfl | rfl | rfl | rfl | rfl <;>
              first | rfl | exact absurd rfl point
          · rw [List.cons_append, List.cons_append, dotted_plain digit plain,
              dotted_plain digit plain]

end

/-- A lexeme that ends in front of the border is read in the same way over another text behind it.
What would run past the end of the text is left out. -/
theorem read_border {front back other : List Char} (swap : Swap back other) {before : Option Kind}
    {c : Char} (ended : back = [] → (read before c (front ++ back)).1 ≠ .inr .blockComment ∧
      (read before c (front ++ back)).1 ≠ .inr .continuation)
    (inside : (read before c (front ++ back)).2 ≤ front.length) :
    read before c (front ++ other) = read before c (front ++ back) := by
  by_cases blank : isBlank c = true
  · have length : run isBlank (front ++ back) ≤ front.length := by simpa [read, blank] using inside
    have same := run_border (fun _ => swap.stops rfl rfl) length
    simp [read, blank, same]
  by_cases start : isWordStart c = true
  · have length : run isWordRest (front ++ back) ≤ front.length := by
      simpa [read, blank, start] using inside
    have same := run_border (fun _ => swap.stops rfl rfl) length
    simp [read, blank, start, same, List.take_append_of_le_length length]
  by_cases digit : c.isDigit = true
  · rw [read_digit digit] at inside
    have short : run Char.isDigit (front ++ back) ≤ front.length :=
      Nat.le_trans (Nat.le_add_right _ _) inside
    rw [List.drop_append_of_le_length short] at inside
    have rest : decimals (front.drop (run Char.isDigit (front ++ back)) ++ other) =
        decimals (front.drop (run Char.isDigit (front ++ back)) ++ back) :=
      decimals_border swap (by rw [List.length_drop]; dsimp only at inside; omega)
    rw [read_digit digit, read_digit digit, digits_border swap short,
      List.drop_append_of_le_length short, List.drop_append_of_le_length short, rest]
  unfold read at ended inside ⊢
  rw [if_neg blank, if_neg start, if_neg digit] at ended inside ⊢
  rw [if_neg blank, if_neg start, if_neg digit]
  have equal : '=' ∉ other.head? := swap.head_ne (by decide) (by decide)
  -- Only marks are left: comments, points and quotes look further ahead, the others at the next
  -- character alone.
  split
  case h_1 | h_2 => exact comment_border swap (fun none => (ended none).1) inside
  case h_3 => exact dotted_border swap (fun none => (ended none).2) inside
  case h_4 => exact quoted_border swap (swap.head_ne (by decide) (by decide)) (by decide) inside
  case h_5 =>
    cases ends : before.any Kind.endsValue with
    | true => rfl
    | false =>
        rw [ends] at inside
        exact quoted_border swap (swap.head_ne (by decide) (by decide)) (by decide) inside
  case h_16 | h_17 | h_18 | h_19 | h_20 => exact either_border equal inside
  case h_21 => exact either_border (swap.head_ne (by decide) (by decide)) inside
  case h_22 => exact either_border (swap.head_ne (by decide) (by decide)) inside
  all_goals rfl

end ScriptFlow.Token
