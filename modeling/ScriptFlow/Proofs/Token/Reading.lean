import Mathlib.Data.List.TakeWhile
import ScriptFlow.Text.Quoted
import ScriptFlow.Token.Lexeme

/-!
Reading one lexeme. A lexeme is read off the front of a text when its own text is well formed, the
text behind does not prolong it, and the token in front gives a quote the right meaning.
-/

namespace ScriptFlow

def Quoting.kind : Quoting → Token.Kind
  | single => .singleQuoted
  | double => .doubleQuoted

namespace Token

def Stops (inClass : Char → Bool) (ahead : List Char) : Prop := ∀ c ∈ ahead.head?, inClass c = false

theorem run_of_stops {inClass : Char → Bool} {ahead : List Char} (stops : Stops inClass ahead) :
    run inClass ahead = 0 := by
  cases ahead with
  | nil => rfl
  | cons c rest => simp [run, stops c rfl]

theorem run_append {inClass : Char → Bool} {text ahead : List Char}
    (all : ∀ c ∈ text, inClass c = true) (stops : Stops inClass ahead) :
    run inClass (text ++ ahead) = text.length := by
  have none : ahead.takeWhile inClass = [] := List.length_eq_zero_iff.mp (run_of_stops stops)
  rw [run, List.takeWhile_append_of_pos all, none, List.append_nil]

theorem take_run (inClass : Char → Bool) (ahead : List Char) :
    ahead.take (run inClass ahead) = ahead.takeWhile inClass :=
  List.prefix_iff_eq_take.mp (List.takeWhile_prefix inClass) |>.symm

theorem mem_take_run {inClass : Char → Bool} {ahead : List Char} {c : Char}
    (member : c ∈ ahead.take (run inClass ahead)) : inClass c = true := by
  rw [take_run] at member
  exact List.mem_takeWhile_imp member

theorem length_take_run (inClass : Char → Bool) (ahead : List Char) :
    (ahead.take (run inClass ahead)).length = run inClass ahead := by rw [take_run, run]

theorem run_take {inClass : Char → Bool} {text ahead : List Char} (stops : Stops inClass ahead) :
    run inClass (text.take (run inClass text) ++ ahead) = run inClass text := by
  rw [run_append (fun _ member => mem_take_run member) stops, length_take_run]

structure EndsNumber (ahead : List Char) : Prop where
  digits : Stops Char.isDigit ahead
  fraction : fraction ahead = 0
  exponent : exponent ahead = 0

theorem fraction_point (ahead : List Char) : fraction ('.' :: ahead) = if run Char.isDigit ahead =
      0 then 0 else 1 + run Char.isDigit ahead := by
  rw [fraction]
  cases run Char.isDigit ahead <;> rfl

theorem fraction_other {text : List Char} (other : ∀ c ∈ text.head?, c ≠ '.') :
    fraction text = 0 := by
  cases text with
  | nil => rfl
  | cons c rest =>
      rw [fraction]
      rintro ahead same
      cases same
      exact other '.' rfl rfl

theorem fraction_take {text ahead : List Char}
    (stops : Stops Char.isDigit ahead) (none : fraction ahead = 0) :
    fraction (text.take (fraction text) ++ ahead) = fraction text := by
  by_cases point : ∃ rest, text = '.' :: rest
  · obtain ⟨rest, rfl⟩ := point
    rw [fraction_point]
    by_cases empty : run Char.isDigit rest = 0
    · rw [if_pos empty, List.take_zero, List.nil_append, none]
    · rw [if_neg empty, Nat.add_comm, List.take_succ_cons, List.cons_append, fraction_point,
        run_take stops, if_neg empty, Nat.add_comm]
  · have zero : fraction text = 0 := fraction_other fun c head same => point ⟨text.tail, by
      cases text with
      | nil => cases head
      | cons d rest =>
          cases head
          rw [same]
          rfl⟩
    rw [zero, List.take_zero, List.nil_append, none]

def signLength : List Char → Nat
  | '+' :: _ | '-' :: _ => 1
  | _ => 0

theorem signLength_cases (text : List Char) :
    (∃ sign rest, (sign = '+' ∨ sign = '-') ∧ text = sign :: rest) ∨ signLength text = 0 := by
  unfold signLength
  split
  · exact .inl ⟨'+', _, .inl rfl, rfl⟩
  · exact .inl ⟨'-', _, .inr rfl, rfl⟩
  · exact .inr rfl

theorem signLength_digit {c : Char} (digit : c.isDigit = true) (rest : List Char) :
    signLength (c :: rest) = 0 := by
  rcases signLength_cases (c :: rest) with ⟨sign, tail, isSign, same⟩ | none
  · cases same
    rcases isSign with rfl | rfl <;> cases digit
  · exact none

theorem exponent_cons (c : Char) (ahead : List Char) :
    exponent (c :: ahead) =
      if c = 'e' ∨ c = 'E' then
        if run Char.isDigit (ahead.drop (signLength ahead)) = 0 then 0
        else 1 + signLength ahead + run Char.isDigit (ahead.drop (signLength ahead))
      else 0 := by
  rw [exponent.eq_def]
  refine if_congr Iff.rfl ?_ rfl
  unfold signLength
  split
  all_goals
    dsimp only
    split <;> simp_all

theorem signLength_take {text : List Char}
    (digits : run Char.isDigit (text.drop (signLength text)) ≠ 0) (ahead : List Char) :
    signLength (text.take (signLength text) ++
        ((text.drop (signLength text)).take (run Char.isDigit (text.drop (signLength text))) ++
            ahead)) = signLength text ∧
      (text.take (signLength text)).length = signLength text := by
  rcases signLength_cases text with ⟨sign, rest, isSign, rfl⟩ | none
  · rcases isSign with rfl | rfl <;> exact ⟨rfl, rfl⟩
  · rw [none, List.drop_zero] at digits ⊢
    refine ⟨?_, rfl⟩
    cases text with
    | nil => exact absurd rfl digits
    | cons c rest =>
        have digit : c.isDigit = true := by
          by_contra other
          exact digits (run_of_stops (by simpa [Stops] using other))
        obtain ⟨count, positive⟩ := Nat.exists_eq_succ_of_ne_zero digits
        rw [positive, List.take_succ_cons]
        exact signLength_digit digit _

theorem exponent_take {text ahead : List Char}
    (stops : Stops Char.isDigit ahead) (none : exponent ahead = 0) :
    exponent (text.take (exponent text) ++ ahead) = exponent text := by
  cases text with
  | nil => rw [exponent, List.take_zero, List.nil_append, none]
  | cons c rest =>
      rw [exponent_cons]
      by_cases mark : c = 'e' ∨ c = 'E'
      · rw [if_pos mark]
        by_cases empty : run Char.isDigit (rest.drop (signLength rest)) = 0
        · rw [if_pos empty, List.take_zero, List.nil_append, none]
        · have split (digits : Nat) : rest.take (signLength rest + digits) = rest.take
              (signLength rest) ++ (rest.drop (signLength rest)).take digits := List.take_add
          rw [if_neg empty, Nat.add_assoc, Nat.add_comm 1, List.take_succ_cons, split,
            List.cons_append, exponent_cons, if_pos mark, List.append_assoc]
          obtain ⟨sign, length⟩ := signLength_take empty ahead
          rw [sign, List.drop_left' length, run_take stops, if_neg empty,
            Nat.add_comm _ 1, Nat.add_assoc]
      · rw [if_neg mark, List.take_zero, List.nil_append, none]

theorem exponent_head {text : List Char} {c : Char}
    (first : c ∈ (text.take (exponent text)).head?) : c = 'e' ∨ c = 'E' := by
  cases text with
  | nil => cases first
  | cons d rest =>
      rw [exponent_cons] at first
      split at first
      · next mark =>
          split at first
          · cases first
          · rw [Nat.add_assoc, Nat.add_comm 1, List.take_succ_cons] at first
            cases first
            exact mark
      · cases first

theorem stops_append {inClass : Char → Bool} {front back : List Char}
    (fronts : ∀ c ∈ front.head?, inClass c = false) (backs : Stops inClass back) :
    Stops inClass (front ++ back) := by
  cases front with
  | nil => exact backs
  | cons c rest => exact fronts

theorem fraction_append {front back : List Char} (fronts : ∀ c ∈ front.head?, c ≠ '.')
    (backs : fraction back = 0) : fraction (front ++ back) = 0 := by
  cases front with
  | nil => exact backs
  | cons c rest => exact fraction_other fronts

theorem fraction_le (text : List Char) : fraction text ≤ text.length := by
  by_cases point : ∃ rest, text = '.' :: rest
  · obtain ⟨rest, rfl⟩ := point
    have short : run Char.isDigit rest ≤ rest.length :=
      (List.takeWhile_sublist Char.isDigit).length_le
    rw [fraction_point, List.length_cons]
    split <;> omega
  · rw [fraction_other fun c head same => point ⟨text.tail, by
      cases text with
      | nil => cases head
      | cons d rest =>
          cases head
          rw [same]
          rfl⟩]
    exact Nat.zero_le _

theorem run_le (inClass : Char → Bool) (text : List Char) : run inClass text ≤ text.length :=
  (List.takeWhile_sublist inClass).length_le

theorem exponent_le (text : List Char) : exponent text ≤ text.length := by
  cases text with
  | nil => exact Nat.le_refl _
  | cons c rest =>
      have digits := run_le Char.isDigit (rest.drop (signLength rest))
      rw [List.length_drop] at digits
      rw [exponent_cons, List.length_cons]
      split
      · split <;> omega
      · omega

theorem decimals_le (text : List Char) : decimals text ≤ text.length := by
  have point := fraction_le text
  have power := exponent_le (text.drop (fraction text))
  rw [List.length_drop] at power
  rw [decimals]
  omega

theorem decimals_take {text ahead : List Char} (ends : EndsNumber ahead) :
    decimals (text.take (decimals text) ++ ahead) = decimals text := by
  have split : text.take (decimals text) = text.take (fraction text) ++
      (text.drop (fraction text)).take (exponent (text.drop (fraction text))) := List.take_add
  have point : fraction (text.take (decimals text) ++ ahead) = fraction text := by
    rw [split, List.append_assoc]
    refine fraction_take (stops_append (fun c first => ?_) ends.digits)
      (fraction_append (fun c first => ?_) ends.fraction)
    · rcases exponent_head first with rfl | rfl <;> rfl
    · rcases exponent_head first with rfl | rfl <;> decide
  have behind : (text.take (decimals text) ++ ahead).drop (fraction text) =
      (text.drop (fraction text)).take (exponent (text.drop (fraction text))) ++ ahead := by
    rw [split, List.append_assoc, List.drop_left' (List.length_take_of_le (fraction_le text))]
  rw [decimals, point, behind, exponent_take ends.digits ends.exponent, decimals]

theorem decimals_head {text ahead : List Char}
    (stops : Stops Char.isDigit ahead) (behind : Stops Char.isDigit text) :
    Stops Char.isDigit (text.take (decimals text) ++ ahead) := by
  refine stops_append (fun c first => ?_) stops
  cases text with
  | nil => cases first
  | cons d rest =>
      cases length : decimals (d :: rest) with
      | zero =>
          rw [length] at first
          cases first
      | succ count =>
          rw [length, List.take_succ_cons] at first
          cases first
          exact behind _ rfl

theorem stops_drop_run (inClass : Char → Bool) (text : List Char) :
    Stops inClass (text.drop (run inClass text)) := by
  induction text with
  | nil => exact fun _ first => nomatch first
  | cons c rest ih =>
      rw [run, List.takeWhile_cons]
      cases inside : inClass c with
      | true => exact ih
      | false =>
          intro d first
          cases first
          exact inside

structure IsName (text : List Char) : Prop where
  free : Kind.ofWord text = .word
  shape : ∃ c rest, text = c :: rest ∧ isWordStart c = true ∧ ∀ d ∈ rest, isWordRest d = true

/-- The text is read as one number in front of whatever ends a number. -/
def IsNumber (text : List Char) : Prop :=
  ∃ c rest, text = c :: rest ∧ ∀ before ahead, EndsNumber ahead →
    read before c (rest ++ ahead) = (.inl .number, rest.length)

theorem ofWord_mem (text : List Char) :
    Kind.ofWord text = .word ∨ Kind.ofWord text ∈ Kind.keywords := by
  rw [Kind.ofWord]
  cases found : Kind.keywords.find? fun kind => kind.spelling.toList = text with
  | none => exact .inl rfl
  | some kind => exact .inr (List.mem_of_find?_eq_some found)

theorem digit_plain {c : Char} (digit : c.isDigit = true) :
    isBlank c = false ∧ isWordStart c = false := by
  have other (d : Char) (plain : d.isDigit = false) : c ≠ d := by
    rintro rfl
    rw [digit] at plain
    cases plain
  have letter : c.isAlpha = false := by
    rw [← Bool.not_eq_true]
    intro alpha
    change (decide (c.val ≥ 48) && decide (c.val ≤ 57)) = true at digit
    change (decide (c.val ≥ 65 ∧ c.val ≤ 90) || (decide (c.val ≥ 97) && decide (c.val ≤ 122))) =
      true at alpha
    simp only [Bool.or_eq_true, decide_eq_true_eq, Bool.and_eq_true, UInt32.le_iff_toNat_le,
      ge_iff_le] at alpha digit
    simp at alpha digit
    omega
  simp [isBlank, isWordStart, letter, other ' ' rfl, other '\t' rfl, other '\r' rfl,
    other '\x0c' rfl, other '_' rfl]

theorem read_digit {before : Option Kind} {c : Char}
    (digit : c.isDigit = true) (ahead : List Char) : read before c ahead =
      (.inl .number, run Char.isDigit ahead + decimals (ahead.drop (run Char.isDigit ahead))) := by
  obtain ⟨blank, start⟩ := digit_plain digit
  simp [read, blank, start, digit]

theorem dotted_digit {c : Char} (digit : c.isDigit = true) (rest : List Char) :
    dotted (c :: rest) = (.inl .number, run Char.isDigit (c :: rest) +
      exponent ((c :: rest).drop (run Char.isDigit (c :: rest)))) := by
  have positive : run Char.isDigit (c :: rest) ≠ 0 := by
    rw [run, List.takeWhile_cons, digit]
    exact Nat.succ_ne_zero _
  unfold dotted
  split
  case h_7 =>
    cases length : run Char.isDigit (c :: rest) with
    | zero => exact absurd length positive
    | succ count => rfl
  all_goals
    next same =>
      cases same
      cases digit

theorem number_of_digit {c : Char} (digit : c.isDigit = true) (ahead : List Char) : IsNumber (c ::
      ahead.take (run Char.isDigit ahead + decimals (ahead.drop (run Char.isDigit ahead)))) := by
  have split :
      ahead.take (run Char.isDigit ahead + decimals (ahead.drop (run Char.isDigit ahead))) =
      ahead.take (run Char.isDigit ahead) ++ (ahead.drop (run Char.isDigit ahead)).take
      (decimals (ahead.drop (run Char.isDigit ahead))) := List.take_add
  refine ⟨c, _, rfl, fun before behind ends => ?_⟩
  have digits :=
    @run_take Char.isDigit ahead _ (decimals_head ends.digits (stops_drop_run Char.isDigit ahead))
  rw [read_digit digit, split, List.append_assoc, digits, List.drop_left' (length_take_run _ _),
    decimals_take ends, List.length_append, length_take_run, List.length_take_of_le (decimals_le _)]

theorem number_of_point (ahead : List Char) (digits : run Char.isDigit ahead ≠ 0) : IsNumber ('.' ::
      ahead.take (run Char.isDigit ahead + exponent (ahead.drop (run Char.isDigit ahead)))) := by
  have split :
      ahead.take (run Char.isDigit ahead + exponent (ahead.drop (run Char.isDigit ahead))) =
      ahead.take (run Char.isDigit ahead) ++ (ahead.drop (run Char.isDigit ahead)).take
      (exponent (ahead.drop (run Char.isDigit ahead))) := List.take_add
  refine ⟨'.', _, rfl, fun before behind ends => ?_⟩
  have stops : Stops Char.isDigit ((ahead.drop (run Char.isDigit ahead)).take
      (exponent (ahead.drop (run Char.isDigit ahead))) ++ behind) :=
    stops_append (fun c first => by rcases exponent_head first with rfl | rfl <;> rfl) ends.digits
  have same := @run_take Char.isDigit ahead _ stops
  have first : ∃ d rest, d.isDigit = true ∧ ahead.take (run Char.isDigit ahead) = d :: rest := by
    cases front : ahead.take (run Char.isDigit ahead) with
    | nil =>
        have length := length_take_run Char.isDigit ahead
        rw [front] at length
        exact absurd length.symm digits
    | cons d rest => exact ⟨d, rest, mem_take_run (by rw [front]; exact List.mem_cons_self), rfl⟩
  obtain ⟨d, rest, digit, front⟩ := first
  change dotted _ = _
  rw [split, List.append_assoc, front, List.cons_append, dotted_digit digit, ← List.cons_append,
    ← front, same, List.drop_left' (length_take_run _ _), exponent_take ends.digits ends.exponent,
    List.length_append, length_take_run, List.length_take_of_le (exponent_le _)]

/-- A text between two marks, on one line. -/
def IsQuoted (quoting : Quoting) (text : List Char) : Prop :=
  ∃ inner, '\n' ∉ inner ∧ text = Quoted.encode quoting inner

theorem halve_double (mark : Char) (inner : List Char) :
    Quoted.halve mark (Quoted.double mark inner) = inner := by
  induction inner with
  | nil => rfl
  | cons c rest ih =>
      rw [Quoted.double]
      split
      · next same =>
          rw [Quoted.halve, if_pos ⟨rfl, rfl⟩, ih, same]
      · next other =>
          cases double : Quoted.double mark rest with
          | nil =>
              rw [double] at ih
              rw [← ih]
              rfl
          | cons d more =>
              rw [Quoted.halve, if_neg fun both => other both.1, ← double, ih]

theorem decode_encode (quoting : Quoting) (inner : List Char) :
    Quoted.decode quoting (Quoted.encode quoting inner) = inner := by
  rw [Quoted.encode, Quoted.decode, List.drop_one, List.tail_cons,
    List.dropLast_concat, halve_double]

theorem closing_pair (mark : Char) (rest : List Char) :
    closing? mark (mark :: mark :: rest) = (closing? mark rest).map (· + 2) := by
  rw [closing?.eq_def]
  simp

theorem closing_single {mark : Char} {ahead : List Char} (ends : mark ∉ ahead.head?) :
    closing? mark (mark :: ahead) = some 1 := by
  rw [closing?.eq_def]
  cases ahead with
  | nil => simp
  | cons d rest =>
      have other : d ≠ mark := fun same => ends (by rw [same]; rfl)
      simp [other]

theorem closing_other {mark c : Char} (other : c ≠ mark) (ahead : List Char) :
    closing? mark (c :: ahead) = if c = '\n' then none else (closing? mark ahead).map (· + 1) := by
  rw [closing?.eq_def]
  simp [other]

theorem inner_of_closing {mark : Char} (onLine : mark ≠ '\n') {ahead : List Char} {length : Nat}
    (closed : closing? mark ahead = some length) :
    ∃ inner, '\n' ∉ inner ∧ ahead.take length = Quoted.double mark inner ++ [mark] := by
  fun_induction closing? mark ahead generalizing length with
  | case1 => cases closed
  | case2 rest ih =>
      obtain ⟨behind, inside, rfl⟩ := Option.map_eq_some_iff.mp closed
      obtain ⟨inner, plain, same⟩ := ih inside
      -- A doubled mark stands for one in the text.
      refine ⟨mark :: inner, by simp [onLine.symm, plain], ?_⟩
      rw [Quoted.double, if_pos rfl, List.take_succ_cons, List.take_succ_cons, same]
      rfl
  | case3 =>
      cases closed
      exact ⟨[], List.not_mem_nil, rfl⟩
  | case4 =>
      cases closed
      exact ⟨[], List.not_mem_nil, rfl⟩
  | case5 => cases closed
  | case6 c rest other line ih =>
      obtain ⟨behind, inside, rfl⟩ := Option.map_eq_some_iff.mp closed
      obtain ⟨inner, plain, same⟩ := ih inside
      refine ⟨c :: inner, by simp [Ne.symm line, plain], ?_⟩
      rw [Quoted.double, if_neg other, List.take_succ_cons, same]
      rfl

theorem closing_double {mark : Char} {inner ahead : List Char} (plain : '\n' ∉ inner)
    (ends : mark ∉ ahead.head?) : closing? mark (Quoted.double mark inner ++ mark :: ahead) =
      some ((Quoted.double mark inner).length + 1) := by
  induction inner with
  | nil =>
      rw [Quoted.double, List.nil_append, closing_single ends]
      rfl
  | cons c rest ih =>
      rw [List.mem_cons, not_or] at plain
      rw [Quoted.double]
      split
      · next same =>
          rw [List.cons_append, List.cons_append, closing_pair, ih plain.2]
          rfl
      · next other =>
          rw [List.cons_append, closing_other other, if_neg (Ne.symm plain.1), ih plain.2]
          rfl

/-- What the reading of a token says about its text. -/
def Kind.Admits : Kind → List Char → Prop
  | .word, text => IsName text
  | .number, text => IsNumber text
  | .singleQuoted, text => IsQuoted .single text
  | .doubleQuoted, text => IsQuoted .double text
  | _, _ => True

theorem admits_of_keyword {kind : Kind} (keyword : kind ∈ Kind.keywords) (text : List Char) :
    kind.Admits text := by
  simp only [Kind.keywords, List.mem_cons, List.not_mem_nil, or_false] at keyword
  rcases keyword with rfl | rfl | rfl | rfl | rfl | rfl | rfl | rfl | rfl | rfl | rfl | rfl | rfl
    | rfl | rfl <;> trivial

theorem admits_word {c : Char} (start : isWordStart c = true) (ahead : List Char) :
    (Kind.ofWord (c :: ahead.take (run isWordRest ahead))).Admits
      (c :: ahead.take (run isWordRest ahead)) := by
  rcases ofWord_mem (c :: ahead.take (run isWordRest ahead)) with word | keyword
  · rw [word]
    exact ⟨word, c, _, rfl, start, fun d member => mem_take_run member⟩
  · exact admits_of_keyword keyword _

theorem admits_quoted {quoting : Quoting} {kind target : Kind} {ahead : List Char}
    {length : Nat} (own : ∀ text, IsQuoted quoting text → target.Admits text)
    (ran : quoted target quoting.mark ahead = (.inl kind, length)) :
    kind.Admits (quoting.mark :: ahead.take length) := by
  have onLine : quoting.mark ≠ '\n' := by cases quoting <;> decide
  rw [quoted] at ran
  cases closed : closing? quoting.mark ahead with
  | none =>
      rw [closed] at ran
      cases ran
      trivial
  | some count =>
      rw [closed] at ran
      cases ran
      obtain ⟨inner, plain, same⟩ := inner_of_closing onLine closed
      exact own _ ⟨inner, plain, by rw [same, Quoted.encode]⟩

theorem admits_dotted {kind : Kind} {ahead : List Char} {length : Nat}
    (ran : dotted ahead = (.inl kind, length)) : kind.Admits ('.' :: ahead.take length) := by
  unfold dotted at ran
  split at ran
  case h_7 =>
    split at ran
    · cases ran
      trivial
    · next count positive =>
        cases ran
        have digits : run Char.isDigit ahead ≠ 0 := fun zero => positive zero
        exact number_of_point ahead digits
  all_goals
    cases ran <;> trivial

/-- Every token that is read has an admitted text. -/
theorem read_admits {before : Option Kind} {c : Char} {ahead : List Char}
    {kind : Kind} {length : Nat} (ran : read before c ahead = (.inl kind, length)) :
    kind.Admits (c :: ahead.take length) := by
  unfold read at ran
  split at ran
  · cases ran
  split at ran
  · next start =>
      cases ran
      exact admits_word start ahead
  split at ran
  · next digit =>
      cases ran
      exact number_of_digit digit ahead
  · split at ran
    case h_3 => exact admits_dotted ran
    case h_4 => exact @admits_quoted .double kind .doubleQuoted _ _ (fun _ inner => inner) ran
    case h_5 =>
      split at ran
      · cases ran
        trivial
      · exact @admits_quoted .single kind .singleQuoted _ _ (fun _ inner => inner) ran
    -- Comments are gaps, which leaves quoted texts, numbers behind a point and marks.
    case h_1 | h_2 =>
      rw [comment] at ran
      split at ran <;> cases ran
    case h_16 | h_17 | h_18 | h_19 | h_20 | h_21 | h_22 =>
      unfold either at ran
      split at ran <;> (cases ran; trivial)
    all_goals
      cases ran
      trivial

end Token
end ScriptFlow
