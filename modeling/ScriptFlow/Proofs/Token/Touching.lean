import ScriptFlow.Proofs.Token.Reading

/-!
Tokens side by side. Which token may stand right behind which is a matter of their kinds: what may
stand there does not prolong the token in front. The one exception is a quote right behind a quoted
text.
-/

namespace ScriptFlow.Token

def Kind.Writes : Kind → List Char → Prop
  | .invalid, _ => False
  | .newline, text => text = ['\n']
  | .word, text => IsName text
  | .number, text => IsNumber text
  | .singleQuoted, text => IsQuoted .single text
  | .doubleQuoted, text => IsQuoted .double text
  | kind, text => text = kind.spelling.toList

def Kind.Clear : Kind → List Char → Prop
  | .word, ahead => Stops isWordRest ahead
  | .number, ahead => EndsNumber ahead
  | .singleQuoted, ahead => '\'' ∉ ahead.head?
  | .doubleQuoted, ahead => '"' ∉ ahead.head?
  | .dot, ahead => ∃ c rest, ahead = c :: rest ∧ isWordStart c = true
  | .tilde, ahead | .gets, ahead | .less, ahead | .greater, ahead => '=' ∉ ahead.head?
  | .amp, ahead => '&' ∉ ahead.head?
  | .pipe, ahead => '|' ∉ ahead.head?
  | kind, ahead => kind ∈ keywords → Stops isWordRest ahead

def Kind.Fits (before : Option Kind) : Kind → Prop
  | .quote => before.any endsValue = true
  | .singleQuoted => before.any endsValue = false
  | _ => True

theorem start_plain {c : Char} (start : isWordStart c = true) : isBlank c = false := by
  rw [← Bool.not_eq_true]
  intro blank
  simp only [isBlank, Bool.or_eq_true, beq_iff_eq] at blank
  rcases blank with ((rfl | rfl) | rfl) | rfl <;> exact absurd start (by decide)

theorem read_word {before : Option Kind} {c : Char}
    {rest ahead : List Char} (start : isWordStart c = true)
    (all : ∀ d ∈ rest, isWordRest d = true) (stops : Stops isWordRest ahead) :
    read before c (rest ++ ahead) = (.inl (Kind.ofWord (c :: rest)), rest.length) := by
  simp only [read, start_plain start, start, run_append all stops, List.take_left,
    Bool.false_eq_true, if_false, if_true]

theorem read_keyword {before : Option Kind} {kind : Kind} {c : Char}
    {rest ahead : List Char} (keyword : kind ∈ Kind.keywords)
    (text : c :: rest = kind.spelling.toList) (stops : Stops isWordRest ahead) :
    read before c (rest ++ ahead) = (.inl kind, rest.length) := by
  have facts : isWordStart c = true ∧ (∀ d ∈ rest, isWordRest d = true) ∧
      Kind.ofWord (c :: rest) = kind := by
    simp only [Kind.keywords, List.mem_cons, List.not_mem_nil, or_false] at keyword
    rcases keyword with rfl | rfl | rfl | rfl | rfl | rfl | rfl | rfl | rfl | rfl | rfl | rfl | rfl
      | rfl | rfl <;> (cases text; exact ⟨by decide, List.all_eq_true.mp (by decide), by decide⟩)
  rw [read_word facts.1 facts.2.1 stops, facts.2.2]

theorem read_quoted {quoting : Quoting} {kind : Kind} {inner ahead : List Char}
    (plain : '\n' ∉ inner) (ends : quoting.mark ∉ ahead.head?) :
    quoted kind quoting.mark (Quoted.double quoting.mark inner ++ [quoting.mark] ++ ahead) =
      (.inl kind, (Quoted.double quoting.mark inner ++ [quoting.mark]).length) := by
  rw [quoted, List.append_assoc, List.singleton_append,
    closing_double plain ends, List.length_append]
  rfl

theorem dotted_word {c : Char} (start : isWordStart c = true) (rest : List Char) :
    dotted (c :: rest) = (.inl .dot, 0) := by
  unfold dotted
  split
  case h_7 =>
    have none : run Char.isDigit (c :: rest) = 0 := by
      refine run_of_stops fun d first => ?_
      cases first
      rw [← Bool.not_eq_true]
      intro digit
      rw [(digit_plain digit).2] at start
      cases start
    rw [none]
    rfl
  all_goals
    next same =>
      cases same
      cases start

theorem read_written {before : Option Kind} {kind : Kind} {c : Char} {rest ahead : List Char}
    (written : kind.Writes (c :: rest)) (clear : kind.Clear ahead) (fits : kind.Fits before) :
    read before c (rest ++ ahead) = (.inl kind, rest.length) := by
  cases kind with
  | invalid => exact written.elim
  | word =>
      obtain ⟨free, d, others, same, start, all⟩ := written
      cases same
      rw [read_word start all clear, free]
  | number =>
      obtain ⟨d, others, same, reads⟩ := written
      cases same
      exact reads before ahead clear
  | singleQuoted =>
      obtain ⟨inner, plain, same⟩ := written
      cases same
      -- A quote opens a text here because no value stands in front of it.
      have away : before.any Kind.endsValue = false := fits
      change (if before.any Kind.endsValue then _ else _) = _
      rw [away]
      exact @read_quoted .single .singleQuoted inner ahead plain clear
  | doubleQuoted =>
      obtain ⟨inner, plain, same⟩ := written
      cases same
      exact @read_quoted .double .doubleQuoted inner ahead plain clear
  | newline =>
      cases written
      rfl
  | quote =>
      cases written
      -- A quote transposes here because a value stands in front of it.
      have behind : before.any Kind.endsValue = true := fits
      change (if before.any Kind.endsValue then _ else _) = _
      rw [behind]
      rfl
  | dot =>
      cases written
      obtain ⟨d, others, rfl, start⟩ := clear
      exact dotted_word start others
  | tilde | gets | less | greater | amp | pipe =>
      cases written
      exact if_neg clear
  | ifKey | elseifKey | elseKey | endKey | forKey | whileKey | switchKey | caseKey
      | otherwiseKey | functionKey
  | returnKey | breakKey | continueKey | globalKey | persistentKey =>
      exact read_keyword (by decide) written (clear (by decide))
  | _ =>
      cases written
      rfl

namespace Kind

def begins : Kind → Bool
  | word | number | singleQuoted | doubleQuoted | endKey | colon | openParen | openBracket
      | openBrace | dash | plus
  | tilde => true
  | _ => false

def ends : Kind → Bool
  | word | number | singleQuoted | doubleQuoted | endKey | colon | closeParen | closeBracket
      | closeBrace | quote
  | dotQuote => true
  | _ => false

def isText : Kind → Bool
  | singleQuoted | doubleQuoted => true
  | _ => false

def trails : Kind → Bool
  | openParen | openBrace | closeParen | closeBracket | closeBrace | comma | semicolon | colon
      | dot | quote | dotQuote
  | newline => true
  | _ => false

/-- Whether a token of the second kind may stand right behind one of the first. -/
def touches (front back : Kind) : Bool :=
  match front with
  | newline => back != quote
  | dot => back == word
  | openParen | openBracket | openBrace => back.begins || back.trails && back != quote
  | dash | plus | tilde => back.begins || back == comma || back == closeParen
  | colon => back.begins || back.trails && back != quote
  | _ => if front.ends then back.trails else back == newline

def spoils (front back : Kind) : Bool := front.isText && back == quote

theorem text_of_trails {kind : Kind} {text : List Char}
    (trails : kind.trails = true) (written : kind.Writes text) :
    ∃ c rest, text = c :: rest ∧ isWordRest c = false ∧ c ≠ '=' ∧ (c = '\'' → kind = quote) ∧
      c ≠ '"' ∧ (c = '.' → kind = dot ∧ rest = [] ∨ rest = ['\'']) := by
  cases kind <;> cases trails <;> cases written <;>
    exact ⟨_, _, rfl, by decide, by decide, by decide, by decide, by decide⟩

theorem text_of_begins {kind : Kind} {text : List Char} (begins : kind.begins = true)
    (written : kind.Writes text) : ∃ c rest, text = c :: rest ∧ c ≠ '=' := by
  cases kind with
  | word =>
      obtain ⟨_, c, rest, rfl, start, _⟩ := written
      exact ⟨c, rest, rfl, by rintro rfl; cases start⟩
  | number =>
      obtain ⟨c, rest, rfl, reads⟩ := written
      refine ⟨c, rest, rfl, ?_⟩
      rintro rfl
      have read := reads none [] ⟨nofun, rfl, rfl⟩
      change either .gets '=' .equal (rest ++ []) = _ at read
      unfold either at read
      split at read <;> cases read
  | singleQuoted | doubleQuoted =>
      obtain ⟨inner, _, rfl⟩ := written
      exact ⟨_, _, rfl, by decide⟩
  | endKey | colon | openParen | openBracket | openBrace | dash | plus | tilde =>
      cases written
      exact ⟨_, _, rfl, by decide⟩
  | _ => cases begins

theorem touches_newline {front : Kind} {text ahead : List Char} (written : newline.Writes text)
    (plain : front ≠ dot) : front.Clear (text ++ ahead) := by
  cases written
  have stops : Stops isWordRest (['\n'] ++ ahead) := fun c first => by
    cases first
    rfl
  cases front with
  | word => exact stops
  | number => exact ⟨fun c first => by cases first; rfl, rfl, rfl⟩
  | dot => exact absurd rfl plain
  | singleQuoted | doubleQuoted | tilde | gets | less | greater | amp | pipe =>
    exact fun first => by cases first
  | _ => exact fun _ => stops

theorem endsNumber_of_trails {kind : Kind} {text ahead : List Char}
    (trails : kind.trails = true) (written : kind.Writes text)
    (dots : kind = dot → ∃ c rest, ahead = c :: rest ∧ isWordStart c = true) :
    EndsNumber (text ++ ahead) := by
  obtain ⟨c, rest, rfl, plain, _, _, _, point⟩ := text_of_trails trails written
  simp only [isWordRest, Char.isAlphanum, Bool.or_eq_false_iff] at plain
  refine ⟨fun d first => ?_, ?_, ?_⟩
  · cases first
    exact plain.1.2
  -- A point behind a number is a field access or an operator, so no digit follows it.
  · by_cases same : c = '.'
    · subst same
      rw [List.cons_append, fraction_point, if_pos]
      refine run_of_stops fun d first => ?_
      rcases point rfl with ⟨isDot, rfl⟩ | rfl
      · obtain ⟨e, others, rfl, start⟩ := dots isDot
        cases first
        rw [← Bool.not_eq_true]
        intro digit
        rw [(digit_plain digit).2] at start
        cases start
      · cases first
        rfl
    · exact fraction_other fun d first => by
        cases first
        exact same
  · rw [List.cons_append, exponent_cons, if_neg]
    rintro (rfl | rfl) <;> exact absurd plain.1.1 (by decide)

theorem stops_of_trails {kind : Kind} {text ahead : List Char} (trails : kind.trails = true)
    (written : kind.Writes text) : Stops isWordRest (text ++ ahead) := by
  obtain ⟨c, rest, rfl, plain, _⟩ := text_of_trails trails written
  intro d first
  cases first
  exact plain

theorem tilde_clear {kind : Kind} {text ahead : List Char} (touches : tilde.touches kind = true)
    (written : kind.Writes text) : '=' ∉ (text ++ ahead).head? := by
  have other : ∃ c rest, text = c :: rest ∧ c ≠ '=' := by
    simp only [Kind.touches, Bool.or_eq_true, beq_iff_eq] at touches
    rcases touches with (begins | rfl) | rfl
    · exact text_of_begins begins written
    · exact ⟨_, _, written, by decide⟩
    · exact ⟨_, _, written, by decide⟩
  obtain ⟨c, rest, rfl, other⟩ := other
  intro first
  cases first
  exact other rfl

theorem clear_of_touches {front back : Kind}
    {text ahead : List Char} (touches : front.touches back = true)
    (unspoiled : front.spoils back = false) (written : back.Writes text)
    (dots : back = dot → ∃ c rest, ahead = c :: rest ∧ isWordStart c = true) :
    front.Clear (text ++ ahead) := by
  cases front with
  | word => exact stops_of_trails touches written
  | number => exact endsNumber_of_trails touches written dots
  | singleQuoted =>
      obtain ⟨c, rest, rfl, _, _, quote, _⟩ := text_of_trails touches written
      intro first
      cases first
      rw [quote rfl] at unspoiled
      cases unspoiled
  | doubleQuoted =>
      obtain ⟨c, rest, rfl, _, _, _, other, _⟩ := text_of_trails touches written
      intro first
      cases first
      exact other rfl
  | dot =>
      cases beq_iff_eq.mp touches
      obtain ⟨_, c, rest, rfl, start, _⟩ := written
      exact ⟨c, rest ++ ahead, rfl, start⟩
  | tilde => exact tilde_clear touches written
  | endKey => exact fun _ => stops_of_trails touches written
  | openParen | openBracket | openBrace | dash | plus | colon | closeParen | closeBracket
      | closeBrace | quote | dotQuote
  | newline => exact fun keyword => absurd keyword (by decide)
  | _ =>
      cases beq_iff_eq.mp touches
      exact touches_newline written (by decide)

theorem clear_nil {kind : Kind} (plain : kind ≠ dot) : kind.Clear [] := by
  cases kind with
  | dot => exact absurd rfl plain
  | number => exact ⟨nofun, rfl, rfl⟩
  | word => exact nofun
  | singleQuoted | doubleQuoted | tilde | gets | less | greater | amp | pipe => exact nofun
  | _ => exact fun _ => nofun

theorem fits_of_touches {front back : Kind} (touches : front.touches back = true)
    (unspoiled : front.spoils back = false) : back.Fits (some front) := by
  cases back with
  | quote =>
      cases front with
      | singleQuoted | doubleQuoted => exact absurd unspoiled (by decide)
      | _ => first | rfl | exact absurd touches (by decide)
  | singleQuoted => cases front <;> first | rfl | exact absurd touches (by decide)
  | _ => trivial

theorem text_plain {kind : Kind} {text : List Char} (written : kind.Writes text) :
    ∃ c rest, text = c :: rest ∧ isBlank c = false := by
  cases kind with
  | invalid => exact written.elim
  | word =>
      obtain ⟨_, c, rest, rfl, start, _⟩ := written
      exact ⟨c, rest, rfl, start_plain start⟩
  | number =>
      obtain ⟨c, rest, rfl, reads⟩ := written
      refine ⟨c, rest, rfl, ?_⟩
      rw [← Bool.not_eq_true]
      intro blank
      have read := reads none [] ⟨nofun, rfl, rfl⟩
      simp [Token.read, blank] at read
  | singleQuoted | doubleQuoted =>
      obtain ⟨inner, _, rfl⟩ := written
      exact ⟨_, _, rfl, by decide⟩
  | _ =>
      cases written
      exact ⟨_, _, rfl, by decide⟩

end Kind

end ScriptFlow.Token
