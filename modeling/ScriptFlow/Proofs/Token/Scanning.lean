import Mathlib.Data.List.Chain
import ScriptFlow.Proofs.Token.Touching

/-!
Scanning what is written. A list of well-formed lexemes, each of which may stand right behind the
one in front of it, is what scanning finds in its text, unless a quote stands right behind a quoted
text: there scanning goes another way.
-/

namespace ScriptFlow.Token

namespace Lexeme

/-- The lexeme's text is one that its sort is written with; gaps are blanks. -/
def Written : Lexeme → Prop
  | token kind text => kind.Writes text
  | gap kind text => kind = .blanks ∧ text ≠ [] ∧ ∀ c ∈ text, isBlank c = true

def touches : Lexeme → Lexeme → Bool
  | token front _, token back _ => front.touches back
  | token front _, gap _ _ => front != .dot
  | gap _ _, token back _ => back != .quote
  | gap _ _, gap _ _ => false

def spoils : Lexeme → Lexeme → Bool
  | token front _, token back _ => front.spoils back
  | _, _ => false

/-- The text ahead does not prolong the lexeme. -/
def Clear (ahead : List Char) : Lexeme → Prop
  | token kind _ => kind.Clear ahead
  | gap _ _ => Stops isBlank ahead

def Fits (before : Option Kind) : Lexeme → Prop
  | token kind _ => kind.Fits before
  | gap _ _ => True

end Lexeme

open Lexeme

theorem concat_cons (first : Lexeme) (rest : List Lexeme) :
    concat (first :: rest) = first.text ++ concat rest := rfl

theorem concat_append (front back : List Lexeme) :
    concat (front ++ back) = concat front ++ concat back :=
  List.flatMap_append

theorem scan_of_read {before : Option Kind} {c : Char} {ahead : List Char}
    {sort : Kind ⊕ Gap} {length : Nat} (ran : read before c ahead = (sort, length)) :
    scan before (c :: ahead) = Reading.lexeme (c :: ahead.take length) sort ::
      scan (Reading.lexeme (c :: ahead.take length) sort).kind? (ahead.drop length) := by
  rw [scan]
  simp only [ran]

theorem scan_step {before : Option Kind} {lexeme : Lexeme} {ahead : List Char}
    (written : lexeme.Written) (fits : lexeme.Fits before) (clear : lexeme.Clear ahead) :
    scan before (lexeme.text ++ ahead) = lexeme :: scan lexeme.kind? ahead := by
  have parts : ∃ c rest sort, lexeme.text = c :: rest ∧ Reading.lexeme (c :: rest) sort = lexeme ∧
      read before c (rest ++ ahead) = (sort, rest.length) := by
    cases lexeme with
    | token kind text =>
        obtain ⟨c, rest, rfl, _⟩ := Kind.text_plain written
        exact ⟨c, rest, .inl kind, rfl, rfl, read_written written clear fits⟩
    | gap kind text =>
        obtain ⟨rfl, some, all⟩ := written
        obtain ⟨c, rest, rfl⟩ := List.exists_cons_of_ne_nil some
        refine ⟨c, rest, .inr .blanks, rfl, rfl, ?_⟩
        have length := run_append (fun d member => all d (List.mem_cons_of_mem _ member)) clear
        simp only [read, all c List.mem_cons_self, if_true, length]
  obtain ⟨c, rest, sort, text, same, reads⟩ := parts
  rw [text, List.cons_append, scan_of_read reads, List.take_left, List.drop_left, same]

def kindAfter (before : Option Kind) (lexemes : List Lexeme) : Option Kind :=
  lexemes.foldl (fun _ lexeme => lexeme.kind?) before

/-- The lexemes are well formed and each may stand right behind the one in front of it. -/
structure Touching (lexemes : List Lexeme) : Prop where
  written : ∀ lexeme ∈ lexemes, lexeme.Written
  chain : lexemes.IsChain fun front back => front.touches back = true
  ending : ∀ last ∈ lexemes.getLast?, last.kind? ≠ some .dot

def Unspoiled (lexemes : List Lexeme) : Prop :=
  lexemes.IsChain fun front back => front.spoils back = false

theorem Touching.tail {first : Lexeme} {rest : List Lexeme}
    (touching : Touching (first :: rest)) : Touching rest := by
  refine ⟨fun lexeme member => touching.written lexeme (List.mem_cons_of_mem _ member),
    touching.chain.tail, ?_⟩
  intro last member
  cases rest with
  | nil => cases member
  | cons second more =>
      refine touching.ending last ?_
      rwa [List.getLast?_cons_cons]

theorem Touching.word_behind_dot {dot : List Char} {rest : List Lexeme}
    (touching : Touching (token .dot dot :: rest)) :
    ∃ c more, concat rest = c :: more ∧ isWordStart c = true := by
  cases rest with
  | nil => exact absurd rfl (touching.ending _ rfl)
  | cons second more =>
      cases second with
      | gap => exact absurd (List.isChain_cons_cons.mp touching.chain).1 (by simp [touches])
      | token kind inner =>
          have word : kind = .word := beq_iff_eq.mp (List.isChain_cons_cons.mp touching.chain).1
          obtain ⟨_, c, others, same, start, _⟩ : IsName inner := by
            have own : kind.Writes inner :=
              touching.written _ (List.mem_cons_of_mem _ List.mem_cons_self)
            rwa [word] at own
          exact ⟨c, others ++ concat more, by
            rw [concat_cons, Lexeme.text, same, List.cons_append], start⟩

theorem clear_of_blank {kind : Kind} {c : Char} {rest : List Char} (plain : kind ≠ .dot)
    (blank : isBlank c = true) : kind.Clear (c :: rest) := by
  have away : isWordRest c = false ∧ c.isDigit = false ∧ c ≠ '.' ∧ ¬(c = 'e' ∨ c = 'E') ∧ c ≠ '\'' ∧
      c ≠ '"' ∧ c ≠ '=' ∧ c ≠ '&' ∧ c ≠ '|' := by
    simp only [isBlank, Bool.or_eq_true, beq_iff_eq] at blank
    rcases blank with ((rfl | rfl) | rfl) | rfl <;> decide
  obtain ⟨word, digit, point, power, single, double, equal, amp, pipe⟩ := away
  have stops : Stops isWordRest (c :: rest) := fun d first => by
    cases first
    exact word
  have other (d : Char) (differs : c ≠ d) : d ∉ (c :: rest).head? :=
    fun first => differs (Option.some.inj first)
  cases kind with
  | word => exact stops
  | number =>
      refine ⟨fun d first =>
        by cases first; exact digit, fraction_other fun d first => by cases first; exact point, ?_⟩
      rw [exponent_cons, if_neg power]
  | dot => exact absurd rfl plain
  | singleQuoted => exact other _ single
  | doubleQuoted => exact other _ double
  | tilde | gets | less | greater => exact other _ equal
  | amp => exact other _ amp
  | pipe => exact other _ pipe
  | _ => exact fun _ => stops

theorem Touching.clear {front : Lexeme} {back : List Lexeme} (touching : Touching (front :: back))
    (unspoiled : ∀ next ∈ back.head?, front.spoils next = false) : front.Clear (concat back) := by
  -- What a lexeme needs behind it is decided by the next lexeme alone.
  cases back with
  | nil =>
      cases front with
      | token kind inner =>
          refine Kind.clear_nil fun isDot => touching.ending _ rfl ?_
          rw [isDot]
          rfl
      | gap => exact nofun
  | cons next more =>
      have touches := (List.isChain_cons_cons.mp touching.chain).1
      have own := touching.written next (List.mem_cons_of_mem _ List.mem_cons_self)
      rw [concat_cons]
      cases front with
      | token kind inner =>
          cases next with
          | token other behind =>
              refine Kind.clear_of_touches touches (unspoiled _ rfl) own fun isDot => ?_
              subst isDot
              exact touching.tail.word_behind_dot
          | gap sort behind =>
              obtain ⟨_, some, all⟩ := own
              obtain ⟨c, others, rfl⟩ := List.exists_cons_of_ne_nil some
              exact clear_of_blank (fun isDot => by rw [isDot] at touches; cases touches)
                (all c List.mem_cons_self)
      | gap kind inner =>
          cases next with
          | token other behind =>
              obtain ⟨c, others, rfl, plain⟩ := Kind.text_plain own
              intro d first
              cases first
              exact plain
          | gap => cases touches

theorem fits_of_touching {front next : Lexeme} (touches : front.touches next = true)
    (unspoiled : front.spoils next = false) : next.Fits front.kind? := by
  cases next with
  | gap => trivial
  | token kind text =>
      cases front with
      | token other inner => exact Kind.fits_of_touches touches unspoiled
      | gap => cases kind <;> trivial

theorem scan_front {before : Option Kind}
    {front back : List Lexeme} (touching : Touching (front ++ back))
    (fits : ∀ first ∈ (front ++ back).head?, first.Fits before)
    (unspoiled : Unspoiled (front ++ back.head?.toList)) : scan before (concat (front ++ back)) =
      front ++ scan (kindAfter before front) (concat back) := by
  induction front generalizing before with
  | nil => rfl
  | cons first rest ih =>
      rw [List.cons_append] at touching fits unspoiled
      have clean : ∀ next ∈ (rest ++ back).head?, first.spoils next = false := by
        intro next member
        have inside : next ∈ (rest ++ back.head?.toList).head? := by
          cases rest with
          | nil => cases back <;> exact member
          | cons => exact member
        exact unspoiled.rel_head? inside
      have step := scan_step (touching.written _ List.mem_cons_self) (fits _ rfl)
          (touching.clear clean)
      have more := @ih first.kind? touching.tail (fun next member => ?_) unspoiled.tail
      · rw [List.cons_append, concat_cons, step, more]
        rfl
      · exact fits_of_touching (touching.chain.rel_head? member) (clean next member)

/-- Well-formed lexemes without a quote right behind a quoted text are what is found in their
text. -/
theorem scan_concat {lexemes : List Lexeme} (touching : Touching lexemes)
    (unspoiled : Unspoiled lexemes) (fits : ∀ first ∈ lexemes.head?, first.Fits none) :
    scan none (concat lexemes) = lexemes := by
  have whole := @scan_front none lexemes []
  simp only [List.append_nil, List.head?_nil, Option.toList_none] at whole
  rw [whole touching fits unspoiled]
  exact (congrArg (lexemes ++ ·) (scan.eq_1 _)).trans (List.append_nil lexemes)

theorem first_spoiled {lexemes : List Lexeme} (spoiled : ¬ Unspoiled lexemes) :
    ∃ front text quote back, lexemes = front ++ text :: quote :: back ∧
      Unspoiled (front ++ [text]) ∧ text.spoils quote = true := by
  induction lexemes with
  | nil => exact absurd .nil spoiled
  | cons first rest ih =>
      cases rest with
      | nil => exact absurd (.singleton _) spoiled
      | cons second more =>
          cases here : first.spoils second with
          | true => exact ⟨[], first, second, more, rfl, .singleton _, here⟩
          | false =>
              obtain ⟨front, text, quote, back, same, clean, spoils⟩ := ih fun later =>
                spoiled (List.isChain_cons_cons.mpr ⟨here, later⟩)
              refine ⟨first :: front, text, quote, back, by rw [same, List.cons_append], ?_, spoils⟩
              -- What the first lexeme meets is the same second one, wherever the spoiled place is.
              refine clean.cons fun next member => ?_
              have head : next = second := by
                cases front with
                | nil =>
                    cases same
                    cases member
                    rfl
                | cons =>
                    cases same
                    cases member
                    rfl
              rw [head]
              exact here

theorem fits_behind {before : Option Kind} {front back : List Lexeme} {next : Lexeme}
    (touching : Touching (front ++ next :: back)) (unspoiled : Unspoiled (front ++ [next]))
    (fits : ∀ first ∈ (front ++ [next]).head?, first.Fits before) :
    next.Fits (kindAfter before front) := by
  induction front generalizing before with
  | nil => exact fits next rfl
  | cons first rest ih =>
      refine @ih first.kind? touching.tail unspoiled.tail fun second member => ?_
      have behind : second ∈ (rest ++ next :: back).head? := by
        cases rest <;> exact member
      exact fits_of_touching (touching.chain.rel_head? behind) (unspoiled.rel_head? member)

theorem closing_past (mark : Char) {inner : List Char} (plain : '\n' ∉ inner) (more : List Char) :
    closing? mark (Quoted.double mark inner ++ mark :: mark :: more) =
      (closing? mark more).map (· + ((Quoted.double mark inner).length + 2)) := by
  induction inner with
  | nil => exact closing_pair mark more
  | cons c rest ih =>
      rw [List.mem_cons, not_or] at plain
      rw [Quoted.double]
      split
      · rw [List.cons_append, List.cons_append, closing_pair, ih plain.2, Option.map_map]
        refine congrArg (Option.map · _) (funext fun count => ?_)
        simp only [Function.comp, List.length_cons]
        omega
      · next other =>
          rw [List.cons_append, closing_other other, if_neg (Ne.symm plain.1),
            ih plain.2, Option.map_map]
          refine congrArg (Option.map · _) (funext fun count => ?_)
          simp only [Function.comp, List.length_cons]
          omega

theorem read_mark {before : Option Kind} (away : before.any Kind.endsValue = false)
    (ahead : List Char) : read before '\'' ahead = quoted .singleQuoted '\'' ahead := by
  change (if before.any Kind.endsValue then _ else _) = _
  rw [away]
  rfl

theorem scan_opened {before : Option Kind} (away : before.any Kind.endsValue = false)
    (ahead : List Char) : ∃ kind text rest, scan before ('\'' :: ahead) = token kind text :: rest ∧
      (kind = .invalid ∨ kind = .singleQuoted ∧ ∃ count, closing? '\'' ahead = some count ∧
      text = '\'' :: ahead.take count) := by
  have read := read_mark away ahead
  rw [quoted] at read
  cases closed : closing? '\'' ahead with
  | none =>
      rw [closed] at read
      exact ⟨_, _, _, scan_of_read read, .inl rfl⟩
  | some count =>
      rw [closed] at read
      exact ⟨_, _, _, scan_of_read read, .inr ⟨rfl, count, rfl, rfl⟩⟩

theorem scan_past {before : Option Kind} {inner more : List Char}
    (plain : '\n' ∉ inner) (away : before.any Kind.endsValue = false) :
    ∃ kind text rest, scan before (Quoted.encode .single inner ++ '\'' :: more) = token kind text ::
      rest ∧ (kind = .invalid ∨ kind = .singleQuoted) ∧
      token kind text ≠ token .singleQuoted (Quoted.encode .single inner) := by
  have length := closing_past '\'' plain more
  obtain ⟨kind, text, rest, found, sort⟩ :=
    scan_opened away (Quoted.double '\'' inner ++ '\'' :: '\'' :: more)
  have same : Quoted.encode .single inner ++ '\'' :: more = '\'' ::
      (Quoted.double '\'' inner ++ '\'' :: '\'' :: more) := by
    simp [Quoted.encode, Quoting.mark]
  rw [same]
  refine ⟨kind, text, rest, found, sort.imp_right And.left, fun equal => ?_⟩
  rcases sort with rfl | ⟨rfl, count, ends, rfl⟩
  · cases equal
  · have short := congrArg List.length (Lexeme.token.inj equal).2
    rw [length, Option.map_eq_some_iff] at ends
    obtain ⟨later, _, rfl⟩ := ends
    simp [Quoted.encode, Quoting.mark] at short
    omega

theorem scan_spoiled {lexemes : List Lexeme} (touching : Touching lexemes)
    (spoiled : ¬ Unspoiled lexemes) (fits : ∀ first ∈ lexemes.head?, first.Fits none) :
    ∃ common other back kind text rest, lexemes = common ++ other :: back ∧
      scan none (concat lexemes) = common ++ token kind text :: rest ∧ token kind text ≠ other ∧
      (other.kind? = some .singleQuoted ∨ other.kind? = some .quote) ∧
      (kind = .invalid ∨ kind = .singleQuoted) := by
  obtain ⟨front, first, second, back, rfl, clean, spoils⟩ := first_spoiled spoiled
  have firstFits : ∀ lexeme ∈ (front ++ [first]).head?, lexeme.Fits none := by
    cases front <;> exact fits
  obtain ⟨kind, text, rfl⟩ : ∃ kind text, first = token kind text := by
    cases first with
    | token kind text => exact ⟨kind, text, rfl⟩
    | gap => cases spoils
  obtain ⟨mark, rfl⟩ : ∃ mark, second = token .quote mark := by
    cases second with
    | token other mark =>
        have isQuote : other = .quote := by
          have both : (kind.isText && other == .quote) = true := spoils
          rw [Bool.and_eq_true, beq_iff_eq] at both
          exact both.2
        exact ⟨mark, by rw [isQuote]⟩
    | gap => cases spoils
  have own : kind.Writes text := touching.written (token kind text) (by simp)
  have isMark : mark = ['\''] := touching.written (token .quote mark) (by simp)
  have behind := fits_behind touching clean firstFits
  subst isMark
  -- behind single quotes the quote is taken for a doubled one and the text itself is missed;
  -- behind double quotes the text is found and the quote opens another one
  cases kind with
  | singleQuoted =>
      obtain ⟨inner, plain, rfl⟩ := own
      obtain ⟨kind, text, rest, found, sort, differs⟩ := @scan_past _ _ (concat back) plain behind
      refine ⟨front, _, _, kind, text, rest, rfl, ?_, differs, .inl rfl, sort⟩
      rw [scan_front touching (by cases front <;> exact fits) clean]
      exact congrArg (front ++ ·) found
  | doubleQuoted =>
      have away : (some Kind.doubleQuoted).any Kind.endsValue = false := rfl
      obtain ⟨kind, behindText, rest, found, sort⟩ := scan_opened away (concat back)
      refine ⟨front ++ [token .doubleQuoted text], token .quote ['\''], back, kind, behindText,
        rest, by simp, ?_, ?_, .inr rfl, sort.imp_right And.left⟩
      · have step := @scan_step _ (token .doubleQuoted text)
            (concat (token .quote ['\''] :: back)) own behind nofun
        rw [scan_front touching (by cases front <;> exact fits) clean, concat_cons,
          step, List.append_assoc]
        exact congrArg (front ++ token .doubleQuoted text :: ·) found
      · rintro same
        cases same
        rcases sort with sort | ⟨sort, _⟩ <;> cases sort
  | _ => cases spoils

end ScriptFlow.Token
