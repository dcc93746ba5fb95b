import ScriptFlow.Proofs.Token.Border
import ScriptFlow.Proofs.Token.Finding

/-!
Scanning line by line. Lexemes that end at a border stay what they are when another text stands
behind it; so the tokens of a text are those of its lines, each line in its own place.
-/

namespace ScriptFlow

namespace Position

def lowered (lines : Nat) (here : Position) : Position := ⟨lines + here.line, here.column⟩

theorem after_newline (here : Position) : here.after ['\n'] = ⟨here.line + 1, 1⟩ := rfl

theorem line_after (here : Position) (text : List Char) :
    (here.after text).line = here.line + text.count '\n' := by
  induction text generalizing here with
  | nil => rfl
  | cons c rest ih =>
      refine (ih (here.step c)).trans ?_
      rw [step]
      split
      · next line =>
          rw [line, List.count_cons_self, Nat.add_right_comm]
          rfl
      · next line => rw [List.count_cons_of_ne line]

theorem after_lowered (lines : Nat) (here : Position) (text : List Char) :
    (here.lowered lines).after text = (here.after text).lowered lines := by
  induction text generalizing here with
  | nil => rfl
  | cons c rest ih =>
      refine Eq.trans (congrArg (after · rest) ?_) (ih (here.step c))
      rw [step, step]
      split <;> rfl

end Position

namespace Token

open Lexeme

theorem read_congr {before other : Option Kind}
    (same : before.any Kind.endsValue = other.any Kind.endsValue) (c : Char) (ahead : List Char) :
    read before c ahead = read other c ahead := by
  unfold read
  rw [same]

theorem scan_congr {before other : Option Kind}
    (same : before.any Kind.endsValue = other.any Kind.endsValue) (source : List Char) :
    scan before source = scan other source := by
  cases source with
  | nil => rw [scan, scan]
  | cons c ahead => rw [scan, scan, read_congr same]

theorem scan_cons {before : Option Kind} {first : Lexeme} {rest : List Lexeme}
    {source : List Char} (scanned : scan before source = first :: rest) :
    ∃ c inner ahead sort, source = c :: (inner ++ ahead) ∧
      first = Reading.lexeme (c :: inner) sort ∧
      read before c (inner ++ ahead) = (sort, inner.length) ∧ rest = scan first.kind? ahead := by
  cases source with
  | nil =>
      rw [scan] at scanned
      cases scanned
  | cons c ahead =>
      obtain ⟨⟨sort, length⟩, reads⟩ : ∃ reading, read before c ahead = reading := ⟨_, rfl⟩
      have short := read_le before c ahead
      rw [reads] at short
      rw [scan_of_read reads] at scanned
      obtain ⟨rfl, rfl⟩ := List.cons.inj scanned
      refine ⟨c, ahead.take length, ahead.drop length, sort, ?_, rfl, ?_, rfl⟩
      · rw [List.take_append_drop]
      · rw [List.take_append_drop, List.length_take_of_le short, reads]

theorem scan_behind {before : Option Kind} {front back : List Lexeme}
    {source : List Char} (scanned : scan before source = front ++ back) :
    back = scan (kindAfter before front) (concat back) := by
  induction front generalizing before source with
  | nil =>
      have same := concat_scan before source
      rw [scanned] at same
      rw [List.nil_append] at scanned same
      rw [same, ← scanned]
      rfl
  | cons first rest ih =>
      obtain ⟨c, inner, ahead, sort, _, _, _, more⟩ := scan_cons scanned
      exact ih more.symm

/-- What may run past the end of its line. -/
def Lexeme.crosses : Lexeme → Bool
  | .gap .blockComment _ | .gap .continuation _ => true
  | _ => false

/-- Lexemes in front of a border are scanned again when another text stands behind it. -/
theorem scan_border {before : Option Kind} {lexemes : List Lexeme} {back other : List Char}
    (swap : Swap back other) (stands : scan before (concat lexemes ++ back) =
      lexemes ++ scan (kindAfter before lexemes) back)
    (ended : back = [] → ∀ lexeme ∈ lexemes, lexeme.crosses = false) :
    scan before (concat lexemes ++ other) = lexemes ++ scan (kindAfter before lexemes) other := by
  induction lexemes generalizing before with
  | nil => rfl
  | cons first rest ih =>
      rw [concat_cons, List.append_assoc, List.cons_append] at stands
      obtain ⟨c, inner, ahead, sort, same, rfl, reads, more⟩ := scan_cons stands
      rw [text_lexeme, List.cons_append, List.cons.injEq] at same
      obtain ⟨_, same⟩ := same
      have behind : ahead = concat rest ++ back := (List.append_cancel_left same).symm
      subst behind
      -- The first lexeme ends in front of the border, so it is read again; the rest goes on from
      -- the same kind.
      have reads' : read before c (inner ++ (concat rest ++ other)) = (sort, inner.length) := by
        rw [← List.append_assoc] at reads ⊢
        rw [read_border swap, reads]
        · intro none
          have stays : (Reading.lexeme (c :: inner) sort).crosses = false :=
            ended none _ List.mem_cons_self
          rw [reads]
          constructor
          all_goals
            intro same
            cases same
            cases stays
        · rw [reads, List.length_append]
          exact Nat.le_add_right _ _
      have tail := ih more.symm fun none lexeme member => ended none lexeme
          (List.mem_cons_of_mem _ member)
      rw [concat_cons, text_lexeme, List.append_assoc, List.cons_append, scan_of_read reads',
        List.take_left, List.drop_left, tail]
      rfl

theorem read_newline (before : Option Kind) (ahead : List Char) :
    read before '\n' ahead = (.inl .newline, 0) := rfl

theorem scan_newline (before : Option Kind) (below : List Char) :
    scan before ('\n' :: below) = Lexeme.newline :: scan none below := by
  have same : scan (some .newline) below = scan none below := scan_congr (by decide) below
  rw [scan_of_read (read_newline before below), ← same]
  rfl

theorem comment_crosses {c : Char} {ahead text : List Char}
    (crosses : (Reading.lexeme text (comment c ahead).1).crosses = true) :
    ['%', '\x7b'] <+: c :: ahead := by
  rw [comment] at crosses
  split at crosses
  · next opens =>
      obtain ⟨rfl, opens⟩ := opens
      cases ahead with
      | nil => cases opens
      | cons d rest =>
          obtain ⟨rfl, _⟩ := (opensBlock_cons d rest).mp opens
          exact ⟨rest, rfl⟩
  · cases crosses

theorem dotted_crosses {ahead text : List Char}
    (crosses : (Reading.lexeme text (dotted ahead).1).crosses = true) : ['.', '.'] <+: ahead := by
  unfold dotted at crosses
  split at crosses
  · next rest => exact ⟨rest, rfl⟩
  case h_7 =>
    split at crosses <;> cases crosses
  all_goals cases crosses

theorem quoted_stays (kind : Kind) (mark : Char) (ahead text : List Char) :
    (Reading.lexeme text (quoted kind mark ahead).1).crosses = false := by
  rw [quoted]
  split <;> rfl

theorem either_stays (one : Kind) (second : Char) (two : Kind) (ahead text : List Char) :
    (Reading.lexeme text (either one second two ahead).1).crosses = false := by
  rw [either]
  split <;> rfl

theorem read_crosses {before : Option Kind} {c : Char} {ahead text : List Char}
    (crosses : (Reading.lexeme text (read before c ahead).1).crosses = true) :
    ['%', '\x7b'] <+: c :: ahead ∨ ['.', '.', '.'] <+: c :: ahead := by
  -- Gaps in a line and tokens stay on their line.
  have never {A : Prop} {lexeme : Lexeme} (crosses : lexeme.crosses = true)
      (stays : lexeme.crosses = false) : A :=
    absurd (crosses.symm.trans stays) (by decide)
  unfold read at crosses
  split at crosses
  · cases crosses
  split at crosses
  · cases crosses
  split at crosses
  · cases crosses
  split at crosses
  case h_1 | h_2 => exact .inl (comment_crosses crosses)
  case h_3 => exact .inr ((List.prefix_cons_inj _).mpr (dotted_crosses crosses))
  case h_4 => exact never crosses (quoted_stays _ _ _ _)
  case h_5 =>
    split at crosses
    · cases crosses
    · exact never crosses (quoted_stays _ _ _ _)
  case h_16 | h_17 | h_18 | h_19 | h_20 | h_21 | h_22 =>
    exact never crosses (either_stays _ _ _ _ _)
  all_goals cases crosses

theorem scan_stays {before : Option Kind} {source : List Char}
    (block : ¬['%', '\x7b'] <:+: source) (continued : ¬['.', '.', '.'] <:+: source) :
    ∀ lexeme ∈ scan before source, lexeme.crosses = false := by
  fun_induction scan before source with
  | case1 => exact List.forall_mem_nil _
  | case2 before c ahead sort length reads lexeme ih =>
      have behind : ahead.drop length <:+ c :: ahead :=
        (List.drop_suffix _ _).trans (List.suffix_cons _ _)
      have stays := ih (fun inside => block (inside.trans behind.isInfix)) fun inside => continued
          (inside.trans behind.isInfix)
      intro other member
      rcases List.mem_cons.mp member with rfl | member
      · rw [Bool.eq_false_iff]
        intro crosses
        have found :
            (Reading.lexeme (c :: ahead.take length) (read before c ahead).1).crosses = true := by
          rw [reads]
          exact crosses
        rcases read_crosses found with front | front
        · exact block front.isInfix
        · exact continued front.isInfix
      · exact stays other member

/-- Where nothing runs past its line, the lexemes of two texts with a newline in between are those
of the first, the newline, and those of the second. -/
theorem scan_line {before : Option Kind} {above : List Char}
    (stays : ∀ lexeme ∈ scan before above, lexeme.crosses = false) (below : List Char) :
    scan before (above ++ '\n' :: below) = scan before above ++ Lexeme.newline ::
      scan none below := by
  have stands : scan before (concat (scan before above) ++ []) = scan before above ++
      scan (kindAfter before (scan before above)) [] := by
    rw [List.append_nil, concat_scan, scan, List.append_nil]
  have same := scan_border (.newline below) stands fun _ => stays
  rwa [concat_scan, scan_newline] at same

def lowered (bytes lines : Nat) (token : Token) : Token :=
  { token with start := bytes + token.start, position := token.position.lowered lines }

theorem place_lowered (bytes lines offset : Nat) (here : Position) (lexemes : List Lexeme) :
    place (bytes + offset) (here.lowered lines) lexemes =
      (place offset here lexemes).map (lowered bytes lines) := by
  induction lexemes generalizing offset here with
  | nil => rfl
  | cons first rest ih =>
      have behind := ih (offset + byteLength first.text) (here.after first.text)
      rw [← Position.after_lowered, ← Nat.add_assoc] at behind
      cases first with
      | token kind text => exact congrArg (_ :: ·) behind
      | gap kind text => exact behind

/-- The tokens of two texts with a newline in between are those of the first, one for the newline,
and those of the second, so much further behind. The first contains no mark that would let a lexeme
run past its line; an unterminated text or a quote in it changes nothing behind it. -/
theorem ofSource_line {above : List Char} (block : ¬['%', '\x7b'] <:+: above)
    (continued : ¬['.', '.', '.'] <:+: above) (below : List Char) :
    ofSource (above ++ '\n' :: below) =
      ofSource above ++ ⟨.newline, ['\n'], byteLength above, Position.start.after above⟩ ::
        (ofSource below).map (lowered (byteLength above + 1) (above.count '\n' + 1)) := by
  have stays : ∀ lexeme ∈ scan none above, lexeme.crosses = false := scan_stays block continued
  have lexemes := scan_line stays below
  have front := place_append 0 Position.start (scan none above) (Lexeme.newline :: scan none below)
  rw [concat_scan, Nat.zero_add] at front
  have start : (Position.start.after above).after ['\n'] =
      Position.start.lowered (above.count '\n' + 1) := by
    rw [Position.after_newline, Position.line_after, Nat.add_comm Position.start.line]
    rfl
  have back :=
    place_lowered (byteLength above + 1) (above.count '\n' + 1) 0 Position.start (scan none below)
  rw [← start] at back
  rw [ofSource, lexemes, front]
  exact congrArg (fun tail => ofSource above ++ ⟨.newline, ['\n'], byteLength above,
      Position.start.after above⟩ :: tail) back

theorem unterminated_line :
    ofSource ("x = 'a % b".toList ++ '\n' :: "y'".toList) =
      ofSource "x = 'a % b".toList ++ ⟨.newline, ['\n'], byteLength "x = 'a % b".toList,
        Position.start.after "x = 'a % b".toList⟩ ::
        (ofSource "y'".toList).map
          (lowered (byteLength "x = 'a % b".toList + 1) ("x = 'a % b".toList.count '\n' + 1)) :=
  ofSource_line (by decide +kernel) (by decide +kernel) _

theorem scan_blanks {before : Option Kind} {c : Char}
    (blank : isBlank c = true) (text : List Char) :
    scan before (c :: text) = .gap .blanks (c :: text.take (run isBlank text)) ::
      scan none (text.drop (run isBlank text)) := by
  have reads : read before c text = (.inr .blanks, run isBlank text) := if_pos blank
  rw [scan_of_read reads]
  rfl

theorem place_blank {c : Char} (blank : isBlank c = true) (before : Option Kind) (offset : Nat)
    (here : Position) (text : List Char) : place offset here (scan before (c :: text)) =
      place (offset + c.utf8Size) (here.after [c]) (scan none text) := by
  rw [scan_blanks blank]
  change place (offset + (c.utf8Size + byteLength (text.take (run isBlank text)))) _ _ = _
  rw [← Nat.add_assoc]
  cases text with
  | nil => rfl
  | cons d rest =>
      by_cases more : isBlank d = true
      · rw [scan_blanks more rest, run_cons, if_pos more]
        rfl
      · rw [run_cons, if_neg more]
        rfl

theorem blockEnd_first (ahead : List Char) :
    (∃ inner behind, ahead = inner ++ '%' :: '\x7d' :: behind ∧ blockEnd ahead = inner.length + 2 ∧
        ¬['%', '\x7d'] <:+: inner ++ ['%']) ∨
      blockEnd ahead = ahead.length ∧ ¬['%', '\x7d'] <:+: ahead := by
  induction ahead with
  | nil => exact .inr ⟨rfl, by decide⟩
  | cons c rest ih =>
      -- The first place where the two characters meet is here, or it is that of the rest.
      rw [blockEnd_cons]
      split
      · next closes =>
          obtain ⟨rfl, head⟩ := closes
          obtain ⟨more, rfl⟩ := List.head?_eq_some_iff.mp head
          exact .inl ⟨[], more, rfl, rfl, by decide⟩
      · next goesOn =>
          rcases ih with ⟨inner, behind, rfl, count, first⟩ | ⟨whole, never⟩
          · refine .inl
              ⟨c :: inner, behind, rfl, by rw [count, List.length_cons]; omega, fun inside => ?_⟩
            rcases List.infix_cons_iff.mp inside with ⟨last, same⟩ | within
            · cases inner with
              | nil => cases same
              | cons d more =>
                  cases same
                  exact goesOn ⟨rfl, rfl⟩
            · exact first within
          · refine .inr ⟨by rw [whole, List.length_cons, Nat.add_comm], fun inside => ?_⟩
            rcases List.infix_cons_iff.mp inside with ⟨last, same⟩ | within
            · cases same
              exact goesOn ⟨rfl, rfl⟩
            · exact never within

theorem read_marker (before : Option Kind) (ahead : List Char) :
    read before '%' ahead = comment '%' ahead := rfl

section
variable {source ahead line below : List Char} {front back : List Lexeme}

theorem marker_opens (scanned : scan none source = front ++ back)
    (here : concat back = '%' :: '\x7b' :: ahead) (ends : Stops notNewline ahead) :
    back = .gap .blockComment ('%' :: '\x7b' :: ahead.take (blockEnd ahead)) ::
      scan none (ahead.drop (blockEnd ahead)) := by
  have opens : opensBlock ('\x7b' :: ahead) = true := (opensBlock_cons _ _).mpr ⟨rfl, ends⟩
  have reads : read (kindAfter none front) '%' ('\x7b' :: ahead) =
      (.inr .blockComment, 1 + blockEnd ahead) := by
    rw [read_marker, comment, if_pos ⟨rfl, opens⟩]
    rfl
  rw [scan_behind scanned, here, scan_of_read reads, Nat.add_comm, List.take_succ_cons,
    List.drop_succ_cons]
  rfl

/-- With anything behind it on its line, the mark opens a comment, and the lines below are read as
if the line ended in front of the mark. -/
theorem marker_comments (scanned : scan none source = front ++ back)
    (here : concat back = '%' :: '\x7b' :: (line ++ '\n' :: below))
    (goesOn : line ≠ []) (onLine : '\n' ∉ line) :
    back = .gap .comment ('%' :: '\x7b' :: line) :: Lexeme.newline :: scan none below ∧
      scan none (concat front ++ '\n' :: below) = front ++ Lexeme.newline :: scan none below := by
  have behind := scan_behind scanned
  -- The mark is followed by more on its line, so it opens no block.
  have plain : opensBlock ('\x7b' :: (line ++ '\n' :: below)) ≠ true := by
    intro opens
    obtain ⟨c, rest, rfl⟩ := List.exists_cons_of_ne_nil goesOn
    have newline := newline_of_stops ((opensBlock_cons _ _).mp opens).2
    exact onLine (newline ▸ List.mem_cons_self)
  have length : run notNewline (line ++ '\n' :: below) = line.length :=
    run_append (fun c member => bne_iff_ne.mpr fun same => onLine (same ▸ member))
      (stops_newline below)
  have reads : read (kindAfter none front) '%' ('\x7b' :: (line ++ '\n' :: below)) =
      (.inr .comment, line.length + 1) := by
    rw [read_marker, comment, if_neg fun opens => plain opens.2, run_cons, length]
    rfl
  constructor
  · rw [behind, here, scan_of_read reads, List.take_succ_cons, List.drop_succ_cons,
      List.take_left, List.drop_left]
    exact congrArg (_ :: ·) (scan_newline none below)
  · have whole : source = concat front ++ concat back := by
      rw [← concat_append, ← scanned, concat_scan]
    have stands : scan none (concat front ++ concat back) = front ++
        scan (kindAfter none front) (concat back) := by
      rw [← whole, scanned, ← behind]
    rw [scan_border (.newline below) stands fun none =>
      absurd (here.symm.trans none) (List.cons_ne_nil _ _), scan_newline]

end

end Token
end ScriptFlow
