import ScriptFlow.Proofs.Token.Linewise
import ScriptFlow.Proofs.Token.Nest

/-!
Functions that lose their `end`. In place of every `end` that closes a function a comma and two
blanks are written. The new text has the tokens of the old one in their places, but for a comma
where an `end` was.
-/

namespace ScriptFlow

open Token

namespace Nest

def closes (nest : Nest) (kind : Kind) : Bool := kind == .endKey && nest.endsFunction

theorem closes_iff {nest : Nest} {kind : Kind} :
    nest.closes kind = true ↔ kind = .endKey ∧ nest.endsFunction = true := by
  rw [closes, Bool.and_eq_true, beq_iff_eq]

theorem closes_inside {nest : Nest} (inside : nest.brackets ≠ []) (kind : Kind) :
    nest.closes kind = false := by
  rw [closes, endsFunction_inside inside, Bool.and_false]

def closings (nest : Nest) : List Kind → Nat
  | [] => 0
  | kind :: rest => (if nest.closes kind then 1 else 0) + (nest.after kind).closings rest

end Nest

namespace Token

/-- The tokens with a comma in the place of every `end` that closes a function. -/
def unclosed (nest : Nest) : List Token → List Token
  | [] => []
  | first :: rest =>
      (if nest.closes first.kind then { first with kind := .comma, text := [','] } else first) ::
        unclosed (nest.after first.kind) rest

/-- The text with a comma and two blanks for every `end` that closes a function. -/
def unclosedText (nest : Nest) : List Lexeme → List Char
  | [] => []
  | .token kind text :: rest =>
    (if nest.closes kind then [',', ' ', ' '] else text) ++ unclosedText (nest.after kind) rest
  | .gap _ text :: rest => text ++ unclosedText nest rest

theorem unclosed_length (nest : Nest) (tokens : List Token) :
    (unclosed nest tokens).length = tokens.length := by
  induction tokens generalizing nest with
  | nil => rfl
  | cons first rest ih => rw [unclosed, List.length_cons, List.length_cons, ih]

theorem mem_unclosed {nest : Nest} {tokens : List Token} {token : Token}
    (member : token ∈ unclosed nest tokens) : token ∈ tokens ∨ token.kind = .comma := by
  induction tokens generalizing nest with
  | nil => cases member
  | cons first rest ih =>
      rw [unclosed] at member
      rcases List.mem_cons.mp member with rfl | later
      · split
        · exact .inr rfl
        · exact .inl List.mem_cons_self
      · exact (ih later).imp_left (List.mem_cons_of_mem _)

theorem unclosedText_same {nest : Nest} {lexemes : List Lexeme}
    (none : nest.closings (kinds lexemes) = 0) :
    unclosedText nest lexemes = Lexeme.concat lexemes := by
  induction lexemes generalizing nest with
  | nil => rfl
  | cons first rest ih =>
      cases first with
      | gap kind text =>
          rw [unclosedText, ih none]
          rfl
      | token kind text =>
          rw [kinds_token, Nest.closings, Nat.add_eq_zero_iff] at none
          cases closes : nest.closes kind with
          | true =>
              rw [closes] at none
              cases none.1
          | false =>
              rw [unclosedText, closes, ih none.2]
              rfl

theorem ofWord_spelling {text : List Char} {kind : Kind} (same : Kind.ofWord text = kind)
    (other : kind ≠ .word) : text = kind.spelling.toList := by
  rw [Kind.ofWord] at same
  cases found : Kind.keywords.find? fun kind => kind.spelling.toList = text with
  | none =>
      rw [found] at same
      exact absurd same.symm other
  | some keyword =>
      rw [found] at same
      have spelled := List.find?_some found
      rw [← show keyword = kind from same]
      exact (of_decide_eq_true spelled).symm

theorem read_end {before : Option Kind} {c : Char} {ahead : List Char}
    {length : Nat} (reads : read before c ahead = (.inl .endKey, length)) :
    c :: ahead.take length = Kind.endKey.spelling.toList := by
  unfold read at reads
  split at reads
  · cases reads
  split at reads
  · have same := Prod.ext_iff.mp reads
    have word := Sum.inl.inj same.1
    have count : run isWordRest ahead = length := same.2
    rw [count] at word
    exact ofWord_spelling word (by decide)
  split at reads
  · cases reads
  split at reads
  case h_1 | h_2 =>
    rw [comment] at reads
    split at reads <;> cases reads
  case h_3 =>
    unfold dotted at reads
    split at reads
    case h_7 => split at reads <;> cases reads
    all_goals cases reads
  case h_4 =>
    rw [quoted] at reads
    split at reads <;> cases reads
  case h_5 =>
    split at reads
    · cases reads
    · rw [quoted] at reads
      split at reads <;> cases reads
  case h_16 | h_17 | h_18 | h_19 | h_20 | h_21 | h_22 =>
    unfold either at reads
    split at reads <;> cases reads
  all_goals cases reads

theorem scan_plain {before other : Option Kind} {source : List Char} (plain : '\'' ∉ source.head?) :
    scan before source = scan other source := by
  cases source with
  | nil => rw [scan, scan]
  | cons c ahead =>
      have same : read before c ahead = read other c ahead := by
        unfold read
        split
        · rfl
        split
        · rfl
        split
        · rfl
        split <;> first | rfl | exact absurd rfl plain
      rw [scan, scan, same]

/-- Where a text begins with a quote, its first lexeme is one, behind what ends a value. -/
theorem scan_quote {kind : Kind} (ends : kind.endsValue = true) (ahead : List Char) :
    scan (some kind) ('\'' :: ahead) = .token .quote ['\''] :: scan (some .quote) ahead := by
  have reads : read (some kind) '\'' ahead = (.inl .quote, 0) := by
    simp [read, isBlank, isWordStart, Option.any_some, ends]
  rw [scan_of_read reads]
  rfl

theorem scan_behind_end {nest : Nest} {rest : List Lexeme}
    (scanned : scan (some .endKey) (Lexeme.concat rest) = rest)
    (outside : nest.brackets = []) (orderly : nest.Orderly (some .endKey) (kinds rest)) :
    scan none (Lexeme.concat rest) = rest := by
  have plain : '\'' ∉ (Lexeme.concat rest).head? := by
    intro quote
    obtain ⟨ahead, text⟩ := List.head?_eq_some_iff.mp quote
    rw [text, scan_quote rfl] at scanned
    rw [← scanned, kinds_token] at orderly
    exact orderly.1.quote rfl outside rfl
  exact (scan_plain plain).trans scanned

theorem text_of_end {before : Option Kind} {text : List Char} {rest : List Lexeme}
    {source : List Char} (scanned : scan before source = .token .endKey text :: rest) :
    text = Kind.endKey.spelling.toList ∧ rest = scan (some .endKey) (Lexeme.concat rest) := by
  obtain ⟨c, inner, ahead, sort, _, same, reads, more⟩ := scan_cons scanned
  cases sort with
  | inr => cases same
  | inl kind =>
      cases same
      have spelled := read_end reads
      rw [List.take_left] at spelled
      refine ⟨spelled, ?_⟩
      rw [more, concat_scan]
      rfl

theorem scan_comma (before : Option Kind) (offset : Nat) (here : Position) (text : List Char) :
    place offset here (scan before (',' :: ' ' :: ' ' :: text)) = ⟨.comma, [','], offset, here⟩ ::
      place (offset + byteLength Kind.endKey.spelling.toList)
      (here.after Kind.endKey.spelling.toList) (scan none text) := by
  have reads : read before ',' (' ' :: ' ' :: text) = (.inl .comma, 0) := rfl
  rw [scan_of_read reads, List.drop_zero]
  change _ :: place (offset + 1) (here.after [',']) _ = _
  rw [place_blank (by decide), place_blank (by decide)]
  rfl

theorem place_unclosed {nest : Nest} {before last : Option Kind} {front back : List Lexeme}
    (scanned : scan before (Lexeme.concat (front ++ back)) = front ++ back)
    (orderly : nest.Orderly last (kinds back)) (offset : Nat) (here : Position) :
    place offset here (scan before (Lexeme.concat front ++ unclosedText nest back)) =
      place offset here front ++ unclosed nest (place (offset + byteLength (Lexeme.concat front))
      (here.after (Lexeme.concat front)) back) := by
  -- over what is still to be rewritten; each lexeme that stays moves to the front, and behind an
  -- `end` the front is empty again
  induction back generalizing nest before last front offset here with
  | nil =>
      rw [List.append_nil] at scanned
      rw [unclosedText, List.append_nil, scanned, place, unclosed, List.append_nil]
  | cons first rest ih =>
      have whole : scan before (Lexeme.concat ((front ++ [first]) ++ rest)) =
          (front ++ [first]) ++ rest := by
        rwa [List.append_assoc]
      have longer : Lexeme.concat (front ++ [first]) = Lexeme.concat front ++ first.text := by
        rw [concat_append, concat_cons]
        exact congrArg _ (List.append_nil _)
      cases first with
      | gap kind text =>
          have stays := ih whole orderly offset here
          rw [longer, List.append_assoc, byteLength_append, Position.after_append, ← Nat.add_assoc,
            place_append, List.append_assoc] at stays
          exact stays
      | token kind text =>
          cases closes : nest.closes kind with
          | false =>
              have stays := ih whole orderly.2 offset here
              rw [longer, List.append_assoc, byteLength_append, Position.after_append,
                ← Nat.add_assoc, place_append, List.append_assoc] at stays
              rw [unclosedText, closes, place, unclosed, closes]
              exact stays
          | true =>
              obtain ⟨rfl, ends⟩ := Nest.closes_iff.mp closes
              have behind := scan_behind scanned
              obtain ⟨rfl, alone⟩ := text_of_end behind.symm
              have others := scan_behind_end alone.symm (Nest.after_ends ends) orderly.2
              have swap : Swap (Kind.endKey.spelling.toList ++ Lexeme.concat rest)
                  (',' :: ' ' :: ' ' :: unclosedText (nest.after .endKey) rest) :=
                ⟨⟨_, _, rfl, .inr rfl⟩, fun stops => absurd (stops 'e' rfl) (by decide)⟩
              rw [concat_append] at scanned
              have stands : scan before (Lexeme.concat front ++
                  (Kind.endKey.spelling.toList ++ Lexeme.concat rest)) = front ++ scan
                  (kindAfter before front) (Kind.endKey.spelling.toList ++ Lexeme.concat rest) :=
                scanned.trans (congrArg (front ++ ·) behind)
              have alone' : scan none (Lexeme.concat ([] ++ rest)) = [] ++ rest := others
              have tail := ih alone' orderly.2 (offset + byteLength (Lexeme.concat front) +
                  byteLength Kind.endKey.spelling.toList)
                  ((here.after (Lexeme.concat front)).after Kind.endKey.spelling.toList)
              rw [unclosedText, closes, if_pos rfl, place, unclosed, closes, if_pos rfl]
              change place offset here (scan before (Lexeme.concat front ++ ',' :: ' ' :: ' ' ::
                  unclosedText (nest.after .endKey) rest)) = _
              rw [scan_border swap stands (by nofun), place_append, scan_comma]
              exact congrArg (fun tokens => place offset here front ++ _ :: tokens) tail

/-- The new text has the tokens of the old one in their places, but for a comma where an `end` of a
function was. -/
theorem ofSource_unclosed {source : List Char}
    (orderly : Nest.empty.Orderly none ((ofSource source).map Token.kind)) :
    ofSource (unclosedText .empty (scan none source)) = unclosed .empty (ofSource source) := by
  rw [ofSource, kinds_place] at orderly
  have whole : scan none (Lexeme.concat ([] ++ scan none source)) = [] ++ scan none source := by
    rw [List.nil_append, concat_scan]
  exact place_unclosed whole orderly 0 Position.start

end Token
end ScriptFlow
