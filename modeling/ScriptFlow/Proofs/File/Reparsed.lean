import ScriptFlow.Proofs.File.Relabelled
import ScriptFlow.Proofs.File.Reread
import ScriptFlow.Proofs.Token.Placed

/-!
Reading back what was written for a whole file. The text of a readable file is read as the file
arranged anew, apart from places, when no quote in it transposes a text; when one does, reading
fails or gives another file.
-/

namespace ScriptFlow

open Token TokenReader

section
variable {clean : Prop} {marks : List Landmark} {count : Int} {lexemes : List Lexeme}

theorem Lines.touching (lines : Lines clean marks count lexemes) : Touching lexemes := by
  refine ⟨lines.written, lines.chain, fun last ends => ?_⟩
  rw [lines.last last ends]
  nofun

theorem Lines.fits (lines : Lines clean marks count lexemes) :
    ∀ first ∈ lexemes.head?, first.Fits none := by
  intro first head
  have plain := lines.head first head
  cases first with
  | gap => trivial
  | token kind text =>
      cases kind
      case quote => exact absurd rfl plain
      case singleQuoted => rfl
      all_goals trivial

theorem Lines.scanned (lines : Lines clean marks count lexemes) (holds : clean) :
    scan none (Lexeme.concat lexemes) = lexemes :=
  scan_concat lines.touching (lines.clean.mpr holds) lines.fits

end

theorem passed_place (offset : Nat) (here : Position) (lexemes : List Lexeme) :
    passed (place offset here lexemes) = Token.landmarks lexemes := by
  induction lexemes generalizing offset here with
  | nil => rfl
  | cons first rest ih =>
      cases first with
      | token kind text =>
          rw [landmarks_cons, place, ← List.singleton_append, passed_append, passed_single, ih]
          rfl
      | gap kind text => exact ih _ _

variable {A : Type} {cursor after : Cursor}

theorem collect_ends {part : TokenReader (Option A)} {as : List A}
    (ran : (collect part).run cursor = .ok (as, after)) :
    ∃ before, part.run before = .ok (none, after) := by
  have within (allowance : Nat) {as : List A} {cursor : Cursor}
      (ran : (collectWithin part allowance).run cursor = .ok (as, after)) :
      ∃ before, part.run before = .ok (none, after) := by
    induction allowance generalizing as cursor with
    | zero => cases ran
    | succ allowance ih =>
        obtain ⟨found, between, first, second⟩ := run_bind_ok ran
        cases found with
        | none =>
            cases second
            exact ⟨cursor, first⟩
        | some a =>
            obtain ⟨rest, behind, more, last⟩ := run_bind_ok second
            cases last
            exact ih more
  exact within _ ran

theorem File.item_ends {closed : Bool} (ran : (File.item closed).run cursor = .ok (none, after)) :
    after.ahead = [] := by
  obtain ⟨_, between, _, next⟩ := run_bind_ok ran
  obtain ⟨kind, here, peeked, rest⟩ := run_bind_ok next
  cases peeked
  cases found : between.next? with
  | none =>
      rw [found] at rest
      cases rest
      cases ahead : after.ahead with
      | nil => rfl
      | cons token tokens =>
          rw [Cursor.next?, ahead] at found
          cases found
  | some kind =>
      rw [found] at rest
      have other {B : Type} {reader : TokenReader B} {f : B → ParsedItem}
          (ran : (do return some (f (← reader)) : TokenReader (Option ParsedItem)).run between =
          .ok (none, after)) : False := by
        obtain ⟨_, _, _, last⟩ := run_bind_ok ran
        cases last
      cases kind
      case functionKey => exact (other rest).elim
      all_goals exact (other rest).elim

theorem File.ofTokens_told {tokens : List Token} {file : ParsedFile}
    (admitted : Admitted tokens) (read : File.ofTokens tokens = .ok file) :
    (∀ token ∈ tokens, token.kind ≠ .invalid) ∧ ReadableItems file.items ∧
      passed tokens = itemLandmarks file.items := by
  obtain ⟨valid, after, ran⟩ := File.ofTokens_ok_iff.mp read
  obtain ⟨used, same, readable, marks⟩ := File.gives_reader _ _ file after admitted ran
  obtain ⟨items, between, collected, last⟩ := run_bind_ok ran
  cases last
  obtain ⟨before, ended⟩ := collect_ends collected
  have none := File.item_ends ended
  rw [none, List.append_nil] at same
  refine ⟨valid, readable, ?_⟩
  rw [← marks, ← same]
  rfl

/-- The tokens of a source that is read as a file are valid, and the file is what they say. -/
theorem File.parse_told {source : List Char} {file : ParsedFile}
    (parsed : File.parse source = .ok file) :
    (∀ token ∈ Token.ofSource source, token.kind ≠ .invalid) ∧ ReadableItems file.items ∧
      passed (Token.ofSource source) = itemLandmarks file.items :=
  File.ofTokens_told (ofSource_admits source) (File.parse_ok_iff.mp parsed)

namespace File

variable {Label : Type} {file : File Label ParsedExpr}

abbrev unplaced (file : File Label ParsedExpr) : File Unit ParsedExpr :=
  file.map Header.unplaced Stmt.unplaced

/-- What is written for a readable file is read as the file arranged anew, if no quote transposes a
text. -/
theorem parse_print (readable : ReadableItems file.items) (faithful : file.Faithful) :
    ∃ found, parse file.print = .ok found ∧ found.unplaced = file.arranged.unplaced := by
  have written := lines readable
  have scanned : scan none file.print = file.written 0 := written.scanned faithful
  have valid : (Token.ofSource file.print).find? (fun token => token.kind = .invalid) = none := by
    refine List.find?_eq_none.mpr fun token member invalid => ?_
    rw [Token.ofSource, scanned] at member
    have own : token.kind.Writes token.text := written.written _ (lexeme_of_place member)
    rw [of_decide_eq_true invalid] at own
    exact own
  have closes : closesFunctions (Token.ofSource file.print) = true := by
    have tallies := written.tallies []
    rw [List.append_nil] at tallies
    rw [closesFunctions, Token.ofSource, scanned, kinds_place, tallies]
    rfl
  obtain ⟨found, same, reads⟩ := finds_reader readable none 0 Position.start [] rfl
  rw [Reads, List.append_nil, ← scanned] at reads
  refine ⟨found, ?_, same⟩
  rw [parse, ofTokens, valid, closes]
  change (StateT.run' (reader true) (Cursor.ofTokens (Token.ofSource file.print))).mapError _ = _
  rw [StateT.run'_eq, Cursor.ofTokens, Token.ofSource, reads]
  rfl

theorem landmarks_unplaced (file : File Label ParsedExpr) :
    itemLandmarks file.unplaced.items = itemLandmarks file.items := by
  refine itemLandmarks_map (fun inner => ?_) file.items
  have bare : (id : ParsedExpr → ParsedExpr) = Expr.relabel fun label => label :=
    funext fun expr => (Expr.relabel_id expr).symm
  rw [Stmt.unplaced, bare, Stmt.landmarks_relabel]

/-- Where a quote transposes a text, what is written is read as another file, if at all: the
landmarks differ first where a text was read, and arranging moves none but those behind a
function. -/
theorem parse_print_other (readable : ReadableItems file.items) (unfaithful : ¬ file.Faithful)
    {found : ParsedFile} (parsed : parse file.print = .ok found) :
    found.arranged.unplaced ≠ file.arranged.unplaced := by
  intro same
  have written := lines readable
  have spoiled : ¬ Unspoiled (file.written 0) := fun clean => unfaithful (written.clean.mp clean)
  obtain ⟨common, other, back, kind, text, rest, whole, scanned, differs, sort, sort'⟩ :=
    scan_spoiled written.touching spoiled written.fits
  have scanned : scan none file.print = common ++ .token kind text :: rest := scanned
  obtain ⟨valid, _, marks⟩ := parse_told parsed
  -- a file was read, so that no token is invalid and what is found in place of the other lexeme is
  -- a text
  have isText : kind = .singleQuoted := by
    refine sort'.resolve_left ?_
    rintro rfl
    have member : Kind.invalid ∈ (Token.ofSource file.print).map Token.kind := by
      rw [Token.ofSource, kinds_place, scanned, kinds_append]
      exact List.mem_append_right _ List.mem_cons_self
    obtain ⟨token, inside, invalid⟩ := List.mem_map.mp member
    exact valid token inside invalid
  subst isText
  rw [Token.ofSource, passed_place, scanned, landmarks_append, landmarks_cons] at marks
  have arranged := written.marks
  rw [whole, landmarks_append, landmarks_cons] at arranged
  obtain ⟨mark, own, apart⟩ : ∃ mark, other.landmark? = some mark ∧
      (Kind.singleQuoted, text) ≠ mark := by
    cases other with
    | gap => rcases sort with same | same <;> cases same
    | token kind' text' =>
        rcases sort with same | same
        · cases same
          exact ⟨_, rfl, fun equal =>
            differs (congrArg (Lexeme.token .singleQuoted) (Prod.ext_iff.mp equal).2)⟩
        · cases same
          exact ⟨_, rfl, nofun⟩
  -- the order that was read and the arranged one would first differ at this text, not at the
  -- keyword of a function
  have moved := itemsAhead found.items
  have both : itemLandmarks found.arranged.items = itemLandmarks file.arranged.items := by
    rw [← landmarks_unplaced, same, landmarks_unplaced]
  change Ahead _ (itemLandmarks found.arranged.items) at moved
  rw [← marks, both, ← arranged, own] at moved
  exact nomatch moved.first_other apart

end File
end ScriptFlow
