import ScriptFlow.File.Printer
import ScriptFlow.Proofs.File.Rearranged
import ScriptFlow.Proofs.Stmt.Spelled

/-!
How files are written. A readable file is written as lines, with the landmarks that it has when its
statements stand before the functions, and everything that is opened is closed.
-/

namespace ScriptFlow

open Token Token.Lexeme File Written

variable {Label Mark : Type}

namespace Header

def IsParameter (name : String) : Prop := name = "~" ∨ IsName name.toList

theorem parameter_kind {name : String} (isParameter : IsParameter name) :
    ∃ kind text, parameter name = token kind text ∧ kind.Writes text ∧
      (kind = .word ∨ kind = .tilde) := by
  rw [parameter]
  split
  · exact ⟨_, _, rfl, rfl, .inr rfl⟩
  · next other => exact ⟨_, _, rfl, isParameter.resolve_left other, .inl rfl⟩

theorem segment_parameters {names : List String}
    (all : ∀ name ∈ names, IsParameter name) (some : names ≠ []) :
    ∃ first last, Segment first last True (separated .comma (names.map ([parameter ·]))) ∧
      (first = .word ∨ first = .tilde) ∧ (last = .word ∨ last = .tilde) := by
  induction names with
  | nil => exact absurd rfl some
  | cons name rest ih =>
      obtain ⟨kind, text, same, written, sort⟩ := parameter_kind (all name List.mem_cons_self)
      have own : Segment kind kind True [parameter name] := same ▸ .single written
      cases rest with
      | nil =>
          rw [List.map_singleton, separated_single]
          exact ⟨kind, kind, own, sort, sort⟩
      | cons next rest =>
          obtain ⟨first, last, others, starts, ends⟩ :=
            ih (fun name member => all name (List.mem_cons_of_mem _ member)) (List.cons_ne_nil _ _)
          have touch : kind.touches .comma = true := by rcases sort with rfl | rfl <;> rfl
          have plain : first ≠ .quote := by rcases starts with rfl | rfl <;> decide
          have marked :=
            own.touching (.mark rfl : Segment .comma .comma True [mark .comma]) touch (by decide)
          have whole := marked.spaced others (by decide) plain
          rw [List.append_assoc] at whole
          rw [List.map_cons, List.map_cons, separated_cons]
          exact ⟨kind, last, whole.congr (by simp), sort, ends⟩

theorem landmarks_parameters {names : List String} (all : ∀ name ∈ names, IsParameter name) :
    Token.landmarks (separated .comma (names.map ([parameter ·]))) = [] ∧
      Tallies 1 0 (separated .comma (names.map ([parameter ·]))) := by
  constructor
  · rw [Expr.landmarks_separated rfl, List.flatMap_eq_nil_iff]
    intro part member
    obtain ⟨name, inside, rfl⟩ := List.mem_map.mp member
    obtain ⟨kind, text, same, _, rfl | rfl⟩ := parameter_kind (all name inside) <;>
      (rw [same]; rfl)
  · refine tallies_separated rfl fun part member => ?_
    obtain ⟨name, inside, rfl⟩ := List.mem_map.mp member
    obtain ⟨kind, text, same, _, rfl | rfl⟩ := parameter_kind (all name inside) <;>
      (rw [same]; exact tallies_plain rfl)

def signature (header : Header) : List Lexeme :=
  [word header.name] ++ ([mark .openParen] ++
    separated .comma (header.inputs.map ([parameter ·])) ++ [mark .closeParen])

def results : List String → List Lexeme
  | [] => []
  | [output] => [word output, blank, mark .gets, blank]
  | outputs =>
    mark .openBracket :: separated .comma (outputs.map ([word ·])) ++
      [mark .closeBracket, blank, mark .gets, blank]

theorem written_eq (header : Header) :
    header.written = headed .functionKey (results header.outputs ++ header.signature) := by
  have inner : results header.outputs ++ [word header.name, mark .openParen] ++
      separated .comma (header.inputs.map ([parameter ·])) ++ [mark .closeParen] =
      results header.outputs ++ header.signature := by
    simp [signature]
  rw [← inner]
  rfl

theorem onLine_signature {header : Header} (readable : header.Readable) :
    OnLine True [] 0 header.signature := by
  have inputs : ∃ first last, Segment first last True (([mark .openParen] ++
      separated .comma (header.inputs.map ([parameter ·])) ++ [mark .closeParen])) ∧
      first = .openParen ∧ last = .closeParen := by
    have opens : Segment .openParen .openParen True [mark .openParen] := .mark rfl
    have closes : Segment .closeParen .closeParen True [mark .closeParen] := .mark rfl
    by_cases none : header.inputs = []
    · rw [none]
      exact ⟨_, _, (opens.touching closes rfl (by decide)).congr (by simp), rfl, rfl⟩
    · obtain ⟨first, last, segment, starts, ends⟩ := segment_parameters readable.inputs none
      have opened := opens.touching segment (by rcases starts with rfl | rfl <;> rfl)
          (by rcases starts with rfl | rfl <;> decide)
      exact ⟨_, _, (opened.touching closes (by rcases ends with rfl | rfl <;> rfl)
          (by decide)).congr (by simp), rfl, rfl⟩
  obtain ⟨_, _, inputs, rfl, rfl⟩ := inputs
  obtain ⟨marks, tallies⟩ := landmarks_parameters readable.inputs
  have named : Segment .word .word True [word header.name] := .single readable.name
  have whole := named.touching inputs rfl (by decide)
  refine ⟨⟨_, _, whole.congr (by simp), by decide, rfl⟩, ?_, ?_⟩
  · rw [signature, landmarks_append, landmarks_append, landmarks_append, marks]
    rfl
  · exact (tallies_plain rfl).silent (tallies_enclosed (by simp) tallies)

theorem onLine_header {header : Header} (readable : header.Readable) :
    OnLine True [] 0 (results header.outputs ++ header.signature) := by
  have own := onLine_signature readable
  have outputs := readable.outputs
  cases names : header.outputs with
  | nil => exact own
  | cons first rest =>
      rw [names] at outputs
      cases rest with
      | nil =>
          exact ((onLine_word (outputs first List.mem_cons_self)).spaced
            (onLine_gets.spaced own)).congr (by simp) rfl rfl
      | cons next rest =>
          have solid : Solid (∀ name ∈ first :: next :: rest, True)
              (separated .comma ((first :: next :: rest).map ([word ·]))) :=
            solid_separated (.inl rfl) (fun name member =>
              ⟨_, _, .single (outputs name member), rfl, rfl⟩) (List.cons_ne_nil _ _)
          have segment :=
            segment_enclosed (by simp : (Kind.openBracket, Kind.closeBracket) ∈ _) (.inr solid)
          have tallies : Tallies 0 0 ([mark .openBracket] ++ separated .comma
              ((first :: next :: rest).map ([word ·])) ++ [mark .closeBracket]) := by
            refine tallies_enclosed (by simp) (tallies_separated rfl fun part member => ?_)
            obtain ⟨name, _, rfl⟩ := List.mem_map.mp member
            exact tallies_plain rfl
          have marks : Token.landmarks ([mark .openBracket] ++ separated .comma
              ((first :: next :: rest).map ([word ·])) ++ [mark .closeBracket]) = [] := by
            have none :
                (first :: next :: rest).flatMap (fun name => Token.landmarks [word name]) = [] :=
              List.flatMap_eq_nil_iff.mpr fun _ _ => rfl
            rw [landmarks_append, landmarks_append, Expr.landmarks_separated rfl,
              List.flatMap_map, none]
            rfl
          have line : OnLine (∀ name ∈ first :: next :: rest, True) [] 0 _ :=
            ⟨⟨_, _, segment, by decide, rfl⟩, marks, tallies⟩
          have split : results (first :: next :: rest) ++ header.signature = ([mark .openBracket] ++
              separated .comma ((first :: next :: rest).map ([word ·])) ++ [mark .closeBracket]) ++
              blank :: ([mark .gets] ++ blank :: header.signature) := by
            simp [results]
          rw [split]
          exact (line.spaced (onLine_gets.spaced own)).congr (by simp) rfl rfl

theorem lines {header : Header} (readable : header.Readable) (depth : Nat) :
    Lines True [(.functionKey, [])] 1 (header.written depth) := by
  rw [written_eq]
  exact (lines_headed (by decide : Kind.functionKey ∈ Kind.keywords)
    (onLine_header readable) depth).congr Iff.rfl rfl rfl

end Header

mutual
def Function.Faithful : Function Label (Expr Mark) → Prop
  | .mk _ items =>
    (∀ stmt ∈ items.filterMap Item.statement?, stmt.Faithful) ∧ FaithfulFunctions items

def FaithfulFunctions : List (Item Label (Expr Mark)) → Prop
  | [] => True
  | .stmt _ :: rest => FaithfulFunctions rest
  | .function inner :: rest => inner.Faithful ∧ FaithfulFunctions rest
end

def File.Faithful (file : File Label (Expr Mark)) : Prop :=
  (∀ stmt ∈ file.items.filterMap Item.statement?, stmt.Faithful) ∧ FaithfulFunctions file.items

theorem ReadableItems.statements {items : List (Item Label (Expr Mark))}
    (readable : ReadableItems items) : ∀ stmt ∈ items.filterMap Item.statement?, stmt.Readable := by
  induction items with
  | nil => exact fun _ member => absurd member List.not_mem_nil
  | cons item rest ih =>
      cases item with
      | stmt inner => exact List.forall_mem_cons.mpr ⟨readable.1, ih readable.2⟩
      | function inner => exact ih readable.2

theorem lines_statements {items : List (Item Label (Expr Mark))} (readable : ReadableItems items)
    (depth : Nat) : Lines (∀ stmt ∈ items.filterMap Item.statement?, stmt.Faithful)
      ((items.filterMap Item.statement?).flatMap Stmt.landmarks) 0
      (writtenStatements items depth) :=
  lines_block fun stmt member => (readable.statements stmt member).lines depth

mutual
theorem Function.Readable.lines :
    (function : Function Label (Expr Mark)) → function.Readable → (depth : Nat) →
      Lines function.Faithful function.arranged.landmarks 0 (function.written depth)
  | .mk header items, readable, depth => by
      have head := Header.lines readable.1 depth
      have stmts := lines_statements readable.2 (depth + 1)
      have functions := linesFunctions items readable.2 (depth + 1)
      have ends := lines_keyword (by decide : Kind.endKey ∈ Kind.keywords) depth
      have whole :=
        head.append ((stmts.append (functions.append lines_nil)).append (ends.append lines_nil))
      refine whole.congr ?_ ?_ rfl
      · simp [Function.Faithful]
      · simp [Function.arranged, Function.landmarks, itemLandmarks_itemsOf,
          Kind.landmark?, Kind.isLandmark]

theorem linesFunctions :
    (items : List (Item Label (Expr Mark))) → ReadableItems items → (depth : Nat) →
      Lines (FaithfulFunctions items) ((arrangedFunctions items).flatMap Function.landmarks) 0
      (writtenFunctions items depth)
  | [], _, _ => lines_nil
  | .stmt _ :: rest, readable, depth => linesFunctions rest readable.2 depth
  | .function inner :: rest, readable, depth => by
      have own := Function.Readable.lines inner readable.1 depth
      have others := linesFunctions rest readable.2 depth
      exact (own.append (others.append lines_nil)).congr (by simp [FaithfulFunctions])
        (by simp [arrangedFunctions]) rfl
end

theorem File.lines {file : File Label (Expr Mark)} (readable : ReadableItems file.items) :
    Lines file.Faithful (itemLandmarks file.arranged.items) 0 (file.written 0) := by
  have stmts := lines_statements readable 0
  have functions := linesFunctions file.items readable 0
  refine (stmts.append (functions.append lines_nil)).congr (by simp [File.Faithful]) ?_ rfl
  rw [File.arranged, itemLandmarks_itemsOf, List.append_nil]

end ScriptFlow
