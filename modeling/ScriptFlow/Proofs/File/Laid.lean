import Mathlib.Data.List.Perm.Subperm
import ScriptFlow.Proofs.File.Relabelled
import ScriptFlow.Proofs.Stmt.Laid

/-!
Where the statements of a file are read. The statements of the script and of every function are in
order among the tokens, and no two of them, of one list or of two, have the same token.
-/

namespace ScriptFlow

open Token TokenReader

section
variable {Label Other Operand Result : Type}

mutual
def Function.bodies : Function Label Operand → List (List (Stmt Label Operand))
  | .mk _ items => items.filterMap Item.statement? :: nestedBodies items

def nestedBodies : List (Item Label Operand) → List (List (Stmt Label Operand))
  | [] => []
  | .stmt _ :: rest => nestedBodies rest
  | .function inner :: rest => inner.bodies ++ nestedBodies rest
end

def bodiesOf (items : List (Item Label Operand)) : List (List (Stmt Label Operand)) :=
  items.filterMap Item.statement? :: nestedBodies items

theorem nestedBodies_itemsOf (stmts : List (Stmt Label Operand))
    (functions : List (Function Label Operand)) :
    nestedBodies (itemsOf stmts functions) = functions.flatMap Function.bodies := by
  induction stmts with
  | nil =>
      induction functions with
      | nil => rfl
      | cons first rest ih =>
          rw [List.flatMap_cons, ← ih]
          rfl
  | cons first rest ih => exact ih

mutual
theorem Function.bodies_arranged :
    (function : Function Label Operand) → function.arranged.bodies = function.bodies
  | .mk header items => by
      rw [Function.arranged, Function.bodies, Function.bodies, statements_itemsOf,
        nestedBodies_itemsOf, nestedBodies_arranged items]

theorem nestedBodies_arranged : (items : List (Item Label Operand)) →
    (arrangedFunctions items).flatMap Function.bodies = nestedBodies items
  | [] => rfl
  | .stmt _ :: rest => nestedBodies_arranged rest
  | .function inner :: rest => by
      rw [arrangedFunctions, List.flatMap_cons, Function.bodies_arranged inner,
        nestedBodies_arranged rest, nestedBodies]
end

section
variable (header : Header → Header) (stmt : Stmt Label Operand → Stmt Other Result)

mutual
theorem Function.bodies_map : (function : Function Label Operand) →
    (function.map header stmt).bodies = function.bodies.map (·.map stmt)
  | .mk _ items => by
      rw [Function.map, Function.bodies, Function.bodies, List.map_cons, statements_map,
        nestedBodies_map items]

theorem nestedBodies_map : (items : List (Item Label Operand)) →
    nestedBodies (mapItems header stmt items) = (nestedBodies items).map (·.map stmt)
  | [] => rfl
  | .stmt _ :: rest => nestedBodies_map rest
  | .function inner :: rest => by
      rw [mapItems, nestedBodies, nestedBodies, List.map_append, Function.bodies_map inner,
        nestedBodies_map rest]
end

end

end

/-- Each list of statements is laid, and the places of all of them are different places of the
tokens that were taken. -/
structure BodiesLaid (tokens : List Token) (bodies : List (List ParsedStmt))
    (used : List Token) : Prop where
  each : ∀ body ∈ bodies, Stmt.Laid tokens body used
  apart :
    (bodies.flatMap fun body => (Stmt.within body).map Stmt.label).Subperm (used.map Token.position)

def Item.Laid (tokens : List Token) : ParsedItem → List Token → Prop
  | .stmt inner, used => Stmt.Laid tokens [inner] used
  | .function inner, used => used ≠ [] ∧ BodiesLaid tokens inner.bodies used

variable {tokens used later : List Token}

theorem Item.Laid.some {item : ParsedItem} (laid : item.Laid tokens used) : used ≠ [] := by
  cases item with
  | stmt stmt => exact Stmt.Laid.some laid
  | function function => exact laid.1

namespace BodiesLaid

variable {bodies : List (List ParsedStmt)}

theorem mono (laid : BodiesLaid tokens bodies used) (inside : used.Sublist later) :
    BodiesLaid tokens bodies later :=
  ⟨fun body member => (laid.each body member).mono inside, laid.apart.trans (inside.map _).subperm⟩

theorem nil (used : List Token) : BodiesLaid tokens (bodiesOf []) used := by
  constructor
  · intro body member
    rw [List.mem_singleton.mp member]
    exact .nil used
  · change List.Subperm ((Stmt.within []).map Stmt.label ++ []) _
    rw [Stmt.within_nil]
    exact List.nil_subperm

theorem stmt {stmt : ParsedStmt} {rest : List ParsedItem}
    (head : Stmt.Laid tokens [stmt] used) (tail : BodiesLaid tokens (bodiesOf rest) later) :
    BodiesLaid tokens (bodiesOf (.stmt stmt :: rest)) (used ++ later) := by
  have own := tail.each _ List.mem_cons_self
  have apart := tail.apart
  rw [bodiesOf, List.flatMap_cons] at apart
  constructor
  · intro body member
    rcases List.mem_cons.mp member with rfl | nested
    · exact head.append own
    · exact (tail.each body (List.mem_cons_of_mem _ nested)).mono (List.sublist_append_right _ _)
  · change List.Subperm
      ((Stmt.within ([stmt] ++ rest.filterMap Item.statement?)).map Stmt.label ++ _) _
    rw [Stmt.within_append, List.map_append, List.append_assoc, List.map_append]
    exact head.ordered.subperm.append apart

theorem function {function : ParsedFunction} {rest : List ParsedItem}
    (head : BodiesLaid tokens function.bodies used)
    (tail : BodiesLaid tokens (bodiesOf rest) later) :
    BodiesLaid tokens (bodiesOf (.function function :: rest)) (used ++ later) := by
  have apart := tail.apart
  rw [bodiesOf, List.flatMap_cons] at apart
  have bodies : bodiesOf (.function function :: rest) =
      rest.filterMap Item.statement? :: (function.bodies ++ nestedBodies rest) := rfl
  rw [bodies]
  constructor
  · intro body member
    rcases List.mem_cons.mp member with rfl | nested
    · exact (tail.each _ List.mem_cons_self).mono (List.sublist_append_right _ _)
    rcases List.mem_append.mp nested with inside | behind
    · exact (head.each body inside).mono (List.sublist_append_left _ _)
    · exact (tail.each body (List.mem_cons_of_mem _ behind)).mono (List.sublist_append_right _ _)
  · rw [List.flatMap_cons, List.flatMap_append, List.map_append]
    exact List.perm_append_comm_assoc _ _ _ |>.subperm.trans (head.apart.append apart)

theorem items {items : List ParsedItem} {lists : List (List Token)}
    (all : List.Forall₂ (fun item used => Item.Laid tokens item used) items lists) :
    BodiesLaid tokens (bodiesOf items) lists.flatten := by
  induction all with
  | nil => exact .nil []
  | @cons item used _ _ head _ ih =>
      cases item with
      | stmt stmt => exact .stmt head ih
      | function function => exact .function head.2 ih

end BodiesLaid

theorem takes_items {cursor : Cursor} {part : TokenReader (Option ParsedItem)}
    (each : ∀ after, after.ahead.length ≤ cursor.ahead.length →
      Takes (among tokens) after part (PartOf (Item.Laid tokens) fun _ => True)) :
    Takes (among tokens) cursor (collect part) fun items used =>
      BodiesLaid tokens (bodiesOf items) used := by
  refine (takes_collect each).imp fun items used taken => ?_
  obtain ⟨lists, last, all, _, rfl⟩ := taken
  exact (BodiesLaid.items all).mono (List.sublist_append_left _ _)

theorem partOf_behind {item : ParsedItem} (skipped : List Token) (laid : item.Laid tokens used) :
    PartOf (Item.Laid tokens) (fun _ => True) (some item) (skipped ++ used) := by
  constructor
  · exact fun none => laid.some (List.append_eq_nil_iff.mp none).2
  · cases item with
    | stmt stmt => exact Stmt.Laid.mono laid (List.sublist_append_right _ _)
    | function function =>
        constructor
        · exact fun none => laid.1 (List.append_eq_nil_iff.mp none).2
        · exact laid.2.mono (List.sublist_append_right _ _)

theorem takes_stmtBehind {cursor : Cursor} (skipped : List Token) : Takes (among tokens) cursor (do
    return some (.stmt (← Stmt.reader))) fun found used =>
      PartOf (Item.Laid tokens) (fun _ => True) found (skipped ++ used) :=
  (Stmt.laid_reader cursor).bind fun stmt used _ _ laid => takes_pure (by
    rw [List.append_nil]
    exact partOf_behind skipped laid)

namespace Function

variable {closed : Bool} {cursor : Cursor}

theorem takes_laidItem {room : Nat} {nested : TokenReader ParsedFunction}
    (inner : ∀ cursor : Cursor, cursor.ahead.length < room →
      Takes (among tokens) cursor nested fun function used => used ≠ [] ∧
      BodiesLaid tokens function.bodies used) (inside : cursor.ahead.length < room) :
    Takes (among tokens) cursor (item closed nested) (PartOf (Item.Laid tokens) fun _ => True) := by
  refine takes_separators fun skipped after _ passes => takes_peek ?_
  have lengths := passes.length
  cases next : after.next? with
  | none => exact takes_pure trivial
  | some kind =>
      cases kind
      case endKey =>
        change Takes (among tokens) after (if closed = true then _ else _) _
        split
        · exact takes_skip next fun _ _ _ _ => takes_pure trivial
        · exact takes_stmtBehind skipped
      case functionKey =>
        change Takes (among tokens) after (if closed = true then _ else _) _
        split
        · refine (inner after (by omega)).bind fun function used _ _ laid => takes_pure ?_
          rw [List.append_nil]
          exact partOf_behind skipped laid
        · exact takes_pure trivial
      all_goals exact takes_stmtBehind skipped

theorem laid_readerWithin (allowance : Nat) (cursor : Cursor)
    (inside : cursor.ahead.length < allowance) :
    Takes (among tokens) cursor (readerWithin closed allowance) fun function used =>
      used ≠ [] ∧ BodiesLaid tokens function.bodies used := by
  induction allowance generalizing cursor with
  | zero => exact absurd inside (Nat.not_lt_zero _)
  | succ allowance inner =>
      refine takes_expect fun first after _ passes => ?_
      have shorter := passes.shorter (List.cons_ne_nil _ _)
      refine takes_outputsAndName.bind fun names used between passes' _ =>
        takes_inputs.bind fun inputs used' behind passes'' _ => ?_
      have lengths := passes'.length
      have lengths' := passes''.length
      refine (takes_items fun here within => takes_laidItem inner (by omega)).bind
        fun items taken _ _ laid => takes_pure ?_
      rw [List.append_nil]
      constructor
      · exact List.cons_ne_nil _ _
      · refine BodiesLaid.mono laid ?_
        exact ((List.sublist_append_right used' taken).trans
          (List.sublist_append_right used _)).cons first

end Function

namespace File

theorem laid_reader {closed : Bool} {cursor : Cursor} :
    Takes (among tokens) cursor (reader closed) fun file used =>
      BodiesLaid tokens (bodiesOf file.items) used := by
  refine Takes.bind (takes_items fun here _ => ?_) fun items used _ _ laid => takes_pure ?_
  · refine takes_separators fun skipped after _ passes => takes_peek ?_
    cases after.next? with
    | none => exact takes_pure trivial
    | some kind =>
        cases kind
        case functionKey =>
          refine Takes.bind (takes_get (Function.laid_readerWithin _ after (Nat.lt_succ_self _)))
            fun function used _ _ laid => takes_pure ?_
          rw [List.append_nil]
          exact partOf_behind skipped laid
        all_goals exact takes_stmtBehind skipped
  · rwa [List.append_nil]

end File
end ScriptFlow
