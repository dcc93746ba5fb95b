import ScriptFlow.Proofs.File.Walking
import ScriptFlow.Proofs.Outcome
import ScriptFlow.Proofs.Token.Unclosed

/-!
The two styles of functions. Where functions are closed and none is nested, the text without the
`end`s of the functions is read as the same file. As what is read is orderly, the count of openers
and `end`s tells the style, and the readers of the two styles go through the two texts side by side.
-/

namespace ScriptFlow

open Token TokenReader

namespace Nest

theorem surplus_unclosed {nest : Nest} {before : Option Kind}
    {tokens : List Token} (orderly : nest.Orderly before (tokens.map Token.kind)) :
    File.surplus nest.brackets.length ((unclosed nest tokens).map Token.kind) =
      File.surplus nest.brackets.length (tokens.map Token.kind) +
      nest.closings (tokens.map Token.kind) := by
  induction tokens generalizing nest before with
  | nil => rfl
  | cons first rest ih =>
      have more := ih orderly.2
      rw [← depth_after orderly.1] at more
      rw [unclosed, List.map_cons, List.map_cons, closings]
      cases closes : nest.closes first.kind with
      | false =>
          rw [if_neg (by decide), if_neg (by decide), Nat.zero_add, File.surplus, File.surplus,
            more, Int.add_assoc]
      | true =>
          -- outside of brackets an `end` counts minus one, and a comma nothing
          obtain ⟨ends, inside⟩ := closes_iff.mp closes
          have outside : (nest.brackets.length : Int) = 0 := by
            rw [(endsFunction_iff.mp inside).1]; rfl
          rw [ends, outside] at more
          change File.surplus 0 _ = File.surplus 0 _ + _ at more
          rw [if_pos rfl, if_pos rfl, ends, outside]
          change 0 + File.surplus 0 _ = -1 + File.surplus 0 _ + _
          rw [more]
          omega

end Nest

namespace Cursor

def skipped (cursor : Cursor) : Cursor := skipSeparators cursor.last cursor.ahead

variable {last : Option Token} {token : Token} {rest : List Token} {cursor : Cursor}

theorem skipped_separator (separates : token.kind.separates = true) :
    skipped ⟨last, token :: rest⟩ = skipped ⟨some token, rest⟩ :=
  if_pos separates

theorem skipped_stop (stops : token.kind.separates = false) :
    skipped ⟨last, token :: rest⟩ = ⟨last, token :: rest⟩ :=
  if_neg (Bool.eq_false_iff.mp stops)

theorem skipped_skipped (cursor : Cursor) : cursor.skipped.skipped = cursor.skipped := by
  obtain ⟨last, ahead⟩ := cursor
  induction ahead generalizing last with
  | nil => rfl
  | cons token rest ih =>
      cases separates : token.kind.separates with
      | true =>
          rw [skipped_separator separates]
          exact ih (some token)
      | false => rw [skipped_stop separates, skipped_stop separates]

end Cursor

/-- The other run has the tokens of the new text ahead. -/
structure Unclosing (nest : Nest) (here there : Cursor) : Prop where
  ahead : there.ahead = unclosed nest here.ahead
  last : nest.brackets ≠ [] → there.last = here.last

namespace Unclosing

variable {nest : Nest} {here there : Cursor} {last last' : Option Token} {token token' : Token}
  {rest rest' : List Token}

theorem front (alike : Unclosing nest ⟨last, token :: rest⟩ there) :
    ∃ last' token' rest', there = ⟨last', token' :: rest'⟩ := by
  obtain ⟨last', ahead'⟩ := there
  cases alike.ahead
  exact ⟨_, _, _, rfl⟩

theorem stays (alike : Unclosing nest ⟨last, token :: rest⟩ ⟨last', token' :: rest'⟩)
    (closes : nest.closes token.kind = false) :
    token' = token ∧ rest' = unclosed (nest.after token.kind) rest := by
  have same := alike.ahead
  rw [unclosed, closes] at same
  exact List.cons.inj same

theorem turns (alike : Unclosing nest ⟨last, token :: rest⟩ ⟨last', token' :: rest'⟩)
    (closes : nest.closes token.kind = true) :
    token' = { token with kind := .comma, text := [','] } ∧
      rest' = unclosed (nest.after token.kind) rest := by
  have same := alike.ahead
  rw [unclosed, closes] at same
  exact List.cons.inj same

theorem length (alike : Unclosing nest here there) : there.ahead.length = here.ahead.length := by
  rw [alike.ahead, unclosed_length]

theorem next (alike : Unclosing nest here there) :
    there.next? = here.next? ∨ nest.Strays here there := by
  obtain ⟨last, ahead⟩ := here
  cases ahead with
  | nil =>
      obtain ⟨last', ahead'⟩ := there
      cases alike.ahead
      exact .inl rfl
  | cons token rest =>
      obtain ⟨last', token', rest', rfl⟩ := alike.front
      cases closes : nest.closes token.kind with
      | false =>
          cases (alike.stays closes).1
          exact .inl rfl
      | true =>
          obtain ⟨ends, inside⟩ := Nest.closes_iff.mp closes
          cases (alike.turns closes).1
          exact .inr ⟨inside, congrArg some ends, rfl⟩

theorem before (alike : Unclosing nest here there) (inside : nest.brackets ≠ []) :
    there.apartBefore = here.apartBefore := by
  obtain ⟨last, ahead⟩ := here
  obtain ⟨last', ahead'⟩ := there
  cases alike.ahead
  cases alike.last inside
  cases ahead with
  | nil => rfl
  | cons token rest =>
      rw [unclosed, Nest.closes_inside inside]
      cases last <;> rfl

theorem behind (alike : Unclosing nest here there) {kind : Kind}
    (front : here.next? = some kind) (sign : kind.isSign = true) (inside : nest.brackets ≠ []) :
    there.apartAfter = here.apartAfter := by
  obtain ⟨last, ahead⟩ := here
  obtain ⟨last', ahead'⟩ := there
  cases alike.ahead
  match ahead with
  | [] | [_] => rfl
  | token :: second :: rest =>
      have still : nest.after token.kind = nest := Nest.after_sign (by rwa [Option.some.inj front])
      rw [unclosed, Nest.closes_inside inside, still, unclosed, Nest.closes_inside inside]
      rfl

theorem place (alike : Unclosing nest ⟨last, token :: rest⟩ ⟨last', token' :: rest'⟩) :
    token'.position = token.position := by
  cases closes : nest.closes token.kind with
  | false => rw [(alike.stays closes).1]
  | true => rw [(alike.turns closes).1]

theorem step (alike : Unclosing nest ⟨last, token :: rest⟩ ⟨last', token' :: rest'⟩)
    (same : token'.kind = token.kind) : token'.text = token.text ∧
      Unclosing (nest.after token.kind) ⟨some token, rest⟩ ⟨some token', rest'⟩ := by
  cases closes : nest.closes token.kind with
  | false =>
      obtain ⟨rfl, rfl⟩ := alike.stays closes
      exact ⟨rfl, rfl, fun _ => rfl⟩
  | true =>
      rw [(alike.turns closes).1, (Nest.closes_iff.mp closes).1] at same
      cases same

theorem stray (alike : Unclosing nest ⟨last, token :: rest⟩ ⟨last', token' :: rest'⟩)
    (ends : nest.endsFunction = true) (kind : token.kind = .endKey) :
    Unclosing (nest.after .endKey) ⟨some token, rest⟩ ⟨some token', rest'⟩ := by
  obtain ⟨_, rfl⟩ := alike.turns (Nest.closes_iff.mpr ⟨kind, ends⟩)
  rw [kind]
  exact ⟨rfl, fun inside => absurd (Nest.after_ends ends) inside⟩

end Unclosing

/-- A run over the text beside a run over the new one. Tokens keep their places. -/
def unclosing : Pairing where
  view position := position
  Alike := Unclosing
  length alike := alike.length
  next alike := alike.next
  before alike literal _ := alike.before (Nest.brackets_of_inLiteral literal)
  behind alike front sign literal := alike.behind front sign (Nest.brackets_of_inLiteral literal)
  place alike _ := alike.place
  step alike same _ := (alike.step same).imp_right .inl
  stray alike strays := alike.stray strays.ends (Option.some.inj strays.here)

/-- Behind the separators the same stands ahead, or an `end` that closes a function stands ahead of
the one run, and the other run stands behind the separators that follow the comma for it. -/
inductive Meets (nest : Nest) : Cursor → Cursor → Prop where
  | same {here there : Cursor} (alike : Unclosing nest here there)
      (next : there.next? = here.next?) : Meets nest here there
  | closed {last : Option Token} {token : Token} {rest : List Token} {between : Cursor}
      (inside : nest.endsFunction = true) (ends : token.kind = .endKey)
      (alike : Unclosing (nest.after .endKey) ⟨some token, rest⟩ between) :
      Meets nest ⟨last, token :: rest⟩ between.skipped

namespace Unclosing

variable {nest : Nest} {here there : Cursor}

theorem meets (alike : Unclosing nest here there) : Meets nest here.skipped there.skipped := by
  obtain ⟨last, ahead⟩ := here
  induction ahead generalizing last there with
  | nil =>
      obtain ⟨last', ahead'⟩ := there
      cases alike.ahead
      exact .same alike rfl
  | cons token rest ih =>
      obtain ⟨last', token', rest', rfl⟩ := alike.front
      cases closes : nest.closes token.kind with
      | true =>
          obtain ⟨ends, inside⟩ := Nest.closes_iff.mp closes
          have onward := alike.stray inside ends
          have stops : token.kind.separates = false := by rw [ends]; rfl
          cases (alike.turns closes).1
          rw [Cursor.skipped_stop stops, Cursor.skipped_separator rfl]
          exact .closed inside ends onward
      | false =>
          cases (alike.stays closes).1
          cases separates : token.kind.separates with
          | true =>
              have onward := (alike.step rfl).2
              rw [Nest.after_separator separates] at onward
              rw [Cursor.skipped_separator separates, Cursor.skipped_separator separates]
              exact ih (some token) onward
          | false =>
              rw [Cursor.skipped_stop separates, Cursor.skipped_stop separates]
              exact .same alike rfl

theorem level (alike : Unclosing .empty here there) :
    Unclosing .empty here.skipped there.skipped ∧ there.skipped.next? = here.skipped.next? := by
  have meets := alike.meets
  generalize here.skipped = front, there.skipped = front' at meets ⊢
  cases meets with
  | same alike next => exact ⟨alike, next⟩
  | closed inside => cases inside

end Unclosing

theorem Meets.ofEnded {nest : Nest} {here there : Cursor}
    (ended : unclosing.Ended nest here there) : Meets nest here.skipped there.skipped := by
  cases ended with
  | alike alike => exact Unclosing.meets alike
  | strayed alike strays onward =>
      have ends := Option.some.inj strays.here
      rw [Cursor.skipped_stop (by rw [ends]; rfl)]
      exact .closed strays.ends ends onward

def Item.isStatement (item : ParsedItem) : Bool := item.statement?.isSome

def Item.isFlat : ParsedItem → Bool
  | .stmt _ => false
  | .function (.mk _ items) => items.all Item.isStatement

/-- Whether statements come first, and then functions that hold statements only. -/
def File.isFlat (file : ParsedFile) : Bool :=
  (file.items.dropWhile Item.isStatement).all Item.isFlat

namespace Function

variable {closed : Bool} {nested : TokenReader ParsedFunction} {kind : Kind}
  {here there after : Cursor} {items : List ParsedItem}

def itemFrom (closed : Bool) (nested : TokenReader ParsedFunction) :
    Option Kind → TokenReader (Option ParsedItem)
  | none => return none
  | some .endKey =>
      if closed then do
        let _ ← take
        return none
      else return some (.stmt (← Stmt.reader))
  | some .functionKey => if closed then return some (.function (← nested)) else return none
  | some _ => return some (.stmt (← Stmt.reader))

theorem item_run (cursor : Cursor) : (item closed nested).run cursor =
      (itemFrom closed nested cursor.skipped.next?).run cursor.skipped := by
  change (itemFrom closed nested cursor.skipped.next?).run cursor.skipped = _
  rfl

theorem itemFrom_other (ends : kind ≠ .endKey) (function : kind ≠ .functionKey) :
    itemFrom closed nested (some kind) = (do return some (.stmt (← Stmt.reader))) := by
  cases kind <;> first | rfl | exact absurd rfl ends | exact absurd rfl function

theorem statement_unclosed {openers : List Kind}
    {found : Option ParsedItem} (alike : Unclosing ⟨[], openers⟩ here there)
    (ran : (do return some (Item.stmt (← Stmt.reader))).run here = .ok (found, after)) :
    ∃ stmt after', found = some (.stmt stmt) ∧
      (do return some (Item.stmt (← Stmt.reader))).run there = .ok (found, after') ∧
      unclosing.Ended ⟨[], openers⟩ after after' := by
  obtain ⟨stmt, between, read, more⟩ := run_bind_ok ran
  cases more
  have alike : unclosing.Alike ⟨[], openers⟩ here there := alike
  obtain ⟨other, after', read', same, ended⟩ :=
    (Stmt.inStep_reader openers here there alike).follows read
  rw [show stmt = other from (Stmt.seen_id stmt).symm.trans (same.trans (Stmt.seen_id other))]
  exact ⟨other, after', rfl, run_bind_eq read', ended⟩

theorem itemFrom_statement {item : ParsedItem} (nested' : TokenReader ParsedFunction)
    (meets : Meets ⟨[], [.functionKey]⟩ here there)
    (ran : (itemFrom true nested here.next?).run here = .ok (some item, after))
    (statement : item.isStatement = true) :
    ∃ after', (itemFrom false nested' there.next?).run there = .ok (some item, after') ∧
      Meets ⟨[], [.functionKey]⟩ after.skipped after'.skipped := by
  cases meets with
  | closed inside ends alike =>
      rw [Cursor.next?, List.head?_cons, Option.map_some, ends] at ran
      cases ran
  | same alike same =>
      rw [same]
      cases next : here.next? with
      | none =>
          rw [next] at ran
          cases ran
      | some kind =>
          rw [next] at ran
          by_cases function : kind = .functionKey
          · rw [function] at ran
            obtain ⟨inner, between, _, more⟩ := run_bind_ok ran
            cases more
            cases statement
          by_cases ends : kind = .endKey
          · obtain ⟨last, token, rest, rfl, _⟩ := Pairing.ahead_of_next next
            rw [ends] at ran
            cases ran
          rw [itemFrom_other ends function] at ran ⊢
          obtain ⟨_, after', _, ran', ended⟩ := statement_unclosed alike ran
          exact ⟨after', ran', .ofEnded ended⟩

theorem itemFrom_end (nested' : TokenReader ParsedFunction)
    (meets : Meets ⟨[], [.functionKey]⟩ here there)
    (ran : (itemFrom true nested here.next?).run here = .ok (none, after))
    (onward : ∀ kind ∈ after.skipped.next?, kind = .functionKey) :
    ∃ after', (itemFrom false nested' there.next?).run there = .ok (none, after') ∧
      Unclosing .empty after.skipped after'.skipped := by
  cases meets with
  | @closed last token rest between inside ends alike =>
      rw [Cursor.next?, List.head?_cons, Option.map_some, ends] at ran
      cases ran
      obtain ⟨level, same⟩ := Unclosing.level alike
      -- the other run is past the comma and the separators behind it, where the function ends for
      -- lack of statements
      refine ⟨between.skipped, ?_, by rwa [Cursor.skipped_skipped]⟩
      rw [same]
      cases next : (Cursor.mk (some token) rest).skipped.next? with
      | none => rfl
      | some kind =>
          rw [onward kind next]
          rfl
  | same alike same =>
      cases next : here.next? with
      | none =>
          rw [next] at ran
          cases ran
          obtain ⟨last, ahead⟩ := here
          obtain ⟨last', ahead'⟩ := there
          cases alike.ahead
          cases ahead with
          | cons => cases next
          | nil => exact ⟨_, rfl, rfl, fun inside => absurd rfl inside⟩
      | some kind =>
          rw [next] at ran
          by_cases function : kind = .functionKey
          · rw [function] at ran
            obtain ⟨_, _, _, more⟩ := run_bind_ok ran
            cases more
          by_cases ends : kind = .endKey
          · obtain ⟨last, token, rest, rfl, sort⟩ := Pairing.ahead_of_next next
            obtain ⟨last', token', rest', rfl⟩ := alike.front
            cases (alike.turns (Nest.closes_iff.mpr ⟨sort.trans ends, rfl⟩)).1
            rw [next, ends] at same
            cases same
          rw [itemFrom_other ends function] at ran
          obtain ⟨_, _, _, more⟩ := run_bind_ok ran
          cases more

theorem items_unclosed {allowance : Nat} (nested' : TokenReader ParsedFunction)
    (meets : Meets ⟨[], [.functionKey]⟩ here.skipped there.skipped)
    (ran : (collectWithin (item true nested) allowance).run here = .ok (items, after))
    (plain : items.all Item.isStatement = true)
    (onward : ∀ kind ∈ after.skipped.next?, kind = .functionKey) :
    ∃ after', (collectWithin (item false nested') allowance).run there = .ok (items, after') ∧
      Unclosing .empty after.skipped after'.skipped := by
  -- By induction on the items that may still come; the last round is the one that finds none.
  induction allowance generalizing here there items with
  | zero => cases ran
  | succ allowance ih =>
      obtain ⟨found, between, first, more⟩ := run_bind_ok ran
      rw [item_run] at first
      cases found with
      | none =>
          cases more
          obtain ⟨after', first', alike⟩ := itemFrom_end nested' meets first onward
          exact ⟨after', run_bind_eq ((item_run there).trans first'), alike⟩
      | some item =>
          obtain ⟨rest, last, read, more⟩ := run_bind_ok more
          cases more
          rw [List.all_cons, Bool.and_eq_true] at plain
          obtain ⟨between', first', meets⟩ := itemFrom_statement nested' meets first plain.1
          obtain ⟨after', read', alike⟩ := ih meets read plain.2
          refine ⟨after', (run_bind_eq ((item_run there).trans first')).trans ?_, alike⟩
          exact run_bind_eq read'

theorem reader_run (cursor : Cursor) :
    (reader closed).run cursor = (readerWithin closed (cursor.ahead.length + 1)).run cursor :=
  get_run _ cursor

theorem reader_unclosed {header : Header} (alike : Unclosing .empty here there)
    (ran : (reader true).run here = .ok (.mk header items, after))
    (plain : items.all Item.isStatement = true)
    (onward : ∀ kind ∈ after.skipped.next?, kind = .functionKey) :
    ∃ after', (reader false).run there = .ok (.mk header items, after') ∧
      Unclosing .empty after.skipped after'.skipped := by
  rw [reader_run, readerWithin_succ] at ran
  obtain ⟨first, between, readHeader, more⟩ := run_bind_ok ran
  obtain ⟨found, last, readItems, more⟩ := run_bind_ok more
  cases more
  have level : unclosing.Alike ⟨[], []⟩ here there := alike
  obtain ⟨other, between', readHeader', same, alike'⟩ := (agree_header level).follows readHeader
  change header = other at same
  subst same
  rw [collect_run] at readItems
  obtain ⟨after', readItems', level⟩ := items_unclosed (readerWithin false there.ahead.length)
      (Unclosing.meets alike') readItems plain onward
  refine ⟨after', ?_, level⟩
  rw [← Unclosing.length alike', ← collect_run] at readItems'
  rw [reader_run, readerWithin_succ, run_bind_eq readHeader']
  exact run_bind_eq readItems'

end Function

namespace File

variable {closed : Bool} {kind : Kind} {here there after : Cursor}
  {items : List ParsedItem} {allowance : Nat}

def itemFrom (closed : Bool) : Option Kind → TokenReader (Option ParsedItem)
  | none => return none
  | some .functionKey => return some (.function (← Function.reader closed))
  | some _ => return some (.stmt (← Stmt.reader))

theorem item_run (cursor : Cursor) :
    (item closed).run cursor = (itemFrom closed cursor.skipped.next?).run cursor.skipped := by
  change (itemFrom closed cursor.skipped.next?).run cursor.skipped = _
  rfl

theorem itemFrom_other (function : kind ≠ .functionKey) :
    itemFrom closed (some kind) = (do return some (.stmt (← Stmt.reader))) := by
  cases kind <;> first | rfl | exact absurd rfl function

theorem next_of_items (ran : (collectWithin (item closed) allowance).run here = .ok (items, after))
    (functions : items.all Item.isFlat = true) :
    ∀ kind ∈ here.skipped.next?, kind = .functionKey := by
  intro kind next
  rw [Option.mem_def] at next
  by_contra function
  cases allowance with
  | zero => cases ran
  | succ allowance =>
      obtain ⟨found, between, first, more⟩ := run_bind_ok ran
      rw [item_run, next, itemFrom_other function] at first
      obtain ⟨stmt, _, _, same⟩ := run_bind_ok first
      cases same
      obtain ⟨rest, _, _, more⟩ := run_bind_ok more
      cases more
      cases functions

theorem items_unclosed (alike : Unclosing .empty here.skipped there.skipped)
    (ran : (collectWithin (item true) allowance).run here = .ok (items, after))
    (flat : (items.dropWhile Item.isStatement).all Item.isFlat = true) :
    ∃ after', (collectWithin (item false) allowance).run there = .ok (items, after') := by
  -- behind the separators the runs stand alike before every item, statement or function
  induction allowance generalizing here there items with
  | zero => cases ran
  | succ allowance ih =>
      obtain ⟨found, between, first, more⟩ := run_bind_ok ran
      have same := alike.level.2
      rw [Cursor.skipped_skipped, Cursor.skipped_skipped] at same
      rw [item_run] at first
      have goesOn {item : ParsedItem} {rest : List ParsedItem} {between between' : Cursor} (first :
          (itemFrom false there.skipped.next?).run there.skipped = .ok (some item, between'))
          (read : (collectWithin (File.item true) allowance).run between = .ok (rest, after))
          (alike : Unclosing .empty between.skipped between'.skipped)
          (flat : (rest.dropWhile Item.isStatement).all Item.isFlat = true) :
          ∃ after', (collectWithin (File.item false) (allowance + 1)).run there =
          .ok (item :: rest, after') := by
        obtain ⟨after', read'⟩ := ih alike read flat
        refine ⟨after', (run_bind_eq ((item_run there).trans first)).trans ?_⟩
        exact run_bind_eq read'
      cases next : here.skipped.next? with
      | none =>
          rw [next] at first same
          cases first
          cases more
          have ends : (item false).run there = .ok (none, there.skipped) :=
            (item_run there).trans (by rw [same]; rfl)
          exact ⟨there.skipped, run_bind_eq ends⟩
      | some kind =>
          rw [next] at first same
          rw [same] at goesOn
          by_cases function : kind = .functionKey
          · subst function
            obtain ⟨⟨header, members⟩, between, readFunction, made⟩ := run_bind_ok first
            cases made
            obtain ⟨rest, last, read, more⟩ := run_bind_ok more
            cases more
            have both := Bool.and_eq_true_iff.mp flat
            obtain ⟨between', readFunction', level⟩ :=
              Function.reader_unclosed alike readFunction both.1 (next_of_items read both.2)
            have later : (rest.dropWhile Item.isStatement).all Item.isFlat = true :=
              List.all_eq_true.mpr fun item member =>
                List.all_eq_true.mp both.2 item ((List.dropWhile_sublist _).subset member)
            exact goesOn (run_bind_eq readFunction') read level later
          · rw [itemFrom_other function] at first
            obtain ⟨stmt, between', made, first', ended⟩ := Function.statement_unclosed alike first
            cases made
            obtain ⟨rest, last, read, more⟩ := run_bind_ok more
            cases more
            rw [itemFrom_other function] at goesOn
            exact goesOn first' read (Unclosing.level (ended.settled rfl)).1 flat

/-- A file with statements first and then functions that hold statements only is read without its
`end`s of functions too. -/
theorem reader_unclosed {file : ParsedFile} (alike : Unclosing .empty here there)
    (ran : (reader true).run here = .ok (file, after)) (flat : file.isFlat = true) :
    ∃ after', (reader false).run there = .ok (file, after') := by
  obtain ⟨found, between, read, more⟩ := run_bind_ok ran
  cases more
  rw [collect_run] at read
  obtain ⟨after', read'⟩ := items_unclosed alike.level.1 read flat
  rw [← alike.length, ← collect_run] at read'
  exact ⟨after', run_bind_eq read'⟩

end File

end ScriptFlow
