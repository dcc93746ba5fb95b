import ScriptFlow.Proofs.File.Arranged
import ScriptFlow.Proofs.Stmt.InStep

/-!
Two runs of the readers of functions and files. Headers are read alike in any case. Where an `end`
of a function stands in both runs or in none, the runs agree on whole files, and what they leave
open are functions.
-/

namespace ScriptFlow

open Token TokenReader

/-- An `end` of a function stands in both runs or in none. -/
def Pairing.Strict (pairing : Pairing) : Prop :=
  ∀ {nest here there}, pairing.Alike nest here there → there.next? = here.next?

/-- The cursors are alike where those openers are open, and perhaps functions on top of them. -/
def Pairing.Among (pairing : Pairing) (openers : List Kind) (here there : Cursor) : Prop :=
  ∃ count, pairing.Alike ⟨[], List.replicate count .functionKey ++ openers⟩ here there

namespace Pairing

variable {pairing : Pairing} {nest : Nest} {openers : List Kind} {here there : Cursor}

theorem Among.innermost (among : pairing.Among (.functionKey :: openers) here there) :
    ∃ count, pairing.Alike
      ⟨[], .functionKey :: (List.replicate count .functionKey ++ openers)⟩ here there := by
  obtain ⟨count, alike⟩ := among
  have same : List.replicate count Kind.functionKey ++ .functionKey :: openers = .functionKey ::
      (List.replicate count .functionKey ++ openers) := by
    rw [← List.cons_append, ← List.replicate_succ, List.replicate_succ', List.append_assoc]
    rfl
  rw [same] at alike
  exact ⟨count, alike⟩

theorem Among.outer (among : pairing.Among (.functionKey :: openers) here there) :
    pairing.Among openers here there := by
  obtain ⟨count, alike⟩ := among.innermost
  exact ⟨count + 1, alike⟩

theorem Ended.strict (ended : pairing.Ended nest here there) (strict : pairing.Strict) :
    pairing.Alike nest here there := by
  cases ended with
  | alike alike => exact alike
  | strayed alike strays _ =>
    exact absurd (strays.there.symm.trans ((strict alike).trans strays.here)) (by decide)

end Pairing

variable {pairing : Pairing} {nest : Nest} {openers : List Kind} {here there : Cursor}

namespace Function

theorem inStep_name : pairing.InStep nest name := fun _ _ alike =>
  Pairing.agree_expectSimple rfl alike fun _ _ _ _ fellows alike _ =>
    agree_pure ⟨(Expr.name_eq fellows).symm, alike⟩

theorem agree_output (inside : nest.brackets ≠ []) (alike : pairing.Alike nest here there) :
    Agree output output here there
      (Round Eq (pairing.Alike nest) (pairing.Alike (nest.after .closeBracket))) := by
  refine Pairing.agree_eat alike rfl (.inr (by decide)) (fun _ => .inside inside)
    (fun _ _ alike _ => agree_pure alike) fun _ => ?_
  refine (inStep_name here there alike).bind fun output _ after after' same => ?_
  obtain ⟨rfl, alike⟩ := same
  refine Pairing.agree_eat alike rfl (.inl (Nest.endsFunction_inside inside)) (fun _ => .plain rfl)
    (fun _ _ alike _ => ?_) fun _ =>
    agree_pure ⟨rfl, alike⟩
  rw [Nest.after_still rfl] at alike
  exact agree_pure ⟨rfl, alike⟩

theorem inStep_outputsAndName : pairing.InStep nest outputsAndName := by
  intro here there alike
  have gets {here there : Cursor} (alike : pairing.Alike nest here there)
    {next next' : Token → TokenReader (List String × String)}
      (more : ∀ token token' after after', pairing.Alike nest after after' →
        Agree (next token) (next' token') after after'
        fun a b last last' => a = b ∧ pairing.Alike nest last last') :
      Agree (expect .gets >>= next) (expect .gets >>= next') here there fun a b last last' =>
          a = b ∧ pairing.Alike nest last last' := by
    exact Pairing.agree_expectSimple rfl alike fun token token' after after' _ alike _ =>
      more token token' after after' alike
  refine Pairing.agree_eat alike rfl (.inr (by decide)) (fun _ => .plain rfl)
    (fun after after' alike _ => ?_) fun _ => ?_
  · have inside : (nest.after .openBracket).brackets ≠ [] := List.cons_ne_nil _ _
    refine (agree_collect (pairing.length alike) alike fun _ _ => agree_output inside).bind
      fun outputs outputs' _ _ same => ?_
    obtain ⟨same, alike⟩ := same
    rw [List.forall₂_eq_eq_eq] at same
    rw [Nest.after_close rfl rfl] at alike
    subst same
    refine gets alike fun _ _ after after' alike => ?_
    exact (inStep_name after after' alike).bind fun name _ _ _ same =>
      agree_pure ⟨by rw [same.1], same.2⟩
  · refine (inStep_name here there alike).bind fun first _ after after' same => ?_
    obtain ⟨rfl, alike⟩ := same
    refine Pairing.agree_eatSimple rfl alike (fun after after' alike => ?_)
      (agree_pure ⟨rfl, alike⟩)
    exact (inStep_name after after' alike).bind fun name _ _ _ same =>
      agree_pure ⟨by rw [same.1], same.2⟩

theorem inStep_input (inside : nest.brackets ≠ []) : pairing.InStep nest input := by
  intro here there alike
  refine Pairing.agree_takeAny alike
    (agree_failLast _ _) fun last token rest last' token' rest' alike kinds => ?_
  obtain ⟨kind, text, start, position⟩ := token
  obtain ⟨kind', text', start', position'⟩ := token'
  rcases kinds with same | ⟨ends, _⟩
  · cases same
    have onward (simple : kind.isSimple = true) :=
      Pairing.onward alike rfl (.simple simple) (Kind.sign_simple simple)
    cases kind
    case word =>
      obtain ⟨text, alike⟩ := onward rfl
      rw [Nest.after_simple rfl] at alike
      exact agree_pure ⟨by rw [Token.name, Token.name, text], alike⟩
    case tilde =>
      obtain ⟨_, alike⟩ := onward rfl
      rw [Nest.after_simple rfl] at alike
      exact agree_pure ⟨rfl, alike⟩
    all_goals exact agree_failLast _ _
  · exact absurd (ends.symm.trans (Nest.endsFunction_inside inside)) (by decide)

theorem agree_parameter (inside : nest.brackets ≠ []) (alike : pairing.Alike nest here there) :
    Agree parameter parameter here there
      (Round Eq (pairing.Alike nest) (pairing.Alike (nest.after .closeParen))) := by
  refine Pairing.agree_eat alike rfl (.inr (by decide)) (fun _ => .inside inside)
    (fun _ _ alike _ => agree_pure alike) fun _ => ?_
  refine (inStep_input inside here there alike).bind fun parameter _ after after' same => ?_
  obtain ⟨rfl, alike⟩ := same
  exact Expr.agree_behind inside alike

theorem inStep_inputs : pairing.InStep nest inputs := by
  intro here there alike
  rw [inputs_eq]
  refine Pairing.agree_eat alike rfl (.inr (by decide)) (fun _ => .plain rfl)
    (fun after after' alike _ => ?_) fun _ =>
    agree_pure ⟨rfl, alike⟩
  have inside : (nest.after .openParen).brackets ≠ [] := List.cons_ne_nil _ _
  refine (agree_collect (pairing.length alike) alike fun _ _ => agree_parameter inside).imp
    fun inputs inputs' _ _ same => ?_
  obtain ⟨same, alike⟩ := same
  rw [List.forall₂_eq_eq_eq] at same
  rw [Nest.after_close rfl rfl] at alike
  exact ⟨same, alike⟩

end Function

def Header.seen (view : Position → Position) (header : Header) : Header :=
  { header with position := view header.position }

namespace Function

def header : TokenReader Header := do
  let first ← expect .functionKey
  let (outputs, name) ← outputsAndName
  let inputs ← inputs
  return ⟨name, inputs, outputs, first.position⟩

theorem readerWithin_succ (closed : Bool) (allowance : Nat) :
    readerWithin closed (allowance + 1) = (do
    let first ← header
    return .mk first (← collect (item closed (readerWithin closed allowance)))) := by
  simp only [readerWithin, header, bind_assoc, pure_bind]

theorem agree_header (alike : pairing.Alike ⟨[], openers⟩ here there) :
    Agree header header here there fun a b after after' =>
    a.seen pairing.view = b.seen pairing.view ∧
      pairing.Alike ⟨[], .functionKey :: openers⟩ after after' := by
  refine Pairing.agree_expect alike rfl (.inr (by decide))
    (fun _ => .plain rfl) fun first first' after after' fellows alike _ => ?_
  rw [Nest.after_opener rfl] at alike
  refine (inStep_outputsAndName after after' alike).bind fun names _ after after' same => ?_
  obtain ⟨rfl, alike⟩ := same
  obtain ⟨outputs, name⟩ := names
  refine (inStep_inputs after after' alike).bind fun inputs _ after after' same => agree_pure ?_
  obtain ⟨rfl, alike⟩ := same
  exact ⟨by rw [Header.seen, Header.seen, fellows.position (by decide)], alike⟩

end Function

def Item.seen (view : Position → Position) : ParsedItem → ParsedItem
  | .stmt inner => .stmt (inner.seen view)
  | .function inner => .function (inner.map (Header.seen view) (Stmt.seen view))

theorem mapItems_seen (view : Position → Position) (items : List ParsedItem) :
    mapItems (Header.seen view) (Stmt.seen view) items = items.map (Item.seen view) := by
  induction items with
  | nil => rfl
  | cons item rest ih => cases item <;> exact congrArg (_ :: ·) ih

abbrev Function.seen (view : Position → Position) : ParsedFunction → ParsedFunction :=
  map (Header.seen view) (Stmt.seen view)

def File.seen (view : Position → Position) (file : ParsedFile) : ParsedFile :=
  ⟨file.items.map (Item.seen view)⟩

theorem agree_stmt (strict : pairing.Strict) {ends : Cursor → Cursor → Prop}
    (among : pairing.Among openers here there) : Agree (do return some (Item.stmt (← Stmt.reader)))
      (do return some (Item.stmt (← Stmt.reader))) here there (Round (fun a b =>
      a.seen pairing.view = b.seen pairing.view) (pairing.Among openers) ends) := by
  obtain ⟨count, alike⟩ := among
  refine (Stmt.inStep_reader _ here there alike).bind fun a b _ _ same => agree_pure ?_
  exact ⟨congrArg Item.stmt same.1, count, same.2.strict strict⟩

theorem agree_separators (strict : pairing.Strict) {C D : Type} {next : Unit → TokenReader C}
    {next' : Unit → TokenReader D} {Q : C → D → Cursor → Cursor → Prop}
    (among : pairing.Among openers here there)
    (more : ∀ after after',
      pairing.Among openers after after' → Agree (next ()) (next' ()) after after' Q) :
    Agree (separators >>= next) (separators >>= next') here there Q := by
  obtain ⟨count, alike⟩ := among
  exact Pairing.agree_separators alike strict fun after after' alike =>
    more after after' ⟨count, alike⟩

namespace Function

variable {closed : Bool} {nested : TokenReader ParsedFunction}

def NestedInStep (pairing : Pairing) (nested : TokenReader ParsedFunction) : Prop :=
  ∀ openers here there, pairing.Alike ⟨[], openers⟩ here there →
    Agree nested nested here there fun a b after after' =>
    a.seen pairing.view = b.seen pairing.view ∧ pairing.Among openers after after'

theorem agree_nested (inner : NestedInStep pairing nested) {ends : Cursor → Cursor → Prop}
    (among : pairing.Among openers here there) : Agree (do return some (Item.function (← nested)))
      (do return some (Item.function (← nested))) here there (Round (fun a b =>
      a.seen pairing.view = b.seen pairing.view) (pairing.Among openers) ends) := by
  obtain ⟨count, alike⟩ := among
  refine (inner _ here there alike).bind fun a b after after' same =>
    agree_pure ⟨congrArg Item.function same.1, ?_⟩
  obtain ⟨more, alike⟩ := same.2
  refine ⟨more + count, ?_⟩
  rwa [List.replicate_add, List.append_assoc]

theorem agree_item (strict : pairing.Strict) (inner : NestedInStep pairing nested)
    (among : pairing.Among (.functionKey :: openers) here there) :
    Agree (item closed nested) (item closed nested) here there
      (Round (fun a b => a.seen pairing.view = b.seen pairing.view)
      (pairing.Among (.functionKey :: openers)) (pairing.Among openers)) := by
  refine agree_separators strict among fun after after' among => agree_peek ?_
  obtain ⟨count, alike⟩ := among.innermost
  rw [strict alike]
  cases next : after.next? with
  | none => exact agree_pure among.outer
  | some kind =>
      cases kind
      case endKey =>
        change Agree (if closed = true then _ else _) (if closed = true then _ else _) _ _ _
        split
        · obtain ⟨last, token, rest, rfl, sort⟩ := Pairing.ahead_of_next next
          obtain ⟨last', token', rest', rfl, sort'⟩ :=
            Pairing.ahead_of_next ((strict alike).trans next)
          have onward := (Pairing.onward alike (sort'.trans sort.symm)
              (by rw [sort]; exact .closer (List.cons_ne_nil _ _)) (by rw [sort]; rfl)).2
          rw [sort, Nest.after_end] at onward
          exact Agree.step rfl rfl (agree_pure ⟨count, onward⟩)
        · exact agree_stmt strict among
      case functionKey =>
        change Agree (if closed = true then _ else _) (if closed = true then _ else _) _ _ _
        split
        · exact agree_nested inner among
        · exact agree_pure among.outer
      all_goals exact agree_stmt strict among

theorem inStep_readerWithin (strict : pairing.Strict) (allowance : Nat) :
    NestedInStep pairing (readerWithin closed allowance) := by
  induction allowance with
  | zero => exact fun _ _ _ _ => agree_failNext _ _
  | succ allowance inner =>
      intro openers here there alike
      rw [readerWithin_succ]
      refine (agree_header alike).bind fun first first' after after' headers => ?_
      refine (agree_collect (pairing.length headers.2) ⟨0, headers.2⟩ fun _ _ =>
        agree_item strict inner).bind fun items items' _ _ same => agree_pure ⟨?_, same.2⟩
      simp only [seen, map, mapItems_seen, Stmt.map_of_forall₂ same.1, headers.1]

theorem inStep_reader (strict : pairing.Strict) : NestedInStep pairing (reader closed) := by
  intro openers here there alike
  apply agree_get
  rw [pairing.length alike]
  exact inStep_readerWithin strict _ openers here there alike

end Function

namespace File

variable {closed : Bool}

theorem agree_item (strict : pairing.Strict) (among : pairing.Among openers here there) :
    Agree (item closed) (item closed) here there (Round (fun a b =>
      a.seen pairing.view = b.seen pairing.view) (pairing.Among openers) fun after after' =>
      pairing.Among openers after after' ∧ after.ahead = []) := by
  refine agree_separators strict among fun after after' among => agree_peek ?_
  obtain ⟨count, alike⟩ := among
  rw [strict alike]
  cases next : after.next? with
  | none =>
      refine agree_pure ⟨⟨count, alike⟩, ?_⟩
      rw [Cursor.next?, Option.map_eq_none_iff, List.head?_eq_none_iff] at next
      exact next
  | some kind =>
      cases kind
      case functionKey => exact Function.agree_nested (Function.inStep_reader strict) ⟨count, alike⟩
      all_goals exact agree_stmt strict ⟨count, alike⟩

theorem agree_reader (strict : pairing.Strict) (alike : pairing.Alike .empty here there) :
    Agree (reader closed) (reader closed) here there fun a b after after' =>
      a.seen pairing.view = b.seen pairing.view ∧ pairing.Among [] after after' ∧
        after.ahead = [] := by
  refine (agree_collect (pairing.length alike) ⟨0, alike⟩ fun _ _ => agree_item strict).bind
    fun items items' _ _ same =>
    agree_pure ⟨?_, same.2⟩
  rw [seen, seen, Stmt.map_of_forall₂ same.1]

end File

end ScriptFlow
