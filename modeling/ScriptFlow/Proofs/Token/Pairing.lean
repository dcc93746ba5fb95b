import Mathlib.Data.List.Forall2
import ScriptFlow.Proofs.Token.Nest
import ScriptFlow.Proofs.Token.Steps

/-!
Two runs of readers side by side. The runs agree when both fail or both succeed with what is
related. A pairing says when two cursors are alike, given what is open in front of them; from alike
cursors the same tokens can be taken, but for an `end` of a function that may be a comma in the
other run.
-/

namespace ScriptFlow

open Token (Kind)

namespace TokenReader

variable {A B C D : Type} {here there : Cursor} {P : A → B → Cursor → Cursor → Prop}
  {Q : C → D → Cursor → Cursor → Prop}

/-- The two readers both fail, or both succeed with what is related. -/
def Agree (first : TokenReader A) (second : TokenReader B) (here there : Cursor)
    (P : A → B → Cursor → Cursor → Prop) : Prop :=
  match first.run here, second.run there with
  | .ok (a, after), .ok (b, after') => P a b after after'
  | .error _, .error _ => True
  | _, _ => False

namespace Agree

variable {first : TokenReader A} {second : TokenReader B} {next : A → TokenReader C}
  {next' : B → TokenReader D}

theorem imp {P' : A → B → Cursor → Cursor → Prop} (agree : Agree first second here there P)
    (weaker : ∀ a b after after', P a b after after' → P' a b after after') :
    Agree first second here there P' := by
  unfold Agree at agree ⊢
  split at agree
  · exact weaker _ _ _ _ agree
  · trivial
  · exact agree.elim

theorem bind (agree : Agree first second here there P)
    (more : ∀ a b after after', P a b after after' → Agree (next a) (next' b) after after' Q) :
    Agree (first >>= next) (second >>= next') here there Q := by
  unfold Agree at agree
  unfold Agree
  rw [StateT.run_bind, StateT.run_bind]
  cases ran : first.run here <;> cases ran' : second.run there <;> rw [ran, ran'] at agree
  · trivial
  · exact agree.elim
  · exact agree.elim
  · exact more _ _ _ _ agree

theorem map {f : A → C} {g : B → D}
    (agree : Agree first second here there fun a b => Q (f a) (g b)) :
    Agree (f <$> first) (g <$> second) here there Q := by
  rw [← bind_pure_comp, ← bind_pure_comp]
  exact agree.bind fun _ _ _ _ holds => holds

theorem follows (agree : Agree first second here there P) {a : A}
    {after : Cursor} (ran : first.run here = .ok (a, after)) :
    ∃ b after', second.run there = .ok (b, after') ∧ P a b after after' := by
  unfold Agree at agree
  rw [ran] at agree
  cases ran' : second.run there with
  | error =>
      rw [ran'] at agree
      exact agree.elim
  | ok result =>
      rw [ran'] at agree
      exact ⟨result.1, result.2, rfl, agree⟩

theorem step {a : A} {b : B} {after after' : Cursor} (ran : first.run here = .ok (a, after))
    (ran' : second.run there = .ok (b, after')) (more : Agree (next a) (next' b) after after' Q) :
    Agree (first >>= next) (second >>= next') here there Q := by
  have both : Agree first second here there fun a' b' c c' => a' = a ∧ b' = b ∧
      c = after ∧ c' = after' := by
    rw [Agree, ran, ran']
    exact ⟨rfl, rfl, rfl, rfl⟩
  refine both.bind fun a' b' c c' same => ?_
  obtain ⟨rfl, rfl, rfl, rfl⟩ := same
  exact more

end Agree

theorem agree_pure {a : A} {b : B} (holds : P a b here there) :
    Agree (pure a) (pure b) here there P := holds

theorem agree_failNext (reason reason' : Reason) :
    Agree (failNext reason) (failNext reason') here there P := trivial

theorem agree_failLast (reason reason' : Reason) :
    Agree (failLast reason) (failLast reason') here there P := trivial

theorem agree_refused {kind : Kind} {first : TokenReader A} {second : TokenReader B}
    (refuses : Refuses kind first) (refuses' : Refuses kind second) (front : here.next? = some kind)
    (front' : there.next? = some kind) : Agree first second here there P := by
  obtain ⟨_, failed⟩ := refuses here front
  obtain ⟨_, failed'⟩ := refuses' there front'
  rw [Agree, failed, failed']
  trivial

theorem agree_get {next : Cursor → TokenReader C} {next' : Cursor → TokenReader D}
    (agree : Agree (next here) (next' there) here there Q) :
    Agree (get >>= next) (get >>= next') here there Q := agree

theorem agree_peek {next : Option Kind → TokenReader C} {next' : Option Kind → TokenReader D}
    (agree : Agree (next here.next?) (next' there.next?) here there Q) :
    Agree (peek >>= next) (peek >>= next') here there Q := agree

theorem agree_nextIs {kind : Kind} {next : Bool → TokenReader C} {next' : Bool → TokenReader D}
    (agree : Agree (next (here.next? == some kind)) (next' (there.next? == some kind)) here there
      Q) : Agree (nextIs kind >>= next) (nextIs kind >>= next') here there Q := agree

def Round (R : A → B → Prop) (on ends : Cursor → Cursor → Prop) :
    Option A → Option B → Cursor → Cursor → Prop
  | some a, some b, here, there => R a b ∧ on here there
  | none, none, here, there => ends here there
  | _, _, _, _ => False

theorem agree_collect {part : TokenReader (Option A)} {part' : TokenReader (Option B)}
    {R : A → B → Prop} {on ends : Cursor → Cursor → Prop}
    (lengths : there.ahead.length = here.ahead.length) (start : on here there)
    (each : ∀ here there, on here there → Agree part part' here there (Round R on ends)) :
    Agree (collect part) (collect part') here there fun as bs after after' => List.Forall₂ R as bs ∧
      ends after after' := by
  -- Both collections have the same allowance, which is the number of tokens.
  have within (allowance : Nat) : ∀ here there, on here there → Agree (collectWithin part allowance)
      (collectWithin part' allowance) here there fun as bs after after' => List.Forall₂ R as bs ∧
      ends after after' := by
    induction allowance with
    | zero => exact fun _ _ _ => agree_failNext _ _
    | succ allowance ih =>
        intro here there start
        refine (each here there start).bind fun found found' after after' round => ?_
        cases found with
        | none =>
            cases found' with
            | none => exact agree_pure ⟨.nil, round⟩
            | some b => exact round.elim
        | some a =>
            cases found' with
            | none => exact round.elim
            | some b =>
                refine (ih after after' round.2).bind fun as bs last last' rest => agree_pure ?_
                exact ⟨.cons round.1 rest.1, rest.2⟩
  refine agree_get ?_
  rw [lengths]
  exact within _ here there start

end TokenReader

open TokenReader

structure Nest.Strays (nest : Nest) (here there : Cursor) : Prop where
  ends : nest.endsFunction = true
  here : here.next? = some .endKey
  there : there.next? = some .comma

structure Hang (here there : Cursor) : Prop where
  sign : here.last.any (·.kind.isSign) = true
  here : here.next? = some .newline
  there : there.next? = some .newline

/-- Two runs over tokens of their own: what they have in common of a place, and which cursors are
alike where that is open. Of newlines they need not have the places in common, nor the gaps in front
of them. -/
structure Pairing where
  view : Position → Position
  Alike : Nest → Cursor → Cursor → Prop
  length {nest here there} : Alike nest here there → there.ahead.length = here.ahead.length
  next {nest here there} : Alike nest here there → there.next? = here.next? ∨ nest.Strays here there
  before {nest here there} :
    Alike nest here there → nest.inLiteral = true → here.next? ≠ some .newline →
      there.apartBefore = here.apartBefore
  behind {nest here there kind} :
    Alike nest here there → here.next? = some kind → kind.isSign = true → nest.inLiteral = true →
      there.apartAfter = here.apartAfter
  place {nest last last' token token' rest rest'} :
    Alike nest ⟨last, token :: rest⟩ ⟨last', token' :: rest'⟩ →
      token.kind ≠ .newline → view token'.position = view token.position
  step {nest last last' token token' rest rest'} :
    Alike nest ⟨last, token :: rest⟩ ⟨last', token' :: rest'⟩ → token'.kind = token.kind →
      nest.Allows (last.map Token.kind) token.kind → token'.text = token.text ∧
      (Alike (nest.after token.kind) ⟨some token, rest⟩ ⟨some token', rest'⟩ ∨
      Hang ⟨some token, rest⟩ ⟨some token', rest'⟩)
  stray {nest last last' token token' rest rest'} :
    Alike nest ⟨last, token :: rest⟩ ⟨last', token' :: rest'⟩ →
      nest.Strays ⟨last, token :: rest⟩ ⟨last', token' :: rest'⟩ →
      Alike (nest.after .endKey) ⟨some token, rest⟩ ⟨some token', rest'⟩

/-- The kind tells nothing about which of the runs it is. -/
def Nest.Shares (nest : Nest) (kind : Kind) : Prop :=
  nest.endsFunction = false ∨ kind ≠ .endKey ∧ kind ≠ .comma

theorem Nest.Shares.simple {nest : Nest} {kind : Kind} (simple : kind.isSimple = true) :
    nest.Shares kind := by
  right
  constructor <;>
    · rintro rfl
      cases simple

namespace Pairing

variable {pairing : Pairing} {nest : Nest} {here there : Cursor} {kind : Kind} {C D : Type}
  {Q : C → D → Cursor → Cursor → Prop}

structure Fellows (pairing : Pairing) (kind : Kind) (token token' : Token) : Prop where
  here : token.kind = kind
  there : token'.kind = kind
  text : token'.text = token.text
  position : kind ≠ .newline → pairing.view token'.position = pairing.view token.position

theorem next_iff (alike : pairing.Alike nest here there) (shares : nest.Shares kind) :
    there.next? = some kind ↔ here.next? = some kind := by
  rcases pairing.next alike with same | strays
  · rw [same]
  · rcases shares with inner | other
    · exact absurd (strays.ends.symm.trans inner) (by decide)
    · rw [strays.here, strays.there, Option.some.injEq, Option.some.injEq]
      exact iff_of_false other.2.symm other.1.symm

theorem next_eq (alike : pairing.Alike nest here there) (inner : nest.endsFunction = false) :
    there.next? = here.next? := by
  rcases pairing.next alike with same | strays
  · exact same
  · exact absurd (strays.ends.symm.trans inner) (by decide)

theorem ahead_of_next {cursor : Cursor} (next : cursor.next? = some kind) :
    ∃ last token rest, cursor = ⟨last, token :: rest⟩ ∧ token.kind = kind := by
  obtain ⟨last, ahead⟩ := cursor
  cases ahead with
  | nil => cases next
  | cons token rest => exact ⟨last, token, rest, rfl, Option.some.inj next⟩

theorem onward {last last' : Option Token} {token token' : Token} {rest rest' : List Token}
    (alike : pairing.Alike nest ⟨last, token :: rest⟩ ⟨last', token' :: rest'⟩)
    (same : token'.kind = token.kind) (allows : nest.Allows (last.map Token.kind) token.kind)
    (plain : token.kind.isSign = false) : token'.text = token.text ∧
      pairing.Alike (nest.after token.kind) ⟨some token, rest⟩ ⟨some token', rest'⟩ :=
  (pairing.step alike same allows).imp_right
    (·.resolve_right fun hang => absurd (plain.symm.trans hang.sign) (by decide))

theorem agree_takeAny {next : Option Token → TokenReader C} {next' : Option Token → TokenReader D}
    (alike : pairing.Alike nest here there) (ended : Agree (next none) (next' none) here there Q)
    (taken : ∀ last token rest last' token' rest',
      pairing.Alike nest ⟨last, token :: rest⟩ ⟨last', token' :: rest'⟩ → token'.kind = token.kind ∨
      nest.endsFunction = true ∧ token.kind = .endKey ∧ token'.kind = .comma →
      Agree (next (some token)) (next' (some token')) ⟨some token, rest⟩ ⟨some token', rest'⟩ Q) :
    Agree (take >>= next) (take >>= next') here there Q := by
  have lengths := pairing.length alike
  obtain ⟨last, ahead⟩ := here
  obtain ⟨last', ahead'⟩ := there
  cases ahead with
  | nil =>
      cases ahead' with
      | nil => exact Agree.step rfl rfl ended
      | cons => cases lengths
  | cons token rest =>
      cases ahead' with
      | nil => cases lengths
      | cons token' rest' =>
          refine Agree.step rfl rfl (taken last token rest last' token' rest' alike ?_)
          rcases pairing.next alike with same | strays
          · exact .inl (Option.some.inj same)
          · exact .inr ⟨strays.ends, Option.some.inj strays.here, Option.some.inj strays.there⟩

theorem agree_take {next : Option Token → TokenReader C} {next' : Option Token → TokenReader D}
    (alike : pairing.Alike nest here there) (front : here.next? = some kind)
    (plain : kind.isSign = false) (shares : nest.Shares kind)
    (allows : nest.Allows (here.last.map Token.kind) kind)
    (taken : ∀ token token' after after',
      pairing.Fellows kind token token' → pairing.Alike (nest.after kind) after after' →
      after.last = some token → Agree (next (some token)) (next' (some token')) after after' Q) :
    Agree (take >>= next) (take >>= next') here there Q := by
  obtain ⟨last, token, rest, rfl, rfl⟩ := ahead_of_next front
  obtain ⟨last', token', rest', rfl, same⟩ := ahead_of_next ((next_iff alike shares).mpr front)
  have position := pairing.place alike
  obtain ⟨text, alike⟩ := onward alike same allows plain
  exact Agree.step rfl rfl (taken token token' _ _ ⟨rfl, same, text, position⟩ alike rfl)

theorem agree_takeOperator {next : Option Token → TokenReader C}
    {next' : Option Token → TokenReader D} (alike : pairing.Alike nest here there)
    (front : here.next? = some kind) (operator : kind.isSimple = true ∨ kind.isSign = true)
    (refuses : ∀ token, Refuses .newline (next token))
    (refuses' : ∀ token, Refuses .newline (next' token))
    (taken : ∀ token token' after after', pairing.Alike nest after after' →
      Agree (next (some token)) (next' (some token')) after after' Q) :
    Agree (take >>= next) (take >>= next') here there Q := by
  have shares : nest.Shares kind := by
    rcases operator with simple | sign
    · exact .simple simple
    · exact .inr (by cases kind <;> first | decide | cases sign)
  obtain ⟨last, token, rest, rfl, rfl⟩ := ahead_of_next front
  obtain ⟨last', token', rest', rfl, same⟩ := ahead_of_next ((next_iff alike shares).mpr front)
  obtain ⟨still, allows⟩ : nest.after token.kind = nest ∧
      nest.Allows (last.map Token.kind) token.kind := by
    rcases operator with simple | sign
    · exact ⟨Nest.after_simple simple, .simple simple⟩
    · exact ⟨Nest.after_sign sign, .sign sign⟩
  rcases (pairing.step alike same allows).2 with alike | hang
  · rw [still] at alike
    exact Agree.step rfl rfl (taken token token' _ _ alike)
  · exact Agree.step rfl rfl
      (agree_refused (refuses (some token)) (refuses' (some token')) hang.here hang.there)

theorem agree_eat {next : Bool → TokenReader C}
    {next' : Bool → TokenReader D} (alike : pairing.Alike nest here there)
    (plain : kind.isSign = false) (shares : nest.Shares kind)
    (allows : here.next? = some kind → nest.Allows (here.last.map Token.kind) kind)
    (taken : ∀ after after', pairing.Alike (nest.after kind) after after' →
      after.last.map Token.kind = some kind → Agree (next true) (next' true) after after' Q)
    (left : here.next? ≠ some kind → Agree (next false) (next' false) here there Q) :
    Agree (eat kind >>= next) (eat kind >>= next') here there Q := by
  by_cases front : here.next? = some kind
  · have front' := (next_iff alike shares).mpr front
    have allows := allows front
    obtain ⟨last, token, rest, rfl, same⟩ := ahead_of_next front
    obtain ⟨last', token', rest', rfl, same'⟩ := ahead_of_next front'
    obtain ⟨_, alike⟩ :=
      onward alike (same'.trans same.symm) (by rw [same]; exact allows) (by rw [same]; exact plain)
    rw [same] at alike
    exact Agree.step (reads_eat same) (reads_eat same') (taken _ _ alike (congrArg some same))
  · have front' : there.next? ≠ some kind := fun next => front ((next_iff alike shares).mp next)
    exact Agree.step (run_eat_other front) (run_eat_other front') (left front)

theorem run_expect_other {cursor : Cursor} (other : cursor.next? ≠ some kind) :
    (expect kind).run cursor = .error ⟨cursor.ahead.head?, .token kind⟩ := by
  obtain ⟨last, ahead⟩ := cursor
  cases ahead with
  | nil => rfl
  | cons token rest =>
      change (if token.kind = kind then _ else failNext _ : TokenReader Token).run _ = _
      rw [if_neg fun same => other (congrArg some same)]
      rfl

theorem agree_expect {next : Token → TokenReader C}
    {next' : Token → TokenReader D} (alike : pairing.Alike nest here there)
    (plain : kind.isSign = false) (shares : nest.Shares kind)
    (allows : here.next? = some kind → nest.Allows (here.last.map Token.kind) kind)
    (taken : ∀ token token' after after', pairing.Fellows kind token token' →
      pairing.Alike (nest.after kind) after after' →
      after.last.map Token.kind = some kind → Agree (next token) (next' token') after after' Q) :
    Agree (expect kind >>= next) (expect kind >>= next') here there Q := by
  by_cases front : here.next? = some kind
  · have front' := (next_iff alike shares).mpr front
    have allows := allows front
    obtain ⟨last, token, rest, rfl, same⟩ := ahead_of_next front
    obtain ⟨last', token', rest', rfl, same'⟩ := ahead_of_next front'
    have position := pairing.place alike
    obtain ⟨text, alike⟩ :=
      onward alike (same'.trans same.symm) (by rw [same]; exact allows) (by rw [same]; exact plain)
    rw [same] at alike
    exact Agree.step (reads_expect same) (reads_expect same') (taken token token' _ _ ⟨same, same',
        text, by rwa [same] at position⟩ alike (congrArg some same))
  · have front' : there.next? ≠ some kind := fun next => front ((next_iff alike shares).mp next)
    have fails {E : Type} {cursor : Cursor}
        (other : cursor.next? ≠ some kind) (next : Token → TokenReader E) :
        (expect kind >>= next).run cursor = .error ⟨cursor.ahead.head?, .token kind⟩ := by
      rw [StateT.run_bind, run_expect_other other]
      rfl
    rw [Agree, fails front, fails front']
    trivial

section
variable (simple : kind.isSimple = true)
include simple

theorem agree_takeSimple {next : Option Token → TokenReader C}
    {next' : Option Token → TokenReader D}
    (alike : pairing.Alike nest here there) (front : here.next? = some kind)
    (taken : ∀ token token' after after', pairing.Fellows kind token token' →
      pairing.Alike nest after after' → after.last.map Token.kind = some kind →
      Agree (next (some token)) (next' (some token')) after after' Q) :
    Agree (take >>= next) (take >>= next') here there Q := by
  refine agree_take alike front (Kind.sign_simple simple) (.simple simple)
    (.simple simple) fun token token' after after' fellows alike last => ?_
  rw [Nest.after_simple simple] at alike
  exact taken token token' after after' fellows alike (by rw [last, Option.map_some, fellows.here])

theorem agree_eatSimple {next : Bool → TokenReader C} {next' : Bool → TokenReader D}
    (alike : pairing.Alike nest here there)
    (taken : ∀ after after',
      pairing.Alike nest after after' → Agree (next true) (next' true) after after' Q)
    (left : Agree (next false) (next' false) here there Q) :
    Agree (eat kind >>= next) (eat kind >>= next') here there Q := by
  refine agree_eat alike (Kind.sign_simple simple) (.simple simple) (fun _ => .simple simple)
    (fun after after' alike _ => ?_) fun _ => left
  rw [Nest.after_simple simple] at alike
  exact taken after after' alike

theorem agree_expectSimple {next : Token → TokenReader C} {next' : Token → TokenReader D}
    (alike : pairing.Alike nest here there)
    (taken : ∀ token token' after after',
      pairing.Fellows kind token token' → pairing.Alike nest after after' →
      after.last.map Token.kind = some kind → Agree (next token) (next' token') after after' Q) :
    Agree (expect kind >>= next) (expect kind >>= next') here there Q := by
  refine agree_expect alike (Kind.sign_simple simple) (.simple simple)
    (fun _ => .simple simple) fun token token' after after' fellows alike => ?_
  rw [Nest.after_simple simple] at alike
  exact taken token token' after after' fellows alike

end

theorem agree_separators {next : Unit → TokenReader C}
    {next' : Unit → TokenReader D} (alike : pairing.Alike nest here there)
    (front : ∀ {here there}, pairing.Alike nest here there → there.next? = here.next?)
    (more : ∀ after after', pairing.Alike nest after after' →
      Agree (next ()) (next' ()) after after' Q) :
    Agree (separators >>= next) (separators >>= next') here there Q := by
  obtain ⟨last, ahead⟩ := here
  obtain ⟨last', ahead'⟩ := there
  -- By induction on the separators in front: each side has one where the other has one.
  have skipped : pairing.Alike nest (Cursor.skipSeparators last ahead)
      (Cursor.skipSeparators last' ahead') := by
    induction ahead generalizing last last' ahead' with
    | nil =>
        have none : ahead' = [] := List.length_eq_zero_iff.mp (pairing.length alike)
        subst none
        exact alike
    | cons token rest ih =>
        obtain ⟨_, token', rest', same, kind⟩ := ahead_of_next (front alike)
        cases same
        rw [Cursor.skipSeparators, Cursor.skipSeparators, kind]
        split
        · next separates =>
            have onward :=
              (Pairing.onward alike kind (.separator separates) (Kind.sign_separator separates)).2
            rw [Nest.after_separator separates] at onward
            exact ih _ _ _ onward
        · exact alike
  exact Agree.step rfl rfl (more _ _ skipped)

end Pairing
end ScriptFlow
