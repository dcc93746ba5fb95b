import ScriptFlow.Proofs.Token.Scanning
import ScriptFlow.Proofs.Token.Steps

/-!
What a reader gives. A reader takes tokens off the front; what it gives is described together with
the landmarks among the tokens that it took: quoted texts, quotes and the keyword of functions, the
tokens whose order the given tree shows.
-/

namespace ScriptFlow

namespace Token

abbrev Landmark := Kind × List Char

def Kind.isLandmark : Kind → Bool
  | singleQuoted | doubleQuoted | quote | functionKey => true
  | _ => false

/-- What a token is remembered by; the text is part of it where it can differ. -/
def Kind.landmark? (kind : Kind) (text : List Char) : Option Landmark :=
  if kind.isLandmark then some (kind, if kind.isText then text else []) else none

def Lexeme.landmark? : Lexeme → Option Landmark
  | token kind text => kind.landmark? text
  | gap _ _ => none

def landmarks (lexemes : List Lexeme) : List Landmark := lexemes.filterMap Lexeme.landmark?

@[simp] theorem landmarks_nil : landmarks [] = [] := rfl

theorem landmarks_append (front back : List Lexeme) :
    landmarks (front ++ back) = landmarks front ++ landmarks back :=
  List.filterMap_append

theorem landmarks_cons (first : Lexeme) (rest : List Lexeme) :
    landmarks (first :: rest) = first.landmark?.toList ++ landmarks rest := by
  cases found : first.landmark? <;> simp [landmarks, found]

def passed (tokens : List Token) : List Landmark :=
  tokens.filterMap fun token => token.kind.landmark? token.text

theorem passed_append (front back : List Token) :
    passed (front ++ back) = passed front ++ passed back :=
  List.filterMap_append

theorem passed_single (token : Token) :
    passed [token] = (token.kind.landmark? token.text).toList := by
  cases found : token.kind.landmark? token.text <;> simp [passed, found]

theorem passed_plain {token : Token} (plain : token.kind.isLandmark = false) :
    passed [token] = [] := by
  rw [passed_single, Kind.landmark?, plain]
  rfl

def Admitted (tokens : List Token) : Prop := ∀ token ∈ tokens, token.kind.Admits token.text

theorem Admitted.front {used rest : List Token}
    (admitted : Admitted (used ++ rest)) : Admitted used :=
  fun token member => admitted token (List.mem_append_left _ member)

theorem Admitted.behind {used rest : List Token}
    (admitted : Admitted (used ++ rest)) : Admitted rest :=
  fun token member => admitted token (List.mem_append_right _ member)

end Token

namespace TokenReader

open Token

variable {A B : Type} {cursor : Cursor} {P : A → List Landmark → Prop}
  {Q : B → List Landmark → Prop}

/-- If the reader succeeds there, the tokens that it takes have landmarks that fit what it gives. -/
def Gives (cursor : Cursor) (reader : TokenReader A) (P : A → List Landmark → Prop) : Prop :=
  ∀ a after, Admitted cursor.ahead → reader.run cursor = .ok (a, after) →
    ∃ used, cursor.ahead = used ++ after.ahead ∧ P a (passed used)

theorem Gives.imp {reader : TokenReader A} {P' : A → List Landmark → Prop}
    (given : Gives cursor reader P) (weaker : ∀ a marks, P a marks → P' a marks) :
    Gives cursor reader P' := by
  intro a after admitted ran
  obtain ⟨used, same, holds⟩ := given a after admitted ran
  exact ⟨used, same, weaker _ _ holds⟩

theorem gives_pure {a : A} (holds : P a []) : Gives cursor (pure a) P := by
  rintro _ _ _ ⟨⟩
  exact ⟨[], rfl, holds⟩

theorem gives_failNext (reason : Reason) : Gives cursor (failNext reason) P := by
  rintro _ _ _ ⟨⟩

theorem gives_failLast (reason : Reason) : Gives cursor (failLast reason) P := by
  rintro _ _ _ ⟨⟩

theorem Gives.bind {reader : TokenReader A}
    {next : A → TokenReader B} (given : Gives cursor reader P)
    (more : ∀ a marks after, P a marks → Gives after (next a) fun b later => Q b (marks ++ later)) :
    Gives cursor (reader >>= next) Q := by
  intro b after admitted ran
  obtain ⟨a, between, first, second⟩ := run_bind_ok ran
  obtain ⟨used, same, holds⟩ := given a between admitted first
  rw [same] at admitted
  obtain ⟨later, same', holds'⟩ := more a _ between holds b after admitted.behind second
  exact ⟨used ++ later, by rw [same, same', List.append_assoc], by rw [passed_append]; exact holds'⟩

theorem Gives.map {reader : TokenReader A} {f : A → B}
    (given : Gives cursor reader fun a marks => Q (f a) marks) : Gives cursor (f <$> reader) Q := by
  rw [← bind_pure_comp]
  refine given.bind fun a marks _ holds => gives_pure ?_
  rwa [List.append_nil]

theorem gives_get {next : Cursor → TokenReader B} (given : Gives cursor (next cursor) Q) :
    Gives cursor (get >>= next) Q := given

theorem gives_peek {next : Option Kind → TokenReader B}
    (given : Gives cursor (next cursor.next?) Q) : Gives cursor (peek >>= next) Q := given

theorem gives_nextIs {kind : Kind} {next : Bool → TokenReader B}
    (given : Gives cursor (next (cursor.next? == some kind)) Q) :
    Gives cursor (nextIs kind >>= next) Q := given

theorem gives_take {next : Option Token → TokenReader B}
    (ended : cursor.next? = none → Gives cursor (next none) Q)
    (taken : ∀ token after, cursor.next? = some token.kind → token.kind.Admits token.text →
      Gives after (next (some token)) fun b later =>
      Q b ((token.kind.landmark? token.text).toList ++ later)) :
    Gives cursor (take >>= next) Q := by
  obtain ⟨last, ahead⟩ := cursor
  cases ahead with
  | nil => exact ended rfl
  | cons token rest =>
      intro b after admitted ran
      obtain ⟨used, same, holds⟩ :=
        taken token ⟨some token, rest⟩ rfl (admitted _ List.mem_cons_self) b after
          (fun later member => admitted later (List.mem_cons_of_mem _ member)) ran
      refine ⟨token :: used, congrArg (token :: ·) same, ?_⟩
      rwa [← List.singleton_append, passed_append, passed_single]

theorem gives_skip {kind : Kind} {next : Option Token → TokenReader B}
    (here : cursor.next? = some kind) (plain : kind.isLandmark = false)
    (more : ∀ token after, Gives after (next (some token)) Q) : Gives cursor (take >>= next) Q := by
  refine gives_take (fun none => ?_) fun token after same _ => ?_
  · rw [none] at here
    cases here
  · rw [here] at same
    cases same
    rw [Kind.landmark?, plain]
    exact more token after

theorem gives_step {reader : TokenReader A} {next : A → TokenReader B}
    {a : A} {used rest : List Token} {last : Option Token}
    (ahead : cursor.ahead = used ++ rest) (ran : reader.run cursor = .ok (a, ⟨last, rest⟩))
    (more : Admitted used → Gives ⟨last, rest⟩ (next a) fun b later => Q b (passed used ++ later)) :
    Gives cursor (reader >>= next) Q := by
  intro b after admitted ran'
  rw [run_bind_eq ran] at ran'
  rw [ahead] at admitted
  obtain ⟨later, same, holds⟩ := more admitted.front b after admitted.behind ran'
  exact ⟨used ++ later,
    by rw [ahead, List.append_assoc]; exact congrArg (used ++ ·) same, by rwa [passed_append]⟩

theorem gives_eat {kind : Kind} {next : Bool → TokenReader B}
    (plain : kind.isLandmark = false) (taken : ∀ after, Gives after (next true) Q)
    (left : cursor.next? ≠ some kind → Gives cursor (next false) Q) :
    Gives cursor (eat kind >>= next) Q := by
  by_cases here : cursor.next? = some kind
  · obtain ⟨last, ahead⟩ := cursor
    cases ahead with
    | nil => cases here
    | cons token rest =>
        have same : token.kind = kind := Option.some.inj here
        have ahead : (Cursor.mk last (token :: rest)).ahead = [token] ++ rest := rfl
        refine gives_step ahead (reads_eat same) fun _ => ?_
        rw [passed_plain (same ▸ plain)]
        exact taken _
  · exact gives_step (List.nil_append _).symm (run_eat_other here) fun _ => left here

theorem gives_expect {kind : Kind} {next : Token → TokenReader B}
    (taken : ∀ token after, kind.Admits token.text →
      Gives after (next token) fun b later => Q b ((kind.landmark? token.text).toList ++ later)) :
    Gives cursor (expect kind >>= next) Q := by
  obtain ⟨last, ahead⟩ := cursor
  cases ahead with
  | nil => rintro _ _ _ ⟨⟩
  | cons token rest =>
      by_cases same : token.kind = kind
      · have ahead : (Cursor.mk last (token :: rest)).ahead = [token] ++ rest := rfl
        refine gives_step ahead (reads_expect same) fun admitted => ?_
        rw [passed_single, same]
        exact taken token _ (same ▸ admitted token List.mem_cons_self)
      · intro b after _ ran
        obtain ⟨_, _, first, _⟩ := run_bind_ok ran
        change (if token.kind = kind then _ else failNext _ : TokenReader Token).run _ = _ at first
        rw [if_neg same] at first
        cases first

theorem gives_separators {next : Unit → TokenReader B} (more : ∀ after, Gives after (next ()) Q) :
    Gives cursor (separators >>= next) Q := by
  obtain ⟨last, ahead⟩ := cursor
  obtain ⟨used, rest, same, all, skipped⟩ := skipSeparators_eq last ahead
  have ran : separators.run ⟨last, ahead⟩ = .ok ((), ⟨lastOf last used, rest⟩) :=
    congrArg (fun cursor => Except.ok ((), cursor)) skipped
  refine gives_step same ran fun _ => ?_
  have none : passed used = [] := by
    refine List.filterMap_eq_nil_iff.mpr fun token member => ?_
    have separates := all token member
    cases sort : token.kind <;> rw [sort] at separates <;> first | rfl | cases separates
  rw [none]
  exact more _

def IfAny (P : A → List Landmark → Prop) : Option A → List Landmark → Prop
  | none, marks => marks = []
  | some a, marks => P a marks

theorem gives_collect {part : TokenReader (Option A)}
    (given : ∀ cursor, Gives cursor part (IfAny P)) :
    Gives cursor (collect part) fun as marks => ∃ lists, List.Forall₂ P as lists ∧
      marks = lists.flatten := by
  have within (allowance : Nat) :
      ∀ cursor, Gives cursor (collectWithin part allowance) fun as marks =>
      ∃ lists, List.Forall₂ P as lists ∧ marks = lists.flatten := by
    induction allowance with
    | zero => exact fun _ => gives_failNext _
    | succ allowance ih =>
        intro cursor
        refine (given cursor).bind fun found marks after holds => ?_
        cases found with
        | none => exact gives_pure ⟨[], .nil, (congrArg (· ++ []) holds).trans rfl⟩
        | some a =>
            refine (ih after).bind fun as others _ rest => gives_pure ?_
            obtain ⟨lists, all, rfl⟩ := rest
            exact ⟨marks :: lists, .cons holds all, by rw [List.append_nil, List.flatten_cons]⟩
  exact gives_get (within _ cursor)

end TokenReader
end ScriptFlow
