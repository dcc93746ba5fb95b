import ScriptFlow.Proofs.File.Walking
import ScriptFlow.Proofs.Outcome
import ScriptFlow.Proofs.Store.Seen

/-!
What blanks matter. Two texts with the same tokens, and with gaps in the same places where a literal
is open, are read alike: both fail, or their programs differ in places only. Gaps in front of
newlines do not matter, nor where newlines stand on their lines.
-/

namespace ScriptFlow

open Token TokenReader

namespace Token

/-- The token apart from where it stands. -/
def wording (token : Token) : Kind × List Char := (token.kind, token.text)

/-- Which neighbours have a gap between them, as far as they stand where a literal is open. -/
def literalGaps (nest : Nest) : List Token → List Bool
  | front :: back :: rest =>
    ((nest.after front.kind).inLiteral && front.apart back) ::
      literalGaps (nest.after front.kind) (back :: rest)
  | _ => []

/-- The token with what is kept of its place; of a newline nothing is. -/
def footing (view : Position → Position) (token : Token) : (Kind × List Char) × Option Position :=
  (token.wording, if token.kind = .newline then none else some (view token.position))

def innerGaps (nest : Nest) : List Token → List Bool
  | front :: back :: rest =>
      ((nest.after front.kind).inLiteral && back.kind != .newline && front.apart back) ::
        innerGaps (nest.after front.kind) (back :: rest)
  | _ => []

variable {view : Position → Position} {first second : List Token}

theorem words_of_footing (same : second.map (footing view) = first.map (footing view)) :
    second.map wording = first.map wording := by
  have words := congrArg (·.map Prod.fst) same
  rwa [List.map_map, List.map_map] at words

theorem kinds_of_words (words : second.map wording = first.map wording) :
    second.map kind = first.map kind := by
  have kinds := congrArg (·.map Prod.fst) words
  rwa [List.map_map, List.map_map] at kinds

theorem footing_of_words (place : Position) (words : second.map wording = first.map wording) :
    second.map (footing fun _ => place) = first.map (footing fun _ => place) := by
  have same := congrArg (·.map fun word : Kind × List Char =>
      (word, if word.1 = .newline then none else some place)) words
  rwa [List.map_map, List.map_map] at same

theorem innerGaps_of_literalGaps {nest : Nest} (kinds : second.map kind = first.map kind)
    (gaps : literalGaps nest second = literalGaps nest first) :
    innerGaps nest second = innerGaps nest first := by
  induction first generalizing nest second with
  | nil =>
      rw [List.map_nil, List.map_eq_nil_iff] at kinds
      rw [kinds]
  | cons front rest ih =>
      obtain ⟨front', rest', rfl, same, kinds⟩ := List.map_eq_cons_iff.mp kinds
      match rest, rest' with
      | [], [] => rfl
      | [], _ :: _ | _ :: _, [] => cases kinds
      | back :: rest, back' :: rest' =>
          obtain ⟨head, tail⟩ := List.cons.inj gaps
          have same' : back'.kind = back.kind := (List.cons.inj kinds).1
          rw [same] at tail head
          rw [innerGaps, innerGaps, same, same', ih kinds tail, Bool.and_right_comm, head,
            Bool.and_right_comm]

end Token

/-- The same tokens are ahead, and the same gaps where a literal is open; no line ends behind a
sign. -/
structure SpacedAlike (view : Position → Position) (nest : Nest) (here there : Cursor) : Prop where
  tokens : there.ahead.map (footing view) = here.ahead.map (footing view)
  gaps : innerGaps nest there.ahead = innerGaps nest here.ahead
  before : nest.inLiteral = true → here.next? ≠ some .newline → there.apartBefore = here.apartBefore
  unbroken : Unbroken (here.ahead.map Token.kind)

namespace SpacedAlike

variable {view : Position → Position} {nest : Nest} {here there : Cursor}
  {last last' : Option Token} {token token' : Token} {rest rest' : List Token}

theorem length (alike : SpacedAlike view nest here there) :
    there.ahead.length = here.ahead.length := by
  have lengths := congrArg List.length alike.tokens
  rwa [List.length_map, List.length_map] at lengths

theorem next (alike : SpacedAlike view nest here there) : there.next? = here.next? := by
  have heads := congrArg List.head? (kinds_of_words (words_of_footing alike.tokens))
  rwa [List.head?_map, List.head?_map] at heads

theorem front (alike : SpacedAlike view nest ⟨last, token :: rest⟩ ⟨last', token' :: rest'⟩) :
    token'.kind = token.kind ∧ token'.text = token.text := by
  have same := (List.cons.inj (words_of_footing alike.tokens)).1
  exact ⟨congrArg Prod.fst same, congrArg Prod.snd same⟩

theorem place (alike : SpacedAlike view nest ⟨last, token :: rest⟩ ⟨last', token' :: rest'⟩)
    (other : token.kind ≠ .newline) : view token'.position = view token.position := by
  have same := congrArg Prod.snd (List.cons.inj alike.tokens).1
  rw [footing, footing, alike.front.1, if_neg other, if_neg other] at same
  exact Option.some.inj same

theorem apart {back back' : Token}
    (alike : SpacedAlike view nest ⟨last, token :: back :: rest⟩ ⟨last', token' :: back' :: rest'⟩)
    (literal : (nest.after token.kind).inLiteral = true) (other : back.kind ≠ .newline) :
    token'.apart back' = token.apart back := by
  have same := (List.cons.inj alike.gaps).1
  have kind : back'.kind = back.kind :=
    congrArg (·.1.1) (List.cons.inj (List.cons.inj alike.tokens).2).1
  rwa [alike.front.1, kind, literal, bne_iff_ne.mpr other, Bool.true_and, Bool.true_and,
    Bool.true_and] at same

theorem behind (alike : SpacedAlike view nest here there) {kind : Kind}
    (front : here.next? = some kind) (sign : kind.isSign = true) (literal : nest.inLiteral = true) :
    there.apartAfter = here.apartAfter := by
  obtain ⟨last, ahead⟩ := here
  obtain ⟨last', ahead'⟩ := there
  have lengths := alike.length
  match ahead, ahead' with
  | [], [] => rfl
  | [_], [_] => rfl
  | token :: back :: rest, token' :: back' :: rest' =>
      have kind := Option.some.inj front
      refine alike.apart ?_ (alike.unbroken.1 (by rwa [kind]))
      rwa [kind, Nest.after_sign sign]
  | [], _ :: _ | _ :: _, [] | [_], _ :: _ :: _ | _ :: _ :: _, [_] => simp at lengths

theorem step (alike : SpacedAlike view nest ⟨last, token :: rest⟩ ⟨last', token' :: rest'⟩) :
    SpacedAlike view (nest.after token.kind) ⟨some token, rest⟩ ⟨some token', rest'⟩ := by
  have tokens := (List.cons.inj alike.tokens).2
  have lengths := congrArg List.length tokens
  rw [List.length_map, List.length_map] at lengths
  match rest, rest' with
  | [], [] => exact ⟨rfl, rfl, fun _ _ => rfl, trivial⟩
  | [], _ :: _ | _ :: _, [] => simp at lengths
  | back :: rest, back' :: rest' =>
      have gaps := (List.cons.inj alike.gaps).2
      rw [alike.front.1] at gaps
      exact ⟨tokens, gaps, fun literal other => alike.apart literal fun ends =>
        other (congrArg some ends), alike.unbroken.2⟩

end SpacedAlike

def spacing (view : Position → Position) : Pairing where
  view := view
  Alike := SpacedAlike view
  length alike := alike.length
  next alike := .inl alike.next
  before alike := alike.before
  behind alike := alike.behind
  place alike := alike.place
  step alike _ _ := ⟨alike.front.2, .inl alike.step⟩
  stray alike strays := absurd (strays.there.symm.trans (alike.next.trans strays.here)) (by decide)

theorem spacing_strict (view : Position → Position) : (spacing view).Strict :=
  fun alike => SpacedAlike.next alike

def Parallel {E F A B : Type} (R : A → B → Prop) : Except E A → Except F B → Prop
  | .ok a, .ok b => R a b
  | .error _, .error _ => True
  | _, _ => False

namespace Parallel

variable {E F G A B C D : Type} {R : A → B → Prop} {S : C → D → Prop} {first : Except E A}
  {second : Except F B}

theorem map {f : A → C} {g : B → D} (both : Parallel R first second)
    (related : ∀ a b, R a b → S (f a) (g b)) : Parallel S (f <$> first) (g <$> second) := by
  cases first <;> cases second
  · trivial
  · exact both.elim
  · exact both.elim
  · exact related _ _ both

theorem toOption_eq {first : Except E A} {second : Except F A} (both : Parallel Eq first second) :
    second.toOption = first.toOption := by
  cases first <;> cases second
  · rfl
  · exact both.elim
  · exact both.elim
  · exact congrArg some (Eq.symm both)

theorem mapError {f : E → G} {g : F → G} (both : Parallel R first second) :
    Parallel R (first.mapError f) (second.mapError g) := by
  cases first <;> cases second <;> exact both

theorem ofAgree {first : TokenReader A} {second : TokenReader B} {here there : Cursor}
    {P : A → B → Cursor → Cursor → Prop} (agree : Agree first second here there P)
    (related : ∀ a b after after', P a b after after' → R a b) :
    Parallel R (first.run' here) (second.run' there) := by
  have runs : Parallel (fun x y => P x.1 y.1 x.2 y.2) (first.run here) (second.run there) := by
    unfold Agree at agree
    cases ran : first.run here <;> cases ran' : second.run there
      <;> rw [ran, ran'] at agree <;> exact agree
  exact runs.map fun x y holds => related x.1 y.1 x.2 y.2 holds

end Parallel

namespace File

variable {view : Position → Position} {first second : List Token}

theorem invalid_iff (words : second.map wording = first.map wording) :
    (second.find? fun token => token.kind = .invalid).isSome =
      (first.find? fun token => token.kind = .invalid).isSome := by
  have kinds := congrArg (·.any fun kind => decide (kind = Kind.invalid)) (kinds_of_words words)
  rw [List.isSome_find?, List.isSome_find?]
  rwa [List.any_map, List.any_map] at kinds

/-- Where a line ends behind a sign, no file is read. -/
theorem ofTokens_broken {tokens : List Token} (broken : ¬ Unbroken (tokens.map Token.kind)) :
    ∃ error, ofTokens tokens = .error error := by
  cases read : ofTokens tokens with
  | error error => exact ⟨error, rfl⟩
  | ok file =>
      obtain ⟨_, _, ran⟩ := ofTokens_ok_iff.mp read
      exact absurd (unbroken_of_reader ran) broken

theorem ofTokens_alike (tokens : second.map (footing view) = first.map (footing view))
    (gaps : innerGaps .empty second = innerGaps .empty first) :
    Parallel (fun file other => file.seen view = other.seen view) (ofTokens first)
      (ofTokens second) := by
  have words := words_of_footing tokens
  have kinds := kinds_of_words words
  -- Where the brackets break, both fail; elsewhere the two token lists pair up, and the readers go
  -- in step.
  by_cases unbroken : Unbroken (first.map Token.kind)
  · have closed : closesFunctions second = closesFunctions first := by
      rw [closesFunctions, closesFunctions, kinds]
    have invalid := invalid_iff words
    rw [ofTokens, ofTokens, closed]
    cases found : first.find? fun token => token.kind = .invalid
      <;> cases found' : second.find? fun token => token.kind = .invalid <;>
      rw [found, found'] at invalid
    · have alike : (spacing view).Alike .empty (.ofTokens first) (.ofTokens second) :=
        ⟨tokens, gaps, fun literal => absurd literal (by decide), unbroken⟩
      exact Parallel.ofAgree (agree_reader (spacing_strict view) alike) fun _ _ _ _ same => same.1
    · cases invalid
    · cases invalid
    · trivial
  · obtain ⟨_, failed⟩ := ofTokens_broken unbroken
    obtain ⟨_, failed'⟩ := ofTokens_broken (kinds ▸ unbroken)
    rw [failed, failed']
    trivial

theorem ofTokens_spacing (words : second.map wording = first.map wording)
    (gaps : literalGaps .empty second = literalGaps .empty first) :
    Parallel (fun file other => file.seen (fun _ => .unplaced) = other.seen fun _ => .unplaced)
      (ofTokens first) (ofTokens second) :=
  ofTokens_alike (footing_of_words .unplaced words)
    (innerGaps_of_literalGaps (kinds_of_words words) gaps)

end File

namespace Program

/-- Blanks, comments and continuations matter only inside literals. Whatever two texts have between
their tokens: where the tokens are the same, and the neighbours that stand where a literal is open
are apart in both or in neither, both texts fail to be read, or their programs differ in places
only. -/
theorem parse_spacing {first second : List Char}
    (words : (ofSource second).map wording = (ofSource first).map wording)
    (gaps : literalGaps .empty (ofSource second) = literalGaps .empty (ofSource first)) :
    Parallel
      (fun program other => program.seen (fun _ => .unplaced) = other.seen fun _ => .unplaced)
      (parse first) (parse second) := by
  refine ((File.ofTokens_spacing words gaps).mapError).map fun file other same => ?_
  rw [← ofFile_seen, ← ofFile_seen]
  exact congrArg ofFile same

theorem sum_spacing : (ofSource "x = [a -1] + f( 1 );".toList).map
      wording = (ofSource "x=[a -1]... more\n +f(1) ; % done".toList).map wording ∧
      (parse "x = [a -1] + f( 1 );".toList).toOption.isSome = true ∧ Parallel
      (fun program other => program.seen (fun _ => .unplaced) = other.seen fun _ => .unplaced)
      (parse "x=[a -1]... more\n +f(1) ; % done".toList) (parse "x = [a -1] + f( 1 );".toList) :=
  ⟨by decide +kernel, by decide +kernel, parse_spacing (by decide +kernel) (by decide +kernel)⟩

end Program
end ScriptFlow
