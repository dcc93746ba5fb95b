import ScriptFlow.Proofs.File.InStep

/-!
What is read is orderly. A run of the readers beside itself shows what they require of the kinds of
tokens alone: every closer has something to close, and no line ends behind a sign.
-/

namespace ScriptFlow

open Token TokenReader

/-- No sign is the last token of a line. -/
def Unbroken : List Kind → Prop
  | kind :: next :: rest => (kind.isSign = true → next ≠ .newline) ∧ Unbroken (next :: rest)
  | _ => True

theorem Unbroken.cons {kind : Kind} {rest : List Kind} (unbroken : Unbroken rest)
    (goesOn : ¬ (kind.isSign = true ∧ rest.head? = some .newline)) : Unbroken (kind :: rest) := by
  cases rest with
  | nil => trivial
  | cons next rest => exact ⟨fun sign ends => goesOn ⟨sign, congrArg some ends⟩, unbroken⟩

/-- A run beside itself. What is left of the walk is as orderly as the rest of it allows. -/
structure Walking (kinds : List Kind) (nest : Nest) (here there : Cursor) : Prop where
  same : there = here
  walk : nest.walk (here.ahead.map Token.kind) = Nest.empty.walk kinds
  orderly : nest.Orderly (here.last.map Token.kind) (here.ahead.map Token.kind) →
      Nest.empty.Orderly none kinds
  unbroken : Unbroken (here.ahead.map Token.kind) → Unbroken kinds

namespace Walking

variable {kinds : List Kind} {nest : Nest} {here there : Cursor} {last last' : Option Token}
  {token token' : Token} {rest rest' : List Token}

theorem step (alike : Walking kinds nest ⟨last, token :: rest⟩ ⟨last', token' :: rest'⟩)
    (allows : nest.Allows (last.map Token.kind) token.kind) : token'.text = token.text ∧
      (Walking kinds (nest.after token.kind) ⟨some token, rest⟩ ⟨some token', rest'⟩ ∨
      Hang ⟨some token, rest⟩ ⟨some token', rest'⟩) := by
  cases alike.same
  refine ⟨rfl, ?_⟩
  by_cases hangs : token.kind.isSign = true ∧ (rest.map Token.kind).head? = some .newline
  · have next : Cursor.next? ⟨some token, rest⟩ = some .newline :=
      (List.head?_map).symm.trans hangs.2
    exact .inr ⟨hangs.1, next, next⟩
  · exact .inl ⟨rfl, alike.walk, fun orderly => alike.orderly ⟨allows, orderly⟩,
      fun unbroken => alike.unbroken (unbroken.cons hangs)⟩

end Walking

def walking (kinds : List Kind) : Pairing where
  view position := position
  Alike := Walking kinds
  length alike := by rw [alike.same]
  next alike := .inl (by rw [alike.same])
  before alike _ _ := by rw [alike.same]
  behind alike _ _ _ := by rw [alike.same]
  place alike _ := by
    cases alike.same
    rfl
  step alike _ allows := alike.step allows
  stray alike strays := by
    cases alike.same
    exact absurd (strays.there.symm.trans strays.here) (by decide)

theorem walking_strict (kinds : List Kind) : (walking kinds).Strict := fun alike => by
  have same : _ = _ := Walking.same alike
  rw [same]

namespace File

variable {closed : Bool} {tokens : List Token} {file : ParsedFile} {after : Cursor}

theorem walked_of_reader (ran : (reader closed).run (.ofTokens tokens) = .ok (file, after)) :
    ∃ count there, after.ahead = [] ∧
      Walking (tokens.map Token.kind) ⟨[], List.replicate count .functionKey⟩ after there := by
  have alike : (walking (tokens.map Token.kind)).Alike .empty (.ofTokens tokens)
      (.ofTokens tokens) := ⟨rfl, rfl, id, id⟩
  obtain ⟨_, there, _, _, ⟨count, last⟩, none⟩ :=
    (agree_reader (walking_strict _) alike).follows ran
  rw [List.append_nil] at last
  exact ⟨count, there, none, last⟩

/-- Tokens that are read as a file are orderly, and nothing but functions is left open. -/
theorem orderly_of_reader (ran : (reader closed).run (.ofTokens tokens) = .ok (file, after)) :
    Nest.empty.Orderly none (tokens.map Token.kind) ∧ ∃ count,
      Nest.empty.walk (tokens.map Token.kind) = ⟨[], List.replicate count .functionKey⟩ := by
  obtain ⟨count, _, none, walked⟩ := walked_of_reader ran
  have walk := walked.walk
  have orderly := walked.orderly
  rw [none] at walk orderly
  exact ⟨orderly trivial, count, walk.symm⟩

theorem unbroken_of_reader (ran : (reader closed).run (.ofTokens tokens) = .ok (file, after)) :
    Unbroken (tokens.map Token.kind) := by
  obtain ⟨_, _, none, walked⟩ := walked_of_reader ran
  have unbroken := walked.unbroken
  rw [none] at unbroken
  exact unbroken trivial

end File
end ScriptFlow
