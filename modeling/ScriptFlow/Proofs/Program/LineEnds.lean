import ScriptFlow.Proofs.Program.Spacing
import ScriptFlow.Proofs.Token.Returns

/-!
How lines end. A text and the same text with a carriage return in front of every newline are read
alike, down to the places of statements, unless a block comment runs over several lines.
-/

namespace ScriptFlow

open Token TokenReader

namespace Token.Relined

variable {stop stop' : Nat} {first second : List Token}

theorem invalid_iff (relined : Relined stop stop' first second) :
    (∃ token ∈ second, token.kind = .invalid) ↔ ∃ token ∈ first, token.kind = .invalid := by
  induction relined with
  | nil => exact Iff.rfl
  | invalid kind kind' =>
    exact iff_of_true ⟨_, List.mem_cons_self, kind'⟩ ⟨_, List.mem_cons_self, kind⟩
  | newline kind kind' _ _ ih => simp only [List.mem_cons, exists_eq_or_imp, kind, kind', ih]
  | token kind _ _ _ _ ih => simp only [List.mem_cons, exists_eq_or_imp, kind, ih]

theorem footing (relined : Relined stop stop' first second)
    (valid : ∀ token ∈ first, token.kind ≠ .invalid) :
    second.map (footing fun position => position) =
      first.map (footing fun position => position) := by
  induction relined with
  | nil => rfl
  | invalid kind => exact absurd kind (valid _ List.mem_cons_self)
  | newline kind kind' text _ ih =>
      rw [List.map_cons, List.map_cons, ih fun token member =>
        valid token (List.mem_cons_of_mem _ member)]
      rw [Token.footing, Token.footing, wording, wording, text, if_pos kind,
        if_pos kind', kind, kind']
  | token kind text position _ _ ih =>
      rw [List.map_cons, List.map_cons, ih fun token member =>
        valid token (List.mem_cons_of_mem _ member)]
      rw [Token.footing, Token.footing, wording, wording, kind, text, position]

theorem apart {front front' back back' : Token} {rest rest' : List Token}
    (relined : Relined front.stop front'.stop (back :: rest) (back' :: rest'))
    (valid : back.kind ≠ .invalid) : (back'.kind != .newline && front'.apart back') =
      (back.kind != .newline && front.apart back) := by
  cases relined with
  | invalid kind => exact absurd kind valid
  | newline kind kind' => rw [kind, kind']; rfl
  | token kind _ _ gap =>
      have same : front'.apart back' = front.apart back := decide_eq_decide.mpr gap
      rw [kind, same]

theorem gaps (relined : Relined stop stop' first second)
    (valid : ∀ token ∈ first, token.kind ≠ .invalid) (nest : Nest) :
    innerGaps nest second = innerGaps nest first := by
  -- Whether there is a gap in front of the next token is kept, for every kind of token in front of
  -- it.
  have behind {token token' : Token} {rest rest' : List Token}
      (kind : token'.kind = token.kind) (more : Relined token.stop token'.stop rest rest')
      (valid : ∀ token ∈ rest, token.kind ≠ .invalid)
      (ih : ∀ nest, innerGaps nest rest' = innerGaps nest rest) (nest : Nest) :
      innerGaps nest (token' :: rest') = innerGaps nest (token :: rest) := by
    match rest, rest' with
    | [], [] => rfl
    | back :: rest, back' :: rest' =>
        have gap := more.apart (valid back List.mem_cons_self)
        rw [innerGaps, innerGaps, kind, Bool.and_assoc, gap, Bool.and_assoc, ih]
    | [], _ :: _ | _ :: _, [] => cases more
  induction relined generalizing nest with
  | nil => rfl
  | invalid kind => exact absurd kind (valid _ List.mem_cons_self)
  | newline kind kind' _ more ih =>
      have later := fun token member => valid token (List.mem_cons_of_mem _ member)
      exact behind (kind'.trans kind.symm) more later (ih later) nest
  | token kind _ _ _ more ih =>
      have later := fun token member => valid token (List.mem_cons_of_mem _ member)
      exact behind kind more later (ih later) nest

end Token.Relined

namespace File

variable {first second : List Token}

theorem ofTokens_invalid {tokens : List Token} (invalid : ∃ token ∈ tokens, token.kind = .invalid) :
    ∃ error, ofTokens tokens = .error error := by
  obtain ⟨token, member, kind⟩ := invalid
  cases read : ofTokens tokens with
  | error error => exact ⟨error, rfl⟩
  | ok file => exact absurd kind ((ofTokens_ok_iff.mp read).1 token member)

theorem ofTokens_relined (relined : Relined 0 0 first second) :
    Parallel (fun file other => file.seen (fun position => position) = other.seen fun position =>
      position) (ofTokens first) (ofTokens second) := by
  by_cases invalid : ∃ token ∈ first, token.kind = .invalid
  · obtain ⟨_, failed⟩ := ofTokens_invalid invalid
    obtain ⟨_, failed'⟩ := ofTokens_invalid (relined.invalid_iff.mpr invalid)
    rw [failed, failed']
    trivial
  · have valid : ∀ token ∈ first, token.kind ≠ .invalid :=
      fun token member kind => invalid ⟨token, member, kind⟩
    exact ofTokens_alike (relined.footing valid) (relined.gaps valid .empty)

end File

namespace Program

theorem seen_id (program : Program) : program.seen (fun position => position) = program := by
  have stmts : StmtEntry.seen (fun position => position) = id := rfl
  have functions : FunctionEntry.seen (fun position => position) = id := rfl
  rw [seen, Store.seen, stmts, functions, Array.map_id, Array.map_id]

/-- Line endings do not matter, unless a block comment runs over several lines: with a carriage
return in front of every newline a text is read just when it is read without them, and as the same
program, down to its places. -/
theorem parse_withReturns {source : List Char}
    (lines : ∀ text, .gap .blockComment text ∈ scan none source → '\n' ∉ text) :
    (parse (withReturns source)).toOption = (parse source).toOption := by
  apply Parallel.toOption_eq
  have relined := place_returns none source lines (Nat.le_refl 0) (Nat.le_refl 0)
      (iff_of_false (Nat.lt_irrefl 0) (Nat.lt_irrefl 0)) .start
  refine ((File.ofTokens_relined relined).mapError).map fun file other same => ?_
  rw [← seen_id (ofFile file), ← seen_id (ofFile other), ← ofFile_seen, ← ofFile_seen, same]

/-- A block comment over several lines does not open with carriage returns, as one follows the mark
that opens it. -/
example : ofSource "%\x7b\nx\n%\x7d".toList = [] ∧
    (ofSource (withReturns "%\x7b\nx\n%\x7d".toList)).map kind = [.newline, .word, .newline] := by
  decide +kernel

end Program
end ScriptFlow
