import ScriptFlow.Program.Basic
import ScriptFlow.Proofs.File.Unclosed
import ScriptFlow.Proofs.Outcome
import ScriptFlow.Proofs.Rounds

/-!
Programs in both styles. A text that closes its functions, none of them nested, and the text with a
comma and blanks in the place of each such `end` are the same program, down to its places.
-/

namespace ScriptFlow

open Token TokenReader

namespace File

variable {tokens : List Token} {file : ParsedFile}

theorem closesFunctions_iff (orderly : Nest.empty.Orderly none (tokens.map Token.kind)) :
    closesFunctions tokens = true ↔ (Nest.empty.walk (tokens.map Token.kind)).openers = [] := by
  have level := Nest.surplus_walk orderly
  change 0 + surplus 0 _ = _ at level
  rw [Int.zero_add] at level
  rw [closesFunctions, level, beq_iff_eq, Int.natCast_eq_zero, List.length_eq_zero_iff]

theorem closesFunctions_unclosed (orderly : Nest.empty.Orderly none (tokens.map Token.kind))
    (closes : closesFunctions tokens = true)
    (some : Nest.empty.closings (tokens.map Token.kind) ≠ 0) :
    closesFunctions (unclosed .empty tokens) = false := by
  have more := Nest.surplus_unclosed orderly
  change surplus 0 _ = surplus 0 _ + _ at more
  rw [beq_iff_eq.mp closes, Int.zero_add] at more
  rw [closesFunctions, more]
  exact beq_eq_false_iff_ne.mpr (Int.natCast_ne_zero.mpr some)

/-- Tokens that close some function are read alike without the `end`s of functions, and in the other
style. -/
theorem ofTokens_unclosed (read : ofTokens tokens = .ok file) (flat : file.isFlat = true)
    (orderly : Nest.empty.Orderly none (tokens.map Token.kind))
    (closes : closesFunctions tokens = true)
    (some : Nest.empty.closings (tokens.map Token.kind) ≠ 0) :
    closesFunctions (unclosed .empty tokens) = false ∧
      ofTokens (unclosed .empty tokens) = .ok file := by
  obtain ⟨valid, after, ran⟩ := ofTokens_ok_iff.mp read
  have style := closesFunctions_unclosed orderly closes some
  rw [closes] at ran
  have alike : Unclosing .empty (.ofTokens tokens) (.ofTokens (unclosed .empty tokens)) :=
    ⟨rfl, fun _ => rfl⟩
  refine ⟨style, ofTokens_ok_iff.mpr ⟨fun token member invalid => ?_, ?_⟩⟩
  · rcases mem_unclosed member with old | comma
    · exact valid token old invalid
    · rw [invalid] at comma
      cases comma
  · rw [style]
    exact reader_unclosed alike ran flat

end File

namespace Program

/-- Both styles of functions are read alike. Where a text is read as a file whose functions are all
closed, none of them nested and no statement behind them, the text with a comma and two blanks for
the `end` of every function is read as the same program, and in the other style unless there was no
such `end`. -/
theorem parse_unclosed {source : List Char} {file : ParsedFile}
    (read : File.parse source = .ok file) (flat : file.isFlat = true)
    (closed : Kind.functionKey ∉ (Nest.empty.walk ((ofSource source).map Token.kind)).openers) :
    parse source = .ok (ofFile file) ∧
      parse (unclosedText .empty (scan none source)) = .ok (ofFile file) ∧
      (File.closesFunctions (ofSource (unclosedText .empty (scan none source))) = true →
        unclosedText .empty (scan none source) = source) := by
  have whole : parse source = .ok (ofFile file) := by
    rw [parse, read]
    rfl
  have tokens := File.parse_ok_iff.mp read
  obtain ⟨_, after, ran⟩ := File.ofTokens_ok_iff.mp tokens
  obtain ⟨orderly, count, walk⟩ := File.orderly_of_reader ran
  have closes : File.closesFunctions (ofSource source) = true := by
    rw [File.closesFunctions_iff orderly, walk]
    rw [walk] at closed
    cases count with
    | zero => rfl
    | succ => exact absurd List.mem_cons_self closed
  -- Without an end to leave out the text stays as it is, and with one it changes its style.
  by_cases none : Nest.empty.closings ((ofSource source).map Token.kind) = 0
  · have same : unclosedText .empty (scan Option.none source) = source := by
      rw [ofSource, kinds_place] at none
      rw [unclosedText_same none, concat_scan]
    exact ⟨whole, by rwa [same], fun _ => same⟩
  · obtain ⟨style, read'⟩ := File.ofTokens_unclosed tokens flat orderly closes none
    rw [← ofSource_unclosed orderly] at style read'
    refine ⟨whole, ?_, fun other => absurd (style.symm.trans other) (by decide)⟩
    rw [parse, File.parse_ok_iff.mpr read']
    rfl

theorem two_unclosed : ∃ file,
    File.parse
      "x = 2;\nfunction y = f(a)\n if a(end) > 0, y = 'end'; end % end\nend\nfunction g, x = [f(1) 2]; end".toList =
        .ok file ∧
    file.isFlat = true ∧
    parse
      "x = 2;\nfunction y = f(a)\n if a(end) > 0, y = 'end'; end % end\n,  \nfunction g, x = [f(1) 2]; ,  ".toList =
        .ok (ofFile file) := by
  have read : ((File.parse
      "x = 2;\nfunction y = f(a)\n if a(end) > 0, y = 'end'; end % end\nend\nfunction g, x = [f(1) 2]; end".toList).toOption.any
        File.isFlat) = true := by
    decide +kernel
  obtain ⟨file, read, flat⟩ := (Option.any_eq_true _ _).mp read
  have read := ok_of_toOption read
  have text : unclosedText .empty (scan none
        "x = 2;\nfunction y = f(a)\n if a(end) > 0, y = 'end'; end % end\nend\nfunction g, x = [f(1) 2]; end".toList) =
      "x = 2;\nfunction y = f(a)\n if a(end) > 0, y = 'end'; end % end\n,  \nfunction g, x = [f(1) 2]; ,  ".toList := by
    decide +kernel
  refine ⟨file, read, flat, ?_⟩
  rw [← text]
  exact (parse_unclosed read flat (by decide +kernel)).2.1

end Program
end ScriptFlow
