import ScriptFlow.Proofs.Expr.Spelled
import ScriptFlow.Proofs.Expr.Told
import ScriptFlow.Proofs.Token.Linewise

/-!
Written texts. Wherever scanning stands in front of the written form of a text, and no further mark
of its own follows, it reads one token that covers all of it, and the token is read as the text
again.
-/

namespace ScriptFlow

open Token TokenReader

namespace Token

theorem longest_quoted {quoting : Quoting} {inner behind longer : List Char}
    (onLine : '\n' ∉ inner) (ends : quoting.mark ∉ behind.head?) (quoted : IsQuoted quoting longer)
    (inside : longer <+: Quoted.encode quoting inner ++ behind) :
    longer.length ≤ (Quoted.encode quoting inner).length := by
  obtain ⟨other, plain, rfl⟩ := quoted
  obtain ⟨rest, same⟩ := inside
  simp only [Quoted.encode, List.cons_append, List.append_assoc, List.nil_append] at same
  have closed := closing_double onLine ends
  rw [← (List.cons.inj same).2] at closed
  simp only [Quoted.encode, List.length_cons, List.length_append, List.length_nil]
  -- a longer quoted text would be closed by the same mark, or that mark would be doubled in it
  by_cases doubled : quoting.mark ∈ rest.head?
  · obtain ⟨more, rfl⟩ := List.head?_eq_some_iff.mp doubled
    rw [closing_past quoting.mark plain more, Option.map_eq_some_iff] at closed
    obtain ⟨count, _, length⟩ := closed
    omega
  · rw [closing_double plain doubled] at closed
    exact Nat.le_of_eq (congrArg (· + 1) (Option.some.inj closed))

theorem scan_literal {before : Option Kind} {quoting : Quoting} {inner behind : List Char}
    (onLine : '\n' ∉ inner) (opens : quoting = .single → before.any Kind.endsValue = false)
    (ends : quoting.mark ∉ behind.head?) : scan before (Quoted.encode quoting inner ++ behind) =
      .token quoting.kind (Quoted.encode quoting inner) :: scan (some quoting.kind) behind := by
  have fits : quoting.kind.Fits before := by
    cases quoting with
    | single => exact opens rfl
    | double => trivial
  have clear : quoting.kind.Clear behind := by cases quoting <;> exact ends
  exact @scan_step _ (.token quoting.kind _) behind (quoting_writes quoting onLine) fits clear

end Token

namespace Expr

variable {Label : Type}

theorem print_str (label : Label) (text : String) (quoting : Quoting) :
    (node label (.str text quoting)).print.toList = Quoted.encode quoting text.toList := by
  rw [print, lexemes_str, String.toList_ofList]
  exact List.append_nil _

/-- Reading an operand at the token of a written text gives the text. -/
theorem primary_literal (nested : Nested) (context : Context) (quoting : Quoting)
    (text : String) {token : Token} (kind : token.kind = quoting.kind)
    (written : token.text = Quoted.encode quoting text.toList) (last : Option Token)
    (ahead : List Token) : (primary nested context).run ⟨last, token :: ahead⟩ =
      .ok (bare (.str text quoting), ⟨some token, ahead⟩) := by
  have same : literal quoting token = bare (.str text quoting) := by
    rw [literal, written, decode_encode, String.ofList_toList]
  obtain ⟨_, _, start, position⟩ := token
  cases kind
  rw [← same]
  cases quoting <;> rfl

end Expr

/-- Where scanning stands in front of a written text, at the start or behind whatever does not let a
quote transpose, and no further mark of its own follows, there is one token for it. The token covers
the written form and nothing else, which is the longest quoted text there, and is read as the
text. -/
theorem Expr.literal_reads_back {Label : Type} {source behind : List Char}
    {front back : List Lexeme} {label : Label} {text : String} {quoting : Quoting}
    (onLine : '\n' ∉ text.toList) (scanned : scan none source = front ++ back)
    (here : Lexeme.concat back = (node label (.str text quoting)).print.toList ++ behind)
    (opens : quoting = .single → (kindAfter none front).any Kind.endsValue = false)
    (ends : quoting.mark ∉ behind.head?) :
    ∃ token tokens, ofSource source = place 0 Position.start front ++ token :: tokens ∧
      token.kind = quoting.kind ∧ token.text = (node label (.str text quoting)).print.toList ∧
      token.start = byteLength (Lexeme.concat front) ∧
      token.position = Position.start.after (Lexeme.concat front) ∧
      tokens = place token.stop (token.position.after token.text) (scan (some token.kind) behind) ∧
      (∀ longer, IsQuoted quoting longer → longer <+: Lexeme.concat back →
        longer.length ≤ token.text.length) ∧
      ∀ (nested : Nested) (context : Context) (last : Option Token) (ahead : List Token),
        (primary nested context).run ⟨last, token :: ahead⟩ =
          .ok (bare (.str text quoting), ⟨some token, ahead⟩) := by
  rw [print_str] at here ⊢
  -- From here on the scan goes over the printed text, which it takes as one token.
  have found : back = .token quoting.kind (Quoted.encode quoting text.toList) ::
      scan (some quoting.kind) behind := by
    rw [scan_behind scanned, here]
    exact scan_literal onLine opens ends
  refine ⟨⟨quoting.kind, Quoted.encode quoting text.toList, byteLength (Lexeme.concat front),
    Position.start.after (Lexeme.concat front)⟩, _, ?_, rfl, rfl, rfl, rfl, rfl, ?_, ?_⟩
  · rw [ofSource, scanned, place_append, Nat.zero_add]
    rw [found]
    rfl
  · rw [here]
    exact fun longer quoted inside => longest_quoted onLine ends quoted inside
  · exact fun nested context last ahead =>
      primary_literal nested context quoting text rfl rfl last ahead

theorem Expr.quotes_at_both_ends_read_back :
    ∃ front back, scan none "disp('''50% \"é\"...''''')% '\n".toList = front ++ back ∧
      front.length = 2 ∧
      Lexeme.concat back = (node () (.str "'50% \"é\"...''" .single)).print.toList ++
        ")% '\n".toList ∧
      ∃ token tokens, ofSource "disp('''50% \"é\"...''''')% '\n".toList = place 0 Position.start
        front ++ token :: tokens ∧
        token.kind = .singleQuoted ∧
        token.text = (node () (.str "'50% \"é\"...''" .single)).print.toList ∧
        token.start = byteLength (Lexeme.concat front) ∧
        token.position = Position.start.after (Lexeme.concat front) ∧
        tokens = place token.stop (token.position.after token.text)
          (scan (some token.kind) ")% '\n".toList) ∧
        (∀ longer, IsQuoted .single longer → longer <+: Lexeme.concat back →
          longer.length ≤ token.text.length) ∧
        ∀ (nested : Nested) (context : Context) (last : Option Token) (ahead : List Token),
          (primary nested context).run ⟨last, token :: ahead⟩ =
            .ok (bare (.str "'50% \"é\"...''" .single), ⟨some token, ahead⟩) := by
  have here : Lexeme.concat ((scan none "disp('''50% \"é\"...''''')% '\n".toList).drop 2) =
      (node () (.str "'50% \"é\"...''" .single)).print.toList ++ ")% '\n".toList := by
    decide +kernel
  exact ⟨_, _, (List.take_append_drop 2 _).symm, by decide +kernel, here,
    literal_reads_back (by decide) (List.take_append_drop 2 _).symm here
      (fun _ => by decide +kernel) (by decide)⟩

end ScriptFlow
