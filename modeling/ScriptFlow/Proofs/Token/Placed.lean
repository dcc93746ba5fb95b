import ScriptFlow.Proofs.Token.Given

/-!
The tokens of a source. Every lexeme ends within the text it is read from; so every token stands in
the source where it says, with a text that its kind is read with.
-/

namespace ScriptFlow

namespace Position

def Counts (here : Position) : Prop := 1 ≤ here.line ∧ 1 ≤ here.column

theorem Counts.after {here : Position} (counts : here.Counts) (text : List Char) :
    (here.after text).Counts := by
  induction text generalizing here with
  | nil => exact counts
  | cons c rest ih =>
      apply ih
      rw [step]
      split
      · exact ⟨Nat.le_succ_of_le counts.1, Nat.le_refl _⟩
      · exact ⟨counts.1, Nat.le_succ_of_le counts.2⟩

end Position

namespace Token

theorem closing_le {mark : Char} {ahead : List Char} {length : Nat}
    (closed : closing? mark ahead = some length) : length ≤ ahead.length := by
  fun_induction closing? mark ahead generalizing length with
  | case1 => cases closed
  | case2 rest ih =>
      obtain ⟨inner, inside, rfl⟩ := Option.map_eq_some_iff.mp closed
      have short := ih inside
      rw [List.length_cons, List.length_cons]
      omega
  | case3 =>
      cases closed
      exact Nat.succ_le_succ (Nat.zero_le _)
  | case4 =>
      cases closed
      exact Nat.le_refl _
  | case5 => cases closed
  | case6 c rest other plain ih =>
      obtain ⟨inner, inside, rfl⟩ := Option.map_eq_some_iff.mp closed
      exact Nat.succ_le_succ (ih inside)

theorem blockEnd_le (ahead : List Char) : blockEnd ahead ≤ ahead.length := by
  fun_induction blockEnd ahead with
  | case1 rest => exact Nat.le_add_left 2 rest.length
  | case2 c rest _ ih =>
      rw [List.length_cons]
      omega
  | case3 => exact Nat.le_refl _

theorem opensBlock_some {ahead : List Char} (opens : opensBlock ahead = true) : ahead ≠ [] := by
  rintro rfl
  cases opens

theorem comment_le (c : Char) (ahead : List Char) : (comment c ahead).2 ≤ ahead.length := by
  rw [comment]
  split
  · next opens =>
      have positive := List.length_pos_iff.mpr (opensBlock_some opens.2)
      have short := blockEnd_le (ahead.drop 1)
      rw [List.length_drop] at short
      change 1 + blockEnd (ahead.drop 1) ≤ ahead.length
      omega
  · exact run_le _ _

theorem quoted_le (kind : Kind) (mark : Char) (ahead : List Char) :
    (quoted kind mark ahead).2 ≤ ahead.length := by
  rw [quoted]
  split
  · next closed => exact closing_le closed
  · exact run_le _ _

theorem either_le (one : Kind) (second : Char) (two : Kind) (ahead : List Char) :
    (either one second two ahead).2 ≤ ahead.length := by
  rw [either]
  split
  · next head => exact List.length_pos_of_mem (List.mem_of_mem_head? head)
  · exact Nat.zero_le _

theorem dotted_le (ahead : List Char) : (dotted ahead).2 ≤ ahead.length := by
  unfold dotted
  split
  · next rest =>
      have line := run_le notNewline rest
      simp only [List.length_take, List.length_drop, List.length_cons]
      omega
  · exact Nat.succ_le_succ (Nat.zero_le _)
  · exact Nat.succ_le_succ (Nat.zero_le _)
  · exact Nat.succ_le_succ (Nat.zero_le _)
  · exact Nat.succ_le_succ (Nat.zero_le _)
  · exact Nat.succ_le_succ (Nat.zero_le _)
  · split
    · exact Nat.zero_le _
    · have digits := run_le Char.isDigit ahead
      have power := exponent_le (ahead.drop (run Char.isDigit ahead))
      rw [List.length_drop] at power
      simp only
      omega

theorem read_le (before : Option Kind) (c : Char) (ahead : List Char) :
    (read before c ahead).2 ≤ ahead.length := by
  unfold read
  split
  · exact run_le _ _
  split
  · exact run_le _ _
  split
  · have digits := run_le Char.isDigit ahead
    have rest := decimals_le (ahead.drop (run Char.isDigit ahead))
    rw [List.length_drop] at rest
    simp only
    omega
  split
  all_goals first
    | exact Nat.zero_le _
    | exact comment_le _ _
    | exact dotted_le _
    | exact quoted_le _ _ _
    | exact either_le _ _ _ _
    | split
      · exact Nat.zero_le _
      · exact quoted_le _ _ _

theorem scan_admits {before : Option Kind} {source : List Char} {kind : Kind} {text : List Char}
    (member : .token kind text ∈ scan before source) : kind.Admits text ∧ text ≠ [] := by
  fun_induction scan before source with
  | case1 => cases member
  | case2 before c ahead sort length ran lexeme ih =>
      rcases List.mem_cons.mp member with same | member
      · have same : .token kind text = Reading.lexeme (c :: ahead.take length) sort := same
        cases sort with
        | inl _ =>
            cases same
            exact ⟨read_admits ran, List.cons_ne_nil _ _⟩
        | inr _ => cases same
      · exact ih member

theorem lexeme_of_place {offset : Nat} {here : Position} {lexemes : List Lexeme} {token : Token}
    (member : token ∈ place offset here lexemes) : .token token.kind token.text ∈ lexemes := by
  induction lexemes generalizing offset here with
  | nil => cases member
  | cons first rest ih =>
      cases first with
      | token kind text =>
          rcases List.mem_cons.mp member with rfl | member
          · exact List.mem_cons_self
          · exact List.mem_cons_of_mem _ (ih member)
      | gap kind text => exact List.mem_cons_of_mem _ (ih member)

variable {source : List Char} {token : Token}

theorem ofSource_admits (source : List Char) : Admitted (ofSource source) :=
  fun _ member => (scan_admits (lexeme_of_place member)).1

end Token
end ScriptFlow
