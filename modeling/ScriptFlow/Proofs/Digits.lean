import Std.Data.String.ToNat

/-!
Numbers at the end of texts. Digits behind a character that is none are the whole number, so a text
that ends in a number tells it.
-/

namespace ScriptFlow

def lastDigits (text : List Char) : List Char := text.reverse.takeWhile Char.isDigit

theorem lastDigits_mark {mark : Char} (plain : mark.isDigit = false) (front : List Char) :
    lastDigits (front ++ [mark]) = [] := by
  rw [lastDigits, List.reverse_append, List.reverse_singleton, List.singleton_append,
    List.takeWhile_cons, plain]
  rfl

theorem lastDigits_number {mark : Char} (plain : mark.isDigit = false)
    (front : List Char) (number : Nat) :
    lastDigits (front ++ mark :: (toString number).toList) = (toString number).toList.reverse := by
  have digits : ∀ char ∈ (toString number).toList.reverse, char.isDigit = true := by
    intro char member
    rw [List.mem_reverse, Nat.toString_eq_repr, Nat.toList_repr] at member
    exact Nat.isDigit_of_mem_toDigits (by decide) (by decide) member
  have none := lastDigits_mark plain front
  rw [lastDigits] at none
  rw [lastDigits, ← List.singleton_append, ← List.append_assoc, List.reverse_append,
    List.takeWhile_append_of_pos digits, none, List.append_nil]

theorem toString_some (number : Nat) : (toString number).toList ≠ [] := by
  rw [Nat.toString_eq_repr, Nat.toList_repr]
  exact Nat.toDigits_ne_nil

theorem number_of_end {front front' : List Char} {mark mark' : Char} {number number' : Nat}
    (plain : mark.isDigit = false) (plain' : mark'.isDigit = false)
    (same : front ++
      mark :: (toString number).toList = front' ++ mark' :: (toString number').toList) :
    number = number' ∧ front ++ [mark] = front' ++ [mark'] := by
  have digits := congrArg lastDigits same
  rw [lastDigits_number plain, lastDigits_number plain', List.reverse_inj,
    String.toList_inj] at digits
  obtain rfl : number = number' := Nat.repr_injective digits
  rw [← List.singleton_append, ← @List.singleton_append _ mark', ← List.append_assoc,
    ← List.append_assoc] at same
  exact ⟨rfl, List.append_cancel_right same⟩

end ScriptFlow
