import ScriptFlow.File.Parser

/-!
What is open between two tokens. Walking over tokens keeps the brackets that are open and, outside
of them, what an `end` would close; in an orderly walk every bracket that closes and every such
`end` finds what it closes, and then what is left open makes up the surplus of openers.
-/

namespace ScriptFlow

open Token (Kind)

namespace Token.Kind

def opensBracket : Kind → Bool
  | openParen | openBracket | openBrace => true
  | _ => false

def closesBracket : Kind → Bool
  | closeParen | closeBracket | closeBrace => true
  | _ => false

def asks (kind : Kind) : Bool := kind.closesBracket || kind == endKey || kind == quote

def isSign (kind : Kind) : Bool := kind == plus || kind == dash

/-- Whether the kind opens and closes nothing, may stand anywhere, never stands for another one and
is no sign. -/
def isSimple (kind : Kind) : Bool :=
  !(kind.asks || kind.opensBracket || File.opens kind || kind == comma || kind.isSign)

theorem sign_simple {kind : Kind} (simple : kind.isSimple = true) : kind.isSign = false := by
  cases kind <;> first | rfl | cases simple

theorem sign_bracket {kind : Kind} (bracket : (kind.opensBracket || kind.closesBracket) = true) :
    kind.isSign = false := by
  cases kind <;> first | rfl | cases bracket

theorem sign_separator {kind : Kind} (separates : kind.separates = true) : kind.isSign = false := by
  cases kind <;> first | rfl | cases separates

end Token.Kind

/-- The brackets that are open, and what an `end` outside of brackets would close. The innermost
comes first. -/
structure Nest where
  brackets : List Kind
  openers : List Kind
  deriving DecidableEq, Repr

namespace Nest

def empty : Nest := ⟨[], []⟩

def after (nest : Nest) (kind : Kind) : Nest :=
  if kind.opensBracket then ⟨kind :: nest.brackets, nest.openers⟩
  else if kind.closesBracket then ⟨nest.brackets.tail, nest.openers⟩
  else if nest.brackets ≠ [] then nest
  else if File.opens kind then ⟨[], kind :: nest.openers⟩
  else if kind = .endKey then ⟨[], nest.openers.tail⟩
  else nest

def walk (nest : Nest) (kinds : List Kind) : Nest := kinds.foldl after nest

def inLiteral (nest : Nest) : Bool := nest.brackets.any (· != .openParen)

def endsFunction (nest : Nest) : Bool :=
  nest.brackets.isEmpty && nest.openers.head? == some .functionKey

/-- What a token asks of what is open in front of it, and a quote of the token there. -/
structure Allows (nest : Nest) (before : Option Kind) (kind : Kind) : Prop where
  bracket : kind.closesBracket = true → nest.brackets ≠ []
  closes : kind = .endKey → nest.brackets = [] → nest.openers ≠ []
  quote : kind = .quote → nest.brackets = [] → before ≠ some .endKey

/-- Every token in turn is allowed where it stands. -/
def Orderly (nest : Nest) (before : Option Kind) : List Kind → Prop
  | [] => True
  | kind :: rest => nest.Allows before kind ∧ (nest.after kind).Orderly (some kind) rest

variable {nest : Nest} {before : Option Kind} {kind : Kind} {openers : List Kind}

theorem walk_cons (nest : Nest) (kind : Kind) (rest : List Kind) :
    nest.walk (kind :: rest) = (nest.after kind).walk rest := rfl

theorem Allows.plain (plain : kind.asks = false) : nest.Allows before kind := by
  simp only [Kind.asks, Bool.or_eq_false_iff, beq_eq_false_iff_ne] at plain
  constructor
  · exact fun closes => absurd (closes.symm.trans plain.1.1) (by decide)
  · exact fun same => absurd same plain.1.2
  · exact fun same => absurd same plain.2

theorem Allows.inside (inside : nest.brackets ≠ []) : nest.Allows before kind :=
  ⟨fun _ => inside, fun _ none => absurd none inside, fun _ none => absurd none inside⟩

theorem Allows.closer (some : nest.openers ≠ []) : nest.Allows before .endKey :=
  ⟨fun closes => absurd closes (by decide), fun _ _ => some, fun same => absurd same (by decide)⟩

theorem endsFunction_iff :
    nest.endsFunction = true ↔ nest.brackets = [] ∧ nest.openers.head? = some .functionKey := by
  rw [endsFunction, Bool.and_eq_true, List.isEmpty_iff, beq_iff_eq]

theorem endsFunction_inside (inside : nest.brackets ≠ []) : nest.endsFunction = false :=
  Bool.eq_false_iff.mpr fun ends => inside (endsFunction_iff.mp ends).1

theorem brackets_of_inLiteral (literal : nest.inLiteral = true) : nest.brackets ≠ [] := by
  intro none
  rw [inLiteral, none] at literal
  cases literal

theorem after_bracket (opens : kind.opensBracket = true) :
    nest.after kind = ⟨kind :: nest.brackets, nest.openers⟩ := if_pos opens

theorem after_close {opener : Kind} (opens : opener.opensBracket = true)
    (closes : kind.closesBracket = true) : (nest.after opener).after kind = nest := by
  rw [after_bracket opens, after, if_neg (by cases kind <;> first | decide | cases closes),
    if_pos closes]
  rfl

theorem after_still (still : (kind.opensBracket || kind.closesBracket || File.opens kind || kind ==
      .endKey) = false) : nest.after kind = nest := by
  simp only [Bool.or_eq_false_iff, beq_eq_false_iff_ne] at still
  rw [after, still.1.1.1, still.1.1.2, still.1.2]
  simp [still.2]

theorem after_simple (simple : kind.isSimple = true) : nest.after kind = nest :=
  after_still (by cases kind <;> first | rfl | cases simple)

theorem Allows.simple (simple : kind.isSimple = true) : nest.Allows before kind :=
  .plain (by cases kind <;> first | rfl | cases simple)

theorem after_sign (sign : kind.isSign = true) : nest.after kind = nest :=
  after_still (by cases kind <;> first | rfl | cases sign)

theorem Allows.sign (sign : kind.isSign = true) : nest.Allows before kind :=
  .plain (by cases kind <;> first | rfl | cases sign)

theorem after_separator (separates : kind.separates = true) : nest.after kind = nest :=
  after_still (by cases kind <;> first | rfl | cases separates)

theorem Allows.separator (separates : kind.separates = true) : nest.Allows before kind :=
  .plain (by cases kind <;> first | rfl | cases separates)

theorem after_inside (inside : nest.brackets ≠ [])
    (plain : (kind.opensBracket || kind.closesBracket) = false) : nest.after kind = nest := by
  rw [Bool.or_eq_false_iff] at plain
  rw [after, plain.1, plain.2, if_pos inside]
  rfl

theorem after_opener (opens : File.opens kind = true) :
    (Nest.mk [] openers).after kind = ⟨[], kind :: openers⟩ := by
  cases kind <;> first | rfl | cases opens

theorem after_end (opener : Kind) :
    (Nest.mk [] (opener :: openers)).after .endKey = ⟨[], openers⟩ := rfl

theorem after_ends (ends : nest.endsFunction = true) : (nest.after .endKey).brackets = [] := by
  obtain ⟨brackets, openers⟩ := nest
  cases (endsFunction_iff.mp ends).1
  rfl

theorem depth_after (allows : nest.Allows before kind) :
    File.depthAfter nest.brackets.length kind = (nest.after kind).brackets.length := by
  by_cases opens : kind.opensBracket = true
  · rw [after_bracket opens]
    cases kind <;> first | rfl | cases opens
  · by_cases closes : kind.closesBracket = true
    · obtain ⟨opener, brackets, same⟩ := List.exists_cons_of_ne_nil (allows.bracket closes)
      rw [after, if_neg opens, if_pos closes, same, List.length_cons,
        List.tail_cons, Int.natCast_succ]
      cases kind <;> first | exact Int.add_sub_cancel _ _ | cases closes
    · have still : (nest.after kind).brackets = nest.brackets := by
        rw [after, if_neg opens, if_neg closes]
        split
        · rfl
        · next none =>
            have none : nest.brackets = [] := Decidable.not_not.mp none
            split
            · exact none.symm
            · split
              · exact none.symm
              · rfl
      rw [still]
      cases kind <;> first | rfl | exact absurd rfl opens | exact absurd rfl closes

theorem openers_after (allows : nest.Allows before kind) :
    ((nest.after kind).openers.length : Int) = nest.openers.length +
      if (nest.brackets.length : Int) ≠ 0 then 0 else if File.opens kind then 1 else if kind =
      .endKey then -1 else 0 := by
  -- Inside of brackets nothing opens or ends a body.
  by_cases inside : nest.brackets = []
  · obtain ⟨brackets, openers⟩ := nest
    cases inside
    rw [if_neg (by simp)]
    by_cases opens : File.opens kind = true
    · rw [after_opener opens, if_pos opens, List.length_cons, Int.natCast_succ]
    · rw [if_neg opens]
      by_cases ends : kind = .endKey
      · obtain ⟨opener, rest, same⟩ := List.exists_cons_of_ne_nil (allows.closes ends rfl)
        subst ends
        cases same
        rw [after_end, if_pos rfl, List.length_cons, Int.natCast_succ]
        exact (Int.add_neg_cancel_right _ 1).symm
      · rw [if_neg ends, Int.add_zero]
        cases kind <;> first | rfl | exact absurd rfl opens | exact absurd rfl ends
  · have some := List.length_pos_iff.mpr inside
    rw [if_pos (by omega), Int.add_zero, after, if_pos inside]
    split
    · rfl
    · split <;> rfl

/-- In an orderly walk the surplus of openers is what the walk leaves open. -/
theorem surplus_walk {kinds : List Kind} (orderly : nest.Orderly before kinds) :
    nest.openers.length + File.surplus nest.brackets.length kinds =
      (nest.walk kinds).openers.length := by
  induction kinds generalizing nest before with
  | nil => exact Int.add_zero _
  | cons kind rest ih =>
      have more := ih orderly.2
      rw [openers_after orderly.1, ← depth_after orderly.1] at more
      rw [walk_cons, ← more, File.surplus, Int.add_assoc]

end Nest
end ScriptFlow
