import ScriptFlow.Proofs.Token.Linewise
import ScriptFlow.Proofs.Token.Order

/-!
Offsets and places. Each offset between two characters has a place, later offsets have later places,
and going down to the line of a place and along it up to the column leads back to the offset.
-/

namespace ScriptFlow

namespace Position

variable {text front back : List Char} {offset : Nat} {here there : Position}

theorem before?_eq_some :
    before? text offset = some front ↔ front <+: text ∧ byteLength front = offset := by
  -- Every character has a byte at least, so no two prefixes have the same length.
  fun_induction before? text offset generalizing front with
  | case1 text =>
      constructor
      · rintro ⟨⟩
        exact ⟨List.nil_prefix, rfl⟩
      · rintro ⟨_, none⟩
        by_contra some
        have := byteLength_pos fun same => some (congrArg Option.some same.symm)
        omega
  | case2 offset =>
      constructor
      · nofun
      · rintro ⟨inside, bytes⟩
        cases List.prefix_nil.mp inside
        cases bytes
  | case3 c rest offset fits ih =>
      rw [Option.map_eq_some_iff]
      constructor
      · rintro ⟨inner, found, rfl⟩
        obtain ⟨inside, bytes⟩ := ih.mp found
        refine ⟨List.cons_prefix_cons.mpr ⟨rfl, inside⟩, ?_⟩
        rw [byteLength, bytes]
        omega
      · rintro ⟨inside, bytes⟩
        rcases List.prefix_cons_iff.mp inside with rfl | ⟨inner, rfl, within⟩
        · cases bytes
        · rw [byteLength] at bytes
          exact ⟨inner, ih.mpr ⟨within, by omega⟩, rfl⟩
  | case4 c rest offset long =>
      constructor
      · nofun
      · rintro ⟨inside, bytes⟩
        rcases List.prefix_cons_iff.mp inside with rfl | ⟨inner, rfl, _⟩
        · cases bytes
        · rw [byteLength] at bytes
          omega

theorem ofOffset?_eq_some : ofOffset? text offset = some here ↔ ∃ front, front <+: text ∧
      byteLength front = offset ∧ start.after front = here := by
  simp only [ofOffset?, Option.map_eq_some_iff, before?_eq_some, and_assoc]

theorem line_induction {P : List Char → Prop} (last : ∀ own, '\n' ∉ own → P own)
    (line : ∀ own below, '\n' ∉ own → P below → P (own ++ '\n' :: below))
    (text : List Char) : P text := by
  -- the induction is on what is left of the text, with what was read of its first line in front
  have first (own rest : List Char) (onLine : '\n' ∉ own) : P (own ++ rest) := by
    induction rest generalizing own with
    | nil =>
        rw [List.append_nil]
        exact last own onLine
    | cons c rest ih =>
        by_cases feed : c = '\n'
        · subst feed
          exact line own rest onLine (ih [] List.not_mem_nil)
        · rw [← List.singleton_append, ← List.append_assoc]
          exact ih (own ++ [c]) (by simp [onLine, Ne.symm feed])
  exact first [] text List.not_mem_nil

theorem after_onLine (here : Position) {own : List Char} (onLine : '\n' ∉ own) :
    here.after own = ⟨here.line, here.column + own.length⟩ := by
  induction own generalizing here with
  | nil => rfl
  | cons c rest ih =>
      rw [List.mem_cons, not_or] at onLine
      have next : here.after (c :: rest) = after ⟨here.line, here.column + 1⟩ rest := by
        simp only [after, List.foldl_cons, step, if_neg (Ne.symm onLine.1)]
      rw [next, ih _ onLine.2, List.length_cons, Nat.add_assoc, Nat.add_comm 1]

theorem start_after_line {own : List Char} (onLine : '\n' ∉ own) (below : List Char) :
    start.after (own ++ '\n' :: below) = (start.after below).lowered 1 := by
  rw [after_append, after_onLine start onLine]
  exact after_lowered 1 start below

theorem prefix_line {own below : List Char} (inside : front <+: own ++ '\n' :: below) :
    front <+: own ∨ ∃ inner, inner <+: below ∧ front = own ++ '\n' :: inner := by
  rcases List.prefix_or_prefix_of_prefix inside (List.prefix_append _ _) with short | ⟨rest, rfl⟩
  · exact .inl short
  · rcases List.prefix_cons_iff.mp ((List.prefix_append_right_inj own).mp inside) with rfl
      | ⟨inner, rfl, within⟩
    · rw [List.append_nil]
      exact .inl List.prefix_rfl
    · exact .inr ⟨inner, within, rfl⟩

/-- Goes down to the line of a place and along it to the column; what is passed stands in front of
the place. -/
def passed? : List (List Char) → Position → Option (List Char)
  | own :: _, ⟨1, column + 1⟩ => if column ≤ own.length then some (own.take column) else none
  | own :: below, ⟨line + 2, column⟩ =>
    (passed? below ⟨line + 1, column⟩).map fun inner => own ++ '\n' :: inner
  | _, _ => none

/-- The offset of a place, when the text has such a line and the line such a column. -/
def offset? (text : List Char) (here : Position) : Option Nat :=
  (passed? (text.splitOn '\n') here).map byteLength

theorem passed?_line {own : List Char} (onLine : '\n' ∉ own) (inside : front <+: own)
    (below : List (List Char)) : passed? (own :: below) (start.after front) = some front := by
  have place : start.after front = ⟨1, front.length + 1⟩ := by
    rw [after_onLine start fun feed => onLine (inside.subset feed), Nat.add_comm front.length]
    rfl
  rw [place, passed?, if_pos inside.length_le, ← List.prefix_iff_eq_take.mp inside]

theorem passed?_after (inside : front <+: text) :
    passed? (text.splitOn '\n') (start.after front) = some front := by
  induction text using line_induction generalizing front with
  | last own onLine =>
      rw [List.splitOn_eq_singleton onLine]
      exact passed?_line onLine inside []
  | line own below onLine ih =>
      rw [List.splitOn_append_cons_self_of_not_mem onLine]
      rcases prefix_line inside with short | ⟨inner, within, rfl⟩
      · exact passed?_line onLine short _
      · have found := ih within
        rw [start_after_line onLine]
        -- below the first line the place has a line above it, which is taken off for the text below
        generalize start.after inner = here at found
        obtain ⟨_ | line, column⟩ := here
        · cases lines : below.splitOn '\n' <;> rw [lines] at found <;> cases found
        · rw [lowered, Nat.add_comm, passed?, found]
          rfl

theorem own_of_passed? {own : List Char} {below : List (List Char)} {column : Nat}
    (onLine : '\n' ∉ own) (found : passed? (own :: below) ⟨1, column⟩ = some front) :
    front <+: own ∧ start.after front = ⟨1, column⟩ := by
  cases column with
  | zero => cases found
  | succ column =>
      rw [passed?] at found
      split at found
      · next reaches =>
          cases found
          have inside := List.take_prefix column own
          rw [after_onLine start fun feed => onLine (inside.subset feed),
            List.length_take_of_le reaches, Nat.add_comm]
          exact ⟨inside, rfl⟩
      · cases found

theorem after_of_passed? (found : passed? (text.splitOn '\n') here = some front) :
    front <+: text ∧ start.after front = here := by
  induction text using line_induction generalizing here front with
  | last own onLine =>
      rw [List.splitOn_eq_singleton onLine] at found
      obtain ⟨_ | _ | line, column⟩ := here
      · cases found
      · exact own_of_passed? onLine found
      · cases found
  | line own below onLine ih =>
      rw [List.splitOn_append_cons_self_of_not_mem onLine] at found
      obtain ⟨_ | _ | line, column⟩ := here
      · cases found
      · obtain ⟨inside, place⟩ := own_of_passed? onLine found
        exact ⟨inside.trans (List.prefix_append _ _), place⟩
      · obtain ⟨inner, within, rfl⟩ := Option.map_eq_some_iff.mp found
        obtain ⟨inside, place⟩ := ih within
        rw [start_after_line onLine, place, lowered, Nat.add_comm]
        exact ⟨(List.prefix_append_right_inj own).mpr (List.cons_prefix_cons.mpr ⟨rfl, inside⟩),
          rfl⟩

theorem offset?_eq_some : offset? text here = some offset ↔ ∃ front, front <+: text ∧
      byteLength front = offset ∧ start.after front = here := by
  rw [offset?, Option.map_eq_some_iff]
  constructor
  · rintro ⟨front, found, bytes⟩
    obtain ⟨inside, place⟩ := after_of_passed? found
    exact ⟨front, inside, bytes, place⟩
  · rintro ⟨front, inside, bytes, rfl⟩
    exact ⟨front, passed?_after inside, bytes⟩

/-- The offsets of the line feeds of a text that begins at an offset. -/
def feeds (offset : Nat) : List Char → List Nat
  | [] => []
  | c :: rest =>
    if c = '\n' then offset :: feeds (offset + 1) rest else feeds (offset + c.utf8Size) rest

/-- Counts the line feeds in front of an offset; the line of the offset begins behind the last of
them. -/
def passFeeds (offset : Nat) : List Nat → Nat → Nat → Nat × Nat
  | [], line, lineStart => (line, lineStart)
  | feed :: rest, line, lineStart =>
      if offset ≤ feed then (line, lineStart) else passFeeds offset rest (line + 1) (feed + 1)

def slice? (text : List Char) (first last : Nat) : Option (List Char) :=
  if first ≤ last then
    (before? text last).bind fun front => (before? text first).map fun earlier =>
      front.drop earlier.length
  else none

def ofFeeds? (text : List Char) (offset : Nat) : Option Position :=
  let (line, lineStart) := passFeeds offset (feeds 0 text) 1 0
  (slice? text lineStart offset).map fun own => ⟨line, own.length + 1⟩

theorem feeds_onLine {own : List Char} (onLine : '\n' ∉ own) (offset : Nat) (behind : List Char) :
    feeds offset (own ++ behind) = feeds (offset + byteLength own) behind := by
  induction own generalizing offset with
  | nil => rfl
  | cons c rest ih =>
      rw [List.mem_cons, not_or] at onLine
      rw [List.cons_append, feeds, if_neg (Ne.symm onLine.1), ih onLine.2,
        byteLength, Nat.add_assoc]

theorem passFeeds_here (offset line lineStart : Nat) (behind : List Char) :
    passFeeds offset (feeds offset behind) line lineStart = (line, lineStart) := by
  have later (offset : Nat) : ∀ feed ∈ feeds offset behind, offset ≤ feed := by
    induction behind generalizing offset with
    | nil => exact fun _ member => absurd member List.not_mem_nil
    | cons c rest ih =>
        intro feed member
        rw [feeds] at member
        split at member
        · rcases List.mem_cons.mp member with rfl | member
          · exact Nat.le_refl _
          · have := ih _ feed member
            omega
        · have := ih _ feed member
          omega
  cases first : feeds offset behind with
  | nil => rfl
  | cons feed rest => exact if_pos (later offset feed (first ▸ List.mem_cons_self))

theorem passFeeds_behind (front back : List Char) (offset line : Nat) :
    ∃ upper own, front = upper ++ own ∧
      passFeeds (offset + byteLength front) (feeds offset (front ++ back)) line offset =
        ((after ⟨line, 1⟩ front).line, offset + byteLength upper) ∧
      (after ⟨line, 1⟩ front).column = own.length + 1 := by
  induction front using line_induction generalizing offset line with
  | last own onLine =>
      refine ⟨[], own, rfl, ?_, ?_⟩
      · rw [feeds_onLine onLine, passFeeds_here, after_onLine _ onLine]
        rfl
      · rw [after_onLine _ onLine, Nat.add_comm]
  | line own below onLine ih =>
      obtain ⟨upper, last, rfl, counted, column⟩ := ih (offset + byteLength own + 1) (line + 1)
      have bytes (text : List Char) : byteLength (own ++ '\n' :: text) = byteLength own + 1 +
          byteLength text := by
        rw [byteLength_append, byteLength, Nat.add_assoc]
        rfl
      have place : after ⟨line, 1⟩ (own ++ '\n' :: (upper ++ last)) =
          after ⟨line + 1, 1⟩ (upper ++ last) := by
        rw [after_append, after_onLine _ onLine]
        rfl
      -- the feed of the first line is in front of the offset, so the count goes on behind it
      refine ⟨own ++ '\n' :: upper, last, by simp, ?_, ?_⟩
      · rw [List.append_assoc, List.cons_append, feeds_onLine onLine, feeds, if_pos rfl, passFeeds,
          if_neg (by rw [bytes]; omega), bytes, bytes, place, ← Nat.add_assoc, ← Nat.add_assoc,
          counted, Nat.add_assoc, Nat.add_assoc, Nat.add_assoc]
      · rw [place, column]

theorem slice?_append (upper own back : List Char) :
    slice? (upper ++ own ++ back) (byteLength upper) (byteLength (upper ++ own)) = some own := by
  have whole : before? (upper ++ own ++ back) (byteLength (upper ++ own)) = some (upper ++ own) :=
    before?_eq_some.mpr ⟨List.prefix_append _ _, rfl⟩
  have above : before? (upper ++ own ++ back) (byteLength upper) = some upper := by
    refine before?_eq_some.mpr ⟨?_, rfl⟩
    rw [List.append_assoc]
    exact List.prefix_append _ _
  have later : byteLength upper ≤ byteLength (upper ++ own) := by
    rw [byteLength_append]
    omega
  rw [slice?, if_pos later, whole, above]
  exact congrArg some List.drop_left

theorem ofFeeds?_eq (text : List Char) (offset : Nat) :
    ofFeeds? text offset = ofOffset? text offset := by
  cases found : before? text offset with
  | none =>
      have none (first : Nat) : slice? text first offset = none := by
        rw [slice?, found]
        split <;> rfl
      rw [ofOffset?, found, ofFeeds?]
      simp only [none]
      rfl
  | some front =>
      obtain ⟨⟨back, rfl⟩, rfl⟩ := before?_eq_some.mp found
      obtain ⟨upper, own, rfl, counted, column⟩ := passFeeds_behind front back 0 1
      rw [Nat.zero_add, Nat.zero_add] at counted
      have place : (⟨(start.after (upper ++ own)).line, own.length + 1⟩ : Position) =
          start.after (upper ++ own) :=
        congrArg (Position.mk _) column.symm
      rw [ofOffset?, found, ofFeeds?, counted]
      simp only [slice?_append, Option.map_some]
      exact congrArg some place

/-- How the offsets of a text and the places in it belong together. -/
structure Correspond (text : List Char) : Prop where
  /-- Counting line feeds and going on character by character lead to the same place. -/
  counted : ∀ offset, ofFeeds? text offset = ofOffset? text offset
  placed : ∀ offset, (∃ here, ofOffset? text offset = some here) ↔ ∃ front, front <+: text ∧
      byteLength front = offset
  ordered : ∀ offset offset' here there, ofOffset? text offset = some here →
      ofOffset? text offset' = some there → (offset < offset' ↔ here.Before there)
  inverse : ∀ offset here, ofOffset? text offset = some here ↔ offset? text here = some offset

theorem not_before_back (here : Position) (more : List Char) : ¬ (here.after more).Before here := by
  intro before
  by_cases none : more = []
  · subst none
    exact not_before_self here before
  · exact not_before_self here ((before_after here none).trans before)

theorem before_iff {longer : List Char} (inside : front <+: text) (inside' : longer <+: text) :
    byteLength front < byteLength longer ↔ (start.after front).Before (start.after longer) := by
  rcases List.prefix_or_prefix_of_prefix inside inside' with ⟨more, rfl⟩ | ⟨more, rfl⟩
  · rw [byteLength_append, after_append]
    by_cases none : more = []
    · subst none
      exact ⟨fun less => absurd less (Nat.lt_irrefl _),
        fun before => absurd before (not_before_self _)⟩
    · exact ⟨fun _ => before_after _ none, fun _ => Nat.lt_add_of_pos_right (byteLength_pos none)⟩
  · rw [byteLength_append, after_append]
    exact ⟨fun less => absurd less (Nat.not_lt.mpr (Nat.le_add_right _ _)),
      fun before => absurd before (not_before_back _ _)⟩

/-- In every text the offsets between characters and the places correspond one to one, in the same
order. -/
theorem offsets_correspond (text : List Char) : Correspond text where
  counted := ofFeeds?_eq text
  placed offset := by
    constructor
    · rintro ⟨here, found⟩
      obtain ⟨front, inside, bytes, _⟩ := ofOffset?_eq_some.mp found
      exact ⟨front, inside, bytes⟩
    · rintro ⟨front, inside, bytes⟩
      exact ⟨_, ofOffset?_eq_some.mpr ⟨front, inside, bytes, rfl⟩⟩
  ordered offset offset' here there found found' := by
    obtain ⟨front, inside, rfl, rfl⟩ := ofOffset?_eq_some.mp found
    obtain ⟨longer, inside', rfl, rfl⟩ := ofOffset?_eq_some.mp found'
    exact before_iff inside inside'
  inverse offset here := by rw [ofOffset?_eq_some, offset?_eq_some]

/-- On a line feed, right behind it and at the end, where a character takes two bytes. -/
example : [0, 1, 2, 3, 4, 5].map (ofOffset? "é\n\nx".toList) =
    [some ⟨1, 1⟩, none, some ⟨1, 2⟩, some ⟨2, 1⟩, some ⟨3, 1⟩, some ⟨3, 2⟩] := by decide +kernel

end Position
end ScriptFlow
