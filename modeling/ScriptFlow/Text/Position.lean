/-!
Places in a text. A place is a line and a column, both counted from one; columns count characters,
while offsets count the bytes of the UTF-8 form.
-/

namespace ScriptFlow

structure Position where
  line : Nat
  column : Nat
  deriving DecidableEq, Repr

namespace Position

def start : Position := ⟨1, 1⟩

/-- The place of a statement that no text holds. -/
def unplaced : Position := ⟨0, 0⟩

def step (here : Position) (c : Char) : Position :=
  if c = '\n' then ⟨here.line + 1, 1⟩ else ⟨here.line, here.column + 1⟩

/-- The place right behind `text`, when `text` begins at `here`. -/
def after (here : Position) (text : List Char) : Position := text.foldl step here

/-- The characters in front of a byte offset; an offset past the end or inside a character has
none. -/
def before? : List Char → Nat → Option (List Char)
  | _, 0 => some []
  | [], _ + 1 => none
  | c :: rest, offset + 1 =>
      if c.utf8Size ≤ offset + 1 then
        (before? rest (offset + 1 - c.utf8Size)).map (c :: ·)
      else none

def ofOffset? (text : List Char) (offset : Nat) : Option Position :=
  (before? text offset).map (after start)

def display (here : Position) : String := s!"[{here.line}, {here.column}]"

@[simp] theorem after_nil (here : Position) : after here [] = here := rfl

@[simp] theorem after_append (here : Position) (front back : List Char) :
    after here (front ++ back) = after (after here front) back := by
  simp [after]

end Position

def byteLength : List Char → Nat
  | [] => 0
  | c :: rest => c.utf8Size + byteLength rest

theorem byteLength_append (front back : List Char) :
    byteLength (front ++ back) = byteLength front + byteLength back := by
  induction front with
  | nil => exact (Nat.zero_add _).symm
  | cons c rest ih => simp only [List.cons_append, byteLength, ih, Nat.add_assoc]

theorem byteLength_pos {text : List Char} (filled : text ≠ []) : 0 < byteLength text := by
  obtain ⟨c, rest, rfl⟩ := List.exists_cons_of_ne_nil filled
  have := c.utf8Size_pos
  rw [byteLength]
  omega

end ScriptFlow
