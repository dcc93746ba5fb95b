import ScriptFlow.Dump.Datum

/-!
Data as indented JSON: two blanks for each level, every item on a line of its own, and nothing
between the brackets of an empty list or object. A form without content is its name; a form with
content is an object with one field.
-/

namespace ScriptFlow.Dump.Json

def hexDigit (n : Nat) : Char := if n < 10 then Char.ofNat (48 + n) else Char.ofNat (87 + n)

def escape (c : Char) : List Char :=
  match c with
  | '"' => ['\\', '"']
  | '\\' => ['\\', '\\']
  | '\n' => ['\\', 'n']
  | '\r' => ['\\', 'r']
  | '\t' => ['\\', 't']
  | '\x08' => ['\\', 'b']
  | '\x0c' => ['\\', 'f']
  | c =>
      if c.toNat < 32 then ['\\', 'u', '0', '0', hexDigit (c.toNat / 16), hexDigit (c.toNat % 16)]
      else [c]

def quote (text : String) : String :=
  String.ofList ('"' :: (text.toList.flatMap escape ++ ['"']))

def indentation (depth : Nat) : String := "".pushn ' ' (2 * depth)

/-- The items between brackets, at a depth that is one less than theirs. -/
def bracketed (opening closing : String) (depth : Nat) (items : List String) : String :=
  if items.isEmpty then opening ++ closing
  else
    let lines := items.map fun item => indentation (depth + 1) ++ item
    opening ++ "\n" ++ ",\n".intercalate lines ++ "\n" ++ indentation depth ++ closing

def object (depth : Nat) (fields : List (String × String)) : String :=
  bracketed "\x7b" "\x7d" depth (fields.map fun field => quote field.1 ++ ": " ++ field.2)

mutual
def render (depth : Nat) : Datum → String
  | .number value => toString value
  | .flag value => if value then "true" else "false"
  | .text value => quote value
  | .absent => "null"
  | .present content => render depth content
  | .list items => bracketed "[" "]" depth (renderItems (depth + 1) items)
  | .record fields => object depth (renderFields (depth + 1) fields)
  | .choice name none => quote name
  | .choice name (some content) => object depth [(name, render (depth + 1) content)]

def renderItems (depth : Nat) : List Datum → List String
  | [] => []
  | item :: rest => render depth item :: renderItems depth rest

def renderFields (depth : Nat) : List (String × Datum) → List (String × String)
  | [] => []
  | (name, value) :: rest => (name, render depth value) :: renderFields depth rest
end

end ScriptFlow.Dump.Json
