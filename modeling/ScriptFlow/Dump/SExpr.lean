import ScriptFlow.Dump.Datum

/-!
Data as S-expressions. A record is a list of pairs of a field and its value, a form with content is
the pair of its name and the content, and what may be absent is a list of at most one item. A pair
whose second half is a list is written as that list with one item more in front.
-/

namespace ScriptFlow.Dump

inductive SExpr where
  | atom (text : String)
  | null
  | pair (first second : SExpr)

namespace SExpr

def hexDigit (n : Nat) : Char := if n < 10 then Char.ofNat (48 + n) else Char.ofNat (55 + n)

def escape (c : Char) : List Char :=
  match c.toNat with
  | 7 => ['\\', 'a']
  | 8 => ['\\', 'b']
  | 9 => ['\\', 't']
  | 10 => ['\\', 'n']
  | 13 => ['\\', 'r']
  | 34 => ['\\', '"']
  | 92 => ['\\', '\\']
  | code => if code < 32 ∨ code = 127 then
      ['\\', 'x', hexDigit (code / 16), hexDigit (code % 16), ';']
    else [c]

def quote (text : String) : String :=
  String.ofList ('"' :: (text.toList.flatMap escape ++ ['"']))

mutual
def ofDatum : Datum → SExpr
  | .number value => atom (toString value)
  | .flag value => atom (if value then "#t" else "#f")
  | .text value => atom (quote value)
  | .absent => null
  | .present content => pair (ofDatum content) null
  | .list items => ofItems items
  | .record fields => ofFields fields
  | .choice name none => atom name
  | .choice name (some content) => pair (atom name) (ofDatum content)

def ofItems : List Datum → SExpr
  | [] => null
  | item :: rest => pair (ofDatum item) (ofItems rest)

def ofFields : List (String × Datum) → SExpr
  | [] => null
  | (name, value) :: rest => pair (pair (atom name) (ofDatum value)) (ofFields rest)
end

mutual
def render : SExpr → String
  | atom text => text
  | null => "()"
  | pair first second => "(" ++ render first ++ renderTail second ++ ")"

/-- What follows the first half of a pair. -/
def renderTail : SExpr → String
  | null => ""
  | atom text => " . " ++ text
  | pair first second => " " ++ render first ++ renderTail second
end

end SExpr
end ScriptFlow.Dump
