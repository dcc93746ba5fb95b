/-!
Quoted texts: a text stands between two marks, and a mark inside it is written twice.
-/

namespace ScriptFlow

inductive Quoting where
  | single
  | double
  deriving DecidableEq, Repr

namespace Quoting

def mark : Quoting → Char
  | single => '\''
  | double => '"'

end Quoting

namespace Quoted

def double (mark : Char) : List Char → List Char
  | [] => []
  | c :: rest => if c = mark then mark :: mark :: double mark rest else c :: double mark rest

/-- Replaces each pair of marks, found from left to right, by one mark. -/
def halve (mark : Char) : List Char → List Char
  | c :: d :: rest =>
      if c = mark ∧ d = mark then mark :: halve mark rest else c :: halve mark (d :: rest)
  | rest => rest

def encode (quoting : Quoting) (text : List Char) : List Char :=
  quoting.mark :: (double quoting.mark text ++ [quoting.mark])

def decode (quoting : Quoting) (literal : List Char) : List Char :=
  halve quoting.mark (literal.drop 1).dropLast

end Quoted
end ScriptFlow
