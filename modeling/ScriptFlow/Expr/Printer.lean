import ScriptFlow.Expr.Basic
import ScriptFlow.Token.Lexeme

/-!
Writing expressions. The written form is a list of lexemes; elements and arguments always have
commas between them, so no reading depends on blanks. An operand gets parentheses exactly when it
binds looser than its place asks for.
-/

namespace ScriptFlow

open Token (Kind Lexeme)

namespace Token.Lexeme

/-- A token that is written in one way only. -/
def mark (kind : Kind) : Lexeme := token kind kind.spelling.toList

def word (name : String) : Lexeme := token .word name.toList

def blank : Lexeme := gap .blanks [' ']

def newline : Lexeme := token .newline ['\n']

def separated (kind : Kind) (parts : List (List Lexeme)) : List Lexeme :=
  [mark kind, blank].intercalate parts

end Token.Lexeme

open Token.Lexeme

/-- A written expression and the level of the operator at its root. -/
structure Phrase where
  level : Nat
  lexemes : List Lexeme

namespace Phrase

def atom (lexemes : List Lexeme) : Phrase := ⟨Level.atom, lexemes⟩

/-- The phrase as an operand of a place that asks for `level`. -/
def operand (level : Nat) (phrase : Phrase) : List Lexeme :=
  if phrase.level < level then mark .openParen :: (phrase.lexemes ++ [mark .closeParen])
  else phrase.lexemes

def list (phrases : List Phrase) : List Lexeme := separated .comma (phrases.map lexemes)

def rows (phrases : List (List Phrase)) : List Lexeme := separated .semicolon (phrases.map list)

def quoted (text : String) (quoting : Quoting) : Lexeme :=
  let kind := match quoting with
    | .single => Kind.singleQuoted
    | .double => Kind.doubleQuoted
  .token kind (Quoted.encode quoting text.toList)

def ofShape : ExprShape Phrase → Phrase
  | .num text => atom [.token .number text.toList]
  | .str text quoting => atom [quoted text quoting]
  | .name name => atom [word name]
  | .colon => atom [mark .colon]
  | .last => atom [mark .endKey]
  | .param head args =>
      atom (head.operand Level.atom ++ [mark .openParen] ++ list args ++ [mark .closeParen])
  | .cellIndex head args =>
      atom (head.operand Level.atom ++ [mark .openBrace] ++ list args ++ [mark .closeBrace])
  | .field base name => atom (base.operand Level.atom ++ [mark .dot, word name])
  | .matrix elements => atom ([mark .openBracket] ++ rows elements ++ [mark .closeBracket])
  | .cell elements => atom ([mark .openBrace] ++ rows elements ++ [mark .closeBrace])
  | .unary op operand => ⟨Level.unary, mark op.kind :: operand.operand Level.unary⟩
  | .transpose op operand => atom (operand.operand Level.atom ++ [mark op.kind])
  | .binary left op right =>
      -- Chains group from the left, so only the right operand must bind tighter.
      ⟨op.level, left.operand op.level ++ [blank, mark op.kind, blank] ++
        right.operand (op.level + 1)⟩
  | .range start step stop =>
      let bound := operand (Level.range + 1)
      let middle := match step with
        | some step => mark .colon :: bound step
        | none => []
      ⟨Level.range, bound start ++ middle ++ mark .colon :: bound stop⟩

end Phrase

namespace Expr

variable {Label : Type}

def phrase : Expr Label → Phrase := fold fun _ shape => Phrase.ofShape shape

def lexemes (expr : Expr Label) : List Lexeme := expr.phrase.lexemes

def print (expr : Expr Label) : String := String.ofList (Lexeme.concat expr.lexemes)

end Expr
end ScriptFlow
