import ScriptFlow.Expr.Printer
import ScriptFlow.Stmt.Basic
import ScriptFlow.Text.Lines

/-!
Writing statements: one line each, except that the bodies of a compound statement stand indented
between the lines that belong to it.
-/

namespace ScriptFlow

open Token (Kind Lexeme)
open Token.Lexeme

/-- What is written depends on how deep it stands. -/
abbrev Written := Nat → List Lexeme

namespace Written

def indentation : Nat → List Lexeme
  | 0 => []
  | depth + 1 => [.gap .blanks (List.replicate (2 * (depth + 1)) ' ')]

def line (lexemes : List Lexeme) : Written := fun depth => indentation depth ++ lexemes ++ [newline]

def block (parts : List Written) : Written := fun depth => parts.flatMap (· depth)

def deeper (written : Written) : Written := fun depth => written (depth + 1)

def keyword (kind : Kind) : Written := line [mark kind]

def headed (kind : Kind) (lexemes : List Lexeme) : Written := line (mark kind :: blank :: lexemes)

end Written

open Written

namespace Stmt

variable {Label Mark : Type}

def ended (quiet : Bool) : List Lexeme := if quiet then [mark .semicolon] else []

/-- A clause is a line with its expression and, below it and one step deeper, its body. -/
def writtenClause (kind : Kind) (clause : Expr Label × List Written) : Written :=
  block [headed kind clause.1.lexemes, deeper (block clause.2)]

def writtenOtherwise (kind : Kind) : Option (List Written) → Written
  | some body => block [keyword kind, deeper (block body)]
  | none => block []

def writtenBranch : List (Expr Label × List Written) → Written
  | [] => block []
  | first :: rest => block (writtenClause .ifKey first :: rest.map (writtenClause .elseifKey))

def words (names : List String) : List Lexeme := [blank].intercalate (names.map ([word ·]))

def writtenShape : StmtShape (Expr Label) (List Written) → Written
  | .eval expr quiet => line (expr.lexemes ++ ended quiet)
  | .assign target value quiet =>
      line (target.lexemes ++ [blank, mark .gets, blank] ++ value.lexemes ++ ended quiet)
  | .branch clauses otherwise =>
      block [writtenBranch clauses, writtenOtherwise .elseKey otherwise, keyword .endKey]
  | .switch subject cases otherwise =>
      let inner := writtenOtherwise .otherwiseKey otherwise
      block [headed .switchKey subject.lexemes,
        deeper (block (cases.map (writtenClause .caseKey) ++ [inner])), keyword .endKey]
  | .forLoop var range body =>
      block [headed .forKey ([word var, blank, mark .gets, blank] ++ range.lexemes),
        deeper (block body), keyword .endKey]
  | .whileLoop cond body =>
      block [headed .whileKey cond.lexemes, deeper (block body), keyword .endKey]
  | .breakLoop => keyword .breakKey
  | .continueLoop => keyword .continueKey
  | .leave => keyword .returnKey
  | .global names => headed .globalKey (words names)
  | .persistent names => headed .persistentKey (words names)

def written : Stmt Label (Expr Mark) → Written := fold fun _ shape => writtenShape shape

def print (stmt : Stmt Label (Expr Mark)) : List Char :=
  Text.trimEnd (Lexeme.concat (stmt.written 0))

/-- The first line of the statement's text, without blanks around it. -/
def headline (stmt : Stmt Label (Expr Mark)) : List Char :=
  Text.trim (stmt.print.takeWhile Token.notNewline)

end Stmt
end ScriptFlow
