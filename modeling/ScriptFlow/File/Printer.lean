import ScriptFlow.File.Basic
import ScriptFlow.Stmt.Printer

/-!
Writing source files: the statements of a file or function come before the functions in it, and
every function is closed by `end`.
-/

namespace ScriptFlow

open Token (Kind Lexeme)
open Token.Lexeme Written

namespace Header

/-- A parameter that is not used is written as a mark. -/
def parameter (name : String) : Lexeme := if name = "~" then mark .tilde else word name

def written (header : Header) : Written :=
  let outputs := match header.outputs with
    | [] => []
    | [output] => [word output, blank, mark .gets, blank]
    | outputs => mark .openBracket :: separated .comma (outputs.map ([word ·])) ++
        [mark .closeBracket, blank, mark .gets, blank]
  let inputs := separated .comma (header.inputs.map ([parameter ·]))
  headed .functionKey
    (outputs ++ [word header.name, mark .openParen] ++ inputs ++ [mark .closeParen])

end Header

section
variable {Label Mark : Type}

def writtenStatements (items : List (Item Label (Expr Mark))) : Written :=
  block ((items.filterMap Item.statement?).map Stmt.written)

mutual
def Function.written : Function Label (Expr Mark) → Written
  | .mk header items =>
      block [header.written, deeper (block [writtenStatements items, writtenFunctions items]),
        keyword .endKey]

def writtenFunctions : List (Item Label (Expr Mark)) → Written
  | [] => block []
  | .stmt _ :: rest => writtenFunctions rest
  | .function inner :: rest => block [inner.written, writtenFunctions rest]
end

def File.written (file : File Label (Expr Mark)) : Written :=
  block [writtenStatements file.items, writtenFunctions file.items]

def File.print (file : File Label (Expr Mark)) : List Char := Lexeme.concat (file.written 0)

end
end ScriptFlow
