import ScriptFlow.Text.Lines
import ScriptFlow.Token.Basic

/-!
Why a text is no source file. A failure names the token at which reading gave up, or none at the
end of the input; an error adds what its message shows of the source.
-/

namespace ScriptFlow

open Token (Kind)

/-- What was missing. The kind that stood in its place is part of the reason where the message tells
it; `exhausted` is for a recursion that ran out of its allowance, which no source brings about. -/
inductive Reason where
  | invalidLexeme
  | token (kind : Kind)
  | anyOf (kinds : List Kind)
  | statement
  | variableName
  | endOfStatement (found : Option Kind)
  | parameterName (found : Option Kind)
  | expression (found : Option Kind)
  | exhausted
  deriving DecidableEq, Repr

namespace Reason

def showFound : Option Kind → String
  | some kind => s!"Some({kind.label})"
  | none => "None"

def message : Reason → String
  | invalidLexeme => "invalid lexeme"
  | token kind => "expected \x60" ++ kind.spelling ++ "\x60"
  | anyOf kinds => "expected one of [" ++ ", ".intercalate (kinds.map Kind.label) ++ "]"
  | statement => "expected a statement"
  | variableName => "expected a variable name"
  | endOfStatement found => "expected end of statement, got " ++ showFound found
  | parameterName found => "expected parameter name, got " ++ showFound found
  | expression found => "expected an expression, got " ++ showFound found
  | exhausted => "nested too deeply"

end Reason

structure Failure where
  place : Option Token
  reason : Reason
  deriving DecidableEq, Repr

inductive ParseError where
  | at (position : Position) (line : String) (reason : Reason)
  | atEnd (reason : Reason)
  deriving DecidableEq, Repr

namespace ParseError

def lineAt (source : List Char) (position : Position) : List Char :=
  ((Text.lines source)[position.line - 1]?).getD []

def ofFailure (source : List Char) (failure : Failure) : ParseError :=
  match failure.place with
  | some token => .at token.position (String.ofList (lineAt source token.position)) failure.reason
  | none => .atEnd failure.reason

/-- The message shows the line and, below it, a mark under the column. -/
def message : ParseError → String
  | .at position line reason =>
      s!"parse error in line {position.line}, column {position.column}\n{line}\n" ++
        "".pushn ' ' (position.column - 1) ++ "^\n" ++ reason.message ++ "\n"
  | atEnd reason => "parse error: unexpected end of input (" ++ reason.message ++ ")\n"

end ParseError
end ScriptFlow
