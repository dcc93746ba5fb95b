import ScriptFlow.File.Basic
import ScriptFlow.Stmt.Parser

/-!
Reading source files. In a file either all functions are closed by `end` or none is; which of the
two it is shows in whether the `end`s outside of brackets are as many as what they could close.
Where no function is closed, the next function ends the one before, and none is nested.
-/

namespace ScriptFlow

open TokenReader Token

namespace Function

def name : TokenReader String := return (← expect .word).name

/-- The names in front of the function's own, and its own: `[a, b] = f`, `a = f` or `f`. -/
def outputsAndName : TokenReader (List String × String) := do
  if ← eat .openBracket then
    let outputs ← collect do
      if ← eat .closeBracket then return none
      let output ← name
      -- Commas between the outputs may be missing.
      let _ ← eat .comma
      return some output
    let _ ← expect .gets
    return (outputs, ← name)
  let first ← name
  if ← eat .gets then return ([first], ← name)
  return ([], first)

/-- A parameter is a name, or `~` where the argument is not used. -/
def input : TokenReader String := do
  match ← take with
  | none => failLast (.parameterName none)
  | some token =>
      match token.kind with
      | .word => return token.name
      | .tilde => return "~"
      | kind => failLast (.parameterName (some kind))

def inputs : TokenReader (List String) := do
  if ← eat .openParen then
    collect do
      if ← eat .closeParen then return none
      let parameter ← input
      unless ← nextIs .closeParen do
        let _ ← expect .comma
      return some parameter
  else return []

def item (closed : Bool) (nested : TokenReader ParsedFunction) :
    TokenReader (Option ParsedItem) := do
  separators
  match ← peek with
  | none => return none
  | some .endKey =>
      if closed then
        let _ ← take
        return none
      return some (.stmt (← Stmt.reader))
  | some .functionKey =>
      -- Where no function is closed, this one ends the items and stays for the file.
      if closed then return some (.function (← nested))
      return none
  | some _ => return some (.stmt (← Stmt.reader))

def readerWithin (closed : Bool) : Nat → TokenReader ParsedFunction
  | 0 => failNext .exhausted
  | allowance + 1 => do
      let first ← expect .functionKey
      let (outputs, name) ← outputsAndName
      let inputs ← inputs
      return .mk ⟨name, inputs, outputs, first.position⟩
        (← collect (item closed (readerWithin closed allowance)))

def reader (closed : Bool) : TokenReader ParsedFunction := do
  readerWithin closed ((← get).ahead.length + 1)

end Function

namespace File

def item (closed : Bool) : TokenReader (Option ParsedItem) := do
  separators
  match ← peek with
  | none => return none
  | some .functionKey => return some (.function (← Function.reader closed))
  | some _ => return some (.stmt (← Stmt.reader))

def reader (closed : Bool) : TokenReader ParsedFile := return ⟨← collect (item closed)⟩

/-- How many brackets are open behind a token when `depth` were open in front of it. -/
def depthAfter (depth : Int) : Kind → Int
  | .openParen | .openBracket | .openBrace => depth + 1
  | .closeParen | .closeBracket | .closeBrace => depth - 1
  | _ => depth

def opens : Kind → Bool
  | .ifKey | .forKey | .whileKey | .switchKey | .functionKey => true
  | _ => false

/-- By how much the openers outside of brackets outnumber the `end`s there. -/
def surplus (depth : Int) : List Kind → Int
  | [] => 0
  | kind :: rest =>
      -- Within brackets the keyword is a position in an index.
      let here : Int :=
        if depth ≠ 0 then 0 else if opens kind then 1 else if kind = .endKey then -1 else 0
      here + surplus (depthAfter depth kind) rest

/-- Whether the `end`s suffice to close functions too. -/
def closesFunctions (tokens : List Token) : Bool := surplus 0 (tokens.map Token.kind) == 0

def ofTokens (tokens : List Token) : Except Failure ParsedFile :=
  match tokens.find? fun token => token.kind = .invalid with
  | some token => throw ⟨some token, .invalidLexeme⟩
  | none => (reader (closesFunctions tokens)).run' (Cursor.ofTokens tokens)

def parse (source : List Char) : Except ParseError ParsedFile :=
  (ofTokens (Token.ofSource source)).mapError (ParseError.ofFailure source)

end File
end ScriptFlow
