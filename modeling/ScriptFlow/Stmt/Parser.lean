import ScriptFlow.Stmt.Basic
import ScriptFlow.Expr.Parser

/-!
Reading statements. A body runs to the first of its closing keywords, which it leaves to the
statement that it belongs to; separators may stand between statements in any number.
-/

namespace ScriptFlow.Stmt

open TokenReader Token

abbrev ParsedShape := StmtShape ParsedExpr (List ParsedStmt)

def body (nested : TokenReader ParsedStmt) (closers : List Kind) : TokenReader (List ParsedStmt) :=
  collect do
    separators
    match ← peek with
    | none => failNext (.anyOf closers)
    | some kind =>
        if closers.contains kind then return none
        return some (← nested)

def clause (nested : TokenReader ParsedStmt) (closers : List Kind) :
    TokenReader (ParsedExpr × List ParsedStmt) :=
  return (← Expr.reader, ← body nested closers)

/-- A clause with the keyword that opens it, if that is what comes next. -/
def clauseAfter (opener : Kind) (nested : TokenReader ParsedStmt) (closers : List Kind) :
    TokenReader (Option (ParsedExpr × List ParsedStmt)) := do
  if ← eat opener then return some (← clause nested closers)
  return none

/-- The body that runs when no clause does, up to the end of the statement. -/
def otherwise (opener : Kind) (nested : TokenReader ParsedStmt) :
    TokenReader (Option (List ParsedStmt)) := do
  let last ← if ← eat opener then some <$> body nested [.endKey] else pure none
  let _ ← expect .endKey
  return last

def branch (nested : TokenReader ParsedStmt) : TokenReader ParsedShape := do
  let closers := [Kind.elseifKey, .elseKey, .endKey]
  let _ ← expect .ifKey
  let first ← clause nested closers
  let rest ← collect (clauseAfter .elseifKey nested closers)
  return .branch (first :: rest) (← otherwise .elseKey nested)

def switch (nested : TokenReader ParsedStmt) : TokenReader ParsedShape := do
  let closers := [Kind.caseKey, .otherwiseKey, .endKey]
  let _ ← expect .switchKey
  let subject ← Expr.reader
  separators
  let cases ← collect (clauseAfter .caseKey nested closers)
  return .switch subject cases (← otherwise .otherwiseKey nested)

def loopBody (nested : TokenReader ParsedStmt) : TokenReader (List ParsedStmt) := do
  let inner ← body nested [.endKey]
  let _ ← expect .endKey
  return inner

def forLoop (nested : TokenReader ParsedStmt) : TokenReader ParsedShape := do
  let _ ← expect .forKey
  let var ← expect .word
  let _ ← expect .gets
  let range ← Expr.reader
  return .forLoop var.name range (← loopBody nested)

def whileLoop (nested : TokenReader ParsedStmt) : TokenReader ParsedShape := do
  let _ ← expect .whileKey
  let cond ← Expr.reader
  return .whileLoop cond (← loopBody nested)

/-- The names behind `global` or `persistent`; there is at least one. -/
def declared : TokenReader (List String) := do
  let _ ← take
  let names ← collect do
    if ← nextIs .word then return (← take).map Token.name
    return none
  if names.isEmpty then failNext .variableName
  return names

/-- The end of a statement without a body; a semicolon makes it quiet. A keyword that closes a body
ends the statement as well and stays. -/
def terminator : TokenReader Bool := do
  match ← peek with
  | some .semicolon => do
      let _ ← take
      return true
  | some .comma | some .newline => do
      let _ ← take
      return false
  | none | some .endKey | some .elseKey | some .elseifKey | some .caseKey | some .otherwiseKey =>
      return false
  | found => failNext (.endOfStatement found)

def evalOrAssign : TokenReader ParsedShape := do
  let first ← Expr.reader
  if ← eat .gets then
    let value ← Expr.reader
    return .assign first value (← terminator)
  else return .eval first (← terminator)

def keyword (shape : ParsedShape) : TokenReader ParsedShape := do
  let _ ← take
  return shape

def shapeReader (nested : TokenReader ParsedStmt) : Kind → TokenReader ParsedShape
  | .ifKey => branch nested
  | .switchKey => switch nested
  | .forKey => forLoop nested
  | .whileKey => whileLoop nested
  | .breakKey => keyword .breakLoop
  | .continueKey => keyword .continueLoop
  | .returnKey => keyword .leave
  | .globalKey => return .global (← declared)
  | .persistentKey => return .persistent (← declared)
  | _ => evalOrAssign

def readerWithin : Nat → TokenReader ParsedStmt
  | 0 => failNext .exhausted
  | allowance + 1 => do
      match (← get).ahead with
      | [] => failNext .statement
      | first :: _ =>
        return .node first.position (← shapeReader (readerWithin allowance) first.kind)

/-- Reads a statement, labelled with the place of its first token. -/
def reader : TokenReader ParsedStmt := do readerWithin ((← get).ahead.length + 1)

end ScriptFlow.Stmt
