import ScriptFlow.Expr.Basic
import ScriptFlow.Token.Cursor

/-!
Reading expressions. Every level of binary operators is one chain over the next tighter level, and
parentheses, literals and arguments start again at the loosest. Readers take the reader of what is
nested in them as an argument; the recursion itself is in one place, where each round has taken a
token.
-/

namespace ScriptFlow.Expr

open TokenReader Token

/-- What encloses an expression: blanks separate the elements of a literal, and `end` is a value
inside an index. -/
structure Context where
  inLiteral : Bool
  inIndex : Bool
  deriving DecidableEq, Repr

abbrev Nested := Context → TokenReader ParsedExpr

def bare (shape : ExprShape ParsedExpr) : ParsedExpr := .node () shape

/-- In `[a -1]` the sign starts a new element: it is apart from what is in front of it, but not
from what follows. -/
def startsElement (context : Context) (cursor : Cursor) : Bool :=
  context.inLiteral && cursor.apartBefore && !cursor.apartAfter

def operatorAt (context : Context) (level : Nat) (cursor : Cursor) : Option BinaryOp :=
  match cursor.next?.bind BinaryOp.ofKind? with
  | some op =>
      if op.level = level ∧ ¬(level = Level.sum ∧ startsElement context cursor) then some op
      else none
  | none => none

def signAt (cursor : Cursor) : Option UnaryOp := cursor.next?.bind UnaryOp.ofKind?

def joinLeft (left : ParsedExpr) (link : BinaryOp × ParsedExpr) : ParsedExpr :=
  bare (.binary left link.1 link.2)

/-- Operands with operators of one level between them, grouped from the left. -/
def chain (context : Context) (level : Nat) (first next : TokenReader ParsedExpr) :
    TokenReader ParsedExpr := do
  let head ← first
  let links ← collect do
    match operatorAt context level (← get) with
    | none => return none
    | some op =>
        let _ ← take
        return some (op, ← next)
  return links.foldl joinLeft head

def loneColon (cursor : Cursor) : Bool :=
  cursor.next? == some .colon &&
    (match cursor.second? with
      | some .comma | some .closeParen | some .closeBrace => true
      | _ => false)

def arguments (nested : Nested) (close : Kind) : TokenReader (List ParsedExpr) :=
  collect do
    if ← eat close then return none
    let argument ←
      if loneColon (← get) then do
        let _ ← take
        pure (bare .colon)
      else nested ⟨false, true⟩
    -- A comma may also stand in front of the closing token.
    unless ← nextIs close do
      let _ ← expect .comma
    return some argument

inductive RowPart where
  | element (expr : ParsedExpr)
  | comma
  | rowEnd

/-- The rows that are not empty; `row` holds the elements of the row that is being read. -/
def rowsOf (row : List ParsedExpr) : List RowPart → List (List ParsedExpr)
  | [] => if row.isEmpty then [] else [row]
  | .element expr :: rest => rowsOf (row ++ [expr]) rest
  | .comma :: rest => rowsOf row rest
  | .rowEnd :: rest => if row.isEmpty then rowsOf [] rest else row :: rowsOf [] rest

def rowPart (nested : Nested) (context : Context) (close : Kind) :
    TokenReader (Option RowPart) := do
  match ← peek with
  | none => failNext (.token close)
  | some kind =>
      if kind = close then
        let _ ← take
        return none
      match kind with
      | .semicolon | .newline =>
          let _ ← take
          return some .rowEnd
      | .comma =>
          let _ ← take
          return some .comma
      | _ => return some (.element (← nested ⟨true, context.inIndex⟩))

def rows (nested : Nested) (context : Context) (close : Kind) :
    TokenReader (List (List ParsedExpr)) :=
  return rowsOf [] (← collect (rowPart nested context close))

def literal (quoting : Quoting) (token : Token) : ParsedExpr :=
  bare (.str (String.ofList (Quoted.decode quoting token.text)) quoting)

def primary (nested : Nested) (context : Context) : TokenReader ParsedExpr := do
  match ← take with
  | none => failLast (.expression none)
  | some token =>
      match token.kind with
      | .number => return bare (.num token.name)
      | .singleQuoted => return literal .single token
      | .doubleQuoted => return literal .double token
      | .word => return bare (.name token.name)
      | .openParen => do
          let inner ← nested ⟨false, context.inIndex⟩
          let _ ← expect .closeParen
          return inner
      | .openBracket => return bare (.matrix (← rows nested context .closeBracket))
      | .openBrace => return bare (.cell (← rows nested context .closeBrace))
      | kind =>
          -- The last position of what is indexed; outside of an index the keyword begins no
          -- expression.
          if kind = .endKey ∧ context.inIndex then return bare .last
          else failLast (.expression (some kind))

/-- What may stand behind an operand and applies to all of it. -/
inductive Suffix where
  | arguments (args : List ParsedExpr)
  | cellArguments (args : List ParsedExpr)
  | field (name : String)
  | transpose (op : TransposeOp)

def Suffix.apply (base : ParsedExpr) : Suffix → ParsedExpr
  | arguments args => bare (.param base args)
  | cellArguments args => bare (.cellIndex base args)
  | field name => bare (.field base name)
  | transpose op => bare (.transpose op base)

/-- In `[a (1)]` the parenthesis starts a new element. -/
def suffix (nested : Nested) (context : Context) : TokenReader (Option Suffix) := do
  let cursor ← get
  let element := context.inLiteral && cursor.apartBefore
  match cursor.next? with
  | some .openParen =>
      if element then return none
      let _ ← take
      return some (.arguments (← arguments nested .closeParen))
  | some .openBrace =>
      if element then return none
      let _ ← take
      return some (.cellArguments (← arguments nested .closeBrace))
  | some .dot => do
      let _ ← take
      return some (.field (← expect .word).name)
  | some .quote => do
      let _ ← take
      return some (.transpose .conjugate)
  | some .dotQuote => do
      let _ ← take
      return some (.transpose .plain)
  | _ => return none

def suffixed (nested : Nested) (context : Context) : TokenReader ParsedExpr := do
  let base ← primary nested context
  return (← collect (suffix nested context)).foldl Suffix.apply base

/-- `start:stop` or `start:step:stop`. -/
def rangeOver (bound : TokenReader ParsedExpr) : TokenReader ParsedExpr := do
  let start ← bound
  if ← eat .colon then
    let second ← bound
    if ← eat .colon then return bare (.range start (some second) (← bound))
    else return bare (.range start none second)
  else return start

/-- All levels of binary operators that are looser than the signs. -/
def whole (operand : Nested) : Nested := fun context =>
  let level (level : Nat) (tighter : TokenReader ParsedExpr) := chain context level tighter tighter
  -- From the loosest level to the tightest.
  level Level.shortOr <| level Level.shortAnd <| level Level.elOr <| level Level.elAnd <|
    level Level.comparison <| rangeOver <| level Level.sum <| level Level.product <| operand context

/-- Powers; behind the operator an operand may have a sign, as in `2^-1`. -/
def power (operand : Nested) (context : Context) : TokenReader ParsedExpr :=
  let base := suffixed (whole operand) context
  chain context Level.power base do
    match signAt (← get) with
    | some _ => operand context
    | none => base

/-- An operand with its signs. Each round is behind a token that the one before took. -/
def operandWithin : Nat → Nested
  | 0, _ => failNext .exhausted
  | allowance + 1, context => do
      match signAt (← get) with
      | some op => do
          let _ ← take
          return bare (.unary op (← operandWithin allowance context))
      | none => power (operandWithin allowance) context

/-- Reads an expression; the tokens ahead allow for every nesting. -/
def reader : TokenReader ParsedExpr := do
  whole (operandWithin ((← get).ahead.length + 1)) ⟨false, false⟩

end ScriptFlow.Expr
