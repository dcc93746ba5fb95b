import ScriptFlow.ParseError

/-!
Reading tokens one after another. A cursor keeps the token behind it and those ahead; a reader
takes tokens off the front or fails. Everything a reader needs to know of blanks is whether a token
touches its neighbour.
-/

namespace ScriptFlow

open Token (Kind)

structure Cursor where
  last : Option Token
  ahead : List Token
  deriving DecidableEq, Repr

namespace Cursor

def ofTokens (tokens : List Token) : Cursor := ⟨none, tokens⟩

def next? (cursor : Cursor) : Option Kind := cursor.ahead.head?.map Token.kind

def second? (cursor : Cursor) : Option Kind := cursor.ahead[1]?.map Token.kind

/-- Whether something stands between the next token and the one behind. -/
def apartBefore (cursor : Cursor) : Bool :=
  match cursor.last, cursor.ahead with
  | some last, next :: _ => last.apart next
  | _, _ => false

/-- Whether something stands between the next token and the one after it; the last token of all
touches nothing. -/
def apartAfter (cursor : Cursor) : Bool :=
  match cursor.ahead with
  | next :: second :: _ => next.apart second
  | _ => true

def skipSeparators : Option Token → List Token → Cursor
  | last, [] => ⟨last, []⟩
  | last, token :: ahead =>
      if token.kind.separates then skipSeparators (some token) ahead else ⟨last, token :: ahead⟩

end Cursor

abbrev TokenReader := StateT Cursor (Except Failure)

namespace TokenReader

variable {Result : Type}

def peek : TokenReader (Option Kind) := return (← get).next?

def nextIs (kind : Kind) : TokenReader Bool := return (← peek) == some kind

def take : TokenReader (Option Token) := do
  match (← get).ahead with
  | [] => return none
  | token :: ahead =>
      set (Cursor.mk (some token) ahead)
      return some token

def eat (kind : Kind) : TokenReader Bool := do
  if ← nextIs kind then
    let _ ← take
    return true
  else return false

def failNext (reason : Reason) : TokenReader Result := do
  throw ⟨(← get).ahead.head?, reason⟩

/-- Fails at the token that was taken last. -/
def failLast (reason : Reason) : TokenReader Result := do
  throw ⟨(← get).last, reason⟩

def expect (kind : Kind) : TokenReader Token := do
  match (← get).ahead with
  | [] => failNext (.token kind)
  | token :: ahead =>
      if token.kind = kind then
        set (Cursor.mk (some token) ahead)
        return token
      else failNext (.token kind)

def separators : TokenReader Unit :=
  modify fun cursor => Cursor.skipSeparators cursor.last cursor.ahead

def collectWithin (part : TokenReader (Option Result)) : Nat → TokenReader (List Result)
  | 0 => failNext .exhausted
  | allowance + 1 => do
      match ← part with
      | none => return []
      | some first => return first :: (← collectWithin part allowance)

/-- Reads parts until there is none. A part takes at least one token, so the tokens ahead allow for
all of them. -/
def collect (part : TokenReader (Option Result)) : TokenReader (List Result) := do
  collectWithin part ((← get).ahead.length + 1)

end TokenReader
end ScriptFlow
