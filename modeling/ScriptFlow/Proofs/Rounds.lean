import ScriptFlow.File.Parser

/-!
The rounds of the loops that readers are made of. A loop collects what its rounds give until one of
them gives nothing.
-/

namespace ScriptFlow

open Token TokenReader

namespace Expr

/-- Reads an expression and joins parts to it as long as there are any. -/
def gather {Part : Type} (first : TokenReader ParsedExpr) (part : TokenReader (Option Part))
    (join : ParsedExpr → Part → ParsedExpr) : TokenReader ParsedExpr := do
  let head ← first
  return (← collect part).foldl join head

def link (context : Context) (level : Nat) (next : TokenReader ParsedExpr) :
    TokenReader (Option (BinaryOp × ParsedExpr)) := do
  match operatorAt context level (← get) with
  | none => return none
  | some op =>
      let _ ← take
      return some (op, ← next)

theorem chain_eq (context : Context) (level : Nat) (first next : TokenReader ParsedExpr) :
    chain context level first next = gather first (link context level next) joinLeft := rfl

theorem suffixed_eq (nested : Nested) (context : Context) : suffixed nested context =
      gather (primary nested context) (suffix nested context) Suffix.apply := rfl

/-- The levels of `whole`, from tight to loose, with the readers of their operands. -/
def levels (operand : Nested) (context : Context) : List (Nat × TokenReader ParsedExpr) :=
  let chained (level : Nat) (tighter : TokenReader ParsedExpr) :=
    chain context level tighter tighter
  let products := chained Level.product (operand context)
  let ranges := rangeOver (chained Level.sum products)
  let comparisons := chained Level.comparison ranges
  let elAnds := chained Level.elAnd comparisons
  let elOrs := chained Level.elOr elAnds
  let shortAnds := chained Level.shortAnd elOrs
  [(Level.product, operand context), (Level.sum, products),
    (Level.comparison, ranges), (Level.elAnd, comparisons),
    (Level.elOr, elAnds), (Level.shortAnd, elOrs), (Level.shortOr, shortAnds)]

theorem whole_eq (operand : Nested) (context : Context) :
    ∃ loosest ∈ (levels operand context).getLast?, whole operand context =
      chain context loosest.1 loosest.2 loosest.2 :=
  ⟨_, rfl, rfl⟩

def exponent (operand : Nested) (context : Context) : TokenReader ParsedExpr := do
  match signAt (← get) with
  | some _ => operand context
  | none => suffixed (whole operand) context

def argument (nested : Nested) (close : Kind) : TokenReader (Option ParsedExpr) := do
  if ← eat close then return none
  let argument ←
    if loneColon (← get) then do
      let _ ← take
      pure (bare .colon)
    else nested ⟨false, true⟩
  unless ← nextIs close do
    let _ ← expect .comma
  return some argument

theorem loneColon_next {cursor : Cursor} (lone : loneColon cursor = true) :
    cursor.next? = some .colon := by
  rw [loneColon, Bool.and_eq_true, beq_iff_eq] at lone
  exact lone.1

theorem arguments_eq (nested : Nested) (close : Kind) :
    arguments nested close = collect (argument nested close) := rfl

end Expr

namespace Stmt

def bodyPart (nested : TokenReader ParsedStmt) (closers : List Kind) :
    TokenReader (Option ParsedStmt) := do
  separators
  match ← peek with
  | none => failNext (.anyOf closers)
  | some kind =>
      if closers.contains kind then return none
      return some (← nested)

theorem body_eq (nested : TokenReader ParsedStmt) (closers : List Kind) :
    body nested closers = collect (bodyPart nested closers) := rfl

def declaredName : TokenReader (Option String) := do
  if ← nextIs .word then return (← take).map Token.name
  return none

end Stmt

namespace Function

def output : TokenReader (Option String) := do
  if ← eat .closeBracket then return none
  let output ← name
  let _ ← eat .comma
  return some output

def parameter : TokenReader (Option String) := do
  if ← eat .closeParen then return none
  let parameter ← input
  unless ← nextIs .closeParen do
    let _ ← expect .comma
  return some parameter

theorem inputs_eq : inputs = (do if ← eat .openParen then collect parameter else return []) := rfl

end Function

namespace File

variable {tokens : List Token} {source : List Char} {file : ParsedFile}

theorem ofTokens_ok_iff : ofTokens tokens = .ok file ↔ (∀ token ∈ tokens, token.kind ≠ .invalid) ∧
      ∃ after, (reader (closesFunctions tokens)).run (.ofTokens tokens) = .ok (file, after) := by
  rw [ofTokens]
  cases found : tokens.find? fun token => token.kind = .invalid with
  | some token =>
      have member := List.mem_of_find?_eq_some found
      have invalid := List.find?_some found
      exact iff_of_false nofun fun valid => valid.1 token member (of_decide_eq_true invalid)
  | none =>
      have valid : ∀ token ∈ tokens, token.kind ≠ .invalid := by simpa using found
      change (reader _).run' _ = _ ↔ _
      rw [StateT.run'_eq]
      cases ran : (reader (closesFunctions tokens)).run (.ofTokens tokens) with
      | error => exact iff_of_false nofun nofun
      | ok result =>
          constructor
          · rintro ⟨⟩
            exact ⟨valid, result.2, rfl⟩
          · rintro ⟨_, after, ⟨⟩⟩
            rfl

theorem parse_ok_iff : parse source = .ok file ↔ ofTokens (Token.ofSource source) = .ok file := by
  rw [parse]
  cases ofTokens (Token.ofSource source) with
  | error => exact iff_of_false nofun nofun
  | ok other =>
      constructor <;>
        rintro ⟨⟩ <;> rfl

end File
end ScriptFlow
