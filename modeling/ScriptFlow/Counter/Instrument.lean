import ScriptFlow.Counter.Basic
import ScriptFlow.Flow.Map
import ScriptFlow.Program.Basic
import ScriptFlow.Store.Edit

/-!
Instrumenting a program with counters. A scope's counter is zeroed first and displayed last and
before every return; it is incremented before every statement that evaluates a call. A loop's
counter is zeroed before the loop, incremented first in its body and displayed behind it.

The walk edits the lists that it goes through. It goes through each list as it was on entry, and
remembers statements and expressions that it put in or is done with, so it handles none twice.
-/

namespace ScriptFlow

open Store (Checked)

/-- How much an instrumentation put in. -/
structure Tally where
  scopes : Nat
  loops : Nat
  calls : Nat
  returns : Nat
  deriving DecidableEq, Repr

def Tally.display (tally : Tally) : String :=
  s!"{tally.scopes} scopes, {tally.loops} loop counters, {tally.calls} call increments, " ++
    s!"{tally.returns} return displays"

namespace Instrument

structure Work where
  store : Store
  nextLoop : Nat
  doneStmts : IdSet
  doneExprs : IdSet
  tally : Tally

abbrev Edit := StateT Work Checked

/-- The scope that is being instrumented. -/
structure Context where
  name : String
  isFunction : String → Bool

namespace Context

def counter (context : Context) : String := Counter.ofScope context.name

end Context

def onStore (edit : Store → Checked Store) : Edit Unit := do
  let work ← get
  set { work with store := ← edit work.store }

def count (update : Tally → Tally) : Edit Unit :=
  modify fun work => { work with tally := update work.tally }

def finishStmt (id : StmtId) : Edit Unit :=
  modify fun work => { work with doneStmts := work.doneStmts.insert id }

def finishExpr (id : ExprId) : Edit Unit :=
  modify fun work => { work with doneExprs := work.doneExprs.insert id }

/-- The expressions of a statement, each before those inside it. -/
def exprsOf (shape : StoredShape) : Edit (List StoredExpr) := do
  let store := (← get).store
  let trees ← (shape.exprs.mapM store.exprTree : Checked (List StoredExpr))
  return trees.flatMap Expr.within

/-- Puts a counter statement into the store; it and everything in it is done. -/
def inject (stmt : ParsedStmt) : Edit StmtId := do
  let work ← get
  let (id, store) := stmt.allocate.run work.store
  set { work with store := store }
  finishStmt id
  for expr in ← exprsOf (← store.stmt id).shape do
    finishExpr expr.label
  return id

def charge (context : Context) (id : StmtId) : Edit Unit := do
  let increment ← inject (Counter.increment context.counter)
  onStore (·.insertBefore id increment)
  count fun tally => { tally with calls := tally.calls + 1 }

/-- Whether an expression is a call that is still to be charged. -/
def isCharged (context : Context) (work : Work) (expr : StoredExpr) : Bool :=
  !work.doneExprs.contains expr.label && expr.callee?.any context.isFunction

/-- Charges the calls in the statement's own expressions. -/
def chargeCalls (context : Context) (id : StmtId) (shape : StoredShape) : Edit Unit := do
  let exprs ← exprsOf shape
  let work ← get
  for call in exprs.filter (isCharged context work) do
    finishExpr call.label
    charge context id

def countRounds (context : Context) (id : StmtId) (body : BlockId) : Edit Unit := do
  let number := (← get).nextLoop
  let counter := Counter.ofLoop context.name number
  modify fun work => { work with nextLoop := number + 1 }
  let reset ← inject (Counter.reset counter)
  onStore (·.insertBefore id reset)
  let increment ← inject (Counter.increment counter)
  onStore (·.insertStmt body 0 increment)
  let display ← inject (Counter.display counter)
  onStore (·.insertAfter id display)
  count fun tally => { tally with loops := tally.loops + 1 }

def displayBefore (context : Context) (id : StmtId) : Edit Unit := do
  let display ← inject (Counter.display context.counter)
  onStore (·.insertBefore id display)
  count fun tally => { tally with returns := tally.returns + 1 }

/-- What happens to a statement of that shape that is still to be handled. -/
def handle (context : Context) (nested : BlockId → Edit Unit) (id : StmtId)
    (shape : StoredShape) : Edit Unit := do
  match shape with
  | .forLoop _ _ body | .whileLoop _ body =>
      -- The counter of the loop goes in first, so the charges for its head stand between the reset
      -- and the loop.
      finishStmt id
      countRounds context id body
      chargeCalls context id shape
      nested body
  | .branch _ _ | .switch _ _ _ =>
      chargeCalls context id shape
      shape.bodies.forM nested
  | .assign _ value _ =>
      finishStmt id
      -- One increment however many calls there are, and also for a function that is named without
      -- being called.
      if (← (← get).store.exprTree value).names.any context.isFunction then charge context id
  | .leave =>
      finishStmt id
      displayBefore context id
  | .eval _ _ => chargeCalls context id shape
  | .breakLoop | .continueLoop | .global _ | .persistent _ => return

def visit (context : Context) (nested : BlockId → Edit Unit) (id : StmtId) : Edit Unit := do
  let work ← get
  unless work.doneStmts.contains id do
    handle context nested id (← work.store.stmt id).shape

/-- Goes through a list as it is now; lists within lists are no deeper than there are statements. -/
def walkWithin (context : Context) : Nat → BlockId → Edit Unit
  | 0, _ => throw .missing
  | depth + 1, block => do
      (← (← get).store.block block).forM (visit context (walkWithin context depth))

def walk (context : Context) (block : BlockId) : Edit Unit := do
  walkWithin context ((← get).store.stmts.size + 1) block

/-- Without classification no name counts as a function, so no call is charged. -/
def contextOf (program : Program) (classify : Bool) (scope : Scope) : Checked Context := do
  let vocabulary ← if classify then some <$> program.vocabulary scope else pure none
  return ⟨← program.scopeName scope, isFunction vocabulary⟩

def scope (program : Program) (classify : Bool) (scope : Scope) : Edit Unit := do
  match ← program.scopeBody scope with
  | none => return
  | some body =>
      let context ← contextOf { program with store := (← get).store } classify scope
      let reset ← inject (Counter.reset context.counter)
      onStore (·.insertStmt body 0 reset)
      let display ← inject (Counter.display context.counter)
      onStore (·.pushStmt body display)
      walk context body
      -- The next scope starts with no statement done; expressions stay done.
      modify fun work => { work with doneStmts := ∅ }
      count fun tally => { tally with scopes := tally.scopes + 1 }

end Instrument

def Program.instrument (program : Program) (classify : Bool) : Checked (Program × Tally) := do
  let work : Instrument.Work := ⟨program.store, 1, ∅, ∅, ⟨0, 0, 0, 0⟩⟩
  let scopes ← program.scopes
  let (_, work) ← (scopes.forM (Instrument.scope program classify)).run work
  return ({ program with store := work.store }, work.tally)

end ScriptFlow
