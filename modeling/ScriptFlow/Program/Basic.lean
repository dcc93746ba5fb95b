import ScriptFlow.File.Parser
import ScriptFlow.NameKind
import ScriptFlow.Store.Build
import ScriptFlow.Store.View

/-!
Programs: a store with its roots, the list of the script's statements and the functions that are in
no other function.
-/

namespace ScriptFlow

structure Program where
  store : Store
  script : Option BlockId
  functions : List FuncId
  deriving DecidableEq, Repr

/-- What has counters and name kinds of its own: the script, or a function. -/
inductive Scope where
  | script
  | function (id : FuncId)
  deriving DecidableEq, Repr

namespace Program

open Store (Checked)

def empty : Program := ⟨.empty, none, []⟩

/-- The program of a file; a file without statements of its own has no script. -/
def ofFile (file : ParsedFile) : Program :=
  let build : StateM Store (Option BlockId × List FuncId) := do
    let (members, functions) ← allocateItems file.items
    let script ← if members.isEmpty then pure none else some <$> Store.addBlock members
    return (script, functions)
  let ((script, functions), store) := build.run .empty
  ⟨store, script, functions⟩

def parse (source : List Char) : Except ParseError Program := ofFile <$> File.parse source

variable (program : Program)

def file : Checked (File Site StoredExpr) := do
  let stmts ← match program.script with
    | some block => program.store.bodyTrees block
    | none => pure []
  let functions ← program.functions.mapM program.store.functionTree
  return ⟨stmts.map .stmt ++ functions.map .function⟩

/-- The scopes: the script first, then each function before those nested in it. -/
def scopes : Checked (List Scope) := do
  let nests ← program.functions.mapM program.store.nest
  let script := if program.script.isSome then [Scope.script] else []
  return script ++ (Rose.labels nests).map .function

/-- The function that a scope is; the script is none. -/
def header? : Scope → Checked (Option Header)
  | .script => return none
  | .function id => return some (← program.store.function id).header

def scopeName (scope : Scope) : Checked String :=
  return ((← program.header? scope).map Header.name).getD "script"

def scopeBody : Scope → Checked (Option BlockId)
  | .script => return program.script
  | .function id => return some (← program.store.function id).body

/-- The statements of a scope; a script that is not there has none. -/
def scopeTrees (scope : Scope) : Checked (List StoredStmt) := do
  match ← program.scopeBody scope with
  | some block => program.store.bodyTrees block
  | none => return []

def scopeOutlines (scope : Scope) : Checked (List Outline) := do
  match ← program.scopeBody scope with
  | some block => program.store.outlines block
  | none => return []

def functionNames : Checked (List String) := do
  let headers ← (← program.scopes).mapM program.header?
  return headers.filterMap (·.map Header.name)

/-- What decides the kinds of names in a scope. -/
def vocabulary (scope : Scope) : Checked Vocabulary :=
  return .ofScope (← program.functionNames) (← program.header? scope) (← program.scopeTrees scope)

def findFunction (name : String) : Checked (Option Scope) := do
  let named ← (← program.scopes).mapM fun scope =>
    return (scope, (← program.header? scope).map Header.name)
  return (named.find? fun entry => entry.2 == some name).map Prod.fst

end Program
end ScriptFlow
