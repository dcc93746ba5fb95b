import ScriptFlow.Store.Basic

/-!
Edits of the lists in a store. A statement that is put into a list belongs to that list, wherever
it was before; an edit that has no answer changes nothing.
-/

namespace ScriptFlow.Store

def position (store : Store) (id : StmtId) : Checked (BlockId × Nat) := do
  match (← store.stmt id).parent with
  | none => throw (.detached id)
  | some block =>
      -- The list may not hold the statement that says it belongs to it.
      match (← store.block block).idxOf? id with
      | none => throw (.detached id)
      | some index => return (block, index)

def addBlockOf (store : Store) (members : List StmtId) : Checked (BlockId × Store) :=
  if members.all (· < store.stmts.size) then .ok ((addBlock members).run store)
  else .error .missing

def insertStmt (store : Store) (block : BlockId) (index : Nat) (id : StmtId) : Checked Store := do
  let members ← store.block block
  let _ ← store.stmt id
  if index ≤ members.length then
    return { store with
      blocks := store.blocks.set! block (members.insertIdx index id)
      stmts := setParent block store.stmts id }
  else throw .missing

def pushStmt (store : Store) (block : BlockId) (id : StmtId) : Checked Store := do
  store.insertStmt block (← store.block block).length id

def insertBefore (store : Store) (anchor id : StmtId) : Checked Store := do
  let (block, index) ← store.position anchor
  store.insertStmt block index id

def insertAfter (store : Store) (anchor id : StmtId) : Checked Store := do
  let (block, index) ← store.position anchor
  store.insertStmt block (index + 1) id

end ScriptFlow.Store
