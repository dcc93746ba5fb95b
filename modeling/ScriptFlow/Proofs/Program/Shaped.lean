import ScriptFlow.Proofs.Program.Forest

/-!
Reading programs of the shape of a forest. It is enough that nothing is shared: then every view of
the tree reached from a scope comes to an end, in whatever order the nodes were made and whichever
of them are reached.
-/

namespace ScriptFlow

/-- Statements, lists, expressions and functions are each used at most once, and those used are
there. -/
structure Program.ForestShaped (program : Program) : Prop where
  stmts : UsedOnce program.listedStmts program.store.stmts.size
  lists : UsedOnce program.ownedLists program.store.blocks.size
  exprs : UsedOnce program.usedExprs program.store.exprs.size
  functions : UsedOnce program.listedFunctions program.store.functions.size

theorem Program.forestShaped_iff (program : Program) :
    program.ForestShaped ↔ UsedOnce program.listedStmts program.store.stmts.size ∧
      UsedOnce program.ownedLists program.store.blocks.size ∧
      UsedOnce program.usedExprs program.store.exprs.size ∧
      UsedOnce program.listedFunctions program.store.functions.size :=
  ⟨fun forest => ⟨forest.stmts, forest.lists, forest.exprs, forest.functions⟩,
    fun ⟨stmts, lists, exprs, functions⟩ => ⟨stmts, lists, exprs, functions⟩⟩

instance (program : Program) : Decidable program.ForestShaped :=
  decidable_of_iff _ program.forestShaped_iff.symm

theorem Program.IsForest.forestShaped {program : Program} (forest : program.IsForest) :
    program.ForestShaped :=
  ⟨.of_perm forest.stmts, .of_perm forest.lists, .of_perm forest.exprs, .of_perm forest.functions⟩

/-- Programs that are parsed, and those that any instrumentations make of them, are of that
shape. -/
theorem Program.instrumentAll_forestShaped {source : List Char} {program result : Program}
    (parsed : parse source = .ok program) {choices : List Bool}
    (ran : program.instrumentAll choices = .ok result) : result.ForestShaped := by
  obtain ⟨layout, holds⟩ := parse_holds parsed
  obtain ⟨last, final, ran', holds', _⟩ :=
    holds.instrumentAll (P := fun _ => True) (fun _ _ _ => trivial) trivial choices
  cases ran.symm.trans ran'
  exact holds'.isForest.forestShaped

namespace Store

def ExprsStay (store grown : Store) : Prop :=
  ∀ (id : ExprId) shape, store.exprs[id]? = some shape → grown.exprs[id]? = some shape

def FunctionsStay (store grown : Store) : Prop :=
  ∀ (id : FuncId) entry, store.functions[id]? = some entry → grown.functions[id]? = some entry

/-- The expression is read at that depth and deeper from every store that has the expressions of
this one. -/
def ReadsExpr (store : Store) (depth : Nat) (id : ExprId) (expr : StoredExpr) : Prop :=
  expr.label = id ∧ ∀ (grown : Store) (more : Nat), store.ExprsStay grown → depth ≤ more →
    grown.exprWithin more id = .ok expr

/-- The entry of the statement says what the statement says: its expressions are read from the
numbers in the entry, and its bodies are the lists there. -/
def TellsStmt (store : Store) (stmt : StoredStmt) : Prop :=
  ∃ entry expr body, store.stmts[stmt.number]? = some entry ∧
    stmt.shape = entry.shape.map expr body ∧
    (∀ id ∈ entry.shape.exprs, store.ReadsExpr store.exprs.size id (expr id)) ∧
    ∀ block ∈ entry.shape.bodies, store.blocks[block]? = some ((body block).map Stmt.number)

structure TellsBody (store : Store) (block : BlockId) (body : List StoredStmt) : Prop where
  listed : store.blocks[block]? = some (body.map Stmt.number)
  told : ∀ stmt ∈ Stmt.within body, store.TellsStmt stmt

theorem ReadsExpr.tree {store grown : Store} {id : ExprId} {expr : StoredExpr}
    (reads : store.ReadsExpr store.exprs.size id expr) (stay : store.ExprsStay grown) :
    grown.exprTree id = .ok expr :=
  reads.2 grown _ stay (size_le_of_kept stay)

theorem exprWithin_persists {store grown : Store} (stay : store.ExprsStay grown)
    {depth more : Nat} (deep : depth ≤ more) (id : ExprId) :
    Persists (store.exprWithin depth id) (grown.exprWithin more id) := by
  induction depth generalizing more id with
  | zero =>
      intro expr ran
      cases ran
  | succ depth ih =>
      cases more with
      | zero => exact absurd deep (Nat.not_succ_le_zero depth)
      | succ more =>
          have entry : Persists (store.expr id) (grown.expr id) := by
            intro shape ran
            rw [Store.expr] at ran ⊢
            cases there : store.exprs[id]? with
            | none =>
                rw [there] at ran
                cases ran
            | some shape' =>
                rw [there] at ran
                rw [stay id shape' there]
                exact ran
          rw [exprWithin, exprWithin]
          exact entry.bind fun shape =>
            (ExprShape.mapM_persists (ih (Nat.le_of_succ_le_succ deep)) shape).bind fun _ => .rfl

theorem exprTrees_persist {store grown : Store} (stay : store.ExprsStay grown) (ids : List ExprId) :
    Persists (ids.mapM store.exprTree) (ids.mapM grown.exprTree) :=
  Persists.mapM (exprWithin_persists stay (size_le_of_kept stay)) ids

theorem TellsStmt.exprs {store : Store} {stmt : StoredStmt} (tells : store.TellsStmt stmt) :
    ∀ expr ∈ stmt.shape.exprs, store.exprTree expr.label = .ok expr := by
  obtain ⟨entry, expr, body, _, same, exprs, _⟩ := tells
  intro inner member
  rw [same, StmtShape.exprs_map] at member
  obtain ⟨id, own, rfl⟩ := List.mem_map.mp member
  rw [(exprs id own).1]
  exact (exprs id own).tree fun _ _ there => there

theorem readsExpr_node {store : Store} {depth : Nat} {id : ExprId} {shape : ExprShape ExprId}
    (there : store.exprs[id]? = some shape) {operand : ExprId → StoredExpr}
    (below : ∀ child ∈ shape.operands, store.ReadsExpr depth child (operand child)) :
    store.ReadsExpr (depth + 1) id (.node id (shape.map operand)) := by
  refine ⟨rfl, fun grown more stay deep => ?_⟩
  cases more with
  | zero => exact absurd deep (Nat.not_succ_le_zero depth)
  | succ more =>
      have operands : (shape.map fun id => id).mapM (grown.exprWithin more) =
          .ok (shape.map operand) :=
        ExprShape.mapM_map_ok fun child member =>
          (below child member).2 grown more stay (Nat.le_of_succ_le_succ deep)
      rw [ExprShape.map_id] at operands
      rw [exprWithin, Store.expr, stay id shape there, found, ok_bind, operands]
      rfl

def ReadsStmt (store : Store) (depth : Nat) (stmt : StoredStmt) : Prop :=
  store.outlineWithin depth stmt.number = .ok stmt.outline ∧
    ∀ inner ∈ Stmt.within [stmt], store.TellsStmt inner

theorem exists_body {P : StoredStmt → Prop} {members : List StmtId}
    (each : ∀ id ∈ members, ∃ stmt, stmt.number = id ∧ P stmt) :
    ∃ body : List StoredStmt, body.map Stmt.number = members ∧ ∀ stmt ∈ body, P stmt := by
  induction members with
  | nil => exact ⟨[], rfl, fun _ member => absurd member List.not_mem_nil⟩
  | cons id rest ih =>
      obtain ⟨stmt, rfl, holds⟩ := each id List.mem_cons_self
      obtain ⟨body, rfl, others⟩ := ih fun id member => each id (List.mem_cons_of_mem _ member)
      exact ⟨stmt :: body, rfl, List.forall_mem_cons.mpr ⟨holds, others⟩⟩

theorem readsStmt_node {store : Store} {depth : Nat} {id : StmtId}
    {entry : StmtEntry} (there : store.stmts[id]? = some entry)
    {expr : ExprId → StoredExpr} {body : BlockId → List StoredStmt}
    (exprs : ∀ id ∈ entry.shape.exprs, store.ReadsExpr store.exprs.size id (expr id))
    (bodies : ∀ block ∈ entry.shape.bodies,
      store.blocks[block]? = some ((body block).map Stmt.number))
    (below : ∀ block ∈ entry.shape.bodies, ∀ stmt ∈ body block, store.ReadsStmt depth stmt) :
    store.ReadsStmt (depth + 1) (.node ⟨id, entry.position⟩ (entry.shape.map expr body)) := by
  -- The lists of the entry are read with one level less, which is enough for the statements on
  -- them.
  have shape : entry.shape.mapM pure
      (fun block => do (← store.block block).mapM (store.outlineWithin depth)) =
      (.ok (entry.shape.map (Expr.label ∘ expr) (List.map Stmt.outline ∘ body)) : Checked _) := by
    apply StmtShape.mapM_of_match
    apply StmtShape.Match.mapped_right
    apply StmtShape.match_self
    · intro id member
      exact congrArg Except.ok (exprs id member).1.symm
    · intro block member
      rw [Store.block, bodies block member, found, ok_bind]
      exact mapM_map_ok fun stmt inside => (below block member stmt inside).1
  constructor
  · rw [Stmt.outline_node, StmtShape.map_map, outlineWithin]
    change (do
      let entry ← store.stmt id
      let shape ← entry.shape.mapM pure fun block => do
        (← store.block block).mapM (store.outlineWithin depth)
      return (Stmt.node ⟨id, entry.position⟩ shape : Outline)) = Except.ok _
    rw [Store.stmt, there, found, ok_bind, shape]
    rfl
  · apply (Stmt.forall_within_node (P := store.TellsStmt)).mpr
    constructor
    · exact ⟨entry, expr, body, there, rfl, exprs, bodies⟩
    · intro list member stmt inside
      rw [StmtShape.bodies_map] at member
      obtain ⟨block, own, rfl⟩ := List.mem_map.mp member
      exact (below block own stmt inside).2

theorem ReadsStmt.tree {store : Store} {stmt : StoredStmt}
    (reads : store.ReadsStmt store.stmts.size stmt) : store.stmtTree stmt.number = .ok stmt := by
  rw [stmtTree, outline, reads.1, ok_bind]
  exact mapM_outline fun inner visited => (reads.2 inner visited).exprs

/-- The nest is read at that depth and deeper from every store that has the functions of this one,
and has only functions that are there. -/
structure ReadsNest (store : Store) (depth : Nat) (id : FuncId) (nest : Rose FuncId) : Prop where
  read : ∀ (grown : Store) (more : Nat), store.FunctionsStay grown → depth ≤ more →
      grown.nestWithin more id = .ok nest
  inside : ∀ label ∈ Rose.labels [nest], label < store.functions.size

theorem readsNest_node {store : Store} {depth : Nat} {id : FuncId} {entry : FunctionEntry}
    (there : store.functions[id]? = some entry) {nest : FuncId → Rose FuncId}
    (below : ∀ child ∈ entry.nested, store.ReadsNest depth child (nest child)) :
    store.ReadsNest (depth + 1) id (.node id (entry.nested.map nest)) := by
  constructor
  · intro grown more stay deep
    -- no depth at all is less deep than the one asked for
    cases more with
    | zero => exact absurd deep (Nat.not_succ_le_zero depth)
    | succ more =>
        have nested : (entry.nested.map fun id => id).mapM (grown.nestWithin more) =
            .ok (entry.nested.map nest) :=
          mapM_map_ok fun child member =>
            (below child member).read grown more stay (Nat.le_of_succ_le_succ deep)
        rw [List.map_id'] at nested
        rw [nestWithin, Store.function, stay id entry there, found, ok_bind, nested]
        rfl
  · intro label member
    rw [Rose.labels_node] at member
    rcases List.mem_cons.mp member with rfl | inner
    · exact lt_size_of_getElem? there
    · rw [Rose.labels_flatMap, List.flatMap_map] at inner
      obtain ⟨child, nested, inNest⟩ := List.mem_flatMap.mp inner
      exact (below child nested).inside label inNest

end Store

namespace Program

def scopeLists (program : Program) : List BlockId :=
  program.script.toList ++ program.store.functions.toList.map FunctionEntry.body

structure ReadsScope (program : Program) (scope : Scope) (header : Option Header)
    (body : List StoredStmt) : Prop where
  header : program.header? scope = .ok header
  trees : program.scopeTrees scope = .ok body
  block : ∃ block, program.scopeBody scope = .ok block ∧
    match block with
    | some block => program.store.TellsBody block body
    | none => body = []

structure SameScopes (program other : Program) : Prop where
  script : other.script = program.script
  functions : other.functions = program.functions
  stay : program.store.FunctionsStay other.store

theorem SameScopes.rfl {program : Program} : program.SameScopes program :=
  ⟨Eq.refl _, Eq.refl _, fun _ _ there => there⟩

def HasScope (program : Program) : Scope → Prop
  | .script => True
  | .function id => id < program.store.functions.size

theorem HasScope.header {program : Program} {scope : Scope} (known : program.HasScope scope) :
    ∃ header, ∀ other, program.SameScopes other → other.header? scope = .ok header := by
  cases scope with
  | script => exact ⟨none, fun _ _ => Eq.refl _⟩
  | function id =>
      refine ⟨some program.store.functions[id].header, fun other same => ?_⟩
      have there := same.stay id program.store.functions[id] (Array.getElem?_eq_getElem known)
      rw [header?, Store.function, there]
      exact Eq.refl _

theorem HasScope.stays {program other : Program} {scope : Scope} (known : program.HasScope scope)
    (same : program.SameScopes other) : other.HasScope scope := by
  cases scope with
  | script => trivial
  | function id => exact Nat.lt_of_lt_of_le known (size_le_of_kept same.stay)

end Program

namespace Program.ForestShaped

variable {program : Program} (forest : program.ForestShaped)
include forest

theorem reads_expr {id : ExprId}
    (used : id ∈ program.store.stmts.toList.flatMap fun entry => entry.shape.exprs) :
    ∃ expr, program.store.ReadsExpr program.store.exprs.size id expr := by
  apply forest.exprs.descend (P := fun depth id => ∃ expr,
    program.store.ReadsExpr depth id expr) _ used
  intro depth id shape there below
  have : Nonempty StoredExpr := ⟨.node 0 .last⟩
  choose! operand reads using below
  exact ⟨_, Store.readsExpr_node there reads⟩

theorem stmts_once : UsedOnce (program.scopeLists.flatMap (entries program.store.blocks id) ++
      program.store.stmts.toList.flatMap fun entry =>
      entry.shape.bodies.flatMap (entries program.store.blocks id)) program.store.stmts.size := by
  have lists : program.listedStmts = program.store.blocks.toList.flatMap id := List.flatMap_id.symm
  have once := forest.lists.members (lists ▸ forest.stmts)
  rw [ownedLists, List.flatMap_append, List.flatMap_assoc] at once
  exact once

theorem exists_members {block : BlockId} (owned : block ∈ program.ownedLists) :
    ∃ members, program.store.blocks[block]? = some members :=
  ⟨_, Array.getElem?_eq_getElem (forest.lists.inside block owned)⟩

theorem reads_stmt {id : StmtId}
    (top : id ∈ program.scopeLists.flatMap (entries program.store.blocks fun members => members)) :
    ∃ stmt, stmt.number = id ∧ program.store.ReadsStmt program.store.stmts.size stmt := by
  apply forest.stmts_once.descend (P := fun depth id => ∃ stmt, stmt.number = id ∧
    program.store.ReadsStmt depth stmt) _ top
  intro depth id entry there below
  -- what the entry refers to is used by it alone, so it is there, and its lists hold what is below
  -- it
  obtain ⟨inside, own⟩ := Array.getElem?_eq_some_iff.mp there
  have present : entry ∈ program.store.stmts.toList := own ▸ Array.getElem_mem_toList inside
  have exprs : ∀ id ∈ entry.shape.exprs, ∃ expr,
      program.store.ReadsExpr program.store.exprs.size id expr :=
    fun id member => forest.reads_expr (List.mem_flatMap.mpr ⟨entry, present, member⟩)
  have bodies : ∀ block ∈ entry.shape.bodies, ∃ body : List StoredStmt,
      program.store.blocks[block]? = some (body.map Stmt.number) ∧
      ∀ stmt ∈ body, program.store.ReadsStmt depth stmt := by
    intro block member
    have owned : block ∈ program.ownedLists :=
      List.mem_append_right _ (List.mem_flatMap.mpr ⟨entry, present, member⟩)
    obtain ⟨members, listed⟩ := forest.exists_members owned
    have each : ∀ id ∈ members, ∃ stmt, stmt.number = id ∧ program.store.ReadsStmt depth stmt := by
      intro id inside
      apply below
      exact List.mem_flatMap.mpr ⟨block, member, mem_entries.mpr ⟨members, listed, inside⟩⟩
    obtain ⟨body, rfl, reads⟩ := Store.exists_body each
    exact ⟨body, listed, reads⟩
  have : Nonempty StoredExpr := ⟨.node 0 .last⟩
  choose! expr reads using exprs
  choose! body listed inner using bodies
  exact ⟨_, rfl, Store.readsStmt_node there reads listed inner⟩

theorem reads_body {block : BlockId} (own : block ∈ program.scopeLists) :
    ∃ body, program.store.bodyTrees block = .ok body ∧ program.store.TellsBody block body := by
  obtain ⟨members, listed⟩ := forest.exists_members (List.mem_append_left _ own)
  have each : ∀ id ∈ members, ∃ stmt, stmt.number = id ∧
      program.store.ReadsStmt program.store.stmts.size stmt :=
    fun id inside => forest.reads_stmt
      (List.mem_flatMap.mpr ⟨block, own, mem_entries.mpr ⟨members, listed, inside⟩⟩)
  obtain ⟨body, rfl, reads⟩ := Store.exists_body each
  refine ⟨body, ?_, listed, fun stmt visited => ?_⟩
  · have trees : (body.map Stmt.number).mapM program.store.stmtTree =
        .ok (body.map fun stmt => stmt) :=
      mapM_map_ok fun stmt member => (reads stmt member).tree
    rw [Store.bodyTrees, Store.block, listed, Store.found, ok_bind, trees, List.map_id']
  · rw [Stmt.within_flatMap] at visited
    obtain ⟨outer, member, below⟩ := List.mem_flatMap.mp visited
    exact (reads outer member).2 stmt below

theorem reads_scope {scope : Scope} (known : program.HasScope scope) :
    ∃ header body, program.ReadsScope scope header body := by
  cases scope with
  | script =>
      cases own : program.script with
      | none =>
          have empty : program.scopeBody .script = .ok none := congrArg Except.ok own
          refine ⟨none, [], rfl, ?_, none, empty, rfl⟩
          rw [scopeTrees, empty]
          rfl
      | some block =>
          have body : program.scopeBody .script = .ok (some block) := congrArg Except.ok own
          obtain ⟨stmts, read, tells⟩ :=
            forest.reads_body (List.mem_append_left _ (by rw [own]; exact List.mem_cons_self))
          refine ⟨none, stmts, rfl, ?_, some block, body, tells⟩
          rw [scopeTrees, body]
          exact read
  | function id =>
      have there : program.store.functions[id]? = some program.store.functions[id] :=
        Array.getElem?_eq_getElem known
      have found : program.store.function id = .ok program.store.functions[id] := by
        rw [Store.function, there, Store.found]
      have body : program.scopeBody (.function id) =
          .ok (some program.store.functions[id].body) := by
        rw [scopeBody, found]
        rfl
      have own : program.store.functions[id].body ∈ program.scopeLists :=
        List.mem_append_right _ (List.mem_map_of_mem (Array.getElem_mem_toList known))
      obtain ⟨stmts, read, tells⟩ := forest.reads_body own
      refine ⟨some program.store.functions[id].header, stmts, ?_, ?_, _, body, tells⟩
      · rw [header?, found]
        rfl
      · rw [scopeTrees, body]
        exact read

theorem reads_nest {id : FuncId} (top : id ∈ program.functions) :
    ∃ nest, program.store.ReadsNest program.store.functions.size id nest := by
  apply forest.functions.descend
    (P := fun depth id => ∃ nest, program.store.ReadsNest depth id nest) _ top
  intro depth id entry there below
  have : Nonempty (Rose FuncId) := ⟨.node 0 []⟩
  choose! nest reads using below
  exact ⟨_, Store.readsNest_node there reads⟩

theorem reads_scopes : ∃ scopes, (∀ scope ∈ scopes, program.HasScope scope) ∧
    ∀ other, program.SameScopes other → other.scopes = .ok scopes := by
  have nests : ∀ id ∈ program.functions, ∃ nest,
      program.store.ReadsNest program.store.functions.size id nest :=
    fun _ top => forest.reads_nest top
  have : Nonempty (Rose FuncId) := ⟨.node 0 []⟩
  choose! nest reads using nests
  refine ⟨(if program.script.isSome then [Scope.script] else []) ++
    (Rose.labels (program.functions.map nest)).map .function, ?_, fun other same => ?_⟩
  · intro scope member
    rcases List.mem_append.mp member with script | function
    · by_cases own : program.script.isSome
      · rw [if_pos own, List.mem_singleton] at script
        exact script ▸ trivial
      · rw [if_neg own] at script
        cases script
    · obtain ⟨id, inside, rfl⟩ := List.mem_map.mp function
      rw [Rose.labels_flatMap, List.flatMap_map] at inside
      obtain ⟨outer, top, below⟩ := List.mem_flatMap.mp inside
      exact (reads outer top).inside id below
  · have nested : (program.functions.map fun id => id).mapM other.store.nest =
        .ok (program.functions.map nest) :=
      mapM_map_ok fun id top =>
        (reads id top).read other.store _ same.stay (size_le_of_kept same.stay)
    rw [List.map_id'] at nested
    rw [scopes, same.functions, same.script, nested]
    rfl

theorem reads_names :
    ∃ names, ∀ other, program.SameScopes other → other.functionNames = .ok names := by
  obtain ⟨scopes, known, read⟩ := forest.reads_scopes
  have headers : ∀ scope ∈ scopes, ∃ header, ∀ other, program.SameScopes other →
      other.header? scope = .ok header :=
    fun scope member => (known scope member).header
  choose! header named using headers
  refine ⟨(scopes.map header).filterMap (·.map Header.name), fun other same => ?_⟩
  have all : (scopes.map fun scope => scope).mapM other.header? = .ok (scopes.map header) :=
    mapM_map_ok fun scope member => named scope member other same
  rw [List.map_id'] at all
  rw [functionNames, read other same, ok_bind, all]
  rfl

end Program.ForestShaped
end ScriptFlow
