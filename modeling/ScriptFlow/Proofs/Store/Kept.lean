import Mathlib.Data.List.Nodup
import ScriptFlow.Proofs.Stmt.Layer
import ScriptFlow.Store.View

/-!
Trees that a store keeps. A store keeps an expression when every node of it stands in the table
under its label, and a list of statements when moreover every body stands in the table of lists and
every statement of a body knows its list. A tree whose labels differ fits in the table, so that the
views, which go no deeper than the table is long, read it back.
-/

namespace ScriptFlow

def Stmt.number {Operand : Type} (stmt : Stmt Site Operand) : StmtId := stmt.label.id

namespace Store

/-- Every node of the expression stands in the table under its label. -/
def KeepsExpr (store : Store) (expr : StoredExpr) : Prop :=
  ∀ node ∈ expr.within, store.exprs[node.label]? = some (node.shape.map Expr.label)

/-- The list of that number holds the statements, and each of them knows it. -/
def Lists (store : Store) (block : BlockId) (body : List StoredStmt) : Prop :=
  store.blocks[block]? = some (body.map Stmt.number) ∧
    ∀ stmt ∈ body, ∃ entry, store.stmts[stmt.number]? = some entry ∧ entry.parent = some block

/-- The entry of the statement says what the statement says, over numbers in place of trees. -/
def KeepsStmt (store : Store) (stmt : StoredStmt) : Prop :=
  ∃ entry, store.stmts[stmt.number]? = some entry ∧ entry.position = stmt.label.position ∧
    entry.shape.Match (fun id expr => expr.label = id ∧ store.KeepsExpr expr) store.Lists stmt.shape

def Keeps (store : Store) (body : List StoredStmt) : Prop :=
  ∀ stmt ∈ Stmt.within body, store.KeepsStmt stmt

def bodiesOf (store : Store) (id : StmtId) : List BlockId :=
  ((store.stmts[id]?).map fun entry => entry.shape.bodies).getD []

end Store

namespace Stmt

def numbers {Operand : Type} (body : List (Stmt Site Operand)) : List StmtId :=
  (within body).map number

def exprNumbers (body : List StoredStmt) : List ExprId :=
  (Stmt.within body).flatMap fun stmt => stmt.shape.exprs.flatMap fun expr =>
    expr.within.map Expr.label

end Stmt

def Store.blockNumbers (store : Store) (body : List StoredStmt) : List BlockId :=
  (Stmt.within body).flatMap fun stmt => store.bodiesOf stmt.number

namespace Stmt

@[simp] theorem numbers_nil : numbers ([] : List StoredStmt) = [] := by
  rw [numbers, Stmt.within_nil, List.map_nil]

theorem numbers_append (front back : List StoredStmt) :
    numbers (front ++ back) = numbers front ++ numbers back := by
  rw [numbers, Stmt.within_append, List.map_append, numbers, numbers]

theorem numbers_cons (stmt : StoredStmt) (rest : List StoredStmt) :
    numbers (stmt :: rest) = stmt.number :: (numbers stmt.nested ++ numbers rest) := by
  rw [numbers, Stmt.within_cons, List.map_cons, List.map_append, numbers, numbers]

theorem number_mem {stmt : StoredStmt} {body : List StoredStmt} (member : stmt ∈ Stmt.within body) :
    stmt.number ∈ numbers body := List.mem_map_of_mem member

theorem number_mem_of_mem {stmt : StoredStmt} {body : List StoredStmt} (member : stmt ∈ body) :
    stmt.number ∈ numbers body := number_mem (Stmt.mem_within_self member)

@[simp] theorem exprNumbers_nil : exprNumbers [] = [] := by
  rw [exprNumbers, Stmt.within_nil, List.flatMap_nil]

theorem exprNumbers_append (front back : List StoredStmt) :
    exprNumbers (front ++ back) = exprNumbers front ++ exprNumbers back := by
  rw [exprNumbers, Stmt.within_append, List.flatMap_append, exprNumbers, exprNumbers]

theorem numbers_flatMap (body : List StoredStmt) :
    numbers body = body.flatMap fun stmt => numbers [stmt] := by
  simp only [numbers]
  rw [within_flatMap, List.map_flatMap]

theorem numbers_body {body : List StoredStmt} {bodies : List (List StoredStmt)}
    (member : body ∈ bodies) : (numbers body).Sublist (numbers bodies.flatten) := by
  rw [numbers, numbers, within_flatten]
  exact (List.sublist_flatten_of_mem (List.mem_map_of_mem member)).map _

theorem exprNumbers_flatMap (body : List StoredStmt) :
    exprNumbers body = body.flatMap fun stmt => exprNumbers [stmt] := by
  simp only [exprNumbers]
  rw [within_flatMap, List.flatMap_assoc]

theorem exprNumbers_cons (stmt : StoredStmt) (rest : List StoredStmt) : exprNumbers (stmt :: rest) =
      (stmt.shape.exprs.flatMap fun expr => expr.within.map Expr.label) ++
      (exprNumbers stmt.nested ++ exprNumbers rest) := by
  rw [exprNumbers, Stmt.within_cons, List.flatMap_cons, List.flatMap_append,
    exprNumbers, exprNumbers]

theorem numbers_node (site : Site) (shape : StmtShape StoredExpr (List StoredStmt)) :
    numbers [.node site shape] = site.id :: numbers shape.bodies.flatten := by
  rw [numbers_cons, numbers_nil, List.append_nil]
  rfl

theorem exprNumbers_node (site : Site) (shape : StmtShape StoredExpr (List StoredStmt)) :
    exprNumbers [.node site shape] = (shape.exprs.flatMap fun expr => expr.within.map Expr.label) ++
      exprNumbers shape.bodies.flatten := by
  rw [exprNumbers_cons, exprNumbers_nil, List.append_nil]
  rfl

end Stmt

theorem length_le_of_nodup_lt {items : List Nat} {bound : Nat} (nodup : items.Nodup)
    (below : ∀ item ∈ items, item < bound) : items.length ≤ bound := by
  have inside : items ⊆ List.range bound :=
    fun item member => List.mem_range.mpr (below item member)
  simpa using nodup.length_le_of_subset inside

theorem lt_size_of_getElem? {A : Type} {table : Array A} {id : Nat} {a : A}
    (there : table[id]? = some a) : id < table.size := by
  obtain ⟨inside, _⟩ := Array.getElem?_eq_some_iff.mp there
  exact inside

namespace Store

variable {store : Store}

theorem of_found {A : Type} {answer : Option A} {a : A} (ran : found answer = .ok a) :
    answer = some a := by
  cases answer with
  | none => cases ran
  | some b =>
      cases ran
      rfl

@[simp] theorem blockNumbers_nil : store.blockNumbers [] = [] := by
  rw [blockNumbers, Stmt.within_nil, List.flatMap_nil]

theorem blockNumbers_append (front back : List StoredStmt) :
    store.blockNumbers (front ++ back) = store.blockNumbers front ++ store.blockNumbers back := by
  rw [blockNumbers, Stmt.within_append, List.flatMap_append, blockNumbers, blockNumbers]

theorem blockNumbers_cons (stmt : StoredStmt) (rest : List StoredStmt) :
    store.blockNumbers (stmt :: rest) = store.bodiesOf stmt.number ++
      (store.blockNumbers stmt.nested ++ store.blockNumbers rest) := by
  rw [blockNumbers, Stmt.within_cons, List.flatMap_cons, List.flatMap_append,
    blockNumbers, blockNumbers]

theorem blockNumbers_node (site : Site) (shape : StmtShape StoredExpr (List StoredStmt)) :
    store.blockNumbers [.node site shape] = store.bodiesOf site.id ++
      store.blockNumbers shape.bodies.flatten := by
  rw [blockNumbers_cons, blockNumbers_nil, List.append_nil]
  rfl

theorem Keeps.append {front back : List StoredStmt} (fronts : store.Keeps front)
    (backs : store.Keeps back) : store.Keeps (front ++ back) := by
  intro stmt member
  rw [Stmt.within_append] at member
  rcases List.mem_append.mp member with left | right
  · exact fronts stmt left
  · exact backs stmt right

theorem keeps_append {front back : List StoredStmt} :
    store.Keeps (front ++ back) ↔ store.Keeps front ∧ store.Keeps back := by
  constructor
  · intro kept
    simp only [Keeps, Stmt.within_append, List.mem_append] at kept
    exact ⟨fun stmt member => kept stmt (.inl member), fun stmt member => kept stmt (.inr member)⟩
  · exact fun both => both.1.append both.2

theorem keeps_nil : store.Keeps [] := by
  intro stmt visited
  rw [Stmt.within_nil] at visited
  cases visited

theorem keeps_cons {stmt : StoredStmt} {rest : List StoredStmt} :
    store.Keeps (stmt :: rest) ↔ store.KeepsStmt stmt ∧ store.Keeps stmt.nested ∧
      store.Keeps rest := by
  simp only [Keeps, Stmt.within_cons, List.mem_cons, List.mem_append]
  constructor
  · intro kept
    exact ⟨kept stmt (.inl rfl), fun inner member => kept inner (.inr (.inl member)),
      fun inner member => kept inner (.inr (.inr member))⟩
  · rintro ⟨own, nested, others⟩ inner (rfl | member | member)
    · exact own
    · exact nested inner member
    · exact others inner member

theorem Keeps.of_mem {stmt : StoredStmt} {body : List StoredStmt} (kept : store.Keeps body)
    (member : stmt ∈ body) : store.KeepsStmt stmt := kept stmt (Stmt.mem_within_self member)

theorem Keeps.inner {stmt : StoredStmt} {body inner : List StoredStmt} (kept : store.Keeps body)
    (member : stmt ∈ Stmt.within body) (below : inner ∈ stmt.shape.bodies) : store.Keeps inner := by
  intro node visited
  refine kept node (Stmt.mem_within_trans member ?_)
  rw [Stmt.nested, Stmt.bodies, Stmt.within_flatten]
  exact List.mem_flatMap.mpr ⟨inner, below, visited⟩

theorem KeepsExpr.operand {expr operand : StoredExpr} (kept : store.KeepsExpr expr)
    (below : operand ∈ expr.operands) : store.KeepsExpr operand :=
  fun node inside => kept node (Expr.mem_within_of_operand below inside)

theorem KeepsExpr.label_lt {expr node : StoredExpr} (kept : store.KeepsExpr expr)
    (inside : node ∈ expr.within) : node.label < store.exprs.size :=
  lt_size_of_getElem? (kept node inside)

theorem exprWithin_kept {expr : StoredExpr} {depth : Nat} (kept : store.KeepsExpr expr)
    (deep : expr.size ≤ depth) : store.exprWithin depth expr.label = .ok expr := by
  induction expr using Expr.induction generalizing depth with
  | node label shape ih =>
      have small := Expr.size_node label shape
      cases depth with
      | zero => omega
      | succ depth =>
          have stored := kept _ (Expr.mem_within_self _)
          simp only [Expr.label_node, Expr.shape_node] at stored
          have operands : (shape.map Expr.label).mapM (store.exprWithin depth) =
              .ok (shape.map fun operand => operand) := by
            apply ExprShape.mapM_map_ok
            intro operand below
            have smaller := Expr.size_lt_of_operand label below
            exact ih operand below (kept.operand below) (by omega)
          simp only [exprWithin, Expr.label_node, Store.expr, found, stored]
          change (do
            let inner ← (shape.map Expr.label).mapM (store.exprWithin depth)
            return Expr.node label inner) = _
          rw [operands, ExprShape.map_id]
          rfl

theorem KeepsExpr.size_le {expr : StoredExpr} (kept : store.KeepsExpr expr)
    (distinct : (expr.within.map Expr.label).Nodup) : expr.size ≤ store.exprs.size := by
  rw [← Expr.length_within, ← List.length_map (f := Expr.label)]
  apply length_le_of_nodup_lt distinct
  intro label member
  obtain ⟨node, inside, rfl⟩ := List.mem_map.mp member
  exact kept.label_lt inside

theorem exprTree_kept {expr : StoredExpr} (kept : store.KeepsExpr expr)
    (distinct : (expr.within.map Expr.label).Nodup) : store.exprTree expr.label = .ok expr :=
  exprWithin_kept kept (kept.size_le distinct)

theorem KeepsStmt.id_lt {stmt : StoredStmt} (kept : store.KeepsStmt stmt) :
    stmt.number < store.stmts.size := by
  obtain ⟨entry, there, _⟩ := kept
  exact lt_size_of_getElem? there

end Store

namespace Stmt

def outline : StoredStmt → Outline :=
  fold fun site shape => .node site (shape.map Expr.label fun body => body)

theorem outline_node (site : Site) (shape : StmtShape StoredExpr (List StoredStmt)) :
    outline (.node site shape) = .node site (shape.map Expr.label (·.map outline)) := by
  simp only [outline, fold_node, StmtShape.map_map]
  rfl

end Stmt

namespace Store

variable {store : Store}

theorem block_listed {block : BlockId} {body : List StoredStmt} (listed : store.Lists block body) :
    store.block block = .ok (body.map Stmt.number) := by
  rw [Store.block, listed.1, found]

theorem KeepsStmt.lists {site : Site} {shape : StmtShape StoredExpr (List StoredStmt)}
    (kept : store.KeepsStmt (.node site shape)) :
    List.Forall₂ store.Lists (store.bodiesOf site.id) shape.bodies := by
  obtain ⟨entry, there, _, matched⟩ := kept
  have same : store.bodiesOf site.id = entry.shape.bodies := by
    simp only [Stmt.number, Stmt.label_node] at there
    simp only [bodiesOf, there, Option.map_some, Option.getD_some]
  rw [same]
  exact matched.bodies

theorem outlineWithin_kept {stmt : StoredStmt} {depth : Nat} (kept : store.Keeps [stmt])
    (deep : stmt.size ≤ depth) : store.outlineWithin depth stmt.number = .ok stmt.outline := by
  induction stmt using Stmt.induction generalizing depth with
  | node site shape ih =>
      have small := Stmt.size_node site shape
      cases depth with
      | zero => omega
      | succ depth =>
          obtain ⟨entry, there, placed, matched⟩ := kept.of_mem List.mem_cons_self
          -- A list of the store names the statements of the body, which are smaller and kept
          -- themselves.
          have body (block : BlockId) (body : List StoredStmt)
              (inside : body ∈ shape.bodies) (listed : store.Lists block body) :
              (do (← store.block block).mapM (store.outlineWithin depth)) =
              .ok (body.map Stmt.outline) := by
            rw [block_listed listed]
            apply mapM_map_ok
            intro inner member
            have nested : inner ∈ shape.bodies.flatten :=
              List.mem_flatten.mpr ⟨body, inside, member⟩
            have smaller := Stmt.size_lt_of_nested site nested
            have below : store.Keeps body :=
              kept.inner (Stmt.mem_within_self List.mem_cons_self) inside
            have own : store.Keeps [inner] := fun node visited =>
              below node (Stmt.mem_within_of_mem member visited)
            exact ih inner nested own (by omega)
          -- So reading the shape of the entry gives the outlined shape.
          have read : entry.shape.mapM pure
              (fun block => do (← store.block block).mapM (store.outlineWithin depth)) =
                (.ok (shape.map Expr.label (·.map Stmt.outline)) : Checked _) := by
            apply StmtShape.mapM_of_match
            apply StmtShape.Match.mapped_right
            exact matched.imp (fun _ _ _ _ kept => congrArg Except.ok kept.1.symm)
              (fun block _ inner inside listed => body block inner inside listed)
          simp only [Stmt.number, Stmt.label_node] at there placed
          simp only [outlineWithin, Stmt.number, Stmt.label_node, Store.stmt, found, there]
          change (do
            let shape ← entry.shape.mapM pure
              fun block => do (← store.block block).mapM (store.outlineWithin depth)
            return (Stmt.node ⟨site.id, entry.position⟩ shape : Outline)) = Except.ok _
          rw [read, placed, Stmt.outline_node]
          rfl

theorem KeepsStmt.exprs {stmt : StoredStmt} (kept : store.KeepsStmt stmt) :
    ∀ expr ∈ stmt.shape.exprs, store.KeepsExpr expr := by
  obtain ⟨entry, _, _, matched⟩ := kept
  intro expr member
  obtain ⟨_, _, _, keptExpr⟩ := exists_left_of_forall₂ matched.exprs member
  exact keptExpr

theorem mapM_outline {stmt : StoredStmt} {read : ExprId → Checked StoredExpr}
    (exprs : ∀ inner ∈ Stmt.within [stmt], ∀ expr ∈ inner.shape.exprs, read expr.label = .ok expr) :
    stmt.outline.mapM read = .ok stmt := by
  induction stmt using Stmt.induction with
  | node site shape ih =>
      have own := exprs _ (Stmt.mem_within_self List.mem_cons_self)
      have nested (body : List StoredStmt) (inside : body ∈ shape.bodies) :
          (body.map fun inner => inner.outline.mapM read).mapM id = .ok body := by
        have each : (body.map fun inner => inner.outline.mapM read).mapM id =
            .ok (body.map id) := by
          apply mapM_map_ok
          intro inner member
          have below : inner ∈ shape.bodies.flatten := List.mem_flatten.mpr ⟨body, inside, member⟩
          refine ih inner below fun node visited => exprs node ?_
          rw [Stmt.within_node]
          exact List.mem_cons_of_mem _ (Stmt.mem_within_of_mem below visited)
        simpa using each
      have layer : (shape.map Expr.label (·.map fun inner => inner.outline.mapM read)).mapM read
          (·.mapM id) = .ok (shape.map (fun expr => expr) fun body => body) :=
        StmtShape.mapM_map_ok own nested
      rw [StmtShape.map_id] at layer
      rw [Stmt.outline_node, Stmt.mapM, Stmt.fold_node, StmtShape.map_map]
      change (do
        let shape ←
          (shape.map Expr.label (List.map _ ∘ List.map Stmt.outline)).mapM read (·.mapM id)
        return Stmt.node site shape) = Except.ok _
      simp only [Stmt.mapM] at layer
      simp only [List.map_comp_map]
      erw [layer]
      rfl

theorem outline_kept {stmt : StoredStmt} (kept : store.Keeps [stmt])
    (distinct : (Stmt.numbers [stmt]).Nodup) : store.outline stmt.number = .ok stmt.outline := by
  refine outlineWithin_kept kept ?_
  have counted := Stmt.length_within [stmt]
  have bound := @length_le_of_nodup_lt _ store.stmts.size distinct fun id member => by
    obtain ⟨inner, visited, rfl⟩ := List.mem_map.mp member
    exact (kept inner visited).id_lt
  simp only [Stmt.numbers, List.length_map, List.map_cons, List.map_nil, total] at counted bound
  omega

theorem stmtTree_kept {stmt : StoredStmt} (kept : store.Keeps [stmt])
    (distinct : (Stmt.numbers [stmt]).Nodup) (distinctExprs : (Stmt.exprNumbers [stmt]).Nodup) :
    store.stmtTree stmt.number = .ok stmt := by
  have read : stmt.outline.mapM store.exprTree = .ok stmt := by
    apply mapM_outline
    intro inner visited expr member
    refine exprTree_kept ((kept inner visited).exprs expr member) ?_
    have inside := (List.nodup_flatMap.mp distinctExprs).1 inner visited
    exact (List.nodup_flatMap.mp inside).1 expr member
  rw [stmtTree, outline_kept kept distinct]
  exact read

theorem bodyTrees_kept {block : BlockId} {body : List StoredStmt} (listed : store.Lists block body)
    (kept : store.Keeps body) (distinct : (Stmt.numbers body).Nodup)
    (distinctExprs : (Stmt.exprNumbers body).Nodup) : store.bodyTrees block = .ok body := by
  rw [bodyTrees, block_listed listed]
  rw [Stmt.numbers_flatMap] at distinct
  rw [Stmt.exprNumbers_flatMap] at distinctExprs
  have each : (body.map Stmt.number).mapM store.stmtTree = .ok (body.map id) := by
    apply mapM_map_ok
    intro stmt member
    have own : store.Keeps [stmt] :=
      fun inner visited => kept inner (Stmt.mem_within_of_mem member visited)
    exact stmtTree_kept own ((List.nodup_flatMap.mp distinct).1 stmt member)
      ((List.nodup_flatMap.mp distinctExprs).1 stmt member)
  rw [List.map_id] at each
  exact each

end Store
end ScriptFlow
