import ScriptFlow.Proofs.Store.Frame
import ScriptFlow.Proofs.Store.Order
import ScriptFlow.Proofs.Threaded
import ScriptFlow.Store.Build

/-!
Putting trees into a store. What is put in is kept, with fresh numbers, and nothing that was there
changes; without its numbers the kept tree is the one that was put in.
-/

namespace ScriptFlow

def Expr.unlabelled {Label : Type} : Expr Label → ParsedExpr := relabel fun _ => ()

theorem Expr.unlabelled_node {Label : Type} (label : Label) (shape : ExprShape (Expr Label)) :
    (Expr.node label shape).unlabelled = .node () (shape.map Expr.unlabelled) := relabel_node _ _ _

def Stmt.relabel {Label Other Operand Result : Type} (f : Label → Other) (g : Operand → Result) :
    Stmt Label Operand → Stmt Other Result :=
  fold fun label shape => .node (f label) (shape.map g fun body => body)

theorem Stmt.relabel_node {Label Other Operand Result : Type} (f : Label → Other)
    (g : Operand → Result) (label : Label) (shape : StmtShape Operand (List (Stmt Label Operand))) :
    relabel f g (node label shape) = node (f label) (shape.map g (·.map (relabel f g))) := by
  simp only [relabel, fold_node, StmtShape.map_map]
  rfl

/-- The statement as it would be read from a text, without its numbers. -/
def Stmt.unnumbered : StoredStmt → ParsedStmt := relabel Site.position Expr.unlabelled

namespace Store

/-- Fresh nodes were added under the numbers named, and nothing else happened. -/
structure Allocated (before after : Store) (stmts : List StmtId) (exprs : List ExprId)
    (blocks : List BlockId) (functions : List FuncId) : Prop where
  grows : before.Grows after []
  stmts : Fills before.stmts.size stmts after.stmts.size
  exprs : Fills before.exprs.size exprs after.exprs.size
  blocks : Fills before.blocks.size blocks after.blocks.size
  functions : Fills before.functions.size functions after.functions.size
  ordered : before.Ordered → after.Ordered

namespace Allocated

theorem nil (store : Store) : store.Allocated store [] [] [] [] :=
  ⟨Grows.rfl, .nil, .nil, .nil, .nil, id⟩

variable {before between after : Store} {stmts stmts' : List StmtId} {exprs exprs' : List ExprId}
  {blocks blocks' : List BlockId} {functions functions' : List FuncId}

theorem trans (first : before.Allocated between stmts exprs blocks functions)
    (second : between.Allocated after stmts' exprs' blocks' functions') :
    before.Allocated after (stmts ++ stmts') (exprs ++ exprs') (blocks ++ blocks')
      (functions ++ functions') :=
  ⟨first.grows.trans second.grows, first.stmts.trans second.stmts, first.exprs.trans second.exprs,
    first.blocks.trans second.blocks, first.functions.trans second.functions,
    fun ordered => second.ordered (first.ordered ordered)⟩

theorem perm (allocated : before.Allocated after stmts exprs blocks functions)
    (sameStmts : stmts.Perm stmts') (sameExprs : exprs.Perm exprs')
    (sameBlocks : blocks.Perm blocks') (sameFunctions : functions.Perm functions') :
    before.Allocated after stmts' exprs' blocks' functions' :=
  ⟨allocated.grows, allocated.stmts.perm sameStmts, allocated.exprs.perm sameExprs,
    allocated.blocks.perm sameBlocks, allocated.functions.perm sameFunctions, allocated.ordered⟩

end Allocated

theorem getElem?_push_of_some {A : Type} {table : Array A} {id : Nat} {a new : A}
    (there : table[id]? = some a) : (table.push new)[id]? = some a := by
  have inside := lt_size_of_getElem? there
  rw [Array.getElem?_push_lt inside, ← there, Array.getElem?_eq_getElem inside]

theorem addExpr_allocated {shape : ExprShape ExprId} {before : Store}
    (back : ∀ operand ∈ shape.operands, operand < before.exprs.size) :
    before.Allocated ((addExpr shape).run before).2 [] [before.exprs.size] [] [] where
  grows := ⟨fun _ _ there => there, fun _ _ there => getElem?_push_of_some there,
    fun _ _ _ there => there, fun _ _ there => there⟩
  stmts := .nil
  exprs := by
    have size : ((addExpr shape).run before).2.exprs.size = before.exprs.size + 1 :=
      Array.size_push _
    rw [size]
    exact .single
  blocks := .nil
  functions := .nil
  ordered ordered := ordered.addExpr back

theorem addStmt_allocated {shape : StoredShape} {before : Store} (position : Position)
    (back : ∀ body ∈ shape.bodies, body < before.blocks.size) :
    before.Allocated ((addStmt shape position).run before).2 [before.stmts.size] [] [] [] where
  grows := ⟨fun _ _ there => getElem?_push_of_some there, fun _ _ there => there,
    fun _ _ _ there => there, fun _ _ there => there⟩
  stmts := by
    have size : ((addStmt shape position).run before).2.stmts.size = before.stmts.size + 1 :=
      Array.size_push _
    rw [size]
    exact .single
  exprs := .nil
  blocks := .nil
  functions := .nil
  ordered ordered := ordered.addStmt back

end Store

/-- The expression was put in and is kept as the tree. -/
def ExprStep (before : Store) (expr : ParsedExpr) (tree : StoredExpr) (after : Store) : Prop :=
  before.Allocated after [] (tree.within.map Expr.label) [] [] ∧ after.KeepsExpr tree ∧
    tree.unlabelled = expr

theorem expr_steps {before after : Store} {exprs : List ParsedExpr} {trees : List StoredExpr}
    (steps : Threaded ExprStep before exprs trees after) :
    before.Allocated after [] (trees.flatMap fun tree => tree.within.map Expr.label) [] [] ∧
      ∀ tree ∈ trees, after.KeepsExpr tree := by
  induction steps with
  | nil state => exact ⟨.nil state, fun _ member => absurd member List.not_mem_nil⟩
  | cons head _ ih =>
      refine ⟨head.1.trans ih.1, fun tree member => ?_⟩
      rcases List.mem_cons.mp member with rfl | later
      · exact ih.1.grows.keepsExpr head.2.1
      · exact ih.2 tree later

theorem Expr.allocate_node (shape : ExprShape ParsedExpr) :
    (Expr.node () shape).allocate = (do Store.addExpr (← shape.mapM Expr.allocate)) := by
  rw [allocate, fold_node, ExprShape.mapM_map]
  rfl

theorem Expr.allocate_step (expr : ParsedExpr) (before : Store) :
    ∃ tree after, expr.allocate.run before = (tree.label, after) ∧
      ExprStep before expr tree after := by
  induction expr using Expr.induction generalizing before with
  | node label shape ih =>
      obtain ⟨operands, between, ran, steps, views⟩ := ExprShape.mapM_threaded ih before
      obtain ⟨allocated, kept⟩ := expr_steps steps
      -- The operands were allocated first, so their numbers lie behind.
      have back : ∀ operand ∈ (operands.map Expr.label).operands, operand < between.exprs.size := by
        intro operand member
        rw [ExprShape.operands_map] at member
        obtain ⟨tree, inside, rfl⟩ := List.mem_map.mp member
        have label := List.mem_map_of_mem (f := Expr.label) (Expr.mem_within_self tree)
        exact (allocated.exprs.mem_iff.mp (List.mem_flatMap.mpr ⟨tree, inside, label⟩)).2
      have added := Store.addExpr_allocated back
      let tree : StoredExpr := .node between.exprs.size operands
      refine ⟨tree, ((Store.addExpr (operands.map Expr.label)).run between).2, ?_, ?_, ?_, ?_⟩
      · rw [allocate_node, run_bind, ran]
        rfl
      · have numbers : (tree.within.map Expr.label) = between.exprs.size ::
            operands.operands.flatMap fun tree => tree.within.map Expr.label := by
          rw [Expr.within_node, List.map_cons, List.map_flatMap]
          rfl
        rw [numbers]
        exact (allocated.trans added).perm .rfl (List.perm_append_singleton _ _) .rfl .rfl
      · intro node inside
        rw [Expr.within_node] at inside
        rcases List.mem_cons.mp inside with rfl | below
        · change (between.exprs.push _)[between.exprs.size]? = _
          rw [Array.getElem?_push_size]
          rfl
        · obtain ⟨operand, member, deeper⟩ := List.mem_flatMap.mp below
          exact added.grows.keepsExpr (kept operand member) node deeper
      · rw [Expr.unlabelled_node, ← views id Expr.unlabelled fun _ _ _ _ step => step.2.2.symm]
        have same : shape.map id = shape := by cases shape <;> simp [ExprShape.map]
        rw [same]

namespace Store

theorem getElem?_setParent (block : BlockId) (members : List StmtId)
    (stmts : Array StmtEntry) (id : StmtId) :
    (members.foldl (setParent block) stmts)[id]? = if id ∈ members then stmts[id]?.map fun entry =>
      { entry with parent := some block } else stmts[id]? := by
  induction members generalizing stmts with
  | nil => rfl
  | cons first rest ih =>
      rw [List.foldl_cons, ih, setParent, Array.getElem?_modify]
      by_cases same : first = id
      · subst same
        by_cases again : first ∈ rest <;> simp [again, Function.comp_def]
      · simp [same, Ne.symm same]

theorem size_setParent (block : BlockId) (members : List StmtId) (stmts : Array StmtEntry) :
    (members.foldl (setParent block) stmts).size = stmts.size := by
  induction members generalizing stmts with
  | nil => rfl
  | cons first rest ih => rw [List.foldl_cons, ih, setParent, Array.size_modify]

def withList (store : Store) (members : List StmtId) : Store := ((addBlock members).run store).2

variable {store : Store}

theorem withList_stmts (members : List StmtId) (id : StmtId) :
    (store.withList members).stmts[id]? = if id ∈ members
      then store.stmts[id]?.map fun entry => { entry with parent := some store.blocks.size }
      else store.stmts[id]? := getElem?_setParent _ members store.stmts id

theorem withList_blocks (members : List StmtId) {id : BlockId} {list : List StmtId}
    (there : store.blocks[id]? = some list) : (store.withList members).blocks[id]? = some list :=
  getElem?_push_of_some there

theorem withList_entry (members : List StmtId) {id : StmtId} {entry : StmtEntry}
    (there : store.stmts[id]? = some entry) :
    ∃ parent, (store.withList members).stmts[id]? = some { entry with parent } := by
  rw [withList_stmts, there]
  by_cases member : id ∈ members
  · exact ⟨some store.blocks.size, by rw [if_pos member, Option.map_some]⟩
  · exact ⟨entry.parent, by rw [if_neg member]⟩

theorem withList_bodiesOf (members : List StmtId)
    {stmt : StoredStmt} (kept : store.KeepsStmt stmt) :
    (store.withList members).bodiesOf stmt.number = store.bodiesOf stmt.number := by
  obtain ⟨entry, there, _⟩ := kept
  obtain ⟨parent, there'⟩ := withList_entry members there
  rw [bodiesOf, bodiesOf, there, there']
  rfl

theorem withList_blockNumbers (members : List StmtId)
    {body : List StoredStmt} (kept : store.Keeps body) :
    (store.withList members).blockNumbers body = store.blockNumbers body := by
  have each : ∀ stmt ∈ Stmt.within body,
      (store.withList members).bodiesOf stmt.number = store.bodiesOf stmt.number :=
    fun stmt member => withList_bodiesOf members (kept stmt member)
  unfold Store.blockNumbers
  exact List.flatMap_congr each

theorem nested_not_root {body : List StoredStmt} (distinct : (Stmt.numbers body).Nodup)
    {stmt inner : StoredStmt} (visited : stmt ∈ Stmt.within body) (below : inner ∈ stmt.nested) :
    inner.number ∉ body.map Stmt.number := by
  have order : (Stmt.numbers body).Perm
      (body.map Stmt.number ++ ((Stmt.within body).flatMap Stmt.nested).map Stmt.number) := by
    rw [← List.map_append]
    exact (preorder_perm body).map Stmt.number
  have apart := (List.nodup_append.mp (order.nodup_iff.mp distinct)).2.2
  intro root
  exact apart _ root _ (List.mem_map_of_mem (List.mem_flatMap.mpr ⟨stmt, visited, below⟩)) rfl

theorem withList_lists_of_lists {members : List StmtId} {block : BlockId} {body : List StoredStmt}
    (listed : store.Lists block body) (apart : ∀ stmt ∈ body, stmt.number ∉ members) :
    (store.withList members).Lists block body := by
  refine ⟨withList_blocks _ listed.1, fun stmt member => ?_⟩
  obtain ⟨entry, there, owner⟩ := listed.2 stmt member
  exact ⟨entry, by rw [withList_stmts, if_neg (apart stmt member), there], owner⟩

theorem withList_keeps {members : List StmtId} {body : List StoredStmt} (kept : store.Keeps body)
    (apart : ∀ stmt ∈ Stmt.within body, ∀ inner ∈ stmt.nested, inner.number ∉ members) :
    (store.withList members).Keeps body := by
  intro stmt visited
  obtain ⟨entry, there, placed, matched⟩ := kept stmt visited
  obtain ⟨parent, there'⟩ := withList_entry members there
  refine ⟨_, there', placed,
    matched.imp (fun _ _ _ _ kept => kept) fun block _ inner inside listed => ?_⟩
  exact withList_lists_of_lists listed fun nested member =>
    apart stmt visited nested (List.mem_flatten.mpr ⟨inner, inside, member⟩)

theorem withList_lists {body : List StoredStmt} (kept : store.Keeps body) :
    (store.withList (body.map Stmt.number)).Lists store.blocks.size body := by
  refine ⟨Array.getElem?_push_size, fun stmt member => ?_⟩
  obtain ⟨entry, there, _⟩ := kept.of_mem member
  refine ⟨{ entry with parent := some store.blocks.size }, ?_, rfl⟩
  rw [withList_stmts, if_pos (List.mem_map_of_mem member), there]
  rfl

theorem withList_ordered {body : List StoredStmt} (ordered : store.Ordered)
    (there : ∀ stmt ∈ body, stmt.number < store.stmts.size) :
    (store.withList (body.map Stmt.number)).Ordered := by
  have grown : (store.withList (body.map Stmt.number)).blocks.size = store.blocks.size + 1 :=
    Array.size_push _
  refine ordered.of_shapes rfl (fun id => ?_) (size_setParent _ _ _)
    (by omega) fun block members inside id member => ?_
  · rw [withList_stmts]
    split
    · rw [Option.map_map]
      rfl
    · rfl
  · rcases getElem?_push_elim inside with old | ⟨rfl, rfl⟩
    · exact ordered.lists block members old id member
    · obtain ⟨stmt, own, rfl⟩ := List.mem_map.mp member
      exact ⟨there stmt own, ordered.bodiesOf_lt _⟩

theorem withList_allocated {before : Store} {body : List StoredStmt} {stmts : List StmtId}
    {exprs : List ExprId} {blocks : List BlockId} {functions : List FuncId}
    (allocated : before.Allocated store stmts exprs blocks functions)
    (fresh : ∀ stmt ∈ body, stmt.number ∈ stmts) :
    before.Allocated (store.withList (body.map Stmt.number)) stmts exprs
      (blocks ++ [store.blocks.size]) functions where
  grows := by
    refine ⟨fun id entry there => ?_, allocated.grows.exprs, fun id outside members there => ?_,
      allocated.grows.functions⟩
    -- The statements of the list are new, so none of them was in the store before.
    · have old : id ∉ body.map Stmt.number := by
        intro member
        obtain ⟨stmt, inside, rfl⟩ := List.mem_map.mp member
        have late := (allocated.stmts.mem_iff.mp (fresh stmt inside)).1
        have early := lt_size_of_getElem? there
        omega
      rw [withList_stmts, if_neg old]
      exact allocated.grows.stmts id entry there
    · exact withList_blocks _ (allocated.grows.blocks id outside members there)
  stmts := by
    have size : (store.withList (body.map Stmt.number)).stmts.size = store.stmts.size :=
      size_setParent _ _ _
    rw [size]
    exact allocated.stmts
  exprs := allocated.exprs
  blocks := by
    have size : (store.withList (body.map Stmt.number)).blocks.size = store.blocks.size + 1 :=
      Array.size_push _
    rw [size]
    exact allocated.blocks.trans .single
  functions := allocated.functions
  ordered start := withList_ordered (allocated.ordered start) fun stmt member =>
    (allocated.stmts.mem_iff.mp (fresh stmt member)).2

end Store

def StmtStep (before : Store) (stmt : ParsedStmt) (tree : StoredStmt) (after : Store) : Prop :=
  before.Allocated after (Stmt.numbers [tree]) (Stmt.exprNumbers [tree])
    (after.blockNumbers [tree]) [] ∧ after.Keeps [tree] ∧ tree.unnumbered = stmt

/-- The list was put in, with the number that comes first in the pair, and is kept as the trees. -/
def BodyStep (before : Store) (body : List ParsedStmt) (result : BlockId × List StoredStmt)
    (after : Store) : Prop :=
  before.Allocated after (Stmt.numbers result.2) (Stmt.exprNumbers result.2)
      (after.blockNumbers result.2 ++ [result.1]) [] ∧
    after.Lists result.1 result.2 ∧ after.Keeps result.2 ∧ result.2.map Stmt.unnumbered = body

theorem stmt_steps {before after : Store} {body : List ParsedStmt}
    {trees : List StoredStmt} (steps : Threaded StmtStep before body trees after) :
    before.Allocated after (Stmt.numbers trees) (Stmt.exprNumbers trees)
      (after.blockNumbers trees) [] ∧ after.Keeps trees := by
  induction steps with
  | nil state =>
      rw [Stmt.numbers_nil, Stmt.exprNumbers_nil, Store.blockNumbers_nil]
      exact ⟨.nil state, Store.keeps_nil⟩
  | @cons before between after item tree items trees head tail ih =>
      obtain ⟨first, kept, _⟩ := head
      have stays := ih.1.grows.blockNumbers kept
      rw [← List.singleton_append, Stmt.numbers_append, Stmt.exprNumbers_append,
        Store.blockNumbers_append, stays]
      exact ⟨first.trans ih.1, (ih.1.grows.keeps kept fun _ _ => List.not_mem_nil).append ih.2⟩

def allocateBody (body : List ParsedStmt) : StateM Store BlockId := do
  Store.addBlock (← body.mapM Stmt.allocate)

theorem Stmt.allocate_node (position : Position) (shape : StmtShape ParsedExpr (List ParsedStmt)) :
    Stmt.allocate (.node position shape) =
      (do Store.addStmt (← shape.mapM Expr.allocate allocateBody) position) := by
  rw [allocate, fold_node]
  change (do
    Store.addStmt (← (shape.map id fun body : List ParsedStmt =>
        body.map Stmt.allocate).mapM Expr.allocate fun members : List (StateM Store StmtId) =>
        do Store.addBlock (← members.mapM id)) position) = _
  rw [StmtShape.mapM_map]
  simp only [List.mapM_map, id_eq]
  rfl

theorem allocateBody_step {body : List ParsedStmt}
    (stmts : ∀ stmt ∈ body, ∀ before, ∃ tree after,
      stmt.allocate.run before = (tree.number, after) ∧ StmtStep before stmt tree after)
    (before : Store) : ∃ result after, (allocateBody body).run before = (Prod.fst result, after) ∧
      BodyStep before body result after := by
  obtain ⟨trees, between, ran, steps⟩ := mapM_threaded stmts before
  obtain ⟨allocated, kept⟩ := stmt_steps steps
  refine ⟨(between.blocks.size, trees), between.withList (trees.map Stmt.number), ?_,
    ?_, ?_, ?_, ?_⟩
  · rw [allocateBody, run_bind, ran]
    rfl
  · rw [Store.withList_blockNumbers _ kept]
    exact Store.withList_allocated allocated fun stmt member => Stmt.number_mem_of_mem member
  · exact Store.withList_lists kept
  · exact Store.withList_keeps kept fun _ visited _ below =>
      Store.nested_not_root allocated.stmts.nodup visited below
  · have same := steps.map_eq (f := id) (g := Stmt.unnumbered) fun _ _ _ _ step => step.2.2.symm
    rw [← same, List.map_id]

section
variable (store : Store)

def partStmts : StoredExpr ⊕ (BlockId × List StoredStmt) → List StmtId
  | .inl _ => []
  | .inr body => Stmt.numbers body.2

def partExprs : StoredExpr ⊕ (BlockId × List StoredStmt) → List ExprId
  | .inl expr => expr.within.map Expr.label
  | .inr body => Stmt.exprNumbers body.2

def partBlocks : StoredExpr ⊕ (BlockId × List StoredStmt) → List BlockId
  | .inl _ => []
  | .inr body => store.blockNumbers body.2 ++ [body.1]

def KeepsPart : StoredExpr ⊕ (BlockId × List StoredStmt) → Prop
  | .inl expr => store.KeepsExpr expr
  | .inr body => store.Lists body.1 body.2 ∧ store.Keeps body.2

end

theorem part_step {before after : Store} {item : ParsedExpr ⊕ List ParsedStmt}
    {part : StoredExpr ⊕ (BlockId × List StoredStmt)}
    (step : StmtShape.PartStep ExprStep BodyStep before item part after) :
    before.Allocated after (partStmts part) (partExprs part) (partBlocks after part) [] ∧
      KeepsPart after part := by
  match item, part, step with
  | .inl _, .inl _, step => exact ⟨step.1, step.2.1⟩
  | .inr _, .inr _, step => exact ⟨step.1, step.2.1, step.2.2.1⟩

theorem KeepsPart.grows {before after : Store} {part : StoredExpr ⊕ (BlockId × List StoredStmt)}
    (kept : KeepsPart before part) (grows : before.Grows after []) :
    KeepsPart after part ∧ partBlocks after part = partBlocks before part := by
  match part, kept with
  | .inl _, kept => exact ⟨grows.keepsExpr kept, rfl⟩
  | .inr body, kept =>
      refine ⟨⟨grows.lists kept.1 List.not_mem_nil, grows.keeps kept.2 fun _ _ =>
          List.not_mem_nil⟩, ?_⟩
      rw [partBlocks, partBlocks, grows.blockNumbers kept.2]

theorem part_steps {before after : Store} {items : List (ParsedExpr ⊕ List ParsedStmt)}
    {parts : List (StoredExpr ⊕ (BlockId × List StoredStmt))}
    (steps : Threaded (StmtShape.PartStep ExprStep BodyStep) before items parts after) :
    before.Allocated after (parts.flatMap partStmts) (parts.flatMap partExprs)
        (parts.flatMap (partBlocks after)) [] ∧
      ∀ part ∈ parts, KeepsPart after part := by
  induction steps with
  | nil state => exact ⟨.nil state, fun _ member => absurd member List.not_mem_nil⟩
  | cons head _ ih =>
      obtain ⟨first, kept⟩ := part_step head
      obtain ⟨keptStill, same⟩ := kept.grows ih.1.grows
      refine ⟨?_, fun part member => ?_⟩
      · simp only [List.flatMap_cons, same]
        exact first.trans ih.1
      · rcases List.mem_cons.mp member with rfl | later
        · exact keptStill
        · exact ih.2 part later

namespace StoredShape

/-- A statement's shape over trees, when every body comes with its number. -/
def tree (shape : StmtShape StoredExpr (BlockId × List StoredStmt)) :
    StmtShape StoredExpr (List StoredStmt) :=
  shape.map (fun expr => expr) Prod.snd

/-- The same shape over numbers, as the store has it. -/
def entry (shape : StmtShape StoredExpr (BlockId × List StoredStmt)) : StoredShape :=
  shape.map Expr.label Prod.fst

variable (shape : StmtShape StoredExpr (BlockId × List StoredStmt))

theorem numbers_tree (site : Site) :
    (site.id :: shape.parts.flatMap partStmts).Perm (Stmt.numbers [.node site (tree shape)]) := by
  have order := (shape.parts_perm).flatMap_right partStmts
  have own : Stmt.numbers [.node site (tree shape)] =
      site.id :: shape.bodies.flatMap fun body => Stmt.numbers body.2 := by
    rw [Stmt.numbers, Stmt.within_node, Stmt.within_flatten, tree, StmtShape.bodies_map,
      List.map_cons, List.map_flatMap, List.flatMap_map]
    rfl
  rw [own]
  refine .cons _ (order.trans (.of_eq ?_))
  rw [List.flatMap_append, List.flatMap_map, List.flatMap_map]
  simp [partStmts]

theorem exprNumbers_tree (site : Site) :
    (shape.parts.flatMap partExprs).Perm (Stmt.exprNumbers [.node site (tree shape)]) := by
  have order := (shape.parts_perm).flatMap_right partExprs
  have own : Stmt.exprNumbers [.node site (tree shape)] =
      (shape.exprs.flatMap fun expr => expr.within.map Expr.label) ++
        shape.bodies.flatMap fun body => Stmt.exprNumbers body.2 := by
    rw [Stmt.exprNumbers, Stmt.within_node, Stmt.within_flatten, List.flatMap_cons,
      Stmt.shape_node, tree, StmtShape.bodies_map, StmtShape.exprs_map, List.flatMap_assoc,
      List.flatMap_map, List.flatMap_map]
    rfl
  rw [own]
  refine order.trans (.of_eq ?_)
  rw [List.flatMap_append, List.flatMap_map, List.flatMap_map]
  rfl

theorem blockNumbers_tree {store : Store} (site : Site)
    (entries : store.bodiesOf site.id = (entry shape).bodies) :
    (shape.parts.flatMap (partBlocks store)).Perm
      (store.blockNumbers [.node site (tree shape)]) := by
  have order := (shape.parts_perm).flatMap_right (partBlocks store)
  have own : store.blockNumbers [.node site (tree shape)] =
      shape.bodies.map Prod.fst ++ shape.bodies.flatMap fun body => store.blockNumbers body.2 := by
    rw [Store.blockNumbers, Stmt.within_node, Stmt.within_flatten, List.flatMap_cons, tree,
      StmtShape.bodies_map, List.flatMap_assoc, List.flatMap_map]
    change store.bodiesOf site.id ++ _ = _
    rw [entries, entry, StmtShape.bodies_map]
    rfl
  rw [own]
  refine order.trans ?_
  -- Expressions own no lists.
  have leaves : (shape.exprs.map Sum.inl).flatMap (partBlocks store) = [] :=
    List.flatMap_eq_nil_iff.mpr fun part member => by
      obtain ⟨expr, _, rfl⟩ := List.mem_map.mp member
      rfl
  rw [List.flatMap_append, leaves, List.flatMap_map, List.nil_append]
  simp only [partBlocks]
  have pairs : (shape.bodies.flatMap fun body => store.blockNumbers body.2 ++ [body.1]).Perm
      (shape.bodies.map Prod.fst ++ shape.bodies.flatMap fun body =>
      store.blockNumbers body.2) := by
    induction shape.bodies with
    | nil => exact .nil
    | cons body rest ih =>
        simp only [List.flatMap_cons, List.map_cons, List.cons_append,
          List.append_assoc, List.nil_append]
        refine (List.Perm.append_left _ (.cons _ ih)).trans ?_
        refine List.perm_middle.trans (.cons _ ?_)
        exact List.perm_append_comm_assoc _ _ _
  exact pairs

end StoredShape

theorem Stmt.allocate_step (stmt : ParsedStmt) (before : Store) :
    ∃ tree after, stmt.allocate.run before = (tree.number, after) ∧
      StmtStep before stmt tree after := by
  induction stmt using Stmt.induction generalizing before with
  | node position shape ih =>
      have bodies (body : List ParsedStmt) (inside : body ∈ shape.bodies) :=
        allocateBody_step fun stmt member => ih stmt (List.mem_flatten.mpr ⟨body, inside, member⟩)
      obtain ⟨result, between, ran, steps, matched⟩ := StmtShape.mapM_threaded
        (fun expr _ => Expr.allocate_step expr) bodies before
      obtain ⟨allocated, kept⟩ := part_steps steps
      -- the bodies have been allocated first, so that the entry only refers to lists that exist
      have back : ∀ body ∈ (StoredShape.entry result).bodies, body < between.blocks.size := by
        intro block member
        rw [StoredShape.entry, StmtShape.bodies_map] at member
        obtain ⟨body, inside, rfl⟩ := List.mem_map.mp member
        have part : Sum.inr body ∈ result.parts := result.parts_perm.mem_iff.mpr (by simp [inside])
        have own : body.1 ∈ partBlocks between (.inr body) :=
          List.mem_append_right _ (List.mem_singleton.mpr rfl)
        exact (allocated.blocks.mem_iff.mp (List.mem_flatMap.mpr ⟨.inr body, part, own⟩)).2
      have added := Store.addStmt_allocated position back
      let site : Site := ⟨between.stmts.size, position⟩
      let after := ((Store.addStmt (StoredShape.entry result) position).run between).2
      have there : after.stmts[site.id]? = some ⟨StoredShape.entry result, position, none⟩ :=
        Array.getElem?_push_size
      have keptAfter (part) (member : part ∈ result.parts) : KeepsPart after part ∧
          partBlocks after part = partBlocks between part := (kept part member).grows added.grows
      have inParts := result.parts_perm
      have exprs (expr) (member : expr ∈ result.exprs) : after.KeepsExpr expr :=
        (keptAfter (.inl expr) (inParts.mem_iff.mpr (by simp [member]))).1
      have lists (body) (member : body ∈ result.bodies) : after.Lists body.1 body.2 ∧
          after.Keeps body.2 :=
        (keptAfter (.inr body) (inParts.mem_iff.mpr (by simp [member]))).1
      refine ⟨.node site (StoredShape.tree result), after, ?_, ?_, ?_, ?_⟩
      · rw [allocate_node, run_bind, ran]
        rfl
      · refine (allocated.trans added).perm ?_ ?_ ?_ .rfl
        · exact (List.perm_append_singleton _ _).trans (StoredShape.numbers_tree result site)
        · rw [List.append_nil]
          exact StoredShape.exprNumbers_tree result site
        · have same : result.parts.flatMap (partBlocks between) =
              result.parts.flatMap (partBlocks after) :=
            List.flatMap_congr fun part member => (keptAfter part member).2.symm
          rw [List.append_nil, same]
          refine StoredShape.blockNumbers_tree result site ?_
          rw [Store.bodiesOf, there]
          rfl
      · intro node visited
        rw [Stmt.within_node] at visited
        rcases List.mem_cons.mp visited with rfl | below
        · refine ⟨_, there, rfl, ?_⟩
          apply StmtShape.Match.mapped
          exact StmtShape.match_self (fun expr member => ⟨rfl, exprs expr member⟩)
            fun body member => (lists body member).1
        · rw [Stmt.within_flatten, StoredShape.tree, StmtShape.bodies_map] at below
          obtain ⟨inner, member, deeper⟩ := List.mem_flatMap.mp below
          obtain ⟨body, inside, rfl⟩ := List.mem_map.mp member
          exact (lists body inside).2 node deeper
      · rw [Stmt.unnumbered, Stmt.relabel_node, StoredShape.tree, StmtShape.map_map]
        refine congrArg _ (StmtShape.eq_map_of_match (matched.flip.imp ?_ ?_))
        · rintro expr - item - ⟨_, _, step⟩
          exact step.2.2
        · rintro body - item - ⟨_, _, step⟩
          exact step.2.2.2

end ScriptFlow
