import ScriptFlow.Program.Basic
import ScriptFlow.Proofs.File.Arranged
import ScriptFlow.Proofs.Store.Allocation

/-!
What a program's store holds, as trees: the list of the script and the functions nested in one
another, each with its list. Every number in the tables belongs to one node of them.
-/

namespace ScriptFlow

namespace Rose

variable {Label Other : Type}

@[simp] theorem label_node (label : Label) (children : List (Rose Label)) :
    (node label children).label = label := rfl

@[simp] theorem children_node (label : Label) (children : List (Rose Label)) :
    (node label children).children = children := rfl

def nodes (forest : List (Rose Label)) : List (Rose Label) :=
  preorderBy children size children_shrink forest

theorem labels_eq (forest : List (Rose Label)) : labels forest = (nodes forest).map label := rfl

@[simp] theorem nodes_nil : nodes ([] : List (Rose Label)) = [] := preorder_nil

theorem nodes_append (front back : List (Rose Label)) :
    nodes (front ++ back) = nodes front ++ nodes back :=
  preorder_append front back

theorem nodes_node (label : Label) (children : List (Rose Label)) :
    nodes [node label children] = node label children :: nodes children := preorder_tree _

@[simp] theorem labels_nil : labels ([] : List (Rose Label)) = [] := by
  rw [labels_eq, nodes_nil, List.map_nil]

theorem labels_append (front back : List (Rose Label)) :
    labels (front ++ back) = labels front ++ labels back := by
  simp only [labels_eq, nodes_append, List.map_append]

theorem labels_node (label : Label) (children : List (Rose Label)) :
    labels [node label children] = label :: labels children := by
  simp only [labels_eq, nodes_node, List.map_cons, label_node]

theorem labels_cons (tree : Rose Label) (rest : List (Rose Label)) :
    labels (tree :: rest) = labels [tree] ++ labels rest := labels_append [tree] rest

theorem induction {P : Rose Label → Prop}
    (node : ∀ label children, (∀ child ∈ children, P child) → P (.node label children))
    (tree : Rose Label) : P tree :=
  tree_induction children_shrink (fun | .node label children => node label children) tree

end Rose

abbrev NumberedBody := BlockId × List StoredStmt

structure Routine where
  id : FuncId
  header : Header
  body : NumberedBody

mutual
def Routine.function : Rose Routine → StoredFunction
  | .node routine children =>
      .mk routine.header (itemsOf routine.body.2 (routineFunctions children))

def routineFunctions : List (Rose Routine) → List StoredFunction
  | [] => []
  | first :: rest => Routine.function first :: routineFunctions rest
end

theorem routineFunctions_eq (forest : List (Rose Routine)) :
    routineFunctions forest = forest.map Routine.function := by
  induction forest with
  | nil => rfl
  | cons first rest ih => rw [routineFunctions, ih, List.map_cons]

structure Layout where
  script : Option NumberedBody
  functions : List (Rose Routine)

namespace Layout

def bodies (layout : Layout) : List NumberedBody :=
  layout.script.toList ++ (Rose.labels layout.functions).map Routine.body

def file (layout : Layout) : File Site StoredExpr :=
  ⟨itemsOf ((layout.script.map Prod.snd).getD []) (layout.functions.map Routine.function)⟩

end Layout

def stmtsOf (bodies : List NumberedBody) : List StmtId :=
  bodies.flatMap fun body => Stmt.numbers body.2

def exprsOf (bodies : List NumberedBody) : List ExprId :=
  bodies.flatMap fun body => Stmt.exprNumbers body.2

namespace Store

variable (store : Store)

def listsOf (bodies : List NumberedBody) : List BlockId :=
  bodies.flatMap fun body => store.blockNumbers body.2 ++ [body.1]

def HoldsBody (body : NumberedBody) : Prop := store.Lists body.1 body.2 ∧ store.Keeps body.2

def HoldsRoutine (tree : Rose Routine) : Prop :=
  store.functions[tree.label.id]? =
      some ⟨tree.label.header, tree.label.body.1, tree.children.map fun child => child.label.id⟩ ∧
    store.HoldsBody tree.label.body

structure Holds (layout : Layout) : Prop where
  script : ∀ body ∈ layout.script, store.HoldsBody body
  routines : ∀ tree ∈ Rose.nodes layout.functions, store.HoldsRoutine tree
  stmts : Fills 0 (stmtsOf layout.bodies) store.stmts.size
  exprs : Fills 0 (exprsOf layout.bodies) store.exprs.size
  blocks : Fills 0 (store.listsOf layout.bodies) store.blocks.size
  functions : Fills 0 ((Rose.labels layout.functions).map Routine.id) store.functions.size
  ordered : store.Ordered

end Store

/-- The program's roots and its store are what the layout says. -/
structure Program.Holds (program : Program) (layout : Layout) : Prop where
  store : program.store.Holds layout
  script : program.script = layout.script.map Prod.fst
  functions : program.functions = layout.functions.map fun tree => tree.label.id

def routineBodies (forest : List (Rose Routine)) : List NumberedBody :=
  (Rose.labels forest).map Routine.body

namespace Store

variable {before between after store : Store} {changed : List BlockId}
  {bodies others : List NumberedBody}

theorem listsOf_append :
    store.listsOf (bodies ++ others) = store.listsOf bodies ++ store.listsOf others :=
  List.flatMap_append

theorem listsOf_cons (body : NumberedBody) :
    store.listsOf (body :: bodies) = store.blockNumbers body.2 ++ [body.1] ++
      store.listsOf bodies :=
  List.flatMap_cons

theorem Grows.listsOf (grows : before.Grows after changed)
    (held : ∀ body ∈ bodies, before.HoldsBody body) :
    after.listsOf bodies = before.listsOf bodies :=
  List.flatMap_congr fun body member => by rw [grows.blockNumbers (held body member).2]

theorem Grows.holdsBody (grows : before.Grows after changed) {body : NumberedBody}
    (held : before.HoldsBody body) (outside : ∀ block ∈ before.listsOf [body], block ∉ changed) :
    after.HoldsBody body := by
  simp only [Store.listsOf, List.flatMap_cons, List.flatMap_nil, List.append_nil, List.mem_append,
    List.mem_singleton] at outside
  exact ⟨grows.lists held.1 (outside _ (.inr (Eq.refl _))), grows.keeps held.2 fun block inside =>
    outside block (.inl inside)⟩

theorem Grows.holdsRoutine (grows : before.Grows after []) {tree : Rose Routine}
    (held : before.HoldsRoutine tree) : after.HoldsRoutine tree :=
  ⟨grows.functions _ _ held.1, grows.holdsBody held.2 fun _ _ => List.not_mem_nil⟩

theorem withList_holdsBody {members : List StmtId} {body : NumberedBody}
    (held : store.HoldsBody body) (apart : ∀ id ∈ Stmt.numbers body.2, id ∉ members) :
    (store.withList members).HoldsBody body := by
  refine ⟨withList_lists_of_lists held.1 fun stmt member =>
    apart _ (Stmt.number_mem_of_mem member), ?_⟩
  refine withList_keeps held.2 fun stmt visited inner below => apart _ (Stmt.number_mem ?_)
  exact Stmt.mem_within_trans visited (Stmt.mem_within_self below)

theorem withList_listsOf (members : List StmtId) (held : ∀ body ∈ bodies, store.HoldsBody body) :
    (store.withList members).listsOf bodies = store.listsOf bodies :=
  List.flatMap_congr fun body member => by rw [withList_blockNumbers members (held body member).2]

theorem addFunction_allocated (entry : FunctionEntry) (before : Store) :
    before.Allocated ((addFunction entry).run before).2 [] [] [] [before.functions.size] where
  grows := ⟨fun _ _ there => there, fun _ _ there => there, fun _ _ _ there => there,
    fun _ _ there => getElem?_push_of_some there⟩
  stmts := .nil
  exprs := .nil
  blocks := .nil
  functions := by
    have size : ((addFunction entry).run before).2.functions.size = before.functions.size + 1 :=
      Array.size_push _
    rw [size]
    exact .single
  ordered ordered := ordered.addFunction

end Store

structure RoutinesStep (before : Store) (functions : List ParsedFunction)
    (forest : List (Rose Routine)) (after : Store) : Prop where
  allocated :
    before.Allocated after (stmtsOf (routineBodies forest)) (exprsOf (routineBodies forest))
      (after.listsOf (routineBodies forest)) ((Rose.labels forest).map Routine.id)
  held : ∀ tree ∈ Rose.nodes forest, after.HoldsRoutine tree
  same : forest.map (fun tree => (Routine.function tree).map id Stmt.unnumbered) = functions

structure ItemsStep (before : Store) (items : List ParsedItem) (stmts : List StoredStmt)
    (forest : List (Rose Routine)) (after : Store) : Prop where
  allocated : before.Allocated after (Stmt.numbers stmts ++ stmtsOf (routineBodies forest))
      (Stmt.exprNumbers stmts ++ exprsOf (routineBodies forest)) (after.blockNumbers stmts ++
      after.listsOf (routineBodies forest)) ((Rose.labels forest).map Routine.id)
  kept : after.Keeps stmts
  held : ∀ tree ∈ Rose.nodes forest, after.HoldsRoutine tree
  sameStmts : stmts.map Stmt.unnumbered = items.filterMap Item.statement?
  same : forest.map (fun tree => (Routine.function tree).map id Stmt.unnumbered) =
      arrangedFunctions items

theorem mem_routineBodies {forest : List (Rose Routine)}
    {body : NumberedBody} (member : body ∈ routineBodies forest) :
    ∃ tree ∈ Rose.nodes forest, tree.label.body = body := by
  rw [routineBodies, Rose.labels_eq, List.map_map] at member
  exact List.mem_map.mp member

theorem mem_routineBodies_of_mem {forest : List (Rose Routine)} {tree : Rose Routine}
    (visited : tree ∈ Rose.nodes forest) : tree.label.body ∈ routineBodies forest := by
  rw [routineBodies, Rose.labels_eq, List.map_map]
  exact List.mem_map.mpr ⟨tree, visited, rfl⟩

theorem holds_bodies {store : Store} {forest : List (Rose Routine)}
    (held : ∀ tree ∈ Rose.nodes forest, store.HoldsRoutine tree) :
    ∀ body ∈ routineBodies forest, store.HoldsBody body := by
  intro body member
  obtain ⟨tree, visited, rfl⟩ := mem_routineBodies member
  exact (held tree visited).2

theorem routineBodies_append (front back : List (Rose Routine)) :
    routineBodies (front ++ back) = routineBodies front ++ routineBodies back := by
  rw [routineBodies, Rose.labels_append, List.map_append, routineBodies, routineBodies]

theorem routineBodies_node (routine : Routine) (children : List (Rose Routine)) :
    routineBodies [.node routine children] = routine.body :: routineBodies children := by
  rw [routineBodies, Rose.labels_node, List.map_cons, routineBodies]

theorem ItemsStep.nil (before : Store) : ItemsStep before [] [] [] before where
  allocated := by
    rw [Store.blockNumbers_nil, Stmt.numbers_nil, Stmt.exprNumbers_nil,
      routineBodies, Rose.labels_nil]
    exact .nil before
  kept := Store.keeps_nil
  held _ visited := absurd visited (by rw [Rose.nodes_nil]; exact List.not_mem_nil)
  sameStmts := rfl
  same := rfl

theorem ItemsStep.stmt {before between after : Store} {stmt : ParsedStmt} {tree : StoredStmt}
    {items : List ParsedItem} {stmts : List StoredStmt} {forest : List (Rose Routine)}
    (head : StmtStep before stmt tree between) (tail : ItemsStep between items stmts forest after) :
    ItemsStep before (.stmt stmt :: items) (tree :: stmts) forest after := by
  obtain ⟨first, kept, same⟩ := head
  have grows := tail.allocated.grows
  refine ⟨?_, ?_, tail.held, ?_, tail.same⟩
  · have stays := grows.blockNumbers kept
    have whole := first.trans tail.allocated
    rw [← stays] at whole
    simp only [← List.append_assoc, ← Stmt.numbers_append, ← Stmt.exprNumbers_append,
      ← Store.blockNumbers_append] at whole
    exact whole
  · exact Store.Keeps.append (grows.keeps kept fun _ _ => List.not_mem_nil) tail.kept
  · rw [List.map_cons, same, tail.sameStmts]
    rfl

theorem ItemsStep.function {before between after : Store} {function : ParsedFunction}
    {tree : Rose Routine} {items : List ParsedItem} {stmts : List StoredStmt}
    {forest : List (Rose Routine)} (head : RoutinesStep before [function.arranged] [tree] between)
    (tail : ItemsStep between items stmts forest after) :
    ItemsStep before (.function function :: items) stmts (tree :: forest) after := by
  have grows := tail.allocated.grows
  have bodies := holds_bodies head.held
  refine ⟨?_, tail.kept, ?_, tail.sameStmts, ?_⟩
  · have stays := grows.listsOf bodies
    have whole := head.allocated.trans tail.allocated
    rw [← stays] at whole
    rw [← List.singleton_append, routineBodies_append, Rose.labels_append, List.map_append,
      Store.listsOf_append]
    simp only [stmtsOf, exprsOf, List.flatMap_append] at whole ⊢
    exact whole.perm (List.perm_append_comm_assoc _ _ _) (List.perm_append_comm_assoc _ _ _)
      (List.perm_append_comm_assoc _ _ _) .rfl
  · intro node visited
    rw [← List.singleton_append, Rose.nodes_append] at visited
    rcases List.mem_append.mp visited with inHead | inTail
    · exact grows.holdsRoutine (head.held node inHead)
    · exact tail.held node inTail
  · have first := head.same
    simp only [List.map_cons, List.map_nil, List.cons.injEq, and_true] at first
    rw [List.map_cons, first, tail.same, arrangedFunctions]

theorem ItemsStep.listed {before between : Store} {items : List ParsedItem}
    {stmts : List StoredStmt} {forest : List (Rose Routine)}
    (step : ItemsStep before items stmts forest between) :
    before.Allocated (between.withList (stmts.map Stmt.number))
        (Stmt.numbers stmts ++ stmtsOf (routineBodies forest))
          (Stmt.exprNumbers stmts ++ exprsOf (routineBodies forest))
        (between.blockNumbers stmts ++ between.listsOf (routineBodies forest) ++
          [between.blocks.size])
        ((Rose.labels forest).map Routine.id) ∧
      (between.withList (stmts.map Stmt.number)).Keeps stmts ∧
      ∀ body ∈ routineBodies forest, (between.withList (stmts.map Stmt.number)).HoldsBody body := by
  have distinct := List.nodup_append.mp step.allocated.stmts.nodup
  refine ⟨?_, ?_, fun body member => ?_⟩
  · exact Store.withList_allocated step.allocated fun stmt member =>
      List.mem_append_left _ (Stmt.number_mem_of_mem member)
  · exact Store.withList_keeps step.kept fun _ visited _ below =>
      Store.nested_not_root distinct.1 visited below
  · refine Store.withList_holdsBody (holds_bodies step.held body member) fun id inside root => ?_
    obtain ⟨stmt, own, rfl⟩ := List.mem_map.mp root
    have later : stmt.number ∈ stmtsOf (routineBodies forest) :=
      List.mem_flatMap.mpr ⟨body, member, inside⟩
    exact distinct.2.2 _ (Stmt.number_mem_of_mem own) _ later rfl

theorem ItemsStep.routine {before between : Store} {header : Header}
    {items : List ParsedItem} {stmts : List StoredStmt} {forest : List (Rose Routine)}
    (step : ItemsStep before items stmts forest between) :
    RoutinesStep before [(Function.mk header items).arranged]
      [.node ⟨between.functions.size, header, between.blocks.size, stmts⟩ forest]
      ((Store.addFunction ⟨header, between.blocks.size, forest.map fun tree => tree.label.id⟩).run
        (between.withList (stmts.map Stmt.number))).2 := by
  obtain ⟨listed, keeps, others⟩ := step.listed
  have added :=
    Store.addFunction_allocated ⟨header, between.blocks.size, forest.map fun tree => tree.label.id⟩
      (between.withList (stmts.map Stmt.number))
  refine ⟨?_, ?_, ?_⟩
  · have whole := listed.trans added
    rw [← Store.withList_blockNumbers _ step.kept,
      ← Store.withList_listsOf _ (holds_bodies step.held),
      ← added.grows.blockNumbers keeps, ← added.grows.listsOf others] at whole
    rw [routineBodies_node, Rose.labels_node, List.map_cons]
    simp only [List.append_nil] at whole
    -- the function's list is made after those of its functions but comes before them in the layout
    refine whole.perm .rfl .rfl ?_ List.perm_append_comm
    rw [Store.listsOf_cons, List.append_assoc, List.append_assoc]
    exact .append_left _ List.perm_append_comm
  · intro node visited
    rw [Rose.nodes_node] at visited
    rcases List.mem_cons.mp visited with rfl | below
    · refine ⟨Array.getElem?_push_size,
        added.grows.lists (Store.withList_lists step.kept) List.not_mem_nil, ?_⟩
      exact added.grows.keeps keeps fun _ _ => List.not_mem_nil
    · refine ⟨Store.getElem?_push_of_some (step.held node below).1, ?_⟩
      exact added.grows.holdsBody (others _ (mem_routineBodies_of_mem below)) fun _ _ =>
        List.not_mem_nil
  · simp only [List.map_cons, List.map_nil, Routine.function, routineFunctions_eq, Function.map,
      Function.arranged, mapItems_itemsOf, step.sameStmts, ← step.same, List.map_map, id_eq]
    rfl

mutual
theorem Function.allocate_step (function : ParsedFunction) (before : Store) :
    ∃ (tree : Rose Routine) (after : Store), function.allocate.run before = (tree.label.id, after) ∧
      RoutinesStep before [function.arranged] [tree] after := by
  match function with
  | .mk header items =>
      obtain ⟨stmts, forest, between, ran, step⟩ := allocateItems_step items before
      refine ⟨_, _, ?_, step.routine⟩
      rw [Function.allocate, run_bind, ran]
      rfl

theorem allocateItems_step (items : List ParsedItem) (before : Store) :
    ∃ (stmts : List StoredStmt) (forest : List (Rose Routine)) (after : Store),
      (allocateItems items).run before = ((stmts.map Stmt.number,
          forest.map fun tree => tree.label.id), after) ∧
      ItemsStep before items stmts forest after := by
  match items with
  | [] => exact ⟨[], [], before, rfl, .nil before⟩
  | .stmt stmt :: rest =>
      obtain ⟨tree, between, ran, head⟩ := stmt.allocate_step before
      obtain ⟨stmts, forest, after, others, tail⟩ := allocateItems_step rest between
      refine ⟨tree :: stmts, forest, after, ?_, .stmt head tail⟩
      rw [allocateItems, run_bind, ran]
      simp only [run_bind, others]
      rfl
  | .function inner :: rest =>
      obtain ⟨tree, between, ran, head⟩ := Function.allocate_step inner before
      obtain ⟨stmts, forest, after, others, tail⟩ := allocateItems_step rest between
      refine ⟨stmts, tree :: forest, after, ?_, .function head tail⟩
      rw [allocateItems, run_bind, ran]
      simp only [run_bind, others]
      rfl
end

theorem ItemsStep.functions_only {items : List ParsedItem} {forest : List (Rose Routine)}
    {after : Store} (step : ItemsStep .empty items [] forest after) :
    after.Holds ⟨none, forest⟩ := by
  have allocated := step.allocated
  rw [Stmt.numbers_nil, Stmt.exprNumbers_nil, Store.blockNumbers_nil] at allocated
  exact ⟨fun _ member => absurd member (Option.not_mem_none _), step.held, allocated.stmts,
    allocated.exprs, allocated.blocks, allocated.functions, allocated.ordered .empty⟩

theorem ItemsStep.with_script {items : List ParsedItem}
    {stmts : List StoredStmt} {forest : List (Rose Routine)}
    {after : Store} (step : ItemsStep .empty items stmts forest after) :
    (after.withList (stmts.map Stmt.number)).Holds ⟨some (after.blocks.size, stmts), forest⟩ := by
  obtain ⟨listed, keeps, others⟩ := step.listed
  have bodies : (Layout.mk (some (after.blocks.size, stmts)) forest).bodies =
      (after.blocks.size, stmts) :: routineBodies forest := rfl
  refine ⟨?_, ?_, ?_, ?_, ?_, ?_, listed.ordered .empty⟩
  · rintro body member
    cases Option.some.inj member
    exact ⟨Store.withList_lists step.kept, keeps⟩
  · intro tree visited
    exact ⟨(step.held tree visited).1, others _ (mem_routineBodies_of_mem visited)⟩
  · rw [bodies]
    exact listed.stmts
  · rw [bodies]
    exact listed.exprs
  · rw [bodies, Store.listsOf_cons, Store.withList_blockNumbers _ step.kept,
      Store.withList_listsOf _ (holds_bodies step.held), List.append_assoc]
    refine listed.blocks.perm ?_
    rw [List.append_assoc]
    exact .append_left _ List.perm_append_comm
  · exact listed.functions

/-- A file's program holds the file, its statements before its functions; without statements of its
own it has no script. -/
theorem Program.ofFile_holds (file : ParsedFile) : ∃ layout, (Program.ofFile file).Holds layout ∧
      layout.file.map id Stmt.unnumbered = file.arranged ∧
      (layout.script = none ↔ file.items.filterMap Item.statement? = []) := by
  obtain ⟨stmts, forest, after, ran, step⟩ := allocateItems_step file.items .empty
  have sameFile (script : Option NumberedBody) (own : (script.map Prod.snd).getD [] = stmts) :
      (Layout.mk script forest).file.map id Stmt.unnumbered = file.arranged := by
    rw [Layout.file, File.map, mapItems_itemsOf, own, step.sameStmts, List.map_map,
      File.arranged, ← step.same]
    rfl
  -- A file without statements gets no list for a script.
  cases stmts with
  | nil =>
      have built : Program.ofFile file = ⟨after, none, forest.map fun tree => tree.label.id⟩ := by
        simp only [Program.ofFile, run_bind, ran]
        rfl
      refine ⟨⟨none, forest⟩, ?_, sameFile none rfl, ?_⟩
      · rw [built]
        exact ⟨step.functions_only, rfl, rfl⟩
      · simp only [true_iff]
        rw [← step.sameStmts, List.map_nil]
  | cons first rest =>
      have built : Program.ofFile file = ⟨after.withList ((first :: rest).map Stmt.number),
          some after.blocks.size, forest.map fun tree => tree.label.id⟩ := by
        simp only [Program.ofFile, run_bind, ran]
        rfl
      refine ⟨⟨some (after.blocks.size, first :: rest), forest⟩, ?_, sameFile _ rfl, ?_⟩
      · rw [built]
        exact ⟨step.with_script, rfl, rfl⟩
      · simp [← step.sameStmts]

end ScriptFlow
