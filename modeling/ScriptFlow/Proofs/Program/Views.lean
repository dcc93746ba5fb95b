import ScriptFlow.Program.Basic
import ScriptFlow.Proofs.Program.Layout

/-!
Reading a program that holds a layout. The scopes are the regions of the layout in order, and every
view of a scope or of the whole file is the tree that the layout has there.
-/

namespace ScriptFlow

namespace Rose

variable {Label Other : Type}

mutual
def map (f : Label → Other) : Rose Label → Rose Other
  | .node label children => .node (f label) (mapAll f children)

def mapAll (f : Label → Other) : List (Rose Label) → List (Rose Other)
  | [] => []
  | tree :: rest => map f tree :: mapAll f rest
end

theorem mapAll_eq (f : Label → Other) (forest : List (Rose Label)) :
    mapAll f forest = forest.map (map f) := by
  induction forest with
  | nil => rfl
  | cons tree rest ih => rw [mapAll, ih, List.map_cons]

theorem labels_flatMap (forest : List (Rose Label)) :
    labels forest = forest.flatMap fun tree => labels [tree] := by
  induction forest with
  | nil => simp
  | cons tree rest ih => rw [labels_cons, ih, List.flatMap_cons]

theorem labels_mapAll (f : Label → Other) (forest : List (Rose Label)) :
    labels (mapAll f forest) = (labels forest).map f := by
  have each (tree : Rose Label) : labels [map f tree] = (labels [tree]).map f := by
    induction tree using Rose.induction with
    | node label children ih =>
        rw [map, labels_node, labels_node, List.map_cons, mapAll_eq, labels_flatMap,
          labels_flatMap children, List.flatMap_map, List.map_flatMap]
        exact congrArg _ (List.flatMap_congr ih)
  rw [mapAll_eq, labels_flatMap, labels_flatMap forest, List.flatMap_map, List.map_flatMap]
  exact List.flatMap_congr fun tree _ => each tree

theorem size_node (label : Label) (children : List (Rose Label)) :
    (node label children).size = 1 + total (children.map size) := by
  rw [size, sizes_eq]

theorem length_labels (forest : List (Rose Label)) :
    (labels forest).length = total (forest.map size) := by
  rw [labels, List.length_map]
  exact length_preorder (fun tree => by cases tree; exact size_node _ _) forest

theorem size_lt_of_child (label : Label) {children : List (Rose Label)} {child : Rose Label}
    (below : child ∈ children) : child.size < (node label children).size := by
  have bound := le_total (List.mem_map_of_mem (f := size) below)
  rw [size_node]
  omega

theorem mem_nodes_of_child {label : Label} {children forest : List (Rose Label)}
    {child node : Rose Label} (visited : .node label children ∈ nodes forest)
    (below : child ∈ children) (inside : node ∈ nodes [child]) : node ∈ nodes forest := by
  refine preorder_subset visited node ?_
  rw [preorder_flatMap]
  refine List.mem_flatMap.mpr ⟨child, below, ?_⟩
  rwa [nodes, preorder_tree] at inside

theorem mem_nodes_of_mem {forest : List (Rose Label)} {tree node : Rose Label}
    (member : tree ∈ forest) (inside : node ∈ nodes [tree]) : node ∈ nodes forest := by
  rw [nodes, preorder_flatMap]
  refine List.mem_flatMap.mpr ⟨tree, member, ?_⟩
  rwa [nodes, preorder_tree] at inside

end Rose

/-- A scope with its header, if any, and its list. -/
structure Region where
  scope : Scope
  header : Option Header
  body : NumberedBody

def Region.name (region : Region) : String := region.header.elim "script" Header.name

def Routine.region (routine : Routine) : Region :=
  ⟨.function routine.id, some routine.header, routine.body⟩

namespace Layout

def regions (layout : Layout) : List Region :=
  (layout.script.toList.map fun body => ⟨.script, none, body⟩) ++
    (Rose.labels layout.functions).map Routine.region

def names (layout : Layout) : List String :=
  layout.regions.filterMap fun region => region.header.map Header.name

def vocabulary (layout : Layout) (region : Region) : Vocabulary :=
  .ofScope layout.names region.header region.body.2

theorem regions_bodies (layout : Layout) : layout.regions.map Region.body = layout.bodies := by
  rw [regions, bodies, List.map_append, List.map_map, List.map_map]
  simp [Function.comp_def, Routine.region]

end Layout

namespace Store

variable {store : Store}

theorem nestWithin_held {tree : Rose Routine} {depth : Nat}
    (held : ∀ node ∈ Rose.nodes [tree], store.HoldsRoutine node) (deep : tree.size ≤ depth) :
    store.nestWithin depth tree.label.id = .ok (tree.map Routine.id) := by
  induction tree using Rose.induction generalizing depth with
  | node routine children ih =>
      have small := Rose.size_node routine children
      cases depth with
      | zero => omega
      | succ depth =>
          have own := (held _ (by rw [Rose.nodes_node]; exact List.mem_cons_self)).1
          have nested : (children.map fun child => child.label.id).mapM (store.nestWithin depth) =
              .ok (children.map (Rose.map Routine.id)) := by
            apply mapM_map_ok
            intro child below
            have smaller := Rose.size_lt_of_child routine below
            refine ih child below (fun node inside => held node ?_) (by omega)
            exact Rose.mem_nodes_of_child
              (by rw [Rose.nodes_node]; exact List.mem_cons_self) below inside
          simp only [Rose.label_node, Rose.children_node] at own
          simp only [nestWithin, Rose.label_node, Store.function, found, own]
          change (do
            let nested ← (children.map fun child => child.label.id).mapM (store.nestWithin depth)
            return Rose.node routine.id nested) = Except.ok _
          rw [nested, Rose.map, Rose.mapAll_eq]
          rfl

theorem functionWithin_held {tree : Rose Routine} {depth : Nat}
    (held : ∀ node ∈ Rose.nodes [tree], store.HoldsRoutine node)
    (trees : ∀ node ∈ Rose.nodes [tree], store.bodyTrees node.label.body.1 = .ok node.label.body.2)
    (deep : tree.size ≤ depth) :
    store.functionWithin depth tree.label.id = .ok (Routine.function tree) := by
  induction tree using Rose.induction generalizing depth with
  | node routine children ih =>
      have small := Rose.size_node routine children
      cases depth with
      | zero => omega
      | succ depth =>
          have root : Rose.node routine children ∈ Rose.nodes [.node routine children] := by
            rw [Rose.nodes_node]
            exact List.mem_cons_self
          have own := (held _ root).1
          have body := trees _ root
          -- The functions inside are smaller, so one level less is enough for them.
          have nested : (children.map fun child => child.label.id).mapM
              (store.functionWithin depth) = .ok (children.map Routine.function) := by
            apply mapM_map_ok
            intro child below
            have smaller := Rose.size_lt_of_child routine below
            exact ih child below
              (fun node inside => held node (Rose.mem_nodes_of_child root below inside))
              (fun node inside => trees node (Rose.mem_nodes_of_child root below inside)) (by omega)
          simp only [Rose.label_node, Rose.children_node] at own body
          simp only [functionWithin, Rose.label_node, Store.function, found, own]
          change (do
            let stmts ← store.bodyTrees routine.body.1
            let nested ← (children.map fun child => child.label.id).mapM
              (store.functionWithin depth)
            return Function.mk routine.header (stmts.map .stmt ++ nested.map .function)) =
              Except.ok _
          rw [body, nested, Routine.function, routineFunctions_eq]
          rfl

end Store

namespace Store.Holds

variable {store : Store} {layout : Layout}

theorem numbers_nodup (holds : store.Holds layout) {body : NumberedBody}
    (member : body ∈ layout.bodies) : (Stmt.numbers body.2).Nodup :=
  (List.nodup_flatMap.mp holds.stmts.nodup).1 body member

theorem exprNumbers_nodup (holds : store.Holds layout) {body : NumberedBody}
    (member : body ∈ layout.bodies) : (Stmt.exprNumbers body.2).Nodup :=
  (List.nodup_flatMap.mp holds.exprs.nodup).1 body member

theorem body (holds : store.Holds layout) {body : NumberedBody} (member : body ∈ layout.bodies) :
    store.HoldsBody body := by
  rcases List.mem_append.mp member with script | routine
  · exact holds.script body (by simpa using script)
  · exact holds_bodies holds.routines body routine

theorem bodyTrees (holds : store.Holds layout) {body : NumberedBody}
    (member : body ∈ layout.bodies) : store.bodyTrees body.1 = .ok body.2 :=
  bodyTrees_kept (holds.body member).1 (holds.body member).2 (holds.numbers_nodup member)
    (holds.exprNumbers_nodup member)

theorem size_le (holds : store.Holds layout) {tree : Rose Routine}
    (member : tree ∈ layout.functions) : tree.size ≤ store.functions.size := by
  have counted := Rose.length_labels layout.functions
  have bound := le_total (List.mem_map_of_mem (f := Rose.size) member)
  have filled := holds.functions.length_eq
  simp only [List.range_zero, List.nil_append, List.length_map, List.length_range] at filled
  omega

end Store.Holds

namespace Program.Holds

variable {program : Program} {layout : Layout}

theorem nests (holds : program.Holds layout) : program.functions.mapM program.store.nest =
      .ok (layout.functions.map (Rose.map Routine.id)) := by
  rw [holds.functions]
  apply mapM_map_ok
  intro tree member
  exact Store.nestWithin_held (fun node inside =>
    holds.store.routines node (Rose.mem_nodes_of_mem member inside)) (holds.store.size_le member)

theorem scopes (holds : program.Holds layout) :
    program.scopes = .ok (layout.regions.map Region.scope) := by
  rw [Program.scopes, holds.nests, holds.script]
  change Except.ok _ = _
  rw [← Rose.mapAll_eq, Rose.labels_mapAll, Layout.regions]
  cases layout.script <;> simp [Function.comp_def, Routine.region]

theorem file (holds : program.Holds layout) : program.file = .ok layout.file := by
  have functions : program.functions.mapM program.store.functionTree =
      .ok (layout.functions.map Routine.function) := by
    rw [holds.functions]
    apply mapM_map_ok
    intro tree member
    have inside (node) (below : node ∈ Rose.nodes [tree]) := Rose.mem_nodes_of_mem member below
    refine Store.functionWithin_held (fun node below => holds.store.routines node
      (inside node below)) (fun node below => holds.store.bodyTrees ?_) (holds.store.size_le member)
    exact List.mem_append_right _ (mem_routineBodies_of_mem (inside node below))
  rw [Program.file, functions, holds.script]
  cases own : layout.script with
  | none =>
      rw [Layout.file, own]
      rfl
  | some body =>
      have read :=
        holds.store.bodyTrees (List.mem_append_left _ (by simp [own]) : body ∈ layout.bodies)
      simp only [Option.map_some, read]
      rw [Layout.file, own]
      rfl

theorem region_script (holds : program.Holds layout) {body : NumberedBody}
    (own : layout.script = some body) : program.scopeBody .script = .ok (some body.1) := by
  rw [Program.scopeBody, holds.script, own]
  rfl

theorem routine (holds : program.Holds layout) {routine : Routine}
    (member : routine ∈ Rose.labels layout.functions) :
    ∃ nested, program.store.function routine.id = .ok ⟨routine.header, routine.body.1, nested⟩ := by
  rw [Rose.labels_eq] at member
  obtain ⟨tree, visited, rfl⟩ := List.mem_map.mp member
  have own := (holds.store.routines tree visited).1
  exact ⟨_, by rw [Store.function, own, Store.found]⟩

theorem mem_regions {region : Region} (member : region ∈ layout.regions) :
    (∃ body, layout.script = some body ∧ region = ⟨.script, none, body⟩) ∨
      ∃ routine ∈ Rose.labels layout.functions, region = routine.region := by
  rcases List.mem_append.mp member with script | function
  · obtain ⟨body, own, rfl⟩ := List.mem_map.mp script
    exact .inl ⟨body, by simpa using own, rfl⟩
  · obtain ⟨routine, inside, rfl⟩ := List.mem_map.mp function
    exact .inr ⟨routine, inside, rfl⟩

theorem region_mem_bodies {region : Region} (member : region ∈ layout.regions) :
    region.body ∈ layout.bodies := by
  rw [← Layout.regions_bodies]
  exact List.mem_map_of_mem member

variable {region : Region}

theorem scopeBody (holds : program.Holds layout) (member : region ∈ layout.regions) :
    program.scopeBody region.scope = .ok (some region.body.1) := by
  rcases mem_regions member with ⟨body, own, rfl⟩ | ⟨routine, inside, rfl⟩
  · exact holds.region_script own
  · obtain ⟨nested, found⟩ := holds.routine inside
    simp only [Program.scopeBody, Routine.region, found]
    rfl

theorem header? (holds : program.Holds layout) (member : region ∈ layout.regions) :
    program.header? region.scope = .ok region.header := by
  rcases mem_regions member with ⟨body, own, rfl⟩ | ⟨routine, inside, rfl⟩
  · rfl
  · obtain ⟨nested, found⟩ := holds.routine inside
    simp only [Program.header?, Routine.region, found]
    rfl

theorem scopeName (holds : program.Holds layout) (member : region ∈ layout.regions) :
    program.scopeName region.scope = .ok region.name := by
  rw [Program.scopeName, holds.header? member, Region.name]
  cases region.header <;> rfl

theorem scopeTrees (holds : program.Holds layout) (member : region ∈ layout.regions) :
    program.scopeTrees region.scope = .ok region.body.2 := by
  rw [Program.scopeTrees, holds.scopeBody member]
  exact holds.store.bodyTrees (region_mem_bodies member)

theorem functionNames (holds : program.Holds layout) :
    program.functionNames = .ok layout.names := by
  have headers : (layout.regions.map Region.scope).mapM program.header? =
      .ok (layout.regions.map Region.header) :=
    mapM_map_ok fun region member => holds.header? member
  rw [Program.functionNames, holds.scopes]
  change (do
    let headers ← (layout.regions.map Region.scope).mapM program.header?
    return headers.filterMap (·.map Header.name)) = Except.ok _
  rw [headers, Layout.names]
  exact congrArg Except.ok (List.filterMap_map)

theorem vocabulary (holds : program.Holds layout) (member : region ∈ layout.regions) :
    program.vocabulary region.scope = .ok (layout.vocabulary region) := by
  rw [Program.vocabulary, holds.functionNames, holds.header? member, holds.scopeTrees member]
  rfl

theorem scope_read (holds : program.Holds layout) {scope : Scope}
    (known : scope = .script ∨ scope ∈ layout.regions.map Region.scope) :
    ∃ header body, program.header? scope = .ok header ∧ program.scopeTrees scope = .ok body ∧
      program.vocabulary scope = .ok (.ofScope layout.names header body) := by
  by_cases there : scope ∈ layout.regions.map Region.scope
  · obtain ⟨region, member, rfl⟩ := List.mem_map.mp there
    exact ⟨_, _, holds.header? member, holds.scopeTrees member, holds.vocabulary member⟩
  · obtain rfl := known.resolve_right there
    have none : layout.script = none := by
      cases own : layout.script with
      | none => rfl
      | some body =>
          apply absurd _ there
          rw [Layout.regions, own]
          exact List.mem_cons_self
    have empty : program.scopeTrees .script = .ok [] := by
      rw [Program.scopeTrees, Program.scopeBody, holds.script, none]
      rfl
    refine ⟨Option.none, [], rfl, empty, ?_⟩
    rw [Program.vocabulary, holds.functionNames, empty]
    rfl

end Program.Holds
end ScriptFlow
