import ScriptFlow.Proofs.Program.Views

/-!
Layouts with other statements. The statements of every scope may change while the scopes, their
headers and the numbers of their lists stay; the store holds the new layout when it holds the new
statements and they account for every number that was added.
-/

namespace ScriptFlow

namespace Rose

variable {Label Other : Type}

theorem nodes_flatMap (forest : List (Rose Label)) :
    nodes forest = forest.flatMap fun tree => nodes [tree] := by
  induction forest with
  | nil => simp
  | cons tree rest ih =>
    rw [← List.singleton_append, nodes_append, ih, List.flatMap_append, List.flatMap_singleton]

theorem nodes_map (f : Label → Other) (forest : List (Rose Label)) :
    nodes (forest.map (map f)) = (nodes forest).map (map f) := by
  have each (tree : Rose Label) : nodes [map f tree] = (nodes [tree]).map (map f) := by
    induction tree using Rose.induction with
    | node label children ih =>
        rw [map, nodes_node, nodes_node, List.map_cons, map, mapAll_eq, nodes_flatMap,
          nodes_flatMap children, List.flatMap_map, List.map_flatMap]
        exact congrArg _ (List.flatMap_congr ih)
  rw [nodes_flatMap, nodes_flatMap forest, List.flatMap_map, List.map_flatMap]
  exact List.flatMap_congr fun tree _ => each tree

theorem label_map (f : Label → Other) (tree : Rose Label) : (tree.map f).label = f tree.label := by
  cases tree
  rw [map, label_node, label_node]

theorem children_map (f : Label → Other) (tree : Rose Label) :
    (tree.map f).children = tree.children.map (map f) := by
  cases tree
  rw [map, children_node, children_node, mapAll_eq]

end Rose

variable (final : Region → List StoredStmt)

def Region.rebody (region : Region) : Region :=
  { region with body := (region.body.1, final region) }

def Routine.rebody (routine : Routine) : Routine :=
  { routine with body := (routine.body.1, final routine.region) }

def Layout.rebody (layout : Layout) : Layout where
  script := layout.script.map fun body => (body.1, final ⟨.script, none, body⟩)
  functions := layout.functions.map (Rose.map (Routine.rebody final))

namespace Layout

variable {final} (layout : Layout)

theorem regions_rebody :
    (layout.rebody final).regions = layout.regions.map (Region.rebody final) := by
  have functions : Rose.labels (layout.functions.map (Rose.map (Routine.rebody final))) =
      (Rose.labels layout.functions).map (Routine.rebody final) := by
    rw [← Rose.mapAll_eq, Rose.labels_mapAll]
  rw [regions, regions, rebody, functions, List.map_append, List.map_map,
    List.map_map, List.map_map]
  cases layout.script <;> rfl

theorem names_rebody : (layout.rebody final).names = layout.names := by
  rw [names, names, regions_rebody, List.filterMap_map]
  rfl

theorem rebody_rebody (first second : Region → List StoredStmt) :
    (layout.rebody first).rebody second = layout.rebody fun region =>
      second (region.rebody first) := by
  have tree (node : Rose Routine) : (node.map (Routine.rebody first)).map (Routine.rebody second) =
      node.map (Routine.rebody fun region => second (region.rebody first)) := by
    induction node using Rose.induction with
    | node label children ih =>
        simp only [Rose.map, Rose.mapAll_eq, List.map_map]
        exact congrArg _ (List.map_congr_left ih)
  simp only [rebody, List.map_map, Option.map_map]
  exact congrArg₂ Layout.mk rfl (List.map_congr_left fun node _ => tree node)

theorem rebody_self : layout.rebody (fun region => region.body.2) = layout := by
  have routine : Routine.rebody (fun region => region.body.2) = id := rfl
  have tree (node : Rose Routine) : node.map id = node := by
    induction node using Rose.induction with
    | node label children ih =>
        rw [Rose.map, Rose.mapAll_eq, List.map_congr_left ih, List.map_id']
        rfl
  have trees : layout.functions.map (Rose.map id) = layout.functions := by
    rw [List.map_congr_left fun node _ => tree node, List.map_id']
  rw [rebody, routine, trees]
  cases layout with
  | mk script functions => cases script <;> rfl

theorem scopes_nodup {store : Store} (holds : store.Holds layout) :
    (layout.regions.map Region.scope).Nodup := by
  have ids := holds.functions.nodup
  rw [regions, List.map_append, List.map_map, List.map_map]
  have functions : ((Rose.labels layout.functions).map (Region.scope ∘ Routine.region)).Nodup := by
    have scopes : (Rose.labels layout.functions).map (Region.scope ∘ Routine.region) =
        ((Rose.labels layout.functions).map Routine.id).map Scope.function := by
      rw [List.map_map]
      rfl
    rw [scopes]
    exact ids.map fun first second same => Scope.function.inj same
  cases layout.script with
  | none => exact functions
  | some body =>
      refine List.nodup_cons.mpr ⟨fun member => ?_, functions⟩
      obtain ⟨routine, _, same⟩ := List.mem_map.mp member
      exact Scope.noConfusion same

end Layout

theorem flatMap_middle {A B : Type} {front back : List A} {a : A} {f g : A → List B}
    {extra : List B} (same : ∀ other ∈ front ++ back, f other = g other)
    (perm : (f a).Perm (g a ++ extra)) :
    ((front ++ a :: back).flatMap f).Perm ((front ++ a :: back).flatMap g ++ extra) := by
  have fronts : front.flatMap f = front.flatMap g :=
    List.flatMap_congr fun other inside => same other (List.mem_append_left _ inside)
  have backs : back.flatMap f = back.flatMap g :=
    List.flatMap_congr fun other inside => same other (List.mem_append_right _ inside)
  rw [List.flatMap_append, List.flatMap_cons, List.flatMap_append, List.flatMap_cons, fronts, backs]
  refine (perm.append_right _ |>.append_left _).trans ?_
  simp only [List.append_assoc]
  exact .append_left _ (.append_left _ List.perm_append_comm)

theorem Fills.middle {A : Type} {front back : List A} {a : A} {f g : A → List Nat}
    {old new : Nat} {extra : List Nat} (whole : Fills 0 ((front ++ a :: back).flatMap g) old)
    (more : Fills old extra new) (same : ∀ other ∈ front ++ back, f other = g other)
    (perm : (f a).Perm (g a ++ extra)) : Fills 0 ((front ++ a :: back).flatMap f) new :=
  (whole.trans more).perm (flatMap_middle same perm).symm

/-- The statements of every scope, those of one scope replaced. -/
def instead (scope : Scope) (new : List StoredStmt) (region : Region) : List StoredStmt :=
  if region.scope = scope then new else region.body.2

namespace Store.Holds

variable {final} {before after : Store} {layout : Layout} {region : Region}

theorem region_body (holds : before.Holds layout) (member : region ∈ layout.regions) :
    before.HoldsBody region.body :=
  holds.body (Program.Holds.region_mem_bodies member)

theorem tree_region {tree : Rose Routine} (visited : tree ∈ Rose.nodes layout.functions) :
    tree.label.region ∈ layout.regions := by
  refine List.mem_append_right _ (List.mem_map_of_mem ?_)
  rw [Rose.labels_eq]
  exact List.mem_map_of_mem visited

theorem of_regions (holds : before.Holds layout)
    (grown : ∀ (id : FuncId) entry,
      before.functions[id]? = some entry → after.functions[id]? = some entry)
    (bodies : ∀ region ∈ layout.regions, after.HoldsBody (region.rebody final).body)
    (stmtsFill : Fills 0 (layout.regions.flatMap fun region =>
      Stmt.numbers (final region)) after.stmts.size) (exprsFill : Fills 0
      (layout.regions.flatMap fun region => Stmt.exprNumbers (final region)) after.exprs.size)
    (blocksFill : Fills 0 (layout.regions.flatMap fun region => after.blockNumbers (final region) ++
      [region.body.1]) after.blocks.size) (functions : after.functions.size = before.functions.size)
    (ordered : after.Ordered) : after.Holds (layout.rebody final) := by
  -- The bodies of the new layout are the final ones of the regions, so all counts go through the
  -- regions.
  have allBodies : (layout.rebody final).bodies = layout.regions.map fun region =>
      (region.rebody final).body := by
    rw [← Layout.regions_bodies, Layout.regions_rebody, List.map_map]
    rfl
  refine ⟨?_, ?_, ?_, ?_, ?_, ?_, ordered⟩
  · intro body member
    obtain ⟨old, own, rfl⟩ := Option.map_eq_some_iff.mp member
    exact bodies ⟨.script, none, old⟩
      (List.mem_append_left _ (List.mem_map.mpr ⟨old, by simp [own], rfl⟩))
  · intro tree visited
    rw [Layout.rebody, Rose.nodes_map] at visited
    obtain ⟨old, inside, rfl⟩ := List.mem_map.mp visited
    have entry := grown _ _ (holds.routines old inside).1
    rw [Store.HoldsRoutine, Rose.label_map, Rose.children_map, List.map_map]
    refine ⟨?_, bodies _ (tree_region inside)⟩
    have same : (fun child : Rose Routine => child.label.id) ∘ Rose.map (Routine.rebody final) =
        fun child => child.label.id :=
      funext fun child => by rw [Function.comp_apply, Rose.label_map, Routine.rebody]
    rw [same]
    exact entry
  · rw [stmtsOf, allBodies, List.flatMap_map]
    exact stmtsFill
  · rw [exprsOf, allBodies, List.flatMap_map]
    exact exprsFill
  · rw [Store.listsOf, allBodies, List.flatMap_map]
    exact blocksFill
  · have ids : (Rose.labels (layout.rebody final).functions).map Routine.id =
        (Rose.labels layout.functions).map Routine.id := by
      rw [Layout.rebody, ← Rose.mapAll_eq, Rose.labels_mapAll, List.map_map]
      rfl
    rw [ids, functions]
    exact holds.functions

theorem split {region : Region} (holds : before.Holds layout) (member : region ∈ layout.regions) :
    ∃ front back, layout.regions = front ++ region :: back ∧
      (∀ other ∈ front ++ back, other.scope ≠ region.scope) := by
  obtain ⟨front, back, same⟩ := List.append_of_mem member
  have distinct := layout.scopes_nodup holds
  rw [same, List.map_append, List.map_cons] at distinct
  obtain ⟨_, tail, apart⟩ := List.nodup_append.mp distinct
  refine ⟨front, back, same, fun other inside equal => ?_⟩
  rcases List.mem_append.mp inside with early | late
  · exact apart _ (List.mem_map_of_mem early) _ List.mem_cons_self equal
  · exact (List.nodup_cons.mp tail).1 (equal ▸ List.mem_map_of_mem late)

theorem instead {new : List StoredStmt} {stmts : List StmtId} {exprs : List ExprId}
    (holds : before.Holds layout) (member : region ∈ layout.regions)
    (grows : before.Grows after ([region.body.1] ++ before.blockNumbers region.body.2))
    (listed : after.Lists region.body.1 new) (kept : after.Keeps new)
    (stmtsFill : Fills before.stmts.size stmts after.stmts.size)
    (exprsFill : Fills before.exprs.size exprs after.exprs.size)
    (numbers : (Stmt.numbers new).Perm (Stmt.numbers region.body.2 ++ stmts))
    (exprNumbers : (Stmt.exprNumbers new).Perm (Stmt.exprNumbers region.body.2 ++ exprs))
    (lists : (after.blockNumbers new).Perm (before.blockNumbers region.body.2))
    (blocks : after.blocks.size = before.blocks.size)
    (functions : after.functions.size = before.functions.size) (ordered : after.Ordered) :
    after.Holds (layout.rebody (ScriptFlow.instead region.scope new)) := by
  obtain ⟨front, back, split, others⟩ := holds.split member
  have own : ScriptFlow.instead region.scope new region = new := if_pos rfl
  have keeps (other) (inside : other ∈ front ++ back) :
      ScriptFlow.instead region.scope new other = other.body.2 :=
    if_neg (others other inside)
  have bodies : layout.bodies = front.map Region.body ++ region.body :: back.map Region.body := by
    rw [← Layout.regions_bodies, split, List.map_append, List.map_cons]
  have distinctLists := holds.blocks.nodup
  rw [bodies, Store.listsOf_append, Store.listsOf_cons] at distinctLists
  have among (other) (inside : other ∈ front ++ back) : other ∈ layout.regions := by
    rw [split]
    rcases List.mem_append.mp inside with early | late
    · exact List.mem_append_left _ early
    · exact List.mem_append_right _ (List.mem_cons_of_mem _ late)
  have untouched (other) (inside : other ∈ front ++ back) : after.HoldsBody other.body := by
    refine grows.holdsBody (holds.region_body (among other inside)) fun block own changed => ?_
    have mine : block ∈ before.blockNumbers region.body.2 ++ [region.body.1] := by
      rcases List.mem_append.mp changed with root | inner
      · exact List.mem_append_right _ root
      · exact List.mem_append_left _ inner
    -- a list that changed belongs to the scope, and no list belongs to two scopes
    obtain ⟨_, tail, apart⟩ := List.nodup_append.mp distinctLists
    rcases List.mem_append.mp inside with early | late
    · refine apart block ?_ block (List.mem_append_left _ mine) rfl
      exact List.mem_flatMap.mpr
        ⟨other.body, List.mem_map_of_mem early, by simpa [Store.listsOf] using own⟩
    · refine (List.nodup_append.mp tail).2.2 block mine block ?_ rfl
      exact List.mem_flatMap.mpr
        ⟨other.body, List.mem_map_of_mem late, by simpa [Store.listsOf] using own⟩
  have oldStmts := holds.stmts
  have oldExprs := holds.exprs
  have oldBlocks := holds.blocks
  rw [stmtsOf, ← Layout.regions_bodies, List.flatMap_map, split] at oldStmts
  rw [exprsOf, ← Layout.regions_bodies, List.flatMap_map, split] at oldExprs
  rw [Store.listsOf, ← Layout.regions_bodies, List.flatMap_map, split] at oldBlocks
  refine of_regions holds grows.functions (fun other inside => ?_) ?_ ?_ ?_ functions ordered
  · rw [split] at inside
    by_cases same : other = region
    · subst same
      rw [Region.rebody, own]
      exact ⟨listed, kept⟩
    · have outer : other ∈ front ++ back := by
        simp only [List.mem_append, List.mem_cons] at inside ⊢
        tauto
      rw [Region.rebody, keeps other outer]
      exact untouched other outer
  · rw [split]
    refine oldStmts.middle stmtsFill (fun other inside => by rw [keeps other inside]) ?_
    rw [own]
    exact numbers
  · rw [split]
    refine oldExprs.middle exprsFill (fun other inside => by rw [keeps other inside]) ?_
    rw [own]
    exact exprNumbers
  · rw [split, blocks]
    refine oldBlocks.middle .nil (fun other inside => ?_) ?_
    · rw [keeps other inside, grows.blockNumbers (holds.region_body (among other inside)).2]
    · rw [own, List.append_nil]
      exact lists.append_right _

end Store.Holds
end ScriptFlow
