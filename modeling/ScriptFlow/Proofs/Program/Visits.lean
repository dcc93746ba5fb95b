import ScriptFlow.Proofs.Program.Forest
import ScriptFlow.Proofs.Program.Numbered
import ScriptFlow.Proofs.Store.Visited

/-!
Visits of a program. In the tables of a program everything is in kept trees, where what is read
below a number is what the tree has there. So every visit comes to an end with the preorder of the
tree, and the views of the trees list the same numbers. Nothing is said of the numbers themselves:
after an instrumentation a statement may well have a greater number inside it.
-/

namespace ScriptFlow

namespace ExprShape

theorem name?_map {A B : Type} (f : A → B) (shape : ExprShape A) :
    (shape.map f).name? = shape.name? := by
  cases shape <;> rfl

end ExprShape

namespace Expr

variable {Label : Type}

theorem names_layer (label : Label) (shape : ExprShape (Expr Label)) :
    (node label shape).names = shape.name?.toList ++ shape.operands.flatMap names := by
  cases shape with
  | name text => rfl
  | _ =>
      apply names_node
      rintro name ⟨⟩

theorem names_within (expr : Expr Label) :
    expr.names = expr.within.filterMap fun node => node.shape.name? := by
  induction expr using Expr.induction with
  | node label shape ih =>
      rw [names_layer, within_node, List.filterMap_cons, List.filterMap_flatMap, shape_node,
        List.flatMap_congr ih]
      cases shape.name? <;> rfl

end Expr

namespace Store

variable {store : Store}

theorem KeepsExpr.operandsOf {expr node : StoredExpr}
    (kept : store.KeepsExpr expr) (inside : node ∈ expr.within) :
    store.operandsOf node.label = .ok (node.operands.map Expr.label) := by
  rw [Store.operandsOf, Store.expr, kept node inside, found, ok_bind, ExprShape.operands_map]
  rfl

theorem KeepsExpr.enumerates {expr : StoredExpr} (kept : store.KeepsExpr expr)
    (distinct : (expr.within.map Expr.label).Nodup) :
    Enumerates store.operandsOf [expr.label] (expr.within.map Expr.label) :=
  (InPreorder.of_forest [expr] fun _ inside => kept.operandsOf inside).enumerates distinct

theorem KeepsExpr.names {expr : StoredExpr} (kept : store.KeepsExpr expr) :
    (expr.within.map Expr.label).filterMap store.name? = expr.names := by
  rw [List.filterMap_map, Expr.names_within]
  apply List.filterMap_congr
  intro node inside
  rw [Function.comp_apply, name?, kept node inside, Option.bind_some, ExprShape.name?_map]

theorem collectNamesWithin_kept {expr : StoredExpr} {depth : Nat}
    (kept : store.KeepsExpr expr) (deep : expr.size ≤ depth) (names : List String) :
    store.collectNamesWithin depth names expr.label = .ok (names ++ expr.names) := by
  induction expr using Expr.induction generalizing depth names with
  | node label shape ih =>
      have small := Expr.size_node label shape
      cases depth with
      | zero => omega
      | succ depth =>
          -- what the operands in front have collected is what the next one starts with
          have operands (exprs : List StoredExpr)
              (below : ∀ operand ∈ exprs, operand ∈ shape.operands) (names : List String) :
              (exprs.map Expr.label).foldlM (store.collectNamesWithin depth) names =
              .ok (names ++ exprs.flatMap Expr.names) := by
            induction exprs generalizing names with
            | nil =>
                rw [List.flatMap_nil, List.append_nil]
                rfl
            | cons first rest later =>
                have member := below first List.mem_cons_self
                have smaller := Expr.size_lt_of_operand label member
                rw [List.map_cons, List.foldlM_cons,
                  ih first member (kept.operand member) (by omega), ok_bind,
                  later fun operand behind => below operand (List.mem_cons_of_mem _ behind)]
                rw [List.flatMap_cons, List.append_assoc]
          have stored := kept _ (Expr.mem_within_self _)
          simp only [Expr.label_node, Expr.shape_node] at stored
          rw [collectNamesWithin, Expr.label_node, Store.expr, stored,
            found, ok_bind, ExprShape.operands_map, ExprShape.name?_map,
            operands shape.operands (fun _ member => member), Expr.names_layer, List.append_assoc]

theorem KeepsStmt.nestedIn {stmt : StoredStmt} (kept : store.KeepsStmt stmt) :
    store.nestedIn stmt.number = .ok (stmt.nested.map Stmt.number) := by
  obtain ⟨entry, there, _, matched⟩ := kept
  have members : entry.shape.bodies.mapM store.block =
      .ok (stmt.bodies.map fun body => body.map Stmt.number) := by
    apply mapM_of_forall₂
    rw [List.forall₂_map_right_iff]
    exact matched.bodies.imp fun _ _ => block_listed
  rw [Store.nestedIn, Store.stmt, there, found, ok_bind, members, ok_bind,
    Stmt.nested, List.map_flatten]
  rfl

theorem Keeps.enumerates {body : List StoredStmt}
    (kept : store.Keeps body) (distinct : (Stmt.numbers body).Nodup) :
    Enumerates store.nestedIn (body.map Stmt.number) (Stmt.numbers body) :=
  (InPreorder.of_forest body fun stmt visited => (kept stmt visited).nestedIn).enumerates distinct

theorem stmtsWithin_kept {block : BlockId} {body : List StoredStmt}
    (listed : store.Lists block body) (kept : store.Keeps body)
    (distinct : (Stmt.numbers body).Nodup) : store.stmtsWithin block = .ok (Stmt.numbers body) := by
  rw [stmtsWithin, outlines_kept listed kept distinct, ok_bind, Stmt.within_outline, List.map_map]
  exact congrArg Except.ok (List.map_congr_left fun stmt _ => Stmt.number_outline stmt)

theorem HoldsRoutine.functionsIn {tree : Rose Routine} (held : store.HoldsRoutine tree) :
    store.functionsIn tree.label.id = .ok (tree.children.map fun child => child.label.id) := by
  rw [Store.functionsIn, Store.function, held.1, found, ok_bind]
  rfl

namespace Holds

variable {layout : Layout}

theorem exists_expr (holds : store.Holds layout) {id : ExprId} (inside : id < store.exprs.size) :
    ∃ expr : StoredExpr, expr.label = id ∧ store.KeepsExpr expr ∧
      (expr.within.map Expr.label).Nodup := by
  obtain ⟨body, member, used⟩ :=
    List.mem_flatMap.mp (holds.exprs.mem_iff.mpr ⟨Nat.zero_le id, inside⟩)
  obtain ⟨stmt, visited, used⟩ := List.mem_flatMap.mp used
  obtain ⟨expr, own, used⟩ := List.mem_flatMap.mp used
  obtain ⟨node, below, rfl⟩ := List.mem_map.mp used
  have kept := ((holds.body member).2 stmt visited).exprs expr own
  have inOne := (List.nodup_flatMap.mp (holds.exprNumbers_nodup member)).1 stmt visited
  have distinct := (List.nodup_flatMap.mp inOne).1 expr own
  have part : List.Sublist node.within expr.within := preorder_sublist below
  exact ⟨node, rfl, fun inner deep => kept inner (part.subset deep),
    distinct.sublist (part.map Expr.label)⟩

theorem exists_list (holds : store.Holds layout) {block : BlockId}
    (inside : block < store.blocks.size) : ∃ body : List StoredStmt, store.Lists block body ∧
      store.Keeps body ∧ (Stmt.numbers body).Nodup := by
  obtain ⟨⟨root, body⟩, member, used⟩ :=
    List.mem_flatMap.mp (holds.blocks.mem_iff.mpr ⟨Nat.zero_le block, inside⟩)
  obtain ⟨listed, kept⟩ := holds.body member
  have distinct := holds.numbers_nodup member
  -- the list is inside a statement of the body, or it is that of the body itself
  rcases List.mem_append.mp used with below | own
  · obtain ⟨⟨site, shape⟩, visited, directly⟩ := List.mem_flatMap.mp below
    obtain ⟨inner, nested, lists⟩ := exists_right_of_forall₂ (kept _ visited).lists directly
    have part := Stmt.numbers_sublist visited
    rw [Stmt.numbers_node] at part
    exact ⟨inner, lists, kept.inner visited nested,
      distinct.sublist ((Stmt.numbers_body nested).trans ((List.sublist_cons_self _ _).trans part))⟩
  · obtain rfl := List.mem_singleton.mp own
    exact ⟨body, listed, kept, distinct⟩

end Holds

/-- The visit of an expression takes as many rounds as there are numbers in the preorder. The view
of the tree lists the same numbers, and the names are those that stand there. -/
structure VisitsExpr (store : Store) (id : ExprId) (ids : List ExprId) : Prop where
  enumerates : Enumerates store.operandsOf [id] ids
  visits :
    ∀ rounds, store.visitExprs rounds id = .ok (if ids.length ≤ rounds then some ids else none)
  within : store.exprsWithin id = .ok ids
  collects : store.collectNames [] id = .ok (ids.filterMap store.name?)
  names : ∃ tree, store.exprTree id = .ok tree ∧ tree.names = ids.filterMap store.name?

structure VisitsList (store : Store) (block : BlockId) (ids : List StmtId) : Prop where
  enumerates : ∃ members, store.block block = .ok members ∧ Enumerates store.nestedIn members ids
  visits :
    ∀ rounds, store.visitStmts rounds block = .ok (if ids.length ≤ rounds then some ids else none)
  within : store.stmtsWithin block = .ok ids

variable {layout : Layout}

theorem Holds.visitsExpr (holds : store.Holds layout) {id : ExprId}
    (inside : id < store.exprs.size) : ∃ ids, store.VisitsExpr id ids := by
  obtain ⟨expr, rfl, kept, distinct⟩ := holds.exists_expr inside
  have enumerates := kept.enumerates distinct
  have tree := exprTree_kept kept distinct
  refine ⟨expr.within.map Expr.label, enumerates, ?_, ?_, ?_, ⟨expr, tree, kept.names.symm⟩⟩
  · exact visitExprs_eq enumerates.preorder
  · rw [exprsWithin, tree, ok_bind]
    rfl
  · rw [collectNames, collectNamesWithin_kept kept (kept.size_le distinct),
      List.nil_append, kept.names]

theorem Holds.visitsList (holds : store.Holds layout) {block : BlockId}
    (inside : block < store.blocks.size) : ∃ ids, store.VisitsList block ids := by
  obtain ⟨body, listed, kept, distinct⟩ := holds.exists_list inside
  have enumerates := kept.enumerates distinct
  exact ⟨Stmt.numbers body, ⟨_, block_listed listed, enumerates⟩,
    visitStmts_eq (block_listed listed) enumerates.preorder, stmtsWithin_kept listed kept distinct⟩

end Store

namespace Program

structure VisitsScopes (program : Program) (ids : List FuncId) : Prop where
  enumerates : Enumerates program.store.functionsIn program.functions ids
  all : ids.Perm (List.range program.store.functions.size)
  visits : ∀ rounds, program.visitScopes rounds =
      .ok (if ids.length ≤ rounds then some (program.scopesOver ids) else none)
  scopes : program.scopes = .ok (program.scopesOver ids)

/-- The visits of the expressions, of the lists of statements and of the scopes come to an end, each
with the preorder: an expression before its operands, a statement before those in its bodies, the
script before the functions and a function before those nested in it. -/
structure VisitsInPreorder (program : Program) : Prop where
  exprs : ∀ id < program.store.exprs.size, ∃ ids, program.store.VisitsExpr id ids
  lists : ∀ block < program.store.blocks.size, ∃ ids, program.store.VisitsList block ids
  scopes : ∃ ids, program.VisitsScopes ids

variable {program : Program} {layout : Layout}

theorem Holds.visitsScopes (holds : program.Holds layout) : ∃ ids, program.VisitsScopes ids := by
  have order : InPreorder program.store.functionsIn (layout.functions.map fun tree => tree.label.id)
      ((Rose.nodes layout.functions).map fun tree => tree.label.id) :=
    .of_forest layout.functions fun tree visited => (holds.store.routines tree visited).functionsIn
  have filled : Fills 0 ((Rose.nodes layout.functions).map fun tree => tree.label.id)
      program.store.functions.size := by
    have filled := holds.store.functions
    rwa [Rose.labels_eq, List.map_map] at filled
  rw [← holds.functions] at order
  refine ⟨_, order.enumerates filled.nodup, filled.perm_range, visitScopes_eq order, ?_⟩
  have script : layout.script.toList.map (fun _ => Scope.script) =
      if program.script.isSome then [Scope.script] else [] := by
    rw [holds.script]
    cases layout.script <;> rfl
  rw [holds.scopes, scopesOver, ← script, Layout.regions, Rose.labels_eq]
  simp only [List.map_append, List.map_map]
  rfl

theorem Holds.visitsInPreorder (holds : program.Holds layout) : program.VisitsInPreorder where
  exprs _ inside := holds.store.visitsExpr inside
  lists _ inside := holds.store.visitsList inside
  scopes := holds.visitsScopes

/-- Every visit of a parsed program comes to an end with the preorder, and so it does after any
number of instrumentations. -/
theorem instrumentAll_visitsInPreorder {source : List Char}
    (parsed : parse source = .ok program) (choices : List Bool) :
    ∃ result, program.instrumentAll choices = .ok result ∧ result.VisitsInPreorder := by
  obtain ⟨layout, holds⟩ := parse_holds parsed
  obtain ⟨result, layout', ran, holds', _⟩ :=
    holds.instrumentAll (P := fun _ => True) (fun _ _ _ => trivial) trivial choices
  exact ⟨result, ran, holds'.visitsInPreorder⟩

theorem nested_functions_visitsInPreorder :
    ∃ program, parse
      ("if f(1)\n while g(2)\n  x = [1 f(x)];\n end\nelse\n y = x;\nend\nfunction y = f(x)\ny = g(x');\n" ++
        "function z = g(w)\nz = w;\nend\nend\n").toList = .ok program ∧
      ∃ result, program.instrumentAll [true, false] = .ok result ∧ result.VisitsInPreorder := by
  obtain ⟨program, parsed⟩ := exists_ok (by decide +kernel : (parse
    ("if f(1)\n while g(2)\n  x = [1 f(x)];\n end\nelse\n y = x;\nend\nfunction y = f(x)\ny = g(x');\n" ++
      "function z = g(w)\nz = w;\nend\nend\n").toList).toOption.isSome)
  exact ⟨program, parsed, instrumentAll_visitsInPreorder parsed [true, false]⟩

/-- What counts the rounds of a loop came later than the loop, and so its numbers are greater. -/
example : ((parse "while f(1)\n x = 2;\nend\n".toList).toOption.bind fun program =>
    (program.instrumentAll [false]).toOption.bind fun result =>
      (result.store.visitStmts 7 1).toOption) =
      some (some [2, 4, 1, 5, 0, 6, 3]) := by decide +kernel

end Program
end ScriptFlow
