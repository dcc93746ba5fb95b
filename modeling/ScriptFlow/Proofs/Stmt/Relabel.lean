import ScriptFlow.Flow.Transfer
import ScriptFlow.Proofs.Stmt.Layer
import ScriptFlow.Proofs.Store.Allocation

/-!
What labels do not decide. The names in an expression, its calls, its written form and what a
statement assigns and reads are the same under other labels.
-/

namespace ScriptFlow

variable {Label Other : Type} (f : Label → Other)

namespace Expr

theorem names_relabel (expr : Expr Label) : (expr.relabel f).names = expr.names :=
  fold_relabel _ f expr

theorem print_relabel (expr : Expr Label) : (expr.relabel f).print = expr.print := by
  rw [print, print, lexemes, lexemes, phrase, phrase, fold_relabel]

theorem selects_relabel (expr : Expr Label) : (expr.relabel f).selects = expr.selects :=
  fold_relabel _ f expr

theorem within_relabel (expr : Expr Label) :
    (expr.relabel f).within = expr.within.map (relabel f) := by
  induction expr using Expr.induction with
  | node label shape ih =>
      rw [relabel_node, within_node, within_node, List.map_cons, relabel_node,
        ExprShape.operands_map, List.flatMap_map, List.map_flatMap]
      exact congrArg _ (List.flatMap_congr ih)

theorem called?_relabel (expr : Expr Label) : (expr.relabel f).called? = expr.called? := by
  obtain ⟨label, shape⟩ := expr
  rw [relabel_node]
  cases shape with
  | param head args =>
      obtain ⟨inner, headShape⟩ := head
      have selected : (args.map (relabel f)).any selects = args.any selects := by
        rw [List.any_map]
        exact congrArg args.any (funext fun arg => selects_relabel f arg)
      cases headShape <;> simp [ExprShape.map, relabel_node, called?, selected]
  | _ => rfl

theorem calls_relabel (expr : Expr Label) : (expr.relabel f).calls = expr.calls := by
  rw [calls, calls, within_relabel, List.filterMap_map]
  exact List.filterMap_congr fun inner _ => called?_relabel f inner

theorem base_relabel (expr : Expr Label) :
    (expr.relabel f).base = expr.base.mapError (relabel f) := by
  induction expr using Expr.induction with
  | node label shape ih =>
      cases shape with
      | param head args | cellIndex head args =>
          rw [relabel_node, ExprShape.map, base, base]
          exact ih head List.mem_cons_self
      | field inner _ =>
          rw [relabel_node, ExprShape.map, base, base]
          exact ih inner List.mem_cons_self
      | _ => simp [relabel_node, ExprShape.map, base, Except.mapError]

theorem targets_relabel (expr : Expr Label) :
    (expr.relabel f).targets = expr.targets.map (relabel f) := by
  obtain ⟨label, shape⟩ := expr
  rw [relabel_node]
  cases shape <;> simp [ExprShape.map, targets, relabel_node, List.map_flatten]

end Expr

theorem mapM_mapError {A B E F : Type} (g : E → F) (action : A → Except E B) (items : List A) :
    items.mapM (fun a => (action a).mapError g) = (items.mapM action).mapError g := by
  induction items with
  | nil => rfl
  | cons first rest ih =>
      rw [List.mapM_cons, List.mapM_cons, ih]
      cases action first with
      | error error => rfl
      | ok b => cases rest.mapM action <;> rfl

namespace StmtShape

variable {A B : Type} (g : A → B) (shape : StmtShape (Expr Label) A)

theorem bases_map :
    (shape.map (Expr.relabel f) g).bases = shape.bases.mapError (Expr.relabel f) := by
  cases shape with
  | assign target value quiet =>
      simp only [map, bases, target?]
      rw [Expr.targets_relabel, List.mapM_map, ← mapM_mapError]
      exact congrArg (target.targets.mapM ·) (funext fun expr => Expr.base_relabel f expr)
  | _ => rfl

theorem assigned_map (position : Position) :
    (shape.map (Expr.relabel f) g).assigned position = shape.assigned position := by
  rw [assigned, assigned, bases_map]
  cases shape.bases with
  | ok names => rfl
  | error bad =>
    exact congrArg (fun text => Except.error (IllFormed.mk position text))
      (Expr.print_relabel f bad)

theorem sources_map (h : Expr Label → Expr Other) :
    (shape.map h g).sources = shape.sources.map h := by
  cases shape <;> simp [map, sources, guards]

theorem names_map (exprs : List (Expr Label)) :
    (exprs.map (Expr.relabel f)).flatMap Expr.names = exprs.flatMap Expr.names := by
  rw [List.flatMap_map]
  exact List.flatMap_congr fun expr _ => Expr.names_relabel f expr

theorem transfer_map (isFunction : String → Bool) (id : Nat) (position : Position) :
    Transfer.ofShape isFunction id position (shape.map (Expr.relabel f) g) =
      Transfer.ofShape isFunction id position shape := by
  rw [Transfer.ofShape, Transfer.ofShape, assigned_map, sources_map, names_map]

end StmtShape

namespace Stmt

variable {Site Place : Type} (site : Site) (place : Place)
  (g : List (Stmt Site (Expr Label)) → List (Stmt Place (Expr Other)))
  (shape : StmtShape (Expr Label) (List (Stmt Site (Expr Label))))

theorem binds_map :
    (node place (shape.map (Expr.relabel f) g)).binds = (node site shape).binds := by
  rw [binds, binds, shape_node, shape_node, StmtShape.bases_map]
  have shared : (shape.map (Expr.relabel f) g).shared = shape.shared := by cases shape <;> rfl
  rw [shared]
  cases shape.bases <;> rfl

theorem names_map :
    (node place (shape.map (Expr.relabel f) g)).names = (node site shape).names := by
  rw [names, names, shape_node, shape_node, StmtShape.exprs_map, StmtShape.names_map]

theorem calls_map :
    (node place (shape.map (Expr.relabel f) g)).calls = (node site shape).calls := by
  rw [calls, calls, shape_node, shape_node, StmtShape.exprs_map, List.flatMap_map]
  exact List.flatMap_congr fun expr _ => Expr.calls_relabel f expr

end Stmt

def StmtShape.own {Label Body : Type} (shape : StmtShape (Expr Label) Body) :
    StmtShape ParsedExpr (List ParsedStmt) :=
  shape.map Expr.unlabelled fun _ => []

namespace StmtShape

variable {Label Other Body Inner : Type}

theorem own_map (f : Label → Other) (g : Body → Inner) (shape : StmtShape (Expr Label) Body) :
    (shape.map (Expr.relabel f) g).own = shape.own := by
  rw [own, own, map_map]
  exact map_congr (fun expr _ => Expr.relabel_relabel _ _ expr) fun _ _ => rfl

end StmtShape

structure SameWords {Label Other Mark Tag : Type} (stmt : Stmt Label (Expr Mark))
    (stmt' : Stmt Other (Expr Tag)) : Prop where
  binds : stmt'.binds = stmt.binds
  names : stmt'.names = stmt.names
  calls : stmt'.calls = stmt.calls

theorem SameWords.of_own {Label Other Mark Tag : Type} {label : Label} {other : Other}
    {shape : StmtShape (Expr Mark) (List (Stmt Label (Expr Mark)))}
    {shape' : StmtShape (Expr Tag) (List (Stmt Other (Expr Tag)))} (same : shape'.own = shape.own) :
    SameWords (.node label shape) (.node other shape') := by
  refine ⟨?_, ?_, ?_⟩
  · rw [← Stmt.binds_map (fun _ => ()) label Position.unplaced (fun _ => []) shape,
      ← Stmt.binds_map (fun _ => ()) other Position.unplaced (fun _ => []) shape']
    exact congrArg (fun shape => (Stmt.node Position.unplaced shape).binds) same
  · rw [← Stmt.names_map (fun _ => ()) label Position.unplaced (fun _ => []) shape,
      ← Stmt.names_map (fun _ => ()) other Position.unplaced (fun _ => []) shape']
    exact congrArg (fun shape => (Stmt.node Position.unplaced shape).names) same
  · rw [← Stmt.calls_map (fun _ => ()) label Position.unplaced (fun _ => []) shape,
      ← Stmt.calls_map (fun _ => ()) other Position.unplaced (fun _ => []) shape']
    exact congrArg (fun shape => (Stmt.node Position.unplaced shape).calls) same

end ScriptFlow
