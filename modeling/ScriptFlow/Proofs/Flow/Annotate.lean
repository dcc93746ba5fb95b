import ScriptFlow.Flow.Analysis
import ScriptFlow.Proofs.Flow.Lookup
import ScriptFlow.Proofs.Stmt.Relabel
import ScriptFlow.Proofs.Store.Insertion

/-!
The backward walk, statement by statement. It runs the steps of the statements, a step of a compound
statement walks its bodies, and the points it leaves are those of the statements walked, each once.
-/

namespace ScriptFlow

namespace Flow

variable (isFunction : String → Bool)

def annotateStmt : StoredStmt → Step := Stmt.fold (step isFunction)

def annotateBody (body : List StoredStmt) : Step := backward (body.map (annotateStmt isFunction))

theorem annotate_eq (body : List StoredStmt) :
    annotate isFunction body = (do return (← annotateBody isFunction body ∅).2) := rfl

theorem annotateBody_cons (stmt : StoredStmt) (rest : List StoredStmt) (out : FlowValue) :
    annotateBody isFunction (stmt :: rest) out = (do
      let (between, behind) ← annotateBody isFunction rest out
      let (into, here) ← annotateStmt isFunction stmt between
      return (into, behind ++ here)) := rfl

def annotateNode (site : Site) (shape : StmtShape StoredExpr (List StoredStmt)) (out : FlowValue) :
    Except IllFormed (FlowValue × List Point) := do
  let transfer ← Transfer.ofShape isFunction site.id site.position shape
  let into := transfer.apply out
  let inner ← shape.bodies.mapM fun body => return (← annotateBody isFunction body into).2
  return (into, ⟨site.id, into, out⟩ :: inner.flatten)

theorem annotateStmt_node (site : Site)
    (shape : StmtShape StoredExpr (List StoredStmt)) (out : FlowValue) :
    annotateStmt isFunction (.node site shape) out = annotateNode isFunction site shape out := by
  have transfer := StmtShape.transfer_map (fun label : ExprId => label)
      (fun body : List StoredStmt => body.map (annotateStmt isFunction))
      shape isFunction site.id site.position
  have same : (shape.map id fun body => body.map (annotateStmt isFunction)) =
      shape.map (Expr.relabel fun label => label) fun body => body.map (annotateStmt isFunction) :=
    StmtShape.map_congr (fun expr _ => (Expr.relabel_id expr).symm) fun _ _ => rfl
  rw [annotateStmt, Stmt.fold_node, ← annotateStmt, step, same, transfer, StmtShape.bodies_map]
  simp only [List.mapM_map]
  rfl

variable {isFunction} {body : List StoredStmt} {out into : FlowValue} {points : List Point}

theorem annotateBody_cons_ok {stmt : StoredStmt} {rest : List StoredStmt}
    (ran : annotateBody isFunction (stmt :: rest) out = .ok (into, points)) :
    ∃ between behind here, annotateBody isFunction rest out = .ok (between, behind) ∧
      annotateStmt isFunction stmt between = .ok (into, here) ∧ points = behind ++ here := by
  rw [annotateBody_cons] at ran
  obtain ⟨⟨between, behind⟩, later, ran⟩ := bind_eq_ok ran
  obtain ⟨⟨before, here⟩, first, ran⟩ := bind_eq_ok ran
  cases ran
  exact ⟨between, behind, here, later, first, rfl⟩

theorem annotateBody_cons_of_ok {stmt : StoredStmt} {rest : List StoredStmt} {between : FlowValue}
    {behind here : List Point} (later : annotateBody isFunction rest out = .ok (between, behind))
    (first : annotateStmt isFunction stmt between = .ok (into, here)) :
    annotateBody isFunction (stmt :: rest) out = .ok (into, behind ++ here) := by
  rw [annotateBody_cons, later, ok_bind]
  dsimp only
  rw [first]
  rfl

theorem annotateNode_ok {site : Site} {shape : StmtShape StoredExpr (List StoredStmt)}
    (ran : annotateNode isFunction site shape out = .ok (into, points)) :
    ∃ transfer inner, Transfer.ofShape isFunction site.id site.position shape = .ok transfer ∧
      into = transfer.apply out ∧ points = ⟨site.id, into, out⟩ :: inner.flatten ∧
      List.Forall₂ (fun body points => ∃ front,
        annotateBody isFunction body into = .ok (front, points))
        shape.bodies inner := by
  obtain ⟨transfer, made, ran⟩ := bind_eq_ok ran
  obtain ⟨inner, walked, ran⟩ := bind_eq_ok ran
  cases ran
  refine ⟨transfer, inner, made, rfl, rfl,
    (forall₂_of_mapM_ok walked).imp fun body points run => ?_⟩
  obtain ⟨⟨front, behind⟩, here, run⟩ := bind_eq_ok run
  cases run
  exact ⟨front, here⟩

theorem points_flatten {bodies : List (List StoredStmt)}
    {inner : List (List Point)} (walked : List.Forall₂ (fun body points => ∃ front,
      annotateBody isFunction body into = .ok (front, points)) bodies inner)
    (counted : ∀ body ∈ bodies, ∀ front points, annotateBody isFunction body into = .ok (front,
      points) → (points.map Point.id).Perm (Stmt.numbers body)) :
    (inner.flatten.map Point.id).Perm (Stmt.numbers bodies.flatten) := by
  induction walked with
  | nil =>
      rw [List.flatten_nil, List.flatten_nil, Stmt.numbers_nil]
      exact .nil
  | cons head _ ih =>
      obtain ⟨front, run⟩ := head
      rw [List.flatten_cons, List.flatten_cons, Stmt.numbers_append, List.map_append]
      exact (counted _ List.mem_cons_self _ _ run).append
        (ih fun body member => counted body (List.mem_cons_of_mem _ member))

theorem points_body {body : List StoredStmt}
    (each : ∀ stmt ∈ body, ∀ out into points, annotateStmt isFunction stmt out = .ok (into,
      points) → (points.map Point.id).Perm (Stmt.numbers [stmt])) {out into : FlowValue}
    {points : List Point} (ran : annotateBody isFunction body out = .ok (into, points)) :
    (points.map Point.id).Perm (Stmt.numbers body) := by
  induction body generalizing into points with
  | nil =>
      cases ran
      rw [Stmt.numbers_nil]
      exact .nil
  | cons stmt rest ih =>
      obtain ⟨between, behind, here, later, first, rfl⟩ := annotateBody_cons_ok ran
      have tail := ih (fun inner member => each inner (List.mem_cons_of_mem _ member)) later
      have head := each stmt List.mem_cons_self _ _ _ first
      rw [← List.singleton_append, Stmt.numbers_append, List.map_append]
      exact (tail.append head).trans List.perm_append_comm

theorem points_numbers (ran : annotateBody isFunction body out = .ok (into, points)) :
    (points.map Point.id).Perm (Stmt.numbers body) := by
  have each (stmt : StoredStmt) (out into : FlowValue) (points : List Point)
      (ran : annotateStmt isFunction stmt out = .ok (into, points)) :
      (points.map Point.id).Perm (Stmt.numbers [stmt]) := by
    induction stmt using Stmt.induction generalizing out into points with
    | node site shape ih =>
        rw [annotateStmt_node] at ran
        obtain ⟨transfer, inner, _, _, rfl, walked⟩ := annotateNode_ok ran
        rw [Stmt.numbers_node, List.map_cons]
        refine .cons _ (points_flatten walked fun body member front points run => ?_)
        exact points_body
          (fun stmt below => ih stmt (List.mem_flatten.mpr ⟨body, member, below⟩)) run
  exact points_body (fun stmt _ => each stmt) ran

theorem getElem?_byStatement {point : Point} (distinct : (points.map Point.id).Nodup)
    (member : point ∈ points) : (byStatement points)[point.id]? = some point := by
  refine Std.ExtTreeMap.getElem?_ofList_of_mem (k := point.id) Std.compare_self ?_
    (List.mem_map_of_mem member)
  rw [List.nodup_iff_pairwise_ne, List.pairwise_map] at distinct
  rw [List.pairwise_map]
  exact distinct.imp fun apart same => apart (Std.LawfulEqCmp.eq_of_compare same)

end Flow
end ScriptFlow
