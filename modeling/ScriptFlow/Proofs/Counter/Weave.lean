import ScriptFlow.Counter.Instrument
import ScriptFlow.Proofs.Stmt.Refill
import ScriptFlow.Proofs.Store.Allocation

/-!
Weaving counters into a scope. The woven statements are built from the statements of the scope by
recursion, without any store: a statement that was there keeps its number and its expressions keep
theirs, and a counter statement has none.
-/

namespace ScriptFlow

/-- Where a statement comes from: its number if it was there already, and its place. -/
structure Origin where
  number : Option StmtId
  position : Position
  deriving DecidableEq, Repr

abbrev WovenStmt := Stmt Origin (Expr (Option ExprId))

namespace Weave

open Instrument (Context)

/-- The statement `counter = 0;`. -/
def zeroing (counter : String) : ParsedStmt :=
  .node .unplaced (.assign (.node () (.name counter)) (.node () (.num "0")) true)

/-- The statement `counter = counter + 1;`. -/
def adding (counter : String) : ParsedStmt :=
  .node .unplaced (.assign (.node () (.name counter))
    (.node () (.binary (.node () (.name counter)) .add (.node () (.num "1")))) true)

/-- The statement `fprintf('%s %d\n', 'counter', counter);`. -/
def showing (counter : String) : ParsedStmt :=
  .node .unplaced (.eval (.node () (.param (.node () (.name "fprintf"))
    [.node () (.str "%s %d\\n" .single), .node () (.str counter .single),
      .node () (.name counter)])) true)

def injected : ParsedStmt → WovenStmt :=
  Stmt.relabel (fun position => ⟨none, position⟩) (Expr.relabel fun _ => none)

def kept (site : Site) (shape : StmtShape StoredExpr (List WovenStmt)) : WovenStmt :=
  .node ⟨some site.id, site.position⟩ (shape.map (Expr.relabel some) fun body => body)

variable (context : Context)

/-- Whether an expression puts parentheses behind the name of a function. -/
def isCall : StoredExpr → Bool
  | .node _ (.param (.node _ (.name name)) _) => context.isFunction name
  | _ => false

def isFunctionName : StoredExpr → Bool
  | .node _ (.name name) => context.isFunction name
  | _ => false

def charges (exprs : List StoredExpr) : Nat := (exprs.flatMap Expr.within).countP (isCall context)

def increments (exprs : List StoredExpr) : List WovenStmt :=
  List.replicate (charges context exprs) (injected (adding (context.name ++ "_func")))

/-- A loop with its counter around it; `counting` is the loop whose body starts with an
increment. -/
def loop (counter : String) (site : Site) (guard : StoredExpr)
    (counting : StmtShape StoredExpr (List WovenStmt)) : List WovenStmt :=
  [injected (zeroing counter)] ++ increments context [guard] ++
    [kept site counting, injected (showing counter)]

/-- A statement whose bodies are woven, with the counter statements around it. -/
def around (number : Nat) (site : Site) (shape : StmtShape StoredExpr (List WovenStmt)) :
    List WovenStmt :=
  let loopCounter := context.name ++ "_loop_" ++ toString number
  let rounds (body : List WovenStmt) := injected (adding loopCounter) :: body
  match shape with
  | .forLoop var range body =>
      loop context loopCounter site range (.forLoop var range (rounds body))
  | .whileLoop cond body => loop context loopCounter site cond (.whileLoop cond (rounds body))
  | .branch clauses _ => increments context (clauses.map Prod.fst) ++ [kept site shape]
  | .switch subject cases _ =>
      increments context (subject :: cases.map Prod.fst) ++ [kept site shape]
  | .eval expr _ => increments context [expr] ++ [kept site shape]
  | .assign _ value _ =>
      (if value.within.any (isFunctionName context)
        then [injected (adding (context.name ++ "_func"))] else []) ++ [kept site shape]
  | .leave => [injected (showing (context.name ++ "_func")), kept site shape]
  | .breakLoop | .continueLoop | .global _ | .persistent _ => [kept site shape]

/-- One layer. The state is the number of the next loop; a loop takes its number before the loops in
it. -/
def layer (site : Site) (shape : StmtShape StoredExpr (List (StateM Nat (List WovenStmt)))) :
    StateM Nat (List WovenStmt) := do
  let number ← modifyGet fun next => (next, if shape.isLoop then next + 1 else next)
  let inner ← shape.mapM pure fun body => List.flatten <$> body.mapM id
  return around context number site inner

def stmt : StoredStmt → StateM Nat (List WovenStmt) := Stmt.fold (layer context)

def body (stmts : List StoredStmt) : StateM Nat (List WovenStmt) :=
  List.flatten <$> stmts.mapM (stmt context)

/-- The body of a scope, whose counter is zeroed first and displayed last. -/
def scope (stmts : List StoredStmt) : StateM Nat (List WovenStmt) := do
  let woven ← body context stmts
  let counter := context.name ++ "_func"
  return [injected (zeroing counter)] ++ woven ++ [injected (showing counter)]

theorem increments_eq (exprs : List StoredExpr) : increments context exprs =
    List.replicate (charges context exprs) (injected (adding context.counter)) := rfl

theorem isCall_eq (expr : StoredExpr) :
    isCall context expr = expr.callee?.any context.isFunction := by
  fun_cases isCall context expr
  case case1 => rfl
  case case2 other =>
    rw [Expr.callee?]
    · rfl
    · exact other

theorem any_isFunctionName (expr : StoredExpr) :
    expr.within.any (isFunctionName context) = expr.names.any context.isFunction := by
  rw [Bool.eq_iff_iff, List.any_eq_true, List.any_eq_true]
  constructor
  · rintro ⟨inner, inside, named⟩
    fun_cases isFunctionName context inner
    case case1 label name => exact ⟨name, (expr.mem_names_iff name).mpr ⟨label, inside⟩, named⟩
    case case2 other =>
      rw [isFunctionName] at named
      · cases named
      · exact other
  · rintro ⟨name, occurs, function⟩
    obtain ⟨label, inside⟩ := (expr.mem_names_iff name).mp occurs
    exact ⟨_, inside, function⟩

theorem stmt_node (site : Site) (shape : StmtShape StoredExpr (List StoredStmt)) :
    stmt context (.node site shape) = (do
      let number ← modifyGet fun next => (next, if shape.isLoop then next + 1 else next)
      let inner ← shape.mapM pure (body context)
      return around context number site inner) := by
  have sameLoop : (shape.map id (·.map (Stmt.fold (layer context)))).isLoop = shape.isLoop := by
    cases shape <;> rfl
  rw [stmt, Stmt.fold_node, layer, sameLoop, StmtShape.mapM_map]
  simp only [List.mapM_map, id_eq]
  rfl

theorem stmt_run (site : Site) (shape : StmtShape StoredExpr (List StoredStmt)) (number : Nat) :
    (stmt context (.node site shape)).run number =
      let bodies :=
        (shape.bodies.mapM (body context)).run (if shape.isLoop then number + 1 else number)
      (around context number site (shape.refill bodies.1), bodies.2) := by
  rw [stmt_node, StmtShape.mapM_pure_refill]
  rfl

theorem body_cons (first : StoredStmt) (rest : List StoredStmt) (number : Nat) :
    (body context (first :: rest)).run number =
      let head := (stmt context first).run number
      let tail := (body context rest).run head.2
      (head.1 ++ tail.1, tail.2) := by
  simp only [body, List.mapM_cons]
  rfl

end Weave

section
variable (stmts : StmtId) (exprs : ExprId)

def earlier (size id : Nat) : Option Nat := if id < size then some id else none

def Stmt.traced : StoredStmt → WovenStmt :=
  Stmt.relabel (fun site => ⟨earlier stmts site.id, site.position⟩) (Expr.relabel (earlier exprs))

theorem Expr.relabel_congr {Label Other : Type} {f g : Label → Other}
    {expr : Expr Label} (same : ∀ node ∈ expr.within, f node.label = g node.label) :
    expr.relabel f = expr.relabel g := by
  induction expr using Expr.induction with
  | node label shape ih =>
      have root : f label = g label := same _ (mem_within_self _)
      rw [relabel_node, relabel_node, root]
      refine congrArg _ (ExprShape.map_congr fun operand below => ?_)
      exact ih operand below fun node inside => same node (mem_within_of_operand below inside)

theorem Stmt.traced_node (site : Site) (shape : StmtShape StoredExpr (List StoredStmt)) :
    Stmt.traced stmts exprs (.node site shape) =
      .node ⟨earlier stmts site.id, site.position⟩
        (shape.map (Expr.relabel (earlier exprs)) (·.map (Stmt.traced stmts exprs))) :=
          Stmt.relabel_node _ _ _ _

theorem traced_expr {expr : StoredExpr} (early : ∀ id ∈ expr.within.map Expr.label, id < exprs) :
    expr.relabel (earlier exprs) = expr.relabel some :=
  Expr.relabel_congr fun _ inside => if_pos (early _ (List.mem_map_of_mem inside))

theorem traced_injected {tree : StoredStmt} (late : ∀ id ∈ Stmt.numbers [tree], stmts ≤ id)
    (lateExprs : ∀ id ∈ Stmt.exprNumbers [tree], exprs ≤ id) :
    tree.traced stmts exprs = Weave.injected tree.unnumbered := by
  induction tree using Stmt.induction with
  | node site shape ih =>
      have root : stmts ≤ site.id :=
        late _ (Stmt.number_mem_of_mem (List.mem_cons_self (a := .node site shape)))
      -- All of its numbers are late, at the root and below, so none is traced.
      have own : earlier stmts site.id = none := if_neg (Nat.not_lt.mpr root)
      rw [Stmt.traced_node, Weave.injected, Stmt.unnumbered, Stmt.relabel_node, Stmt.relabel_node,
        StmtShape.map_map, own]
      refine congrArg _ (StmtShape.map_congr (fun expr member => ?_) fun body member => ?_)
      · rw [Function.comp_apply, Expr.unlabelled, Expr.relabel_relabel]
        refine Expr.relabel_congr fun _ inside => if_neg (Nat.not_lt.mpr (lateExprs _ ?_))
        rw [Stmt.exprNumbers_cons]
        refine List.mem_append_left _
          (List.mem_flatMap.mpr ⟨expr, member, List.mem_map_of_mem inside⟩)
      · rw [Function.comp_apply, List.map_map]
        refine List.map_congr_left fun inner below => ?_
        have nested : inner ∈ shape.bodies.flatten := List.mem_flatten.mpr ⟨body, member, below⟩
        refine ih inner nested (fun id inside => late id ?_) fun id inside => lateExprs id ?_
        · rw [Stmt.numbers_cons]
          refine List.mem_cons_of_mem _ (List.mem_append_left _ ?_)
          rw [Stmt.numbers_flatMap]
          exact List.mem_flatMap.mpr ⟨inner, nested, inside⟩
        · rw [Stmt.exprNumbers_cons]
          refine List.mem_append_right _ (List.mem_append_left _ ?_)
          rw [Stmt.exprNumbers_flatMap]
          exact List.mem_flatMap.mpr ⟨inner, nested, inside⟩

end

end ScriptFlow
