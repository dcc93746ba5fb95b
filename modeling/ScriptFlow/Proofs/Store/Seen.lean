import ScriptFlow.Program.Basic
import ScriptFlow.Proofs.File.InStep

/-!
Places in a store. Putting trees into a store does not look at their places: a program whose places
are changed is the program of the file with the places changed, with the same numbers for
everything.
-/

namespace ScriptFlow

/-- Seen through the view, the second action does what the first does, and gives the same result. -/
def Carries {S A : Type} (view : S → S) (act act' : StateM S A) : Prop :=
  ∀ state, act'.run (view state) = ((act.run state).1, view (act.run state).2)

namespace Carries

variable {S A B C D : Type} {view : S → S}

theorem pure (a : A) : Carries view (pure a) (pure a) := fun _ => rfl

theorem bind {act act' : StateM S A} {next next' : A → StateM S B}
    (first : Carries view act act') (more : ∀ a, Carries view (next a) (next' a)) :
    Carries view (act >>= next) (act' >>= next') := by
  intro state
  rw [run_bind, run_bind, first state]
  exact more _ _

theorem map {act act' : StateM S A} (f : A → B) (first : Carries view act act') :
    Carries view (f <$> act) (f <$> act') :=
  first.bind fun a => pure (f a)

theorem mapM {act act' : A → StateM S B} {items : List A}
    (each : ∀ a ∈ items, Carries view (act a) (act' a)) :
    Carries view (items.mapM act) (items.mapM act') := by
  induction items with
  | nil => exact pure []
  | cons first rest ih =>
      rw [List.mapM_cons, List.mapM_cons]
      refine (each first List.mem_cons_self).bind fun b => ?_
      exact (ih fun a member => each a (List.mem_cons_of_mem _ member)).bind fun bs =>
        pure (b :: bs)

theorem mapM_option {act act' : A → StateM S B} {item : Option A}
    (each : ∀ a ∈ item, Carries view (act a) (act' a)) :
    Carries view (item.mapM act) (item.mapM act') := by
  cases item with
  | none => exact pure none
  | some a => exact (each a rfl).map some

theorem exprShape {act act' : A → StateM S B} {shape : ExprShape A}
    (each : ∀ a ∈ shape.operands, Carries view (act a) (act' a)) :
    Carries view (shape.mapM act) (shape.mapM act') := by
  have row {items : List A} (inside : ∀ a ∈ items, a ∈ shape.operands) :
      Carries view (items.mapM act) (items.mapM act') :=
    mapM fun a member => each a (inside a member)
  have grid {rows : List (List A)} (inside : ∀ a ∈ rows.flatten, a ∈ shape.operands) :
      Carries view (rows.mapM (·.mapM act)) (rows.mapM (·.mapM act')) :=
    mapM fun _ own => row fun a member => inside a (List.mem_flatten.mpr ⟨_, own, member⟩)
  cases shape with
  | num | str | name | colon | last => exact pure _
  | param head args | cellIndex head args =>
      refine (each head List.mem_cons_self).bind fun first => ?_
      exact (row fun a member => List.mem_cons_of_mem _ member).bind fun others => pure _
  | field operand | unary _ operand | transpose _ operand =>
    exact (each operand List.mem_cons_self).bind fun _ => pure _
  | matrix rows | cell rows => exact (grid fun a member => member).bind fun _ => pure _
  | binary left _ right =>
      refine (each left List.mem_cons_self).bind fun _ => ?_
      exact (each right (by simp [ExprShape.operands])).bind fun _ => pure _
  | range start step stop =>
      refine (each start (by simp [ExprShape.operands])).bind fun _ => ?_
      refine (mapM_option fun a member => each a ?_).bind fun _ =>
        (each stop (by simp [ExprShape.operands])).bind fun _ => pure _
      simp [ExprShape.operands, Option.mem_def.mp member]

theorem stmtShape {act act' : A → StateM S C} {body body' : B → StateM S D}
    {shape : StmtShape A B} (exprs : ∀ a ∈ shape.exprs, Carries view (act a) (act' a))
    (bodies : ∀ b ∈ shape.bodies, Carries view (body b) (body' b)) :
    Carries view (shape.mapM act body) (shape.mapM act' body') := by
  have clauses {items : List (A × B)} (guards : ∀ item ∈ items, item.1 ∈ shape.exprs)
      (inside : ∀ item ∈ items, item.2 ∈ shape.bodies) :
      Carries view (items.mapM (StmtShape.mapClauseM act body))
      (items.mapM (StmtShape.mapClauseM act' body')) := by
    refine mapM fun item member => (exprs _ (guards item member)).bind fun _ => ?_
    exact (bodies _ (inside item member)).bind fun _ => pure _
  have option {item : Option B} (inside : ∀ b ∈ item, b ∈ shape.bodies) :
      Carries view (item.mapM body) (item.mapM body') :=
    mapM_option fun b member => bodies b (inside b member)
  cases shape with
  | breakLoop | continueLoop | leave | global | persistent => exact pure _
  | eval expr => exact (exprs expr List.mem_cons_self).bind fun _ => pure _
  | assign target value =>
      refine (exprs target (by simp [StmtShape.exprs])).bind fun _ => ?_
      exact (exprs value (by simp [StmtShape.exprs])).bind fun _ => pure _
  | forLoop _ guard inner | whileLoop guard inner =>
      refine (exprs guard (by simp [StmtShape.exprs, StmtShape.guards])).bind fun _ => ?_
      exact (bodies inner (by simp [StmtShape.bodies])).bind fun _ => pure _
  | branch items last =>
      refine (clauses (fun item member => List.mem_map_of_mem member) fun item member =>
        ?_).bind fun _ =>
        (option fun b member => ?_).bind fun _ => pure _
      · exact List.mem_append_left _ (List.mem_map_of_mem member)
      · exact List.mem_append_right _ (Option.mem_toList.mpr member)
  | switch subject items last =>
      refine (exprs subject List.mem_cons_self).bind fun _ =>
        (clauses (fun item member => List.mem_cons_of_mem _ (List.mem_map_of_mem member))
          fun item member => ?_).bind fun _ =>
        (option fun b member => ?_).bind fun _ => pure _
      · exact List.mem_append_left _ (List.mem_map_of_mem member)
      · exact List.mem_append_right _ (Option.mem_toList.mpr member)

end Carries

def StmtEntry.seen (view : Position → Position) (entry : StmtEntry) : StmtEntry :=
  { entry with position := view entry.position }

def FunctionEntry.seen (view : Position → Position) (entry : FunctionEntry) : FunctionEntry :=
  { entry with header := entry.header.seen view }

/-- The store with what is kept of its places. -/
def Store.seen (view : Position → Position) (store : Store) : Store :=
  { store with
    stmts := store.stmts.map (StmtEntry.seen view),
    functions := store.functions.map (FunctionEntry.seen view) }

namespace Store

variable (view : Position → Position)

theorem carries_addExpr (shape : ExprShape ExprId) :
    Carries (seen view) (addExpr shape) (addExpr shape) := fun _ => rfl

theorem carries_addStmt (shape : StoredShape) (position : Position) :
    Carries (seen view) (addStmt shape position) (addStmt shape (view position)) := by
  intro store
  have entries : (store.stmts.push ⟨shape, position, none⟩).map (StmtEntry.seen view) =
      (store.stmts.map (StmtEntry.seen view)).push ⟨shape, view position, none⟩ := Array.map_push
  refine Prod.ext Array.size_map ?_
  exact congrArg (fun stmts => Store.mk stmts store.exprs store.blocks
    (store.functions.map (FunctionEntry.seen view))) entries.symm

theorem carries_addFunction (entry : FunctionEntry) :
    Carries (seen view) (addFunction entry) (addFunction (entry.seen view)) := by
  intro store
  have entries : (store.functions.push entry).map (FunctionEntry.seen view) =
      (store.functions.map (FunctionEntry.seen view)).push (entry.seen view) := Array.map_push
  refine Prod.ext Array.size_map ?_
  exact congrArg (Store.mk (store.stmts.map (StmtEntry.seen view)) store.exprs store.blocks)
    entries.symm

theorem setParent_seen (block : BlockId) (stmts : Array StmtEntry) (id : StmtId) :
    (setParent block stmts id).map (StmtEntry.seen view) =
      setParent block (stmts.map (StmtEntry.seen view)) id := by
  apply Array.ext
  · simp [setParent]
  · intro index inside inside'
    simp only [setParent, Array.getElem_map, Array.getElem_modify]
    split <;> rfl

theorem carries_addBlock (members : List StmtId) :
    Carries (seen view) (addBlock members) (addBlock members) := by
  intro store
  have parents (stmts : Array StmtEntry) :
      (members.foldl (setParent store.blocks.size) stmts).map (StmtEntry.seen view) =
      members.foldl (setParent store.blocks.size) (stmts.map (StmtEntry.seen view)) := by
    induction members generalizing stmts with
    | nil => rfl
    | cons first rest ih => rw [List.foldl_cons, List.foldl_cons, ih, setParent_seen]
  exact congrArg (fun stmts => (store.blocks.size, Store.mk stmts store.exprs (store.blocks.push
      members) (store.functions.map (FunctionEntry.seen view)))) (parents store.stmts).symm

end Store

variable (view : Position → Position)

theorem Expr.carries_allocate (expr : ParsedExpr) :
    Carries (Store.seen view) expr.allocate expr.allocate := by
  induction expr using Expr.induction with
  | node label shape ih =>
      rw [allocate_node]
      exact (Carries.exprShape ih).bind fun stored => Store.carries_addExpr view stored

theorem carries_allocateBody {body : List ParsedStmt}
    (each : ∀ stmt ∈ body, Carries (Store.seen view) stmt.allocate (stmt.seen view).allocate) :
    Carries (Store.seen view) (allocateBody body) (allocateBody (body.map (Stmt.seen view))) := by
  rw [allocateBody, allocateBody, List.mapM_map]
  exact (Carries.mapM each).bind fun members => Store.carries_addBlock view members

theorem Stmt.carries_allocate (stmt : ParsedStmt) :
    Carries (Store.seen view) stmt.allocate (stmt.seen view).allocate := by
  induction stmt using Stmt.induction with
  | node position shape ih =>
      rw [seen_node, allocate_node, allocate_node, seenShape, StmtShape.mapM_map]
      refine (Carries.stmtShape (fun expr _ => Expr.carries_allocate view expr) fun body inside =>
        ?_).bind fun stored => Store.carries_addStmt view stored position
      exact carries_allocateBody view fun inner member =>
        ih inner (List.mem_flatten.mpr ⟨body, inside, member⟩)

mutual
theorem Function.carries_allocate (function : ParsedFunction) :
    Carries (Store.seen view) function.allocate (function.seen view).allocate := by
  cases function with
  | mk header items =>
      change Carries _ _ (Function.mk (header.seen view)
        (mapItems (Header.seen view) (Stmt.seen view) items)).allocate
      rw [Function.allocate, Function.allocate]
      refine (carries_allocateItems items).bind fun numbers => ?_
      exact (Store.carries_addBlock view numbers.1).bind fun body =>
        Store.carries_addFunction view ⟨header, body, numbers.2⟩

theorem carries_allocateItems (items : List ParsedItem) :
    Carries (Store.seen view) (allocateItems items)
      (allocateItems (mapItems (Header.seen view) (Stmt.seen view) items)) := by
  match items with
  | [] => exact .pure _
  | .stmt inner :: rest =>
      rw [mapItems, allocateItems, allocateItems]
      refine (inner.carries_allocate view).bind fun id => ?_
      exact (carries_allocateItems rest).bind fun numbers => .pure _
  | .function inner :: rest =>
      rw [mapItems, allocateItems, allocateItems]
      refine (inner.carries_allocate).bind fun id => ?_
      exact (carries_allocateItems rest).bind fun numbers => .pure _
end

def Program.seen (view : Position → Position) (program : Program) : Program :=
  { program with store := program.store.seen view }

/-- The program of a file with other places is the program of the file, with the same numbers, with
these places. -/
theorem Program.ofFile_seen (file : ParsedFile) :
    ofFile (file.seen view) = (ofFile file).seen view := by
  have roots (numbers : List StmtId × List FuncId) : Carries (Store.seen view)
      (if numbers.1.isEmpty then pure none >>= fun script => pure (script, numbers.2)
        else some <$> Store.addBlock numbers.1 >>= fun script => pure (script, numbers.2))
      (if numbers.1.isEmpty then pure none >>= fun script => pure (script, numbers.2)
        else some <$> Store.addBlock numbers.1 >>= fun script => pure (script, numbers.2)) := by
    split
    · exact .pure _
    · exact ((Store.carries_addBlock view numbers.1).map some).bind fun script =>
        .pure (script, numbers.2)
  have ran := (carries_allocateItems view file.items).bind roots .empty
  have empty : Store.empty.seen view = .empty := by simp [Store.seen, Store.empty]
  rw [mapItems_seen, empty] at ran
  exact congrArg (fun result => Program.mk result.2 result.1.1 result.1.2) ran

end ScriptFlow
