import ScriptFlow.File.Basic

/-!
Files without the order of their parts. A program keeps the statements of a file apart from its
functions, at every level, so it knows a file up to the place where the functions stand.
-/

namespace ScriptFlow

variable {Label Other Third Operand Result Final : Type}

section
variable (header : Header → Header) (stmt : Stmt Label Operand → Stmt Other Result)

mutual
def Function.map : Function Label Operand → Function Other Result
  | .mk first items => .mk (header first) (mapItems items)

def mapItems : List (Item Label Operand) → List (Item Other Result)
  | [] => []
  | .stmt inner :: rest => .stmt (stmt inner) :: mapItems rest
  | .function inner :: rest => .function inner.map :: mapItems rest
end

def File.map (file : File Label Operand) : File Other Result := ⟨mapItems header stmt file.items⟩

end

def itemsOf (stmts : List (Stmt Label Operand)) (functions : List (Function Label Operand)) :
    List (Item Label Operand) := stmts.map .stmt ++ functions.map .function

mutual
/-- The function with its statements before the functions in it, and these arranged likewise. -/
def Function.arranged : Function Label Operand → Function Label Operand
  | .mk header items =>
    .mk header (itemsOf (items.filterMap Item.statement?) (arrangedFunctions items))

def arrangedFunctions : List (Item Label Operand) → List (Function Label Operand)
  | [] => []
  | .stmt _ :: rest => arrangedFunctions rest
  | .function inner :: rest => inner.arranged :: arrangedFunctions rest
end

def File.arranged (file : File Label Operand) : File Label Operand :=
  ⟨itemsOf (file.items.filterMap Item.statement?) (arrangedFunctions file.items)⟩

section
variable (header : Header → Header) (stmt : Stmt Label Operand → Stmt Other Result)

theorem mapItems_append (front back : List (Item Label Operand)) :
    mapItems header stmt (front ++ back) = mapItems header stmt front ++
      mapItems header stmt back := by
  induction front with
  | nil => rfl
  | cons item rest ih => cases item <;> simp only [List.cons_append, mapItems, ih]

theorem mapItems_itemsOf (stmts : List (Stmt Label Operand))
    (functions : List (Function Label Operand)) : mapItems header stmt (itemsOf stmts functions) =
      itemsOf (stmts.map stmt) (functions.map (Function.map header stmt)) := by
  have statements : mapItems header stmt (stmts.map .stmt) = (stmts.map stmt).map .stmt := by
    induction stmts with
    | nil => rfl
    | cons first rest ih => simp only [List.map_cons, mapItems, ih]
  have nested : mapItems header stmt (functions.map .function) =
      (functions.map (Function.map header stmt)).map .function := by
    induction functions with
    | nil => rfl
    | cons first rest ih => simp only [List.map_cons, mapItems, ih]
  rw [itemsOf, mapItems_append, statements, nested, itemsOf]

end

theorem statements_itemsOf (stmts : List (Stmt Label Operand))
    (functions : List (Function Label Operand)) :
    (itemsOf stmts functions).filterMap Item.statement? = stmts := by
  have none : (functions.map Item.function).filterMap Item.statement? =
      ([] : List (Stmt Label Operand)) := by
    rw [List.filterMap_map]
    exact List.filterMap_eq_nil_iff.mpr fun _ _ => rfl
  rw [itemsOf, List.filterMap_append, none, List.append_nil, List.filterMap_map]
  exact List.filterMap_some

end ScriptFlow
