import ScriptFlow.Proofs.File.Spelled

/-!
What labels do not decide in a file. Under other labels the statements and functions are readable as
before, have the same landmarks and are written in the same way.
-/

namespace ScriptFlow

open Token File Written

variable {Label Other Mark Sign : Type}

namespace Expr

variable (f : Label → Other)

theorem lexemes_relabel (expr : Expr Label) : (expr.relabel f).lexemes = expr.lexemes := by
  rw [lexemes, lexemes, phrase, phrase, fold_relabel]

theorem landmarks_relabel (expr : Expr Label) : (expr.relabel f).landmarks = expr.landmarks :=
  fold_relabel _ f expr

theorem isText_relabel (expr : Expr Label) : (expr.relabel f).isText = expr.isText := by
  obtain ⟨label, shape⟩ := expr
  rw [relabel_node]
  cases shape <;> rfl

theorem quotesText_relabel (expr : Expr Label) : (expr.relabel f).quotesText = expr.quotesText := by
  obtain ⟨label, shape⟩ := expr
  rw [relabel_node]
  cases shape with
  | transpose op operand =>
      cases op with
      | conjugate => exact isText_relabel f operand
      | plain => rfl
  | _ => rfl

theorem faithful_relabel (expr : Expr Label) : (expr.relabel f).Faithful ↔ expr.Faithful := by
  rw [Faithful, Faithful, within_relabel, List.forall_mem_map]
  exact forall₂_congr fun inner _ => by rw [quotesText_relabel]

theorem readable_relabel (expr : Expr Label) {inIndex asArgument : Bool} :
    Readable inIndex asArgument (expr.relabel f) ↔ Readable inIndex asArgument expr := by
  induction expr using Expr.induction generalizing inIndex asArgument with
  | node label shape ih =>
      -- Relabelling goes through lists and rows of operands by the induction hypothesis.
      have list {exprs : List (Expr Label)}
          (inside : ∀ expr ∈ exprs, expr ∈ shape.operands) {inIndex asArgument : Bool} :
          (∀ expr ∈ exprs.map (relabel f), Readable inIndex asArgument expr) ↔
          ∀ expr ∈ exprs, Readable inIndex asArgument expr := by
        rw [List.forall_mem_map]
        exact forall₂_congr fun expr member => ih expr (inside expr member)
      have grid {rows : List (List (Expr Label))}
          (inside : ∀ expr ∈ rows.flatten, expr ∈ shape.operands) {inIndex : Bool} :
          (∀ row ∈ rows.map (·.map (relabel f)), ∀ expr ∈ row, Readable inIndex false expr) ↔
          ∀ row ∈ rows, ∀ expr ∈ row, Readable inIndex false expr := by
        rw [List.forall_mem_map]
        exact forall₂_congr fun row member => list fun expr own =>
          inside expr (List.mem_flatten.mpr ⟨row, member, own⟩)
      have filled (rows : List (List (Expr Label))) :
          [] ∉ rows.map (·.map (relabel f)) ↔ [] ∉ rows := by
        simp
      rw [relabel_node]
      cases shape with
      | num text => exact ⟨fun | .num number => .num number, fun | .num number => .num number⟩
      | str text quoting =>
        exact ⟨fun | .str _ plain => .str _ plain, fun | .str _ plain => .str _ plain⟩
      | name name => exact ⟨fun | .name isName => .name isName, fun | .name isName => .name isName⟩
      | colon => exact ⟨fun | .colon => .colon, fun | .colon => .colon⟩
      | last => exact ⟨fun | .last => .last, fun | .last => .last⟩
      | param head args =>
          have heads := @ih head List.mem_cons_self inIndex false
          have rest := @list args (fun _ own => List.mem_cons_of_mem _ own) true true
          exact ⟨fun | .param base all => .param (heads.mp base) (rest.mp all),
            fun | .param base all => .param (heads.mpr base) (rest.mpr all)⟩
      | cellIndex head args =>
          have heads := @ih head List.mem_cons_self inIndex false
          have rest := @list args (fun _ own => List.mem_cons_of_mem _ own) true true
          exact ⟨fun | .cellIndex base all => .cellIndex (heads.mp base) (rest.mp all),
            fun | .cellIndex base all => .cellIndex (heads.mpr base) (rest.mpr all)⟩
      | field head key =>
          have heads := @ih head List.mem_cons_self inIndex false
          exact ⟨fun | .field base isName => .field (heads.mp base) isName,
            fun | .field base isName => .field (heads.mpr base) isName⟩
      | matrix rows =>
          have elements := @grid rows (fun _ own => own) inIndex
          exact ⟨fun | .matrix each all => .matrix ((filled rows).mp each) (elements.mp all),
            fun | .matrix each all => .matrix ((filled rows).mpr each) (elements.mpr all)⟩
      | cell rows =>
          have elements := @grid rows (fun _ own => own) inIndex
          exact ⟨fun | .cell each all => .cell ((filled rows).mp each) (elements.mp all),
            fun | .cell each all => .cell ((filled rows).mpr each) (elements.mpr all)⟩
      | unary op operand =>
          have operands := @ih operand List.mem_cons_self inIndex false
          exact ⟨fun | .unary op own => .unary op (operands.mp own),
            fun | .unary op own => .unary op (operands.mpr own)⟩
      | transpose op operand =>
          have operands := @ih operand List.mem_cons_self inIndex false
          exact ⟨fun | .transpose op own => .transpose op (operands.mp own),
            fun | .transpose op own => .transpose op (operands.mpr own)⟩
      | binary left op right =>
          have lefts := @ih left List.mem_cons_self inIndex false
          have rights := @ih right (List.mem_cons_of_mem _ List.mem_cons_self) inIndex false
          exact ⟨fun | .binary op one two => .binary op (lefts.mp one) (rights.mp two),
            fun | .binary op one two => .binary op (lefts.mpr one) (rights.mpr two)⟩
      | range start step stop =>
          have starts := @ih start List.mem_cons_self inIndex false
          have stops := @ih stop (by simp [ExprShape.operands]) inIndex false
          -- The step of a range may be missing.
          have steps : (∀ middle ∈ step.map (relabel f), Readable inIndex false middle) ↔
              ∀ middle ∈ step, Readable inIndex false middle := by
            cases step with
            | none => simp
            | some middle =>
                have own := @ih middle (by simp [ExprShape.operands]) inIndex false
                simpa using own
          constructor
          · intro readable
            cases readable with
            | range one two three => exact .range (starts.mp one) (steps.mp two) (stops.mp three)
          · intro readable
            cases readable with
            | range one two three => exact .range (starts.mpr one) (steps.mpr two) (stops.mpr three)

end Expr

namespace StmtShape

variable {Body Inner : Type} (f : Mark → Sign) (g : Body → Inner)

theorem readable_map (shape : StmtShape (Expr Mark) Body) :
    (shape.map (Expr.relabel f) g).Readable ↔ shape.Readable := by
  have exprs : (∀ expr ∈ (shape.map (Expr.relabel f) g).exprs, expr.Readable false false) ↔
      ∀ expr ∈ shape.exprs, expr.Readable false false := by
    rw [exprs_map, List.forall_mem_map]
    exact forall₂_congr fun expr _ => Expr.readable_relabel f expr
  have clauses : (∀ clauses otherwise, shape.map (Expr.relabel f) g = .branch clauses otherwise →
      clauses ≠ []) ↔ ∀ clauses otherwise, shape = .branch clauses otherwise → clauses ≠ [] := by
    cases shape <;> simp [map]
  have others : (shape.map (Expr.relabel f) g).loopVar? = shape.loopVar? ∧
      (shape.map (Expr.relabel f) g).shared = shape.shared ∧
      (shape.map (Expr.relabel f) g ≠ .global [] ∧ shape.map (Expr.relabel f) g ≠ .persistent [] ↔
      shape ≠ .global [] ∧ shape ≠ .persistent []) := by
    cases shape <;> simp [map, loopVar?, shared]
  obtain ⟨var, shared, declares⟩ := others
  constructor
  · intro readable
    exact ⟨exprs.mp readable.exprs, clauses.mp readable.clauses, var ▸ readable.var,
      shared ▸ readable.declared, declares.mp readable.declares⟩
  · intro readable
    exact ⟨exprs.mpr readable.exprs, clauses.mpr readable.clauses, var.symm ▸ readable.var,
      shared.symm ▸ readable.declared, declares.mpr readable.declares⟩

theorem landmarks_congr {Operand : Type} {ofExpr ofExpr' : Operand → List Landmark}
    {ofBody ofBody' : Body → List Landmark} {shape : StmtShape Operand Body}
    (exprs : ∀ expr ∈ shape.exprs, ofExpr expr = ofExpr' expr)
    (bodies : ∀ body ∈ shape.bodies, ofBody body = ofBody' body) :
    shape.landmarks ofExpr ofBody = shape.landmarks ofExpr' ofBody' := by
  have flat (ofExpr : Operand → List Landmark) (ofBody : Body → List Landmark) :
      shape.landmarks ofExpr ofBody = (shape.map ofExpr ofBody).landmarks id id :=
    (landmarks_map id id ofExpr ofBody shape).symm
  rw [flat, flat, map_congr exprs bodies]

end StmtShape

namespace Stmt

variable (f : Label → Other) (g : Mark → Sign)

theorem writtenShape_map (shape : StmtShape (Expr Mark) (List Written)) :
    writtenShape (shape.map (Expr.relabel g) fun body => body) = writtenShape shape := by
  have clause (kind : Kind) (clauses : List (Expr Mark × List Written)) :
      (clauses.map (Prod.map (Expr.relabel g) fun body => body)).map (writtenClause kind) =
      clauses.map (writtenClause kind) := by
    rw [List.map_map]
    refine List.map_congr_left fun clause _ => ?_
    rw [Function.comp_apply, writtenClause, writtenClause, Prod.map_fst, Prod.map_snd,
      Expr.lexemes_relabel]
  have last (last : Option (List Written)) : last.map (fun body => body) = last := Option.map_id'
  cases shape with
  | branch clauses otherwise =>
      simp only [StmtShape.map, writtenShape, last]
      cases clauses with
      | nil => rfl
      | cons first rest =>
          rw [List.map_cons, writtenBranch, writtenBranch, clause, writtenClause, Prod.map_fst,
            Prod.map_snd, Expr.lexemes_relabel]
          rfl
  | switch subject cases otherwise =>
    simp only [StmtShape.map, writtenShape, last, clause, Expr.lexemes_relabel]
  | _ => simp only [StmtShape.map, writtenShape, Expr.lexemes_relabel]

theorem written_relabel (stmt : Stmt Label (Expr Mark)) :
    (stmt.relabel f (Expr.relabel g)).written = stmt.written := by
  induction stmt using Stmt.induction with
  | node label shape ih =>
      have bodies : (shape.map (Expr.relabel g) (·.map (Stmt.relabel f (Expr.relabel g)))).map id
          (·.map written) =
          (shape.map id (·.map written)).map (Expr.relabel g) fun body => body := by
        rw [StmtShape.map_map, StmtShape.map_map]
        refine StmtShape.map_congr (fun _ _ => rfl) fun body member => ?_
        rw [Function.comp_apply, List.map_map]
        exact List.map_congr_left fun inner inside =>
          ih inner (List.mem_flatten.mpr ⟨body, member, inside⟩)
      rw [relabel_node, written_node, written_node, bodies, writtenShape_map]

theorem faithful_relabel (stmt : Stmt Label (Expr Mark)) :
    (stmt.relabel f (Expr.relabel g)).Faithful ↔ stmt.Faithful := by
  induction stmt using Stmt.induction with
  | node label shape ih =>
      rw [relabel_node, faithful_node, faithful_node, StmtShape.exprs_map, StmtShape.bodies_map,
        List.forall_mem_map, List.forall_mem_map]
      refine and_congr (forall₂_congr fun expr _ => Expr.faithful_relabel g expr)
        (forall₂_congr fun body member => ?_)
      rw [List.forall_mem_map]
      exact forall₂_congr fun inner inside => ih inner (List.mem_flatten.mpr ⟨body, member, inside⟩)

theorem readable_relabel (stmt : Stmt Label (Expr Mark)) :
    (stmt.relabel f (Expr.relabel g)).Readable ↔ stmt.Readable := by
  induction stmt using Stmt.induction with
  | node label shape ih =>
      rw [relabel_node, readable_node, readable_node, StmtShape.readable_map, StmtShape.bodies_map,
        List.forall_mem_map]
      refine and_congr_right fun _ => forall₂_congr fun body member => ?_
      rw [List.forall_mem_map]
      exact forall₂_congr fun inner inside => ih inner (List.mem_flatten.mpr ⟨body, member, inside⟩)

theorem landmarks_relabel (stmt : Stmt Label (Expr Mark)) :
    (stmt.relabel f (Expr.relabel g)).landmarks = stmt.landmarks := by
  induction stmt using Stmt.induction with
  | node label shape ih =>
      rw [relabel_node, landmarks_node, landmarks_node, StmtShape.landmarks_map]
      refine StmtShape.landmarks_congr
        (fun expr _ => Expr.landmarks_relabel g expr) fun body member => ?_
      rw [Function.comp_apply, List.flatMap_map]
      exact List.flatMap_congr fun inner inside =>
        ih inner (List.mem_flatten.mpr ⟨body, member, inside⟩)

end Stmt

section
variable {Operand Result : Type} {header : Header → Header}
  {stmt : Stmt Label Operand → Stmt Other Result}

theorem statements_map (items : List (Item Label Operand)) :
    (mapItems header stmt items).filterMap Item.statement? =
      (items.filterMap Item.statement?).map stmt := by
  induction items with
  | nil => rfl
  | cons item rest ih =>
      cases item with
      | stmt inner => exact congrArg (stmt inner :: ·) ih
      | function inner => exact ih

mutual
theorem Function.arranged_map : (function : Function Label Operand) →
    (function.map header stmt).arranged = function.arranged.map header stmt
  | .mk own items => by
      rw [Function.map, Function.arranged, Function.arranged, Function.map, mapItems_itemsOf,
        statements_map, arrangedFunctions_map items]

theorem arrangedFunctions_map : (items : List (Item Label Operand)) → arrangedFunctions
      (mapItems header stmt items) = (arrangedFunctions items).map (Function.map header stmt)
  | [] => rfl
  | .stmt _ :: rest => arrangedFunctions_map rest
  | .function inner :: rest =>
    congrArg₂ List.cons (Function.arranged_map inner) (arrangedFunctions_map rest)
end

theorem File.arranged_map (file : File Label Operand) :
    (file.map header stmt).arranged = file.arranged.map header stmt := by
  rw [File.map, File.arranged, File.arranged, File.map, mapItems_itemsOf, statements_map,
    arrangedFunctions_map]

theorem arrangedFunctions_itemsOf (stmts : List (Stmt Label Operand))
    (functions : List (Function Label Operand)) :
    arrangedFunctions (itemsOf stmts functions) = functions.map Function.arranged := by
  induction stmts with
  | nil =>
      induction functions with
      | nil => rfl
      | cons first rest ih => exact congrArg (first.arranged :: ·) ih
  | cons first rest ih => exact ih

end

section
variable {header : Header → Header} {stmt : Stmt Label (Expr Mark) → Stmt Other (Expr Sign)}

theorem writtenStatements_map (same : ∀ inner, (stmt inner).written = inner.written)
    (items : List (Item Label (Expr Mark))) :
    writtenStatements (mapItems header stmt items) = writtenStatements items := by
  rw [writtenStatements, writtenStatements, statements_map, List.map_map]
  exact congrArg block (List.map_congr_left fun inner _ => same inner)

mutual
theorem Function.written_map (same : ∀ inner, (stmt inner).written = inner.written) :
    (function : Function Label (Expr Mark)) → (function.map id stmt).written = function.written
  | .mk own items => by
      rw [Function.map, Function.written, Function.written, writtenStatements_map same,
        writtenFunctions_map same items]
      rfl

theorem writtenFunctions_map (same : ∀ inner, (stmt inner).written = inner.written) :
    (items : List (Item Label (Expr Mark))) →
      writtenFunctions (mapItems id stmt items) = writtenFunctions items
  | [] => rfl
  | .stmt _ :: rest => writtenFunctions_map same rest
  | .function inner :: rest => by
      rw [mapItems, writtenFunctions, writtenFunctions, Function.written_map same inner,
        writtenFunctions_map same rest]
end

theorem File.print_map (same : ∀ inner, (stmt inner).written = inner.written)
    (file : File Label (Expr Mark)) : (file.map id stmt).print = file.print := by
  rw [File.print, File.print, File.written, File.written, File.map, writtenStatements_map same,
    writtenFunctions_map same]

mutual
theorem Function.faithful_map (same : ∀ inner, (stmt inner).Faithful ↔ inner.Faithful) :
    (function : Function Label (Expr Mark)) →
      ((function.map header stmt).Faithful ↔ function.Faithful)
  | .mk own items => by
      rw [Function.map, Function.Faithful, Function.Faithful, statements_map, List.forall_mem_map]
      exact and_congr (forall₂_congr fun inner _ => same inner) (faithfulFunctions_map same items)

theorem faithfulFunctions_map (same : ∀ inner, (stmt inner).Faithful ↔ inner.Faithful) :
    (items : List (Item Label (Expr Mark))) →
      (FaithfulFunctions (mapItems header stmt items) ↔ FaithfulFunctions items)
  | [] => Iff.rfl
  | .stmt _ :: rest => faithfulFunctions_map same rest
  | .function inner :: rest =>
    and_congr (Function.faithful_map same inner) (faithfulFunctions_map same rest)
end

theorem File.faithful_map (same : ∀ inner, (stmt inner).Faithful ↔ inner.Faithful)
    (file : File Label (Expr Mark)) : (file.map header stmt).Faithful ↔ file.Faithful := by
  rw [File.Faithful, File.Faithful, File.map, statements_map, List.forall_mem_map]
  exact and_congr (forall₂_congr fun inner _ => same inner) (faithfulFunctions_map same _)

mutual
theorem Function.readable_map (same : ∀ inner, (stmt inner).Readable ↔ inner.Readable) :
    (function : Function Label (Expr Mark)) → ((function.map id stmt).Readable ↔ function.Readable)
  | .mk _ items => and_congr_right fun _ => readableItems_map same items

theorem readableItems_map (same : ∀ inner, (stmt inner).Readable ↔ inner.Readable) :
    (items : List (Item Label (Expr Mark))) →
      (ReadableItems (mapItems id stmt items) ↔ ReadableItems items)
  | [] => Iff.rfl
  | .stmt inner :: rest => and_congr (same inner) (readableItems_map same rest)
  | .function inner :: rest =>
    and_congr (Function.readable_map same inner) (readableItems_map same rest)
end

mutual
theorem Function.landmarks_map (same : ∀ inner, (stmt inner).landmarks = inner.landmarks) :
    (function : Function Label (Expr Mark)) →
      (function.map header stmt).landmarks = function.landmarks
  | .mk _ items => congrArg _ (itemLandmarks_map same items)

theorem itemLandmarks_map (same : ∀ inner, (stmt inner).landmarks = inner.landmarks) :
    (items : List (Item Label (Expr Mark))) →
      itemLandmarks (mapItems header stmt items) = itemLandmarks items
  | [] => rfl
  | .stmt inner :: rest => congrArg₂ (· ++ ·) (same inner) (itemLandmarks_map same rest)
  | .function inner :: rest =>
    congrArg₂ (· ++ ·) (Function.landmarks_map same inner) (itemLandmarks_map same rest)
end

end
end ScriptFlow
