import ScriptFlow.Proofs.File.Readable

/-!
The landmarks of a file that is arranged anew. Statements move in front of functions, so the
landmarks in the old order and in the new one first differ where the keyword of a function stood.
-/

namespace ScriptFlow

open Token TokenReader

variable {Label Mark : Type}

/-- The landmarks in the order that was read and in another, where a function first makes the
difference. -/
inductive Ahead : List Landmark → List Landmark → Prop where
  | same (marks : List Landmark) : Ahead marks marks
  | first {raw arranged : List Landmark} {mark : Landmark} (other : mark.1 ≠ .functionKey) :
      Ahead ((.functionKey, []) :: raw) (mark :: arranged)
  | cons {raw arranged : List Landmark} (mark : Landmark) (later : Ahead raw arranged) :
      Ahead (mark :: raw) (mark :: arranged)

theorem Ahead.prepend {raw arranged : List Landmark} (front : List Landmark)
    (ahead : Ahead raw arranged) : Ahead (front ++ raw) (front ++ arranged) := by
  induction front with
  | nil => exact ahead
  | cons mark _ ih => exact .cons mark ih

theorem Ahead.append {raw arranged raw' arranged' : List Landmark} (front : Ahead raw arranged)
    (back : Ahead raw' arranged') : Ahead (raw ++ raw') (arranged ++ arranged') := by
  induction front with
  | same marks => exact back.prepend marks
  | first other => exact .first other
  | cons mark _ ih => exact .cons mark ih

theorem Ahead.first_other {common raw arranged : List Landmark} {mark other : Landmark}
    (ahead : Ahead (common ++ mark :: raw) (common ++ other :: arranged)) (apart : mark ≠ other) :
    mark = (.functionKey, []) := by
  induction common with
  | nil =>
      cases ahead with
      | same => exact absurd rfl apart
      | first => rfl
      | cons => exact absurd rfl apart
  | cons first rest ih =>
      generalize left : first :: rest ++ mark :: raw = read at ahead
      generalize right : first :: rest ++ other :: arranged = moved at ahead
      cases ahead with
      | same =>
          have equal := left.trans right.symm
          have heads := List.append_cancel_left equal
          exact absurd (List.cons.inj heads).1 apart
      | first plain =>
          cases left
          cases right
          exact absurd rfl plain
      | cons same later =>
          cases left
          cases right
          exact ih later

theorem Expr.landmarks_plain (expr : Expr Label) :
    ∀ mark ∈ expr.landmarks, mark.1 ≠ .functionKey := by
  induction expr using Expr.induction with
  | node label shape ih =>
      intro mark member
      -- A landmark of an operand is one by the induction hypothesis; the expression itself adds
      -- quotes at most.
      have below {exprs : List (Expr Label)} (inside : ∀ expr ∈ exprs, expr ∈ shape.operands)
          (own : mark ∈ exprs.flatMap Expr.landmarks) : mark.1 ≠ .functionKey := by
        obtain ⟨expr, below, own⟩ := List.mem_flatMap.mp own
        exact ih expr (inside expr below) mark own
      cases shape with
      | num | name | colon | last => cases member
      | str text quoting =>
          rw [List.mem_singleton.mp member]
          cases quoting <;> nofun
      | param head args | cellIndex head args =>
          refine @below (head :: args) (fun _ inside => inside) ?_
          simpa using member
      | field base key | unary op base =>
          refine @below [base] (fun _ inside => inside) ?_
          simpa using member
      | matrix rows | cell rows =>
          have member : mark ∈ rows.flatMap (·.flatMap landmarks) := by simpa using member
          obtain ⟨row, inside, own⟩ := List.mem_flatMap.mp member
          exact below (fun _ element => List.mem_flatten.mpr ⟨row, inside, element⟩) own
      | transpose op base =>
          rw [landmarks_transpose] at member
          rcases List.mem_append.mp member with inside | quote
          · exact ih base List.mem_cons_self mark inside
          · cases op with
            | conjugate =>
                rw [List.mem_singleton.mp quote]
                nofun
            | plain => cases quote
      | binary left op right =>
          refine @below [left, right] (fun _ inside => inside) ?_
          simpa using member
      | range start step stop =>
          refine @below (start :: (step.toList ++ [stop])) (fun _ inside => inside) ?_
          simpa using member

theorem StmtShape.mem_landmarks {Operand Body : Type} {ofExpr : Operand → List Landmark}
    {ofBody : Body → List Landmark} {shape : StmtShape Operand Body}
    {mark : Landmark} (member : mark ∈ shape.landmarks ofExpr ofBody) :
    (∃ expr ∈ shape.exprs, mark ∈ ofExpr expr) ∨ ∃ body ∈ shape.bodies, mark ∈ ofBody body := by
  have parts {clauses : List (Operand × Body)} {otherwise : Option Body}
      (member : mark ∈ clauses.flatMap (clauseLandmarks ofExpr ofBody) ++
        otherwise.toList.flatMap ofBody) :
      (∃ expr ∈ clauses.map Prod.fst, mark ∈ ofExpr expr) ∨
        ∃ body ∈ clauses.map Prod.snd ++ otherwise.toList, mark ∈ ofBody body := by
    rcases List.mem_append.mp member with member | member
    · obtain ⟨clause, inside, own⟩ := List.mem_flatMap.mp member
      rcases List.mem_append.mp own with own | own
      · exact .inl ⟨_, List.mem_map_of_mem inside, own⟩
      · exact .inr ⟨_, List.mem_append_left _ (List.mem_map_of_mem inside), own⟩
    · obtain ⟨body, inside, own⟩ := List.mem_flatMap.mp member
      exact .inr ⟨body, List.mem_append_right _ inside, own⟩
  cases shape with
  | branch clauses otherwise => exact parts member
  | switch subject clauses otherwise =>
      rcases List.mem_append.mp member with own | member
      · exact .inl ⟨subject, List.mem_cons_self, own⟩
      · exact (parts member).imp_left fun ⟨expr, inside, own⟩ =>
          ⟨expr, List.mem_cons_of_mem _ inside, own⟩
  | _ => exact (List.mem_append.mp member).imp List.mem_flatMap.mp List.mem_flatMap.mp

theorem Stmt.landmarks_plain (stmt : Stmt Label (Expr Mark)) :
    ∀ mark ∈ stmt.landmarks, mark.1 ≠ .functionKey := by
  induction stmt using Stmt.induction with
  | node label shape ih =>
      intro mark member
      rw [landmarks_node] at member
      rcases StmtShape.mem_landmarks member with ⟨expr, _, inside⟩ | ⟨body, inBodies, inside⟩
      · exact Expr.landmarks_plain expr mark inside
      · obtain ⟨inner, below, own⟩ := List.mem_flatMap.mp inside
        exact ih inner (List.mem_flatten.mpr ⟨body, inBodies, below⟩) mark own

theorem itemLandmarks_itemsOf (stmts : List (Stmt Label (Expr Mark)))
    (functions : List (Function Label (Expr Mark))) :
    itemLandmarks (itemsOf stmts functions) = stmts.flatMap Stmt.landmarks ++
      functions.flatMap Function.landmarks := by
  induction stmts with
  | nil =>
      induction functions with
      | nil => rfl
      | cons first rest ih => exact congrArg (first.landmarks ++ ·) ih
  | cons first rest ih =>
      rw [List.flatMap_cons, List.append_assoc, ← ih]
      rfl

mutual
theorem Function.ahead :
    (function : Function Label (Expr Mark)) → Ahead function.landmarks function.arranged.landmarks
  | .mk _ items => .cons _ (itemsAhead items)

theorem itemsAhead : (items : List (Item Label (Expr Mark))) → Ahead (itemLandmarks items)
      (itemLandmarks (itemsOf (items.filterMap Item.statement?) (arrangedFunctions items)))
  | [] => .same _
  | .stmt inner :: rest => by
      have more := (itemsAhead rest).prepend inner.landmarks
      exact more
  | .function inner :: rest => by
      have own := inner.ahead
      have more := itemsAhead rest
      rw [itemLandmarks_itemsOf] at more ⊢
      change Ahead (inner.landmarks ++ itemLandmarks rest)
        ((rest.filterMap Item.statement?).flatMap Stmt.landmarks ++
        (inner.arranged.landmarks ++ (arrangedFunctions rest).flatMap Function.landmarks))
      -- statements without landmarks may move past the function unseen
      cases marks : (rest.filterMap Item.statement?).flatMap Stmt.landmarks with
      | nil =>
          rw [marks] at more
          exact own.append more
      | cons mark others =>
          have plain : mark.1 ≠ .functionKey := by
            obtain ⟨stmt, _, inside⟩ := List.mem_flatMap.mp (marks ▸ List.mem_cons_self : mark ∈ _)
            exact stmt.landmarks_plain mark inside
          cases inner
          exact .first plain
end

end ScriptFlow
