import ScriptFlow.Proofs.Threaded

/-!
New bodies for a statement. The bodies of a shape are replaced one by one, in source order, and the
rest of the shape stays; an action on the bodies alone replaces them by its results.
-/

namespace ScriptFlow.StmtShape

variable {A B C D X Y : Type}

def refill : StmtShape A B → List (List C) → StmtShape A (List C)
  | eval expr quiet, _ => eval expr quiet
  | assign target value quiet, _ => assign target value quiet
  | branch clauses otherwise, bodies =>
      branch (List.zipWith (fun clause body => (clause.1, body)) clauses bodies)
        (otherwise.map fun _ => (bodies.drop clauses.length).headD [])
  | switch subject cases otherwise, bodies =>
      switch subject (List.zipWith (fun clause body => (clause.1, body)) cases bodies)
        (otherwise.map fun _ => (bodies.drop cases.length).headD [])
  | forLoop var range _, bodies => forLoop var range (bodies.headD [])
  | whileLoop cond _, bodies => whileLoop cond (bodies.headD [])
  | breakLoop, _ => breakLoop
  | continueLoop, _ => continueLoop
  | leave, _ => leave
  | global names, _ => global names
  | persistent names, _ => persistent names

section
variable {R : A → X → Prop} {S : B → Y → Prop} {S' : B → List C → Prop}

theorem clauses_refill {clauses : List (A × B)} {clauses' : List (X × Y)} {bodies : List (List C)}
    {more : List B} (matched : List.Forall₂ (ClauseMatch R S) clauses clauses')
    (related : List.Forall₂ S' (clauses.map Prod.snd ++ more) bodies) :
    List.Forall₂ (ClauseMatch R S') clauses
      (List.zipWith (fun clause body => (clause.1, body)) clauses' bodies) ∧
      List.Forall₂ S' more (bodies.drop clauses'.length) := by
  induction matched generalizing bodies with
  | nil => exact ⟨.nil, related⟩
  | cons head _ ih =>
      cases related with
      | cons first others =>
          obtain ⟨inner, rest⟩ := ih others
          exact ⟨.cons ⟨head.1, first⟩ inner, rest⟩

theorem option_refill {last : Option B} {last' : Option Y} {bodies : List (List C)}
    (lasts : Option.Rel S last last') (related : List.Forall₂ S' last.toList bodies) :
    Option.Rel S' last (last'.map fun _ => bodies.headD []) := by
  cases lasts with
  | none => exact .none
  | some _ =>
      cases related with
      | cons first _ => exact .some first

theorem Match.refill {left : StmtShape A B} {right : StmtShape X Y} {bodies : List (List C)}
    (matched : Match R S left right) (related : List.Forall₂ S' left.bodies bodies) :
    Match R S' left (right.refill bodies) := by
  cases matched with
  | eval quiet expr => exact .eval quiet expr
  | assign quiet target value => exact .assign quiet target value
  | branch items last =>
      obtain ⟨inner, rest⟩ := clauses_refill items related
      exact .branch inner (option_refill last rest)
  | switch subject items last =>
      obtain ⟨inner, rest⟩ := clauses_refill items related
      exact .switch subject inner (option_refill last rest)
  | forLoop var range _ =>
      cases related with
      | cons first _ => exact .forLoop var range first
  | whileLoop cond _ =>
      cases related with
      | cons first _ => exact .whileLoop cond first
  | breakLoop => exact .breakLoop
  | continueLoop => exact .continueLoop
  | leave => exact .leave
  | global names => exact .global names
  | persistent names => exact .persistent names

end

theorem zip_bodies {clauses : List (A × B)} {last : Option B} {bodies : List (List C)}
    (whole : bodies.length = (clauses.map Prod.snd ++ last.toList).length) :
    (List.zipWith (fun clause body => (clause.1, body)) clauses bodies).map Prod.snd ++
        (last.map fun _ => (bodies.drop clauses.length).headD []).toList = bodies ∧
      (List.zipWith (fun clause body => (clause.1, body)) clauses bodies).map Prod.fst =
        clauses.map Prod.fst := by
  induction clauses generalizing bodies with
  | nil =>
      cases last with
      | none => simp_all
      | some inner =>
          obtain ⟨body, rfl⟩ := List.length_eq_one_iff.mp (whole : bodies.length = 1)
          exact ⟨rfl, rfl⟩
  | cons clause rest ih =>
      cases bodies with
      | nil => simp at whole
      | cons body bodies =>
          obtain ⟨inner, guards⟩ := ih (by simpa using whole)
          exact ⟨congrArg (body :: ·) inner, congrArg (clause.1 :: ·) guards⟩

theorem refill_parts {shape : StmtShape A B} {bodies : List (List C)}
    (whole : bodies.length = shape.bodies.length) :
    (shape.refill bodies).bodies = bodies ∧ (shape.refill bodies).exprs = shape.exprs := by
  cases shape with
  | branch items last => exact zip_bodies whole
  | switch subject items last =>
      obtain ⟨inner, guards⟩ := zip_bodies whole
      exact ⟨inner, congrArg (subject :: ·) guards⟩
  | forLoop _ _ _ | whileLoop _ _ =>
      obtain ⟨body, rfl⟩ := List.length_eq_one_iff.mp (whole : bodies.length = 1)
      exact ⟨rfl, rfl⟩
  | _ =>
      cases List.length_eq_zero_iff.mp (whole : bodies.length = 0)
      exact ⟨rfl, rfl⟩

theorem map_refill (f : A → X) (g : C → Y) (shape : StmtShape A B) (bodies : List (List C)) :
    (shape.refill bodies).map f (·.map g) = (shape.map f fun b => b).refill
      (bodies.map (·.map g)) := by
  have clauses (items : List (A × B)) (bodies : List (List C)) :
      (List.zipWith (fun clause body => (clause.1, body)) items bodies).map (Prod.map f (·.map g)) =
      List.zipWith (fun clause body => (clause.1, body)) (items.map (Prod.map f fun b => b))
      (bodies.map (·.map g)) := by
    rw [List.map_zipWith, List.zipWith_map]
    rfl
  have first (bodies : List (List C)) :
      (bodies.headD []).map g = (bodies.map (·.map g)).headD [] := by
    cases bodies <;> rfl
  have option (last : Option B) (bodies : List (List C)) : (last.map fun _ => bodies.headD []).map
      (·.map g) = (last.map fun b => b).map fun _ => (bodies.map (·.map g)).headD [] := by
    cases last <;> simp only [Option.map_none, Option.map_some, first]
  cases shape with
  | branch items last => simp only [refill, map, clauses, option, List.map_drop, List.length_map]
  | switch subject items last =>
    simp only [refill, map, clauses, option, List.map_drop, List.length_map]
  | forLoop _ _ _ | whileLoop _ _ => simp only [refill, map, first]
  | _ => rfl

section
variable {M : Type → Type} [Monad M] [LawfulMonad M]

theorem clauses_mapM_refill (g : B → M (List C)) (clauses : List (A × B)) (last : Option B) :
    (do
      let items ← clauses.mapM (mapClauseM pure g)
      let final ← last.mapM g
      return (items, final)) =
    (do
      let bodies ← (clauses.map Prod.snd ++ last.toList).mapM g
      return (List.zipWith (fun clause body => (clause.1, body)) clauses bodies,
        last.map fun _ => (bodies.drop clauses.length).headD [])) := by
  induction clauses with
  | nil => cases last <;> simp
  | cons clause rest ih =>
      have extended := congrArg (fun act => do
        let body ← g clause.2
        let (items, final) ← act
        return ((clause.1, body) :: items, final)) ih
      simpa [mapClauseM] using extended

theorem mapM_pure_refill (g : B → M (List C)) (shape : StmtShape A B) :
    shape.mapM pure g = (do return shape.refill (← shape.bodies.mapM g)) := by
  cases shape with
  | branch items last =>
      have extended := congrArg (fun act => do
        let (clauses, final) ← act
        return (branch clauses final : StmtShape A (List C))) (clauses_mapM_refill g items last)
      simpa [mapM, refill, bodies] using extended
  | switch subject items last =>
      have extended := congrArg (fun act => do
        let (clauses, final) ← act
        return (switch subject clauses final : StmtShape A (List C)))
          (clauses_mapM_refill g items last)
      simpa [mapM, refill, bodies] using extended
  | _ => simp [mapM, refill, bodies]

end

end ScriptFlow.StmtShape
