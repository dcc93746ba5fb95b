import ScriptFlow.Proofs.Outcome
import ScriptFlow.Proofs.Stmt.Layer

/-!
Targets of assignments. A target is well-formed when following the heads of indexes and the bases of
fields from it ends at a name. A statement is at fault by the first of its targets that ends
elsewhere, and the fault shows what that target ends at.
-/

namespace ScriptFlow

variable {Label Mark : Type}

namespace Expr

def inner? : Expr Label → Option (Expr Label)
  | node _ (.param head _) | node _ (.cellIndex head _) => some head
  | node _ (.field base _) => some base
  | _ => none

/-- Following heads and bases as far as they go leads from the target to the last expression. -/
inductive EndsAt : Expr Label → Expr Label → Prop where
  | last {expr : Expr Label} (stops : expr.inner? = none) : EndsAt expr expr
  | inner {expr next last : Expr Label} (goes : expr.inner? = some next)
      (rest : EndsAt next last) : EndsAt expr last

def ReachesName (target : Expr Label) : Prop :=
  ∃ label name, target.EndsAt (node label (.name name))

theorem inner?_mem {expr next : Expr Label} (goes : expr.inner? = some next) :
    next ∈ expr.operands := by
  obtain ⟨label, shape⟩ := expr
  cases shape with
  | param head args | cellIndex head args | field head key =>
      cases goes
      exact List.mem_cons_self
  | _ => cases goes

theorem exists_endsAt (expr : Expr Label) : ∃ last, expr.EndsAt last := by
  induction expr using Expr.induction with
  | node label shape ih =>
      cases goes : (node label shape).inner? with
      | none => exact ⟨_, .last goes⟩
      | some next =>
          obtain ⟨last, rest⟩ := ih next (inner?_mem goes)
          exact ⟨last, .inner goes rest⟩

theorem EndsAt.unique {expr last other : Expr Label} (ends : expr.EndsAt last)
    (again : expr.EndsAt other) : last = other := by
  induction ends with
  | last stops =>
      cases again with
      | last _ => rfl
      | inner goes _ => cases stops.symm.trans goes
  | inner goes _ ih =>
      cases again with
      | last stops => cases stops.symm.trans goes
      | inner goes' rest =>
          cases goes.symm.trans goes'
          exact ih rest

theorem EndsAt.base {expr last : Expr Label} (ends : expr.EndsAt last) : expr.base = last.base := by
  induction ends with
  | last _ => rfl
  | @inner expr next last goes _ ih =>
      obtain ⟨label, shape⟩ := expr
      cases shape with
      | param head args | cellIndex head args | field head key =>
          cases goes
          rw [Expr.base]
          exact ih
      | _ => cases goes

theorem base_of_stops {expr : Expr Label} (stops : expr.inner? = none) :
    (∃ label name, expr = node label (.name name) ∧ expr.base = .ok name) ∨
      ((∀ label name, expr ≠ node label (.name name)) ∧ expr.base = .error expr) := by
  obtain ⟨label, shape⟩ := expr
  cases shape with
  | name name => exact .inl ⟨label, name, rfl, rfl⟩
  | param head args | cellIndex head args | field head key => cases stops
  | _ =>
      apply Or.inr
      constructor
      · intro _ _ same
        cases same
      · rfl

theorem EndsAt.stops {expr last : Expr Label} (ends : expr.EndsAt last) : last.inner? = none := by
  induction ends with
  | last stops => exact stops
  | inner _ _ ih => exact ih

/-- A target has the name at its end for its base, or no base, never both. -/
theorem base_cases (target : Expr Label) :
    (∃ label name, target.EndsAt (node label (.name name)) ∧ target.base = .ok name) ∨
      (¬ target.ReachesName ∧ ∃ last, target.EndsAt last ∧ target.base = .error last) := by
  obtain ⟨last, ends⟩ := exists_endsAt target
  rcases base_of_stops ends.stops with ⟨label, name, rfl, found⟩ | ⟨noName, missing⟩
  · exact .inl ⟨label, name, ends, ends.base.trans found⟩
  · refine .inr ⟨?_, last, ends, ends.base.trans missing⟩
    rintro ⟨label, name, named⟩
    exact noName label name (ends.unique named)

theorem base_eq_ok_iff (target : Expr Label) (name : String) :
    target.base = .ok name ↔ ∃ label, target.EndsAt (node label (.name name)) := by
  rcases target.base_cases with ⟨label, other, ends, found⟩ | ⟨astray, last, _, missing⟩
  · rw [found]
    constructor
    · intro same
      cases same
      exact ⟨label, ends⟩
    · rintro ⟨label', ends'⟩
      cases ends.unique ends'
      rfl
  · rw [missing]
    constructor
    · intro same
      cases same
    · exact fun ⟨label, ends⟩ => absurd ⟨label, name, ends⟩ astray

theorem base_ok_iff (target : Expr Label) :
    (∃ name, target.base = .ok name) ↔ target.ReachesName := by
  simp only [base_eq_ok_iff, ReachesName]
  exact exists_comm

theorem base_error_iff (target last : Expr Label) :
    target.base = .error last ↔ ¬ target.ReachesName ∧ target.EndsAt last := by
  rcases target.base_cases with ⟨label, name, named, found⟩ | ⟨astray, other, ends, missing⟩
  · rw [found]
    constructor
    · intro same
      cases same
    · exact fun ⟨astray, _⟩ => absurd ⟨label, name, named⟩ astray
  · rw [missing]
    constructor
    · intro same
      cases same
      exact ⟨astray, ends⟩
    · rintro ⟨_, ends'⟩
      rw [ends.unique ends']

end Expr

namespace Stmt

/-- The targets of an assignment: its left side, or the elements of a matrix there. -/
def targets (stmt : Stmt Mark (Expr Label)) : List (Expr Label) :=
  match stmt.shape.target? with
  | some target => target.targets
  | none => []

def WellTargeted (stmt : Stmt Mark (Expr Label)) : Prop :=
  ∀ target ∈ stmt.targets, target.ReachesName

/-- The statement's first bad target ends at the expression. -/
def StraysTo (stmt : Stmt Mark (Expr Label)) (last : Expr Label) : Prop :=
  ∃ good bad more, stmt.targets = good ++ bad :: more ∧ (∀ target ∈ good, target.ReachesName) ∧
    ¬ bad.ReachesName ∧ bad.EndsAt last

theorem StraysTo.not_wellTargeted {stmt : Stmt Mark (Expr Label)} {last : Expr Label}
    (strays : stmt.StraysTo last) : ¬ stmt.WellTargeted := by
  obtain ⟨good, bad, more, parts, _, astray, _⟩ := strays
  intro well
  apply astray
  apply well
  rw [parts]
  exact List.mem_append_right _ List.mem_cons_self

theorem bases_error_iff (stmt : Stmt Mark (Expr Label)) (last : Expr Label) :
    stmt.shape.bases = .error last ↔ stmt.StraysTo last := by
  have noTarget : ¬ ∃ good bad more, ([] : List (Expr Label)) = good ++ bad :: more ∧
      (∀ target ∈ good, target.ReachesName) ∧ ¬ bad.ReachesName ∧ bad.EndsAt last := by
    rintro ⟨good, bad, more, parts, _⟩
    cases good <;> cases parts
  rw [StmtShape.bases, StraysTo, targets]
  cases stmt.shape.target? with
  | none =>
      constructor
      · intro failed
        cases failed
      · exact fun strays => absurd strays noTarget
  | some target =>
      dsimp only
      rw [mapM_eq_error_iff]
      simp only [Expr.base_ok_iff, Expr.base_error_iff]

theorem bases_ok_iff (stmt : Stmt Mark (Expr Label)) :
    (∃ names, stmt.shape.bases = .ok names) ↔ stmt.WellTargeted := by
  constructor
  · rintro ⟨names, made⟩ target member
    rw [StmtShape.bases] at made
    rw [targets] at member
    cases own : stmt.shape.target? with
    | none =>
        rw [own] at member
        exact absurd member List.not_mem_nil
    | some whole =>
        rw [own] at made member
        obtain ⟨name, _, found⟩ := exists_right_of_forall₂ (forall₂_of_mapM_ok made) member
        exact target.base_ok_iff.mp ⟨name, found⟩
  · intro well
    cases made : stmt.shape.bases with
    | ok names => exact ⟨names, rfl⟩
    | error last => exact absurd well ((bases_error_iff stmt last).mp made).not_wellTargeted

theorem mem_bases_iff {stmt : Stmt Mark (Expr Label)} {target : Expr Label}
    (own : stmt.shape.target? = some target) {names : List String}
    (made : stmt.shape.bases = .ok names) (name : String) : name ∈ names ↔
      ∃ element ∈ stmt.targets, ∃ label, element.EndsAt (.node label (.name name)) := by
  have each :
      List.Forall₂ (fun element name => Expr.base element = .ok name) stmt.targets names := by
    rw [StmtShape.bases, own] at made
    rw [targets, own]
    exact forall₂_of_mapM_ok made
  constructor
  · intro member
    obtain ⟨element, inside, found⟩ := exists_left_of_forall₂ each member
    exact ⟨element, inside, (element.base_eq_ok_iff name).mp found⟩
  · rintro ⟨element, inside, ends⟩
    obtain ⟨other, member, found⟩ := exists_right_of_forall₂ each inside
    cases found.symm.trans ((element.base_eq_ok_iff name).mpr ends)
    exact member

end Stmt
end ScriptFlow
