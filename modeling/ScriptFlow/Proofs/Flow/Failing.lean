import Mathlib.Data.List.Perm.Basic
import ScriptFlow.Proofs.Counter.Instrumented
import ScriptFlow.Proofs.Flow.Regions
import ScriptFlow.Proofs.Stmt.Targets

/-!
How the analysis fails. The walk meets the statements of a body from the last to the first, each
before its bodies and those in source order; it fails at the first statement with a bad target, and
an analysis of several scopes fails as that of the first scope does that fails.
-/

namespace ScriptFlow

namespace Stmt

section
variable {Label Operand : Type}

theorem perm_reversed (bodies : List (List (Stmt Label Operand))) :
    (bodies.flatMap List.reverse).Perm bodies.flatten := by
  rw [← List.flatMap_id]
  exact List.Perm.flatMap_left bodies fun body _ => List.reverse_perm body

theorem reversed_shrink (stmt : Stmt Label Operand) :
    total ((stmt.bodies.flatMap List.reverse).map size) < stmt.size := by
  rw [total_perm ((perm_reversed stmt.bodies).map size)]
  exact nested_shrink stmt

/-- The statements of a body in the order in which the backward walk meets them. -/
def met (body : List (Stmt Label Operand)) : List (Stmt Label Operand) :=
  preorderBy (fun stmt => stmt.bodies.flatMap List.reverse) size reversed_shrink body.reverse

@[simp] theorem met_nil : met ([] : List (Stmt Label Operand)) = [] := preorder_nil

theorem met_append (front back : List (Stmt Label Operand)) :
    met (front ++ back) = met back ++ met front := by
  rw [met, List.reverse_append, preorder_append, met, met]

theorem met_bodies (bodies : List (List (Stmt Label Operand))) :
    preorderBy (fun stmt => stmt.bodies.flatMap List.reverse) size reversed_shrink
      (bodies.flatMap List.reverse) = bodies.flatMap met := by
  induction bodies with
  | nil => exact preorder_nil
  | cons body rest ih => rw [List.flatMap_cons, preorder_append, ih, List.flatMap_cons, met]

theorem met_single (stmt : Stmt Label Operand) : met [stmt] = stmt :: stmt.bodies.flatMap met := by
  rw [met, List.reverse_singleton, preorder_tree, met_bodies]

theorem met_cons (stmt : Stmt Label Operand) (rest : List (Stmt Label Operand)) :
    met (stmt :: rest) = met rest ++ met [stmt] := by
  rw [← List.singleton_append, met_append]

theorem met_perm (body : List (Stmt Label Operand)) : (met body).Perm (within body) := by
  -- only the order within a list differs, so the rest of a list changes places with its first
  -- statement
  induction body using body_induction with
  | nil => simp
  | cons stmt rest head tail =>
      rw [met_cons]
      apply (tail.append head).trans
      apply List.perm_append_comm.trans
      rw [← within_append, List.singleton_append]
  | node label shape bodies =>
      rw [met_single, within_node, within_flatten]
      apply List.Perm.cons
      exact List.Perm.flatMap_left _ bodies

theorem mem_met {stmt : Stmt Label Operand} {body : List (Stmt Label Operand)} :
    stmt ∈ met body ↔ stmt ∈ within body := (met_perm body).mem_iff

end

def fault? (stmt : StoredStmt) : Option IllFormed :=
  error? (stmt.shape.assigned stmt.label.position)

theorem fault?_eq_some (stmt : StoredStmt) (fault : IllFormed) :
    stmt.fault? = some fault ↔ ∃ last, stmt.StraysTo last ∧
      fault = ⟨stmt.label.position, last.print⟩ := by
  rw [fault?, error?_eq_some, StmtShape.assigned]
  cases made : stmt.shape.bases with
  | ok names =>
      constructor
      · intro failed
        cases failed
      · rintro ⟨last, strays, _⟩
        cases made.symm.trans ((bases_error_iff stmt last).mpr strays)
  | error last =>
      have strays := (bases_error_iff stmt last).mp made
      constructor
      · intro failed
        cases failed
        exact ⟨last, strays, rfl⟩
      · rintro ⟨other, strays', rfl⟩
        cases made.symm.trans ((bases_error_iff stmt other).mpr strays')
        rfl

theorem fault?_eq_none (stmt : StoredStmt) : stmt.fault? = none ↔ stmt.WellTargeted := by
  rw [← bases_ok_iff, fault?, error?_eq_none, StmtShape.assigned]
  cases made : stmt.shape.bases with
  | ok names => exact ⟨fun _ => ⟨names, rfl⟩, fun _ => ⟨_, rfl⟩⟩
  | error last =>
      constructor
      · rintro ⟨set, failed⟩
        cases failed
      · rintro ⟨names, failed⟩
        cases failed

/-- The fault is that of the first statement with a bad target: it gives the statement's place and
shows what the first bad target there ends at. -/
def FirstFault (stmts : List StoredStmt) (fault : IllFormed) : Prop :=
  ∃ front stmt back last, stmts = front ++ stmt :: back ∧
    (∀ earlier ∈ front, earlier.WellTargeted) ∧
    stmt.StraysTo last ∧ fault = ⟨stmt.label.position, last.print⟩

theorem firstFault_iff (stmts : List StoredStmt) (fault : IllFormed) :
    FirstFault stmts fault ↔ stmts.findSome? fault? = some fault := by
  simp only [List.findSome?_eq_some_iff, fault?_eq_some, fault?_eq_none]
  constructor
  · rintro ⟨front, stmt, back, last, parts, well, strays, told⟩
    exact ⟨front, stmt, back, parts, ⟨last, strays, told⟩, well⟩
  · rintro ⟨front, stmt, back, parts, ⟨last, strays, told⟩, well⟩
    exact ⟨front, stmt, back, last, parts, well, strays, told⟩

theorem exists_firstFault (stmts : List StoredStmt) :
    (∃ fault, FirstFault stmts fault) ↔ ∃ stmt ∈ stmts, ¬ stmt.WellTargeted := by
  simp only [firstFault_iff, ← fault?_eq_none]
  cases found : stmts.findSome? fault? with
  | none =>
      have none := List.findSome?_eq_none_iff.mp found
      constructor
      · rintro ⟨fault, same⟩
        cases same
      · rintro ⟨stmt, member, bad⟩
        exact absurd (none stmt member) bad
  | some fault =>
      obtain ⟨stmt, member, own⟩ := List.exists_of_findSome?_eq_some found
      constructor
      · intro _
        refine ⟨stmt, member, ?_⟩
        rw [own]
        exact Option.some_ne_none fault
      · exact fun _ => ⟨fault, rfl⟩

end Stmt

theorem findSome?_parts {A B C : Type} {find : A → Option C} {look : B → Option C}
    {part : A → List B} {items : List A} (each : ∀ a ∈ items, find a = (part a).findSome? look) :
    items.findSome? find = (items.flatMap part).findSome? look := by
  induction items with
  | nil => rfl
  | cons first rest ih =>
      have tail := ih fun a member => each a (List.mem_cons_of_mem _ member)
      rw [List.flatMap_cons, List.findSome?_append, ← tail, ← each first List.mem_cons_self,
        List.findSome?_cons]
      cases find first <;> rfl

namespace Flow

variable (isFunction : String → Bool)

theorem error?_ofShape (stmt : StoredStmt) (id : Nat) :
    error? (Transfer.ofShape isFunction id stmt.label.position stmt.shape) = stmt.fault? := by
  rw [Transfer.ofShape, Stmt.fault?]
  exact error?_map _ _

theorem error?_single (stmt : StoredStmt) (out : FlowValue) :
    error? (annotateBody isFunction [stmt] out) = error? (annotateStmt isFunction stmt out) :=
  error?_map _ _

/-- A walk fails as the first statement it meets does that has a bad target. -/
theorem error?_annotateBody (body : List StoredStmt) (out : FlowValue) :
    error? (annotateBody isFunction body out) = (Stmt.met body).findSome? Stmt.fault? := by
  induction body using Stmt.body_induction generalizing out with
  | nil =>
      rw [Stmt.met_nil]
      rfl
  | cons stmt rest head tail =>
      rw [annotateBody_cons, Stmt.met_cons, List.findSome?_append, ← tail out]
      apply error?_bind
      rintro ⟨between, behind⟩ _
      dsimp only
      rw [← head between, error?_single]
      exact error?_map _ _
  | node site shape bodies =>
      -- what flows into the bodies does not matter: each of them fails as it would with any value
      have inner (into : FlowValue) : error? (shape.bodies.mapM fun body => do
            return (← annotateBody isFunction body into).2) =
          (shape.bodies.flatMap Stmt.met).findSome? Stmt.fault? := by
        rw [error?_mapM]
        apply findSome?_parts
        intro body member
        rw [← bodies body member into]
        exact error?_map _ _
      have own : error? (Transfer.ofShape isFunction site.id site.position shape) =
          Stmt.fault? (.node site shape) :=
        error?_ofShape isFunction (.node site shape) site.id
      have whole : (Stmt.met [Stmt.node site shape]).findSome? Stmt.fault? =
          (Stmt.fault? (.node site shape)).or
          ((shape.bodies.flatMap Stmt.met).findSome? Stmt.fault?) := by
        rw [Stmt.met_single, List.findSome?_cons]
        cases Stmt.fault? (.node site shape) <;> rfl
      rw [error?_single, annotateStmt_node, annotateNode, whole, ← own]
      apply error?_bind
      intro transfer _
      rw [← inner (transfer.apply out)]
      exact error?_map _ _

theorem error?_annotate (body : List StoredStmt) :
    error? (annotate isFunction body) = (Stmt.met body).findSome? Stmt.fault? := by
  rw [← error?_annotateBody isFunction body ∅, annotate_eq]
  exact error?_map _ _

end Flow

/-- How an analysis that goes through the bodies, one after another, fails: exactly when one of
their statements has a bad target, and then with the fault of the first one met. -/
structure FailsByTargets {A : Type} (outcome : Except Flow.Error A)
    (bodies : List (List StoredStmt)) : Prop where
  fails_iff : (∃ error, outcome = .error error) ↔
      ∃ body ∈ bodies, ∃ stmt ∈ Stmt.within body, ¬ stmt.WellTargeted
  error_iff : ∀ error, outcome = .error error ↔
    ∃ fault, error = .illFormed fault ∧ Stmt.FirstFault (bodies.flatMap Stmt.met) fault

theorem FailsByTargets.of_error {A : Type} {outcome : Except Flow.Error A}
    {bodies : List (List StoredStmt)}
    (found : error? outcome = (bodies.flatMap Stmt.met).findSome?
      (Option.map .illFormed ∘ Stmt.fault?)) : FailsByTargets outcome bodies := by
  -- The only error there can be is the first fault that the walk meets.
  have errors (error : Flow.Error) : outcome = .error error ↔
      ∃ fault, error = .illFormed fault ∧ Stmt.FirstFault (bodies.flatMap Stmt.met) fault := by
    simp only [← error?_eq_some, found, ← List.map_findSome?, Option.map_eq_some_iff,
      Stmt.firstFault_iff]
    constructor
    · rintro ⟨fault, own, rfl⟩
      exact ⟨fault, rfl, own⟩
    · rintro ⟨fault, rfl, own⟩
      exact ⟨fault, own, rfl⟩
  constructor
  · have visited : (∃ fault, Stmt.FirstFault (bodies.flatMap Stmt.met) fault) ↔
        ∃ body ∈ bodies, ∃ stmt ∈ Stmt.within body, ¬ stmt.WellTargeted := by
      rw [Stmt.exists_firstFault]
      simp only [List.mem_flatMap, Stmt.mem_met]
      constructor
      · rintro ⟨stmt, ⟨body, inside, below⟩, bad⟩
        exact ⟨body, inside, stmt, below, bad⟩
      · rintro ⟨body, inside, stmt, below, bad⟩
        exact ⟨stmt, ⟨body, inside, below⟩, bad⟩
    rw [← visited]
    constructor
    · rintro ⟨error, failed⟩
      obtain ⟨fault, _, first⟩ := (errors error).mp failed
      exact ⟨fault, first⟩
    · rintro ⟨fault, first⟩
      exact ⟨.illFormed fault, (errors _).mpr ⟨fault, rfl, first⟩⟩
  · exact errors

theorem Layout.error?_points (layout : Layout) (region : Region) : error? (layout.points region) =
      (Stmt.met region.body.2).findSome? (Option.map .illFormed ∘ Stmt.fault?) := by
  rw [points, error?_mapError, Flow.error?_annotate, List.map_findSome?]

namespace Program

/-- The analyses of a program fail by its targets: that of a scope by those in the scope, that of
the program by those in its scopes in order. -/
theorem analysis_fails_by_targets {source : List Char} {program : Program}
    (parsed : parse source = .ok program) :
    ∃ scopes bodies, program.scopes = .ok scopes ∧ scopes.mapM program.scopeTrees = .ok bodies ∧
      FailsByTargets program.analyze bodies ∧
      ∀ scope, scope = .script ∨ scope ∈ scopes →
        ∃ body, program.scopeTrees scope = .ok body ∧
          FailsByTargets (program.analyzeScope scope) [body] := by
  obtain ⟨layout, holds⟩ := parse_holds parsed
  have trees : (layout.regions.map Region.scope).mapM program.scopeTrees =
      .ok (layout.regions.map fun region => region.body.2) :=
    mapM_map_ok fun region member => holds.scopeTrees member
  refine ⟨_, _, holds.scopes, trees, ?_, fun scope known => ?_⟩
  · apply FailsByTargets.of_error
    rw [holds.analyze, List.flatMap_map, ← findSome?_parts fun region _ =>
      layout.error?_points region, ← error?_mapM]
    exact error?_map _ _
  · obtain ⟨_, body, _, read, vocabulary⟩ := holds.scope_read known
    refine ⟨body, read, ?_⟩
    apply FailsByTargets.of_error
    rw [List.flatMap_singleton, ← List.map_findSome?, ← Flow.error?_annotate, ← error?_mapError,
      analyzeScope, annotateScope, vocabulary, read]
    exact error?_map _ _

/-- What the error shows is what the target ends at, not the target. -/
theorem indexed_number_shows_number :
    (parse "1(2) = x;\n".toList).toOption.map (fun program =>
        ((program.scopeTrees .script).toOption.map fun body => body.map fun stmt => stmt.targets.map
            Expr.print, (error? (program.analyzeScope .script)).map Flow.Error.message)) =
      some (some [["1(2)"]],
          some "ill-formed input: ill-formed assignment target \x601\x60 at [1, 1]") := by
  decide +kernel

theorem nested_targets_fail :
    ∃ program, parse "if x\n [a, 2(1)] = y;\nend\nfunction f\n3 = z;\nend\n".toList = .ok program ∧
      ∃ scopes bodies, program.scopes = .ok scopes ∧ scopes.mapM program.scopeTrees = .ok bodies ∧
        FailsByTargets program.analyze bodies ∧
        ∀ scope, scope = .script ∨ scope ∈ scopes →
          ∃ body, program.scopeTrees scope = .ok body ∧
            FailsByTargets (program.analyzeScope scope) [body] := by
  obtain ⟨program, parsed⟩ := exists_ok (by decide +kernel : (parse
    "if x\n [a, 2(1)] = y;\nend\nfunction f\n3 = z;\nend\n".toList).toOption.isSome)
  exact ⟨program, parsed, analysis_fails_by_targets parsed⟩

end Program
end ScriptFlow
