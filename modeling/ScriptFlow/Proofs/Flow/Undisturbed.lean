import ScriptFlow.Proofs.Counter.Instrumented
import ScriptFlow.Proofs.Flow.Agreement
import ScriptFlow.Proofs.Flow.Regions

/-!
Analyzing an instrumented program. The counter statements change no name's kind but that of
counters, so the analysis of every scope agrees with that of the scope before, apart from the
counters in it.
-/

namespace ScriptFlow

/-- The statements that were there say what they said, and those put in call nothing but the
function that prints. -/
structure SameCensus (bound : StmtId) (body new : List StoredStmt) : Prop where
  kept : List.Forall₂ SameWords (Stmt.within body)
      ((Stmt.within new).filter fun stmt => stmt.number < bound)
  added : ∀ stmt ∈ Stmt.within new, bound ≤ stmt.number → ∀ name ∈ stmt.calls, name ∈ builtins

theorem Weave.IsCounter.calls {counter : ParsedStmt} (isCounter : Weave.IsCounter counter) :
    ∀ name ∈ counter.calls, name ∈ builtins := by
  have display (counter : String) : (Weave.showing counter).calls = ["fprintf"] := by
    simp [Weave.showing, Stmt.calls, StmtShape.exprs, Expr.calls, Expr.within_node,
      ExprShape.operands, Expr.called?, Expr.selects, Expr.fold_node, ExprShape.map]
  have increment (counter : String) : (Weave.adding counter).calls = [] := by
    simp [Weave.adding, Stmt.calls, StmtShape.exprs, Expr.calls, Expr.within_node,
      ExprShape.operands, Expr.called?]
  have reset (counter : String) : (Weave.zeroing counter).calls = [] := by
    simp [Weave.zeroing, Stmt.calls, StmtShape.exprs, Expr.calls, Expr.within_node,
      ExprShape.operands, Expr.called?]
  obtain ⟨name, rfl | rfl | rfl⟩ := isCounter
  · rw [reset]
    exact fun _ member => absurd member List.not_mem_nil
  · rw [increment]
    exact fun _ member => absurd member List.not_mem_nil
  · rw [display]
    intro other member
    rw [List.mem_singleton.mp member]
    decide

theorem census_sideBySide (bound : StmtId) (exprs : ExprId) :
    Weave.SideBySide bound exprs (SameCensus bound) where
  nil := ⟨by simp, by simp⟩
  skip {stmt counter body new} isCounter traced census := by
    obtain ⟨late, same⟩ := Weave.injected_parts traced
    obtain ⟨site, shape⟩ := stmt
    obtain ⟨position, own⟩ := counter
    -- A counter statement has no bodies, so it adds itself and nothing below.
    have leaf : shape.bodies = [] := by
      have lists := congrArg StmtShape.bodies same
      rw [StmtShape.bodies_own, StmtShape.bodies_own, isCounter.facts.1] at lists
      exact List.map_eq_nil_iff.mp lists
    have within : Stmt.within (.node site shape :: new) = .node site shape :: Stmt.within new := by
      rw [Stmt.within_cons, Stmt.nested, Stmt.bodies, Stmt.shape_node, leaf, List.flatten_nil,
        Stmt.within_nil, List.nil_append]
    refine ⟨?_, fun inner member lateInner => ?_⟩
    · rw [within, List.filter_cons_of_neg (by simpa using late)]
      exact census.kept
    · rw [within] at member
      rcases List.mem_cons.mp member with rfl | later
      · have words : SameWords (.node position own : ParsedStmt) (.node site shape) := .of_own same
        rw [words.calls]
        exact isCounter.calls
      · exact census.added inner later lateInner
  keep {site shape shape' body new} early same bodies census := by
    -- The statements below that were there before are those of the bodies, list by list.
    have nested : List.Forall₂ SameWords (Stmt.within shape.bodies.flatten)
        ((Stmt.within shape'.bodies.flatten).filter fun stmt => stmt.number < bound) := by
      rw [Stmt.within_flatten, Stmt.within_flatten, List.filter_flatMap]
      exact List.rel_flatMap bodies fun _ _ inner => inner.kept
    refine ⟨?_, fun inner member late => ?_⟩
    · have here := List.filter_cons_of_pos (p := fun stmt : StoredStmt => stmt.number < bound)
          (a := .node site shape') (l := Stmt.within shape'.bodies.flatten ++ Stmt.within new)
          (decide_eq_true early)
      rw [List.filter_append] at here
      rw [Stmt.within_cons, Stmt.within_cons]
      refine here ▸ ?_
      exact .cons (.of_own same) (List.rel_append nested census.kept)
    · rw [Stmt.within_cons] at member
      rcases List.mem_cons.mp member with rfl | member
      · exact absurd early (Nat.not_lt.mpr late)
      rcases List.mem_append.mp member with below | after
      · rw [Stmt.nested, Stmt.bodies, Stmt.within_flatten] at below
        obtain ⟨list, inside, visited⟩ := List.mem_flatMap.mp below
        obtain ⟨_, _, inner'⟩ := exists_left_of_forall₂ bodies inside
        exact inner'.added inner visited late
      · exact census.added inner after late

namespace SameCensus

variable {bound : StmtId} {body new : List StoredStmt} {name : String}

theorem mem_words (census : SameCensus bound body new) {words : StoredStmt → List String}
    (same : ∀ stmt stmt', SameWords stmt stmt' → words stmt' = words stmt) :
    name ∈ (Stmt.within new).flatMap words ↔ name ∈ (Stmt.within body).flatMap words ∨
      ∃ stmt ∈ Stmt.within new, bound ≤ stmt.number ∧ name ∈ words stmt := by
  have early : ((Stmt.within new).filter fun stmt => stmt.number < bound).flatMap words =
      (Stmt.within body).flatMap words := by
    have kept := census.kept
    generalize (Stmt.within new).filter _ = others at kept ⊢
    generalize Stmt.within body = firsts at kept ⊢
    induction kept with
    | nil => rfl
    | cons head _ ih => rw [List.flatMap_cons, List.flatMap_cons, same _ _ head, ih]
  rw [← early]
  simp only [List.mem_flatMap, List.mem_filter, decide_eq_true_eq]
  constructor
  · rintro ⟨stmt, visited, occurs⟩
    rcases Nat.lt_or_ge stmt.number bound with before | late
    · exact .inl ⟨stmt, ⟨visited, before⟩, occurs⟩
    · exact .inr ⟨stmt, visited, late, occurs⟩
  · rintro (⟨stmt, ⟨visited, _⟩, occurs⟩ | ⟨stmt, visited, _, occurs⟩)
    · exact ⟨stmt, visited, occurs⟩
    · exact ⟨stmt, visited, occurs⟩

theorem isFunction (census : SameCensus bound body new) (defined : List String)
    (header : Option Header) (occurs : name ∈ (Stmt.within body).flatMap Stmt.names)
    (outside : name ∉ Stmt.addedNames bound new) :
    (Vocabulary.ofScope defined header new).isFunction name =
      (Vocabulary.ofScope defined header body).isFunction name := by
  -- The kind of a name goes by what is bound, named and called in the scope, and builtins are
  -- functions anyway.
  have binds : name ∈ (Stmt.within new).flatMap Stmt.binds ↔
      name ∈ (Stmt.within body).flatMap Stmt.binds := by
    rw [census.mem_words fun _ _ same => same.binds, ← Stmt.mem_addedNames]
    simp [outside]
  have names : name ∈ (Stmt.within new).flatMap Stmt.names :=
    (census.mem_words fun _ _ same => same.names).mpr (.inl occurs)
  have calls : name ∈ builtins ∨ name ∈ (Stmt.within new).flatMap Stmt.calls ↔
      name ∈ builtins ∨ name ∈ (Stmt.within body).flatMap Stmt.calls := by
    rw [census.mem_words fun _ _ same => same.calls]
    constructor
    · rintro (known | own | ⟨stmt, visited, late, called⟩)
      · exact .inl known
      · exact .inr own
      · exact .inl (census.added stmt visited late name called)
    · rintro (known | own)
      · exact .inl known
      · exact .inr (.inl own)
  have kind : (Vocabulary.ofScope defined header new).kind name =
      (Vocabulary.ofScope defined header body).kind name := by
    simp only [Vocabulary.kind, Vocabulary.ofScope, NameSet.mem_ofList, List.mem_append, binds,
      names, occurs, or_assoc, calls]
  rw [Vocabulary.isFunction, Vocabulary.isFunction, kind]

end SameCensus

/-- The analysis of a scope agrees with that of the woven scope. -/
theorem Layout.points_agree {layout : Layout} {final : Region → List StoredStmt}
    {region : Region} {stmts : StmtId} {exprs : ExprId} {context : Instrument.Context}
    (woven : ∃ start, ((Weave.scope context region.body.2).run start).1 =
      (final region).map (Stmt.traced stmts exprs)) :
    Agrees (fun points points' : List Flow.Point =>
      List.Forall₂ (Flow.SamePoint (Stmt.addedNames stmts (final region)))
        points (points'.filter fun point => point.id < stmts))
      (layout.points region) ((layout.rebody final).points (region.rebody final)) := by
  obtain ⟨start, traced⟩ := woven
  have census := (census_sideBySide stmts exprs).scope traced.symm
  have functions (name) (occurs : name ∈ (Stmt.within region.body.2).flatMap Stmt.names)
      (outside : name ∉ Stmt.addedNames stmts (final region)) :
      ((layout.rebody final).vocabulary (region.rebody final)).isFunction name =
      (layout.vocabulary region).isFunction name := by
    rw [Layout.vocabulary, Layout.vocabulary, Layout.names_rebody]
    exact census.isFunction layout.names region.header occurs outside
  have walks := (Flow.walks_sideBySide exprs).scope traced.symm
      (fun _ member => member) functions ∅ ∅ fun _ _ => rfl
  rw [Layout.points, Layout.points, Flow.annotate_eq, Flow.annotate_eq]
  exact Agrees.mapError _ (walks.bind fun _ _ walk => .ok walk.2)

namespace Program

/-- The analysis of the program afterwards fails with the errors of that before. Where both succeed
they have the same values around every statement that was there, apart from the names that the
statements put into its scope bind. -/
def FlowKept (program result : Program) (scopes : List Scope) : Prop :=
  (∀ error, result.analyze = .error error ↔ program.analyze = .error error) ∧
  ∀ before after, program.analyze = .ok before → result.analyze = .ok after →
    ∀ scope ∈ scopes, ∃ trees new : List StoredStmt,
      program.scopeTrees scope = .ok trees ∧ result.scopeTrees scope = .ok new ∧
      ∀ stmt ∈ Stmt.within trees, ∃ point point' : Flow.Point,
        before[stmt.number]? = some point ∧ after[stmt.number]? = some point' ∧
        ∀ name, name ∉ Stmt.addedNames program.store.stmts.size new →
          point'.into[name]? = point.into[name]? ∧ point'.out[name]? = point.out[name]?

theorem instrument_keeps_flow {source : List Char} {program : Program}
    (parsed : parse source = .ok program) (classify : Bool) :
    ∃ (result : Program) (tally : Tally) (scopes : List Scope),
      program.instrument classify = .ok (result, tally) ∧
      program.scopes = .ok scopes ∧ result.scopes = .ok scopes ∧
      program.FlowKept result scopes := by
  obtain ⟨layout, holds⟩ := parse_holds parsed
  obtain ⟨final, result, tally, ran, held, woven⟩ := holds.instrument classify
  have agree := fun region (member : region ∈ layout.regions) =>
    @Layout.points_agree layout final region _ _ _ (mapM_run_mem woven region member)
  have resultScopes : result.scopes = .ok (layout.regions.map Region.scope) := by
    rw [held.scopes, Layout.regions_rebody, List.map_map]
    rfl
  have regions : (layout.rebody final).regions = layout.regions.map (Region.rebody final) :=
    layout.regions_rebody
  -- The two analyses fail alike, since they agree on each region.
  have lists :
      Agrees (List.Forall₂ fun _ _ : List Flow.Point => True) (layout.regions.mapM layout.points)
      ((layout.rebody final).regions.mapM (layout.rebody final).points) := by
    rw [regions, List.mapM_map]
    refine Agrees.mapM (List.forall₂_same.mpr fun region member => ?_)
    exact (agree region member).imp fun _ _ _ => trivial
  refine ⟨result, tally, layout.regions.map Region.scope, ran, holds.scopes, resultScopes,
    fun error => ?_, ?_⟩
  · rw [held.analyze, holds.analyze]
    exact (lists.bind fun _ _ _ => .ok trivial : Agrees (fun _ _ => True) _ _).error_iff error
  · intro before after analyzed analyzed' scope inScopes
    obtain ⟨region, member, rfl⟩ := List.mem_map.mp inScopes
    have member' : region.rebody final ∈ (layout.rebody final).regions := by
      rw [regions]
      exact List.mem_map_of_mem member
    rw [holds.analyze] at analyzed
    rw [held.analyze] at analyzed'
    obtain ⟨all, walked, analyzed⟩ := bind_eq_ok analyzed
    obtain ⟨all', walked', analyzed'⟩ := bind_eq_ok analyzed'
    cases analyzed
    cases analyzed'
    obtain ⟨own, inside, here⟩ := exists_right_of_forall₂ (forall₂_of_mapM_ok walked) member
    obtain ⟨own', inside', here'⟩ := exists_right_of_forall₂ (forall₂_of_mapM_ok walked') member'
    have same := (agree region member).related here here'
    obtain ⟨into, run⟩ := Layout.points_ok here
    refine ⟨region.body.2, final region, holds.scopeTrees member, held.scopeTrees member',
      fun stmt visited => ?_⟩
    -- A statement of the body has a point in the first analysis, and that point has its fellow in
    -- the second.
    have numbered : stmt.number ∈ own.map Flow.Point.id :=
      (Flow.points_numbers run).mem_iff.mpr (List.mem_map_of_mem visited)
    obtain ⟨point, pointIn, number⟩ := List.mem_map.mp numbered
    obtain ⟨point', pointIn', samePoint⟩ := exists_right_of_forall₂ same pointIn
    have found := Flow.getElem?_byStatement (holds.points_nodup walked)
        (List.mem_flatten.mpr ⟨own, inside, pointIn⟩)
    have found' := Flow.getElem?_byStatement (held.points_nodup walked')
      (List.mem_flatten.mpr ⟨own', inside', (List.mem_filter.mp pointIn').1⟩)
    rw [number] at found
    rw [samePoint.id, number] at found'
    exact ⟨point, point', found, found', fun name outside =>
      ⟨samePoint.into name outside, samePoint.out name outside⟩⟩

theorem call_in_loop_keeps_flow :
    ∃ program, parse "x = 1;\nfor i = 1:x\n x = f(x);\nend\nreturn\n".toList = .ok program ∧
      ∃ (result : Program) (tally : Tally) (scopes : List Scope),
        program.instrument true = .ok (result, tally) ∧
        program.scopes = .ok scopes ∧ result.scopes = .ok scopes ∧
        program.FlowKept result scopes := by
  have succeeds :
      (parse "x = 1;\nfor i = 1:x\n x = f(x);\nend\nreturn\n".toList).toOption.isSome = true := by
    decide +kernel
  obtain ⟨program, parsed⟩ := Option.isSome_iff_exists.mp succeeds
  exact ⟨program, ok_of_toOption parsed, instrument_keeps_flow (ok_of_toOption parsed) true⟩

end Program
end ScriptFlow
