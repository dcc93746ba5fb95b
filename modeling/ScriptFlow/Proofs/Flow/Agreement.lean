import ScriptFlow.Proofs.Counter.Interleave
import ScriptFlow.Proofs.Flow.Annotate

/-!
The walk over a body and over what became of it. Apart from the variables that the counter
statements bind, both see the same values at the statements that were there, and both fail alike.
-/

namespace ScriptFlow

inductive Agrees {E A B : Type} (R : A → B → Prop) : Except E A → Except E B → Prop where
  | error (error : E) : Agrees R (.error error) (.error error)
  | ok {a : A} {b : B} (related : R a b) : Agrees R (.ok a) (.ok b)

namespace Agrees

variable {E F A B C D : Type} {R : A → B → Prop} {S : C → D → Prop}

theorem imp {S : A → B → Prop} {first : Except E A} {second : Except E B}
    (agrees : Agrees R first second) (weaker : ∀ a b, R a b → S a b) : Agrees S first second := by
  cases agrees with
  | error error => exact .error error
  | ok related => exact .ok (weaker _ _ related)

theorem bind {first : Except E A} {second : Except E B} {next : A → Except E C}
    {next' : B → Except E D} (agrees : Agrees R first second)
    (later : ∀ a b, R a b → Agrees S (next a) (next' b)) :
    Agrees S (first >>= next) (second >>= next') := by
  cases agrees with
  | error error => exact .error error
  | ok related => exact later _ _ related

theorem mapError {first : Except E A} {second : Except E B} (f : E → F)
    (agrees : Agrees R first second) : Agrees R (first.mapError f) (second.mapError f) := by
  cases agrees with
  | error error => exact .error _
  | ok related => exact .ok related

theorem mapM {f : A → Except E C} {g : B → Except E D} {left : List A} {right : List B}
    (each : List.Forall₂ (fun a b => Agrees S (f a) (g b)) left right) :
    Agrees (List.Forall₂ S) (left.mapM f) (right.mapM g) := by
  induction each with
  | nil => exact .ok .nil
  | cons head _ ih =>
      rw [List.mapM_cons, List.mapM_cons]
      refine head.bind fun c d first => ih.bind fun cs ds others => ?_
      exact .ok (.cons first others)

theorem error_iff {first : Except E A} {second : Except E B} (agrees : Agrees R first second)
    (error : E) : second = .error error ↔ first = .error error := by
  cases agrees with
  | error other => simp
  | ok _ => simp

theorem related {first : Except E A} {second : Except E B} (agrees : Agrees R first second) {a : A}
    {b : B} (left : first = .ok a) (right : second = .ok b) : R a b := by
  cases agrees with
  | error error => cases left
  | ok related =>
      cases left
      cases right
      exact related

end Agrees

def Stmt.added (bound : StmtId) (body : List StoredStmt) : List StoredStmt :=
  (Stmt.within body).filter fun stmt => bound ≤ stmt.number

def Stmt.addedNames (bound : StmtId) (body : List StoredStmt) : List String :=
  (Stmt.added bound body).flatMap Stmt.binds

theorem Stmt.mem_addedNames {bound : StmtId} {body : List StoredStmt} {name : String} :
    name ∈ Stmt.addedNames bound body ↔ ∃ stmt ∈ Stmt.within body, bound ≤ stmt.number ∧
      name ∈ stmt.binds := by
  simp only [addedNames, added, List.mem_flatMap, List.mem_filter, decide_eq_true_eq, and_assoc]

theorem Stmt.addedNames_subset {bound : StmtId} {body more : List StoredStmt}
    {names : List String} (added : ∀ name ∈ Stmt.addedNames bound more, name ∈ names)
    (inside : ∀ stmt ∈ Stmt.within body, stmt ∈ Stmt.within more) :
    ∀ name ∈ Stmt.addedNames bound body, name ∈ names := by
  intro name member
  obtain ⟨stmt, visited, late, binds⟩ := Stmt.mem_addedNames.mp member
  exact added name (Stmt.mem_addedNames.mpr ⟨stmt, inside stmt visited, late, binds⟩)

namespace StmtShape

variable {Label Body : Type}

theorem transfer_own (shape : StmtShape (Expr Label) Body) (isFunction : String → Bool)
    (id : Nat) (position : Position) : Transfer.ofShape isFunction id position shape.own =
      Transfer.ofShape isFunction id position shape :=
  transfer_map _ _ shape isFunction id position

theorem bodies_own (shape : StmtShape (Expr Label) Body) :
    shape.own.bodies = shape.bodies.map fun _ => [] :=
  bodies_map _ _ shape

theorem bases_ok_of_own {Other Inner : Type} {shape : StmtShape (Expr Label) Body}
    {shape' : StmtShape (Expr Other) Inner} (same : shape.own = shape'.own) {names : List String}
    (bases : shape'.bases = .ok names) : shape.bases = .ok names := by
  have left := bases_map (fun _ : Label => ()) (fun _ => ([] : List ParsedStmt)) shape
  have right := bases_map (fun _ : Other => ()) (fun _ => ([] : List ParsedStmt)) shape'
  change shape.own.bases = _ at left
  change shape'.own.bases = _ at right
  rw [same, right, bases] at left
  cases own : shape.bases with
  | error bad =>
      rw [own] at left
      cases left
  | ok others =>
      rw [own] at left
      cases left
      rfl

theorem mem_exprs_of_sources {Operand : Type} {shape : StmtShape Operand Body} {expr : Operand}
    (member : expr ∈ shape.sources) : expr ∈ shape.exprs := by
  cases shape with
  | assign target value quiet => exact List.mem_cons_of_mem _ member
  | eval expr quiet => cases member
  | _ => exact member

end StmtShape

namespace Weave

theorem IsCounter.facts {counter : ParsedStmt} (isCounter : IsCounter counter) :
    counter.shape.bodies = [] ∧ ∃ names, counter.shape.bases = .ok names ∧
      ∀ name ∈ counter.shape.sources.flatMap Expr.names, name ∈ names := by
  obtain ⟨name, rfl | rfl | rfl⟩ := isCounter
  · exact ⟨rfl, [name], rfl, fun _ member => absurd member List.not_mem_nil⟩
  · exact ⟨rfl, [name], rfl, fun other member => member⟩
  · exact ⟨rfl, [], rfl, fun _ member => absurd member List.not_mem_nil⟩

variable {stmts : StmtId} {exprs : ExprId} {tree : StoredStmt} {counter : ParsedStmt}

theorem injected_parts (traced : tree.traced stmts exprs = injected counter) :
    stmts ≤ tree.number ∧ tree.shape.own = counter.shape.own := by
  obtain ⟨site, shape⟩ := tree
  obtain ⟨position, own⟩ := counter
  rw [Stmt.traced_node, injected, Stmt.relabel_node] at traced
  obtain ⟨origin, shapes⟩ := Stmt.node.inj traced
  obtain ⟨number, _⟩ := Origin.mk.inj origin
  refine ⟨?_, ?_⟩
  · by_contra early
    rw [Stmt.number, Stmt.label_node] at early
    rw [earlier, if_pos (Nat.lt_of_not_le early)] at number
    cases number
  · have same := congrArg StmtShape.own shapes
    rwa [StmtShape.own_map, StmtShape.own_map] at same

end Weave

namespace Flow

def AgreeOff (names : List String) (flow flow' : FlowValue) : Prop :=
  ∀ name, name ∉ names → flow'[name]? = flow[name]?

structure SamePoint (names : List String) (point point' : Point) : Prop where
  id : point'.id = point.id
  into : AgreeOff names point.into point'.into
  out : AgreeOff names point.out point'.out

variable (bound : StmtId) (names : List String)

/-- The points of the statements that were there are the same, and so is what flows on. -/
def SameWalk (walk walk' : FlowValue × List Point) : Prop :=
  AgreeOff names walk.1 walk'.1 ∧
    List.Forall₂ (SamePoint names) walk.2 (walk'.2.filter fun point => point.id < bound)

variable (isFunction isFunction' : String → Bool)

/-- The walks agree as long as the statements put in bind only the names, and the other names in the
body are functions on both sides or on none. -/
def WalksAgree (body new : List StoredStmt) : Prop :=
  (∀ name ∈ Stmt.addedNames bound new, name ∈ names) →
  (∀ name ∈ (Stmt.within body).flatMap Stmt.names, name ∉ names →
    isFunction' name = isFunction name) →
  ∀ out out', AgreeOff names out out' → Agrees (SameWalk bound names)
    (annotateBody isFunction body out) (annotateBody isFunction' new out')

variable {bound names isFunction isFunction'}

theorem AgreeOff.apply {flow flow' : FlowValue} (agree : AgreeOff names flow flow')
    {transfer transfer' : Transfer} (kill : transfer'.kill = transfer.kill)
    (gen : AgreeOff names transfer.gen transfer'.gen) :
    AgreeOff names (transfer.apply flow) (transfer'.apply flow') := by
  intro name outside
  rw [Transfer.getElem?_apply, Transfer.getElem?_apply, kill, agree name outside, gen name outside]

theorem counter_walk {tree : StoredStmt} {counter : ParsedStmt}
    (isCounter : Weave.IsCounter counter) (same : tree.shape.own = counter.shape.own)
    (binds : ∀ name ∈ tree.binds, name ∈ names) (flow : FlowValue) :
    ∃ into, annotateStmt isFunction tree flow = .ok (into, [⟨tree.number, into, flow⟩]) ∧
      AgreeOff names flow into := by
  obtain ⟨site, shape⟩ := tree
  obtain ⟨leaf, assigned, bases, reads⟩ := isCounter.facts
  have bodies : shape.bodies = [] := by
    have lists := congrArg StmtShape.bodies same
    rw [StmtShape.bodies_own, StmtShape.bodies_own, leaf] at lists
    exact List.map_eq_nil_iff.mp lists
  have mine : ∀ name ∈ assigned, name ∈ names := by
    intro name member
    refine binds name (List.mem_append_left _ ?_)
    rw [StmtShape.bases_ok_of_own same bases]
    exact member
  let transfer : Transfer :=
    ⟨NameSet.ofList assigned, Transfer.generated isFunction site.id
      (counter.shape.sources.flatMap Expr.names)⟩
  -- What a transfer is made of is what the statement says itself, which is that of the counter
  -- statement.
  have made : Transfer.ofShape isFunction site.id site.position shape = .ok transfer := by
    rw [← StmtShape.transfer_own, show shape.own = counter.shape.own from same,
      StmtShape.transfer_own, Transfer.ofShape, StmtShape.assigned, bases]
    rfl
  refine ⟨transfer.apply flow, ?_, fun name outside => ?_⟩
  · rw [annotateStmt_node, annotateNode, made, bodies]
    rfl
  · have unkilled : name ∉ transfer.kill :=
      fun killed => outside (mine name (NameSet.mem_ofList.mp killed))
    rw [Transfer.getElem?_apply, Transfer.getElem?_generated, if_neg unkilled,
      if_neg fun both => outside (mine name (reads name both.1))]
    cases flow[name]? <;> rfl

theorem kept_walk {site : Site} {shape shape' : StmtShape StoredExpr (List StoredStmt)}
    (early : site.id < bound) (same : shape'.own = shape.own)
    (bodies : List.Forall₂ (fun body body' => ∀ out out', AgreeOff names out out' →
      Agrees (SameWalk bound names) (annotateBody isFunction body out)
      (annotateBody isFunction' body' out')) shape.bodies shape'.bodies)
    (functions : ∀ name ∈ (Stmt.node site shape).names, name ∉ names →
      isFunction' name = isFunction name) {out out' : FlowValue} (agree : AgreeOff names out out') :
    Agrees (SameWalk bound names) (annotateStmt isFunction (.node site shape) out)
      (annotateStmt isFunction' (.node site shape') out') := by
  have transfers : Agrees (fun transfer transfer' : Transfer => transfer'.kill = transfer.kill ∧
      AgreeOff names transfer.gen transfer'.gen)
      (Transfer.ofShape isFunction site.id site.position shape)
      (Transfer.ofShape isFunction' site.id site.position shape') := by
    rw [← StmtShape.transfer_own shape', same, StmtShape.transfer_own,
      Transfer.ofShape, Transfer.ofShape]
    cases shape.assigned site.position with
    | error error => exact .error error
    | ok kill =>
        refine .ok ⟨rfl, fun name outside => ?_⟩
        rw [Transfer.getElem?_generated, Transfer.getElem?_generated]
        by_cases read : name ∈ shape.sources.flatMap Expr.names
        · obtain ⟨expr, inside, occurs⟩ := List.mem_flatMap.mp read
          have own : name ∈ (Stmt.node site shape).names :=
            List.mem_flatMap.mpr ⟨expr, StmtShape.mem_exprs_of_sources inside, occurs⟩
          rw [functions name own outside]
        · rw [if_neg fun both => read both.1, if_neg fun both => read both.1]
  rw [annotateStmt_node, annotateStmt_node]
  -- the bodies start from what flows into the statement, which the transfers make agree
  refine transfers.bind fun transfer transfer' related => ?_
  have into := agree.apply related.1 related.2
  have inner : Agrees (List.Forall₂ fun points points' : List Point =>
      List.Forall₂ (SamePoint names) points (points'.filter fun point => point.id < bound))
      (shape.bodies.mapM fun body =>
        do return (← annotateBody isFunction body (transfer.apply out)).2)
      (shape'.bodies.mapM fun body =>
        do return (← annotateBody isFunction' body (transfer'.apply out')).2) :=
    Agrees.mapM (bodies.imp fun body body' walks =>
      (walks _ _ into).bind fun _ _ walk => .ok walk.2)
  refine inner.bind fun points points' lists => .ok ⟨into, ?_⟩
  rw [List.filter_cons_of_pos (by simpa using early)]
  refine .cons ⟨rfl, into, agree⟩ ?_
  induction lists with
  | nil => exact .nil
  | cons head _ ih =>
      rw [List.flatten_cons, List.flatten_cons, List.filter_append]
      exact List.rel_append head ih

/-- Bodies that go side by side are walked alike. -/
theorem walks_sideBySide (exprs : ExprId) :
    Weave.SideBySide bound exprs (WalksAgree bound names isFunction isFunction') where
  nil _ _ out out' agree := .ok ⟨agree, .nil⟩
  skip {stmt counter body new} isCounter traced walks added functions out out' agree := by
    obtain ⟨late, same⟩ := Weave.injected_parts traced
    have mine (name) (binds : name ∈ stmt.binds) : name ∈ names :=
      added name
        (Stmt.mem_addedNames.mpr ⟨stmt, Stmt.mem_within_self List.mem_cons_self, late, binds⟩)
    have others :=
      Stmt.addedNames_subset added fun _ visited => @Stmt.mem_within_of_rest _ _ stmt _ _ visited
    have rest := walks others functions out out' agree
    cases left : annotateBody isFunction body out with
    | error error =>
        have right := (rest.error_iff error).mpr left
        rw [annotateBody_cons, right]
        exact .error error
    | ok walk =>
        cases right : annotateBody isFunction' new out' with
        | error error =>
            have failed := (rest.error_iff error).mp right
            rw [left] at failed
            cases failed
        | ok walk' =>
            obtain ⟨between, points⟩ := rest.related left right
            -- only the right side walks the counter statement; its point is late and filtered out
            obtain ⟨into, ran, kept⟩ :=
              @counter_walk names isFunction' stmt counter isCounter same mine walk'.1
            rw [annotateBody_cons_of_ok right ran]
            refine .ok ⟨fun name outside => (kept name outside).trans (between name outside), ?_⟩
            rw [List.filter_append, List.filter_cons_of_neg (by simpa using late),
              List.filter_nil, List.append_nil]
            exact points
  keep {site shape shape' body new} early same bodies walks added functions out out' agree := by
    have inRest := Stmt.addedNames_subset added fun _ visited => Stmt.mem_within_of_rest visited
    have inner : List.Forall₂ (fun body body' => ∀ out out', AgreeOff names out out' →
        Agrees (SameWalk bound names) (annotateBody isFunction body out)
        (annotateBody isFunction' body' out')) shape.bodies shape'.bodies := by
      refine (forall₂_mem bodies).imp fun list list' both => both.2.2 ?_ fun name occurs => ?_
      · exact Stmt.addedNames_subset added fun _ visited => Stmt.mem_within_of_body both.2.1 visited
      · obtain ⟨stmt, visited, occurs⟩ := List.mem_flatMap.mp occurs
        exact functions name
          (List.mem_flatMap.mpr ⟨stmt, Stmt.mem_within_of_body both.1 visited, occurs⟩)
    have own (name) (occurs : name ∈ (Stmt.node site shape).names) : name ∉ names →
        isFunction' name = isFunction name :=
      functions name (List.mem_flatMap.mpr ⟨_, Stmt.mem_within_self List.mem_cons_self, occurs⟩)
    have rest (name) (occurs : name ∈ (Stmt.within body).flatMap Stmt.names) : name ∉ names →
        isFunction' name = isFunction name := by
      obtain ⟨stmt, visited, occurs⟩ := List.mem_flatMap.mp occurs
      exact functions name (List.mem_flatMap.mpr ⟨stmt, Stmt.mem_within_of_rest visited, occurs⟩)
    rw [annotateBody_cons, annotateBody_cons]
    refine (walks inRest rest out out' agree).bind fun walk walk' tail => ?_
    refine (kept_walk early same inner own tail.1).bind fun into into' head => .ok ⟨head.1, ?_⟩
    rw [List.filter_append]
    exact List.rel_append tail.2 head.2

end Flow
end ScriptFlow
