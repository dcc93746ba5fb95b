import ScriptFlow.Proofs.Counter.Instrumented
import ScriptFlow.Proofs.Flow.Regions
import ScriptFlow.Proofs.Program.Successor
import ScriptFlow.Proofs.Stmt.Targets

/-!
What the backward analysis computes. A statement is attributed to a variable when it is met on the
chain of successors, reads the variable, and no statement met before it assigns the variable.
-/

namespace ScriptFlow

def Expr.Mentions (expr : StoredExpr) (name : String) : Prop :=
  ∃ label, .node label (.name name) ∈ expr.within

def Expr.EndsAtName (target : StoredExpr) (name : String) : Prop :=
  ∃ label, target.EndsAt (.node label (.name name))

namespace Stmt

/-- An assignment reads what its value mentions, a compound statement what the expressions mention
that decide which body runs, or how often. -/
def Reads (stmt : StoredStmt) (name : String) : Prop :=
  match stmt.shape with
  | .assign _ value _ => value.Mentions name
  | .branch clauses _ => ∃ clause ∈ clauses, clause.1.Mentions name
  | .switch subject cases _ => subject.Mentions name ∨ ∃ clause ∈ cases, clause.1.Mentions name
  | .forLoop _ range _ => range.Mentions name
  | .whileLoop cond _ => cond.Mentions name
  | .eval _ _ | .breakLoop | .continueLoop | .leave | .global _ | .persistent _ => False

/-- An assignment assigns the variable that its target ends at, or those that the elements of a
matrix end at; a loop assigns the variable that it counts with. -/
def Assigns (stmt : StoredStmt) (name : String) : Prop :=
  match stmt.shape with
  | .assign (.node _ (.matrix rows)) _ _ => ∃ row ∈ rows, ∃ target ∈ row, target.EndsAtName name
  | .assign target _ _ => target.EndsAtName name
  | .forLoop var _ _ => name = var
  | _ => False

theorem reads_iff (stmt : StoredStmt) (name : String) :
    stmt.Reads name ↔ name ∈ stmt.shape.sources.flatMap Expr.names := by
  obtain ⟨site, shape⟩ := stmt
  cases shape <;>
    simp [Reads, Expr.Mentions, Expr.mem_names_iff, StmtShape.sources, StmtShape.guards]

theorem assigns_iff {stmt : StoredStmt} {names : List String}
    (made : stmt.shape.bases = .ok names) (name : String) : stmt.Assigns name ↔ name ∈ names := by
  obtain ⟨site, shape⟩ := stmt
  cases shape with
  | assign target value quiet =>
      rw [mem_bases_iff rfl made]
      obtain ⟨label, shape⟩ := target
      cases shape <;>
        simp [Assigns, targets, StmtShape.target?, Expr.targets, Expr.EndsAtName]
      grind
  | forLoop var range body =>
      cases made
      exact List.mem_singleton.symm
  | _ =>
      cases made
      exact iff_of_false id List.not_mem_nil

end Stmt

/-- The statements that a variable is attributed to; a name without an entry has none. -/
def FlowValue.users (flow : FlowValue) (name : String) : IdSet := flow[name]?.getD ∅

namespace Flow

variable (isFunction : String → Bool)

def Attributed (chain : List StoredStmt) (name : String) (user : StmtId) : Prop :=
  ∃ front stmt back, chain = front ++ stmt :: back ∧ stmt.number = user ∧ stmt.Reads name ∧
    isFunction name = false ∧ ∀ earlier ∈ front, ¬ earlier.Assigns name

/-- The flow value attributes just what the chain does, and its keys are the variables with a
user. -/
structure Describes (flow : FlowValue) (chain : List StoredStmt) : Prop where
  users : ∀ name user, user ∈ flow.users name ↔ Attributed isFunction chain name user
  keys : ∀ name, name ∈ flow ↔ ∃ user, user ∈ flow.users name

variable {isFunction} {chain : List StoredStmt} {flow : FlowValue} {name : String} {user : StmtId}

theorem attributed_nil : ¬ Attributed isFunction [] name user := by
  rintro ⟨front, stmt, back, split, _⟩
  cases front <;> cases split

theorem attributed_cons {stmt : StoredStmt} :
    Attributed isFunction (stmt :: chain) name user ↔
      (stmt.number = user ∧ stmt.Reads name ∧ isFunction name = false) ∨
        (¬ stmt.Assigns name ∧ Attributed isFunction chain name user) := by
  constructor
  · rintro ⟨front, met, back, split, same, read, variable', clear⟩
    cases front with
    | nil =>
        cases split
        exact .inl ⟨same, read, variable'⟩
    | cons first others =>
        cases split
        refine .inr ⟨clear _ List.mem_cons_self, others, met, back, rfl, same, read, variable', ?_⟩
        exact fun earlier member => clear earlier (List.mem_cons_of_mem _ member)
  · rintro (⟨same, read, variable'⟩ | ⟨kept, front, met, back, rfl, same, read, variable', clear⟩)
    · exact ⟨[], stmt, chain, rfl, same, read, variable',
        fun _ member => absurd member List.not_mem_nil⟩
    · refine ⟨stmt :: front, met, back, rfl, same, read, variable', fun earlier member => ?_⟩
      rcases List.mem_cons.mp member with rfl | later
      · exact kept
      · exact clear earlier later

theorem describes_empty : Describes isFunction ∅ [] where
  users name user := by simp [FlowValue.users, attributed_nil]
  keys name := by simp [FlowValue.users]

theorem mem_iff_of_present (present : ∀ users, flow[name]? = some users → ∃ user, user ∈ users) :
    name ∈ flow ↔ ∃ user, user ∈ flow.users name := by
  rw [Std.ExtTreeMap.mem_iff_isSome_getElem?, FlowValue.users]
  cases found : flow[name]? with
  | none => simp
  | some users =>
      obtain ⟨user, member⟩ := present users found
      exact ⟨fun _ => ⟨user, member⟩, fun _ => rfl⟩

theorem Describes.present (described : Describes isFunction flow chain) {users : IdSet}
    (found : flow[name]? = some users) : ∃ user, user ∈ users := by
  have key : name ∈ flow := by
    rw [Std.ExtTreeMap.mem_iff_isSome_getElem?, found]
    rfl
  obtain ⟨user, member⟩ := (described.keys name).mp key
  rw [FlowValue.users, found] at member
  exact ⟨user, member⟩

theorem mem_meet {left right : Option IdSet} :
    user ∈ (FlowMap.meet (· ∪ ·) left right).getD ∅ ↔ user ∈ left.getD ∅ ∨ user ∈ right.getD ∅ := by
  cases left <;> cases right <;> simp [FlowMap.meet]

theorem present_meet {left right : Option IdSet} {users : IdSet}
    (lefts : ∀ set, left = some set → ∃ user, user ∈ set)
    (rights : ∀ set, right = some set → ∃ user, user ∈ set)
    (found : FlowMap.meet (· ∪ ·) left right = some users) : ∃ user, user ∈ users := by
  cases left with
  | none => exact rights users found
  | some set =>
      obtain ⟨user, member⟩ := lefts set rfl
      cases right with
      | none =>
          cases found
          exact ⟨user, member⟩
      | some other =>
          cases found
          exact ⟨user, Std.ExtTreeSet.mem_union_iff.mpr (.inl member)⟩

open Classical in
theorem Describes.apply (described : Describes isFunction flow chain) {site : Site}
    {shape : StmtShape StoredExpr (List StoredStmt)} {transfer : Transfer}
    (made : Transfer.ofShape isFunction site.id site.position shape = .ok transfer) :
    Describes isFunction (transfer.apply flow) (.node site shape :: chain) := by
  -- A transfer that was made kills the assigned names and generates the read ones.
  have parts : ∃ names, shape.bases = .ok names ∧ transfer.kill = NameSet.ofList names ∧
      transfer.gen = Transfer.generated isFunction site.id (shape.sources.flatMap Expr.names) := by
    rw [Transfer.ofShape, StmtShape.assigned] at made
    cases bases : shape.bases with
    | error bad =>
        rw [bases] at made
        cases made
    | ok names =>
        rw [bases] at made
        cases made
        exact ⟨names, rfl, rfl, rfl⟩
  obtain ⟨names, bases, kill, gen⟩ := parts
  have reads := Stmt.reads_iff (.node site shape)
  have assigns : ∀ name, (Stmt.node site shape).Assigns name ↔ name ∈ names :=
    Stmt.assigns_iff bases
  -- So a name comes in from behind unless it is assigned here, and from here if it is read here.
  have into (name : String) : (transfer.apply flow)[name]? = FlowMap.meet (· ∪ ·)
      (if (Stmt.node site shape).Assigns name then none else flow[name]?)
      (if (Stmt.node site shape).Reads name ∧ isFunction name = false
        then some ({site.id} : IdSet) else none) := by
    rw [Transfer.getElem?_apply, kill, gen, Transfer.getElem?_generated]
    simp only [NameSet.mem_ofList, assigns, reads]
    rfl
  refine ⟨fun name user => ?_, fun name => mem_iff_of_present fun users found => ?_⟩
  · have inFlow := described.users name user
    rw [attributed_cons, ← inFlow, FlowValue.users, FlowValue.users, into, mem_meet, or_comm]
    refine or_congr ?_ ?_
    · split
      · next read => simp [read, Stmt.number]
      · next unread => simpa [Stmt.number] using fun _ => not_and.mp unread
    · split
      · next killed => simp [killed]
      · next kept => simp [kept]
  · rw [into] at found
    refine present_meet (fun left before => ?_) (fun right new => ?_) found
    · split at before
      · cases before
      · exact described.present before
    · split at new
      · cases new
        exact ⟨site.id, by simp⟩
      · cases new

def Explains (isFunction : String → Bool) (points : List Point) (stmt : StoredStmt)
    (chain : List StoredStmt) : Prop :=
  ∃ point ∈ points, point.id = stmt.number ∧ Describes isFunction point.out chain ∧
    Describes isFunction point.into (stmt :: chain)

theorem Explains.of_subset {points more : List Point} {stmt : StoredStmt}
    (explains : Explains isFunction points stmt chain) (inside : ∀ point ∈ points, point ∈ more) :
    Explains isFunction more stmt chain := by
  obtain ⟨point, member, facts⟩ := explains
  exact ⟨point, inside point member, facts⟩

def StmtExplained (isFunction : String → Bool) (stmt : StoredStmt) : Prop :=
  ∀ (out into : FlowValue) (points : List Point) (chain : List StoredStmt),
    annotateStmt isFunction stmt out = .ok (into, points) → Describes isFunction out chain →
      Describes isFunction into (stmt :: chain) ∧ Explains isFunction points stmt chain ∧
      ∀ inner ∈ Stmt.within stmt.nested, ∃ body ∈ stmt.shape.bodies, ∃ behind,
        Follows body (stmt :: chain) inner behind ∧ Explains isFunction points inner behind

theorem body_explained {body : List StoredStmt}
    (each : ∀ stmt ∈ body, StmtExplained isFunction stmt)
    {out into : FlowValue} {points : List Point} {rest : List StoredStmt}
    (ran : annotateBody isFunction body out = .ok (into, points))
    (described : Describes isFunction out rest) : Describes isFunction into (body ++ rest) ∧
      ∀ inner ∈ Stmt.within body, ∃ chain, Follows body rest inner chain ∧
      Explains isFunction points inner chain := by
  -- the walk starts at the end of the body, so that the rest describes what follows the first
  -- statement
  induction body generalizing into points with
  | nil =>
      cases ran
      refine ⟨described, fun inner member => ?_⟩
      rw [Stmt.within_nil] at member
      cases member
  | cons stmt others ih =>
      obtain ⟨between, behind, here, later, first, rfl⟩ := annotateBody_cons_ok ran
      obtain ⟨tail, tailPoints⟩ :=
        ih (fun inner member => each inner (List.mem_cons_of_mem _ member)) later
      obtain ⟨head, own, nested⟩ := each stmt List.mem_cons_self _ _ _ _ first tail
      refine ⟨head, fun inner member => ?_⟩
      rw [Stmt.within_cons] at member
      rcases List.mem_cons.mp member with rfl | member
      · exact ⟨_, .here [] inner others rest, own.of_subset fun _ => List.mem_append_right _⟩
      rcases List.mem_append.mp member with below | after
      · obtain ⟨body, inside, chain, follows, explains⟩ := nested inner below
        exact ⟨chain, .within [] stmt others rest inside follows,
          explains.of_subset fun _ => List.mem_append_right _⟩
      · obtain ⟨chain, follows, explains⟩ := tailPoints inner after
        exact ⟨chain, follows.cons stmt, explains.of_subset fun _ => List.mem_append_left _⟩

theorem stmt_explained (stmt : StoredStmt) : StmtExplained isFunction stmt := by
  induction stmt using Stmt.induction with
  | node site shape ih =>
      intro out into points chain ran described
      rw [annotateStmt_node] at ran
      obtain ⟨transfer, inner, made, rfl, rfl, walked⟩ := annotateNode_ok ran
      have head := described.apply made
      refine ⟨head, ⟨_, List.mem_cons_self, rfl, described, head⟩, fun node visited => ?_⟩
      rw [Stmt.nested, Stmt.bodies, Stmt.shape_node, Stmt.within_flatten] at visited
      obtain ⟨body, member, visited⟩ := List.mem_flatMap.mp visited
      obtain ⟨points, inside, front, run⟩ := exists_right_of_forall₂ walked member
      obtain ⟨_, each⟩ := body_explained
          (fun stmt below => ih stmt (List.mem_flatten.mpr ⟨body, member, below⟩)) run head
      obtain ⟨behind, follows, explains⟩ := each node visited
      refine ⟨body, member, behind, follows, explains.of_subset fun point here =>
        List.mem_cons_of_mem _ ?_⟩
      exact List.mem_flatten.mpr ⟨points, inside, here⟩

end Flow

namespace Program

/-- Every statement of the scope has a point. Behind it and from it on, a variable is attributed to
just those statements that are met on the chain of successors and read the variable while no
statement met before them assigns it. -/
def FollowsSuccessors (program : Program) (scope : Scope) (points : Flow.Points) : Prop :=
  ∃ (vocabulary : Vocabulary) (trees : List StoredStmt),
    program.vocabulary scope = .ok vocabulary ∧ program.scopeTrees scope = .ok trees ∧
    ∀ stmt ∈ Stmt.within trees, ∃ (chain : List StoredStmt) (point : Flow.Point),
      program.store.Chain (program.store.successor? stmt.number) chain ∧
      (∀ met ∈ chain, met ∈ Stmt.within trees) ∧
      points[stmt.number]? = some point ∧
      Flow.Describes vocabulary.isFunction point.out chain ∧
      Flow.Describes vocabulary.isFunction point.into (stmt :: chain)

theorem analysis_follows_successors {source : List Char} {program : Program}
    (parsed : parse source = .ok program) {scopes : List Scope} {scope : Scope}
    (listed : program.scopes = .ok scopes) (member : scope ∈ scopes)
    {points : Flow.Points} (analyzed : program.analyzeScope scope = .ok points) :
    program.FollowsSuccessors scope points := by
  obtain ⟨layout, holds⟩ := parse_holds parsed
  rw [holds.scopes] at listed
  cases listed
  obtain ⟨region, inside, rfl⟩ := List.mem_map.mp member
  rw [analyzeScope, holds.annotateScope inside] at analyzed
  obtain ⟨list, walked, analyzed⟩ := bind_eq_ok analyzed
  cases analyzed
  obtain ⟨into, ran⟩ := Layout.points_ok walked
  refine ⟨_, _, holds.vocabulary inside, holds.scopeTrees inside, fun stmt visited => ?_⟩
  have body := Holds.region_mem_bodies inside
  have distinct : (list.map Flow.Point.id).Nodup :=
    (Flow.points_numbers ran).nodup_iff.mpr (holds.store.numbers_nodup body)
  -- The walk starts behind the body with nothing, and puts each statement in front of what follows
  -- it.
  obtain ⟨_, each⟩ :=
    Flow.body_explained (fun inner _ => Flow.stmt_explained inner) ran Flow.describes_empty
  obtain ⟨chain, follows, point, here, same, out, into⟩ := each stmt visited
  refine ⟨chain, point, holds.store.chain body follows, ?_, ?_, out, into⟩
  · exact follows.chain_within (fun _ visited => visited) fun _ none => absurd none List.not_mem_nil
  · rw [← same]
    exact Flow.getElem?_byStatement distinct here

theorem nested_loop_follows_successors :
    ∃ program scopes points, parse "for i = 1:n\n x = y(i);\nend\nz = x;\n".toList = .ok program ∧
      program.scopes = .ok scopes ∧ Scope.script ∈ scopes ∧
      program.analyzeScope .script = .ok points ∧
      program.FollowsSuccessors .script points := by
  have succeeds :
      ((parse "for i = 1:n\n x = y(i);\nend\nz = x;\n".toList).toOption.bind fun program =>
      program.scopes.toOption.bind fun scopes =>
        (program.analyzeScope .script).toOption.map fun _ =>
        decide (Scope.script ∈ scopes)) = some true := by decide +kernel
  obtain ⟨program, parsed, succeeds⟩ := Option.bind_eq_some_iff.mp succeeds
  obtain ⟨scopes, listed, succeeds⟩ := Option.bind_eq_some_iff.mp succeeds
  obtain ⟨points, analyzed, inside⟩ := Option.map_eq_some_iff.mp succeeds
  have parsed := ok_of_toOption parsed
  have listed := ok_of_toOption listed
  have analyzed := ok_of_toOption analyzed
  have member := of_decide_eq_true inside
  exact ⟨program, scopes, points, parsed, listed, member, analyzed,
    analysis_follows_successors parsed listed member analyzed⟩

end Program
end ScriptFlow
