import ScriptFlow.Proofs.Flow.Lookup
import ScriptFlow.Proofs.Program.Shaped
import ScriptFlow.Proofs.Stmt.Relabel
import ScriptFlow.Proofs.Store.Attached

/-!
Kinds of names depend on which statements a scope has, not on where they stand: the vocabularies of
two programs are compared by the statements reached from the scope, and a scope that has all
statements of another has no name of a lower kind.
-/

namespace ScriptFlow

/-- The order of kinds: unknown, function, variable. -/
def NameKind.rank : NameKind → Nat
  | unknown => 0
  | function => 1
  | var => 2

theorem NameKind.eq_of_rank {kind other : NameKind}
    (same : kind.rank = other.rank) : kind = other := by
  cases kind <;> cases other <;> first | rfl | cases same

theorem NameKind.rank_le_var (kind : NameKind) : kind.rank ≤ NameKind.var.rank := by
  cases kind <;> decide

namespace Vocabulary

theorem kind_le {vocabulary more : Vocabulary} {name : String}
    (bound : name ∈ vocabulary.bound → name ∈ more.bound)
    (used : name ∈ vocabulary.occurring → name ∈ more.occurring)
    (callable : name ∈ vocabulary.callable → name ∈ more.callable) :
    (vocabulary.kind name).rank ≤ (more.kind name).rank := by
  by_cases rebound : name ∈ more.bound
  · have var : more.kind name = .var := if_pos rebound
    rw [var]
    exact NameKind.rank_le_var _
  · have unbound : name ∉ vocabulary.bound := fun binds => rebound (bound binds)
    rw [kind, kind, if_neg unbound, if_neg rebound]
    by_cases calls : name ∈ vocabulary.occurring ∧ name ∈ vocabulary.callable
    · rw [if_pos calls]
      apply Nat.le_of_eq
      rw [if_pos ⟨used calls.1, callable calls.2⟩]
    · rw [if_neg calls]
      exact Nat.zero_le _

theorem ofScope_kind_le {Label Other Mark Tag : Type}
    {body : List (Stmt Label (Expr Mark))} {more : List (Stmt Other (Expr Tag))}
    (kept : ∀ stmt ∈ Stmt.within body, ∃ stmt' ∈ Stmt.within more, SameWords stmt stmt')
    (defined : List String) (header : Option Header) (name : String) :
    ((ofScope defined header body).kind name).rank ≤
      ((ofScope defined header more).kind name).rank := by
  have words {words : Stmt Label (Expr Mark) → List String}
      {words' : Stmt Other (Expr Tag) → List String}
      (same : ∀ stmt stmt', SameWords stmt stmt' → words' stmt' = words stmt)
      (occurs : name ∈ (Stmt.within body).flatMap words) :
      name ∈ (Stmt.within more).flatMap words' := by
    obtain ⟨stmt, visited, member⟩ := List.mem_flatMap.mp occurs
    obtain ⟨stmt', visited', alike⟩ := kept stmt visited
    exact List.mem_flatMap.mpr ⟨stmt', visited', same stmt stmt' alike ▸ member⟩
  apply kind_le
  · simp only [ofScope, NameSet.mem_ofList, List.mem_append]
    exact Or.imp_right (words fun _ _ alike => alike.binds)
  · simp only [ofScope, NameSet.mem_ofList]
    exact words fun _ _ alike => alike.names
  · simp only [ofScope, NameSet.mem_ofList, List.mem_append]
    exact Or.imp_right (words fun _ _ alike => alike.calls)

end Vocabulary

namespace Store

inductive Below (store : Store) (block : BlockId) : StmtId → Prop where
  | member {members : List StmtId} {id : StmtId} (listed : store.blocks[block]? = some members)
      (member : id ∈ members) : Below store block id
  | nested {outer id : StmtId} {entry : StmtEntry} {inner : BlockId} {members : List StmtId}
      (above : Below store block outer) (there : store.stmts[outer]? = some entry)
      (body : inner ∈ entry.shape.bodies) (listed : store.blocks[inner]? = some members)
      (member : id ∈ members) : Below store block id

theorem TellsStmt.body_of_member {store : Store} {stmt : StoredStmt} (tells : store.TellsStmt stmt)
    {entry : StmtEntry} (there : store.stmts[stmt.number]? = some entry)
    {inner : BlockId} (own : inner ∈ entry.shape.bodies) :
    ∃ body ∈ stmt.bodies, store.blocks[inner]? = some (body.map Stmt.number) := by
  obtain ⟨entry', _, body, there', same, _, bodies⟩ := tells
  cases there.symm.trans there'
  refine ⟨body inner, ?_, bodies inner own⟩
  rw [Stmt.bodies, same, StmtShape.bodies_map]
  exact List.mem_map_of_mem own

theorem TellsStmt.member_of_body {store : Store} {stmt : StoredStmt}
    (tells : store.TellsStmt stmt) {list : List StoredStmt} (own : list ∈ stmt.bodies) :
    ∃ entry, store.stmts[stmt.number]? = some entry ∧
      ∃ inner ∈ entry.shape.bodies, store.blocks[inner]? = some (list.map Stmt.number) := by
  obtain ⟨entry, _, body, there, same, _, bodies⟩ := tells
  rw [Stmt.bodies, same, StmtShape.bodies_map] at own
  obtain ⟨inner, member, rfl⟩ := List.mem_map.mp own
  exact ⟨entry, there, inner, member, bodies inner member⟩

theorem TellsBody.exists_of_below {store : Store} {block : BlockId} {body : List StoredStmt}
    (tells : store.TellsBody block body) {id : StmtId} (below : store.Below block id) :
    ∃ stmt ∈ Stmt.within body, stmt.number = id := by
  induction below with
  | member listed member =>
      cases listed.symm.trans tells.listed
      obtain ⟨stmt, inside, rfl⟩ := List.mem_map.mp member
      exact ⟨stmt, Stmt.mem_within_self inside, rfl⟩
  | nested _ there own listed member ih =>
      -- the list is read as a body of the outer statement, so what is in it is visited with that
      -- one
      obtain ⟨outer, visited, rfl⟩ := ih
      obtain ⟨list, inside, listed'⟩ := (tells.told outer visited).body_of_member there own
      cases listed.symm.trans listed'
      obtain ⟨stmt, inList, rfl⟩ := List.mem_map.mp member
      refine ⟨stmt, Stmt.mem_within_trans visited ?_, rfl⟩
      exact Stmt.mem_within_self (List.mem_flatten.mpr ⟨list, inside, inList⟩)

theorem below_of_within {store : Store} {block : BlockId} (stmt : StoredStmt)
    (told : ∀ inner ∈ Stmt.within [stmt], store.TellsStmt inner)
    (own : store.Below block stmt.number) :
    ∀ inner ∈ Stmt.within [stmt], store.Below block inner.number := by
  induction stmt using Stmt.induction with
  | node site shape ih =>
      obtain ⟨ownTold, bodies⟩ := (Stmt.forall_within_node (P := store.TellsStmt)).mp told
      apply (Stmt.forall_within_node (P := fun inner => store.Below block inner.number)).mpr
      constructor
      · exact own
      · intro list member stmt inside
        obtain ⟨entry, there, inner, ownList, listed⟩ := ownTold.member_of_body member
        apply ih stmt (List.mem_flatten.mpr ⟨list, member, inside⟩) (bodies list member stmt inside)
        exact own.nested there ownList listed (List.mem_map_of_mem inside)

theorem TellsBody.below {store : Store} {block : BlockId} {body : List StoredStmt}
    (tells : store.TellsBody block body) {stmt : StoredStmt} (visited : stmt ∈ Stmt.within body) :
    store.Below block stmt.number := by
  rw [Stmt.within_flatMap] at visited
  obtain ⟨outer, member, visited⟩ := List.mem_flatMap.mp visited
  have told : ∀ inner ∈ Stmt.within [outer], store.TellsStmt inner :=
    fun inner below => tells.told inner (Stmt.mem_within_of_mem member below)
  exact below_of_within outer told (.member tells.listed (List.mem_map_of_mem member)) stmt visited

theorem TellsStmt.sameWords {store grown : Store} {stmt stmt' : StoredStmt}
    (tells : store.TellsStmt stmt) (tells' : grown.TellsStmt stmt') (stay : store.ExprsStay grown)
    (same : stmt'.number = stmt.number)
    (shape : ∀ entry, store.stmts[stmt.number]? = some entry →
      ∃ entry', grown.stmts[stmt.number]? = some entry' ∧ entry'.shape = entry.shape) :
    SameWords stmt stmt' := by
  obtain ⟨site, own⟩ := stmt
  obtain ⟨site', own'⟩ := stmt'
  obtain ⟨entry, expr, body, there, rfl, exprs, _⟩ := tells
  obtain ⟨entry', expr', body', there', rfl, exprs', _⟩ := tells'
  obtain ⟨other, found, sameShape⟩ := shape entry there
  rw [same] at there'
  cases found.symm.trans there'
  -- both are made of the same entry, and its expressions are read alike from both stores
  apply SameWords.of_own
  rw [sameShape, StmtShape.own, StmtShape.own, StmtShape.map_map, StmtShape.map_map]
  apply StmtShape.map_congr
  · intro id member
    have read := (exprs id member).tree stay
    have read' := (exprs' id (sameShape ▸ member)).tree fun _ _ there => there
    have sameExpr : expr' id = expr id := Except.ok.inj (read'.symm.trans read)
    exact congrArg Expr.unlabelled sameExpr
  · exact fun _ _ => rfl

structure PartOf (store after : Store) : Prop where
  stmts : ∀ (id : StmtId) entry, store.stmts[id]? = some entry →
    ∃ entry', after.stmts[id]? = some entry' ∧ entry'.shape = entry.shape
  lists : ∀ (block : BlockId) members, store.blocks[block]? = some members →
    ∃ more, after.blocks[block]? = some more ∧ ∀ id ∈ members, id ∈ more
  exprs : store.ExprsStay after
  functions : store.FunctionsStay after

theorem PartOf.trans {store between after : Store} (first : store.PartOf between)
    (second : between.PartOf after) : store.PartOf after where
  stmts id entry there := by
    obtain ⟨entry', there', same'⟩ := first.stmts id entry there
    obtain ⟨entry'', there'', same''⟩ := second.stmts id entry' there'
    exact ⟨entry'', there'', same''.trans same'⟩
  lists block members listed := by
    obtain ⟨more, listed', inside'⟩ := first.lists block members listed
    obtain ⟨most, listed'', inside''⟩ := second.lists block more listed'
    exact ⟨most, listed'', fun id member => inside'' id (inside' id member)⟩
  exprs id shape there := second.exprs id shape (first.exprs id shape there)
  functions id entry there := second.functions id entry (first.functions id entry there)

theorem Grows.partOf {store after : Store} (grows : store.Grows after []) : store.PartOf after where
  stmts id entry there := ⟨entry, grows.stmts id entry there, Eq.refl _⟩
  lists block members listed :=
    ⟨members, grows.blocks block List.not_mem_nil members listed, fun _ member => member⟩
  exprs := grows.exprs
  functions := grows.functions

theorem insertStmt_partOf {store after : Store} {block : BlockId} {index : Nat} {id : StmtId}
    (ran : store.insertStmt block index id = .ok after) : store.PartOf after := by
  obtain ⟨front, back, listed, _, _, rfl⟩ := insertStmt_ok ran
  constructor
  · intro other entry there
    rw [insertion_stmts, there]
    by_cases same : id = other
    · rw [if_pos same]
      exact ⟨_, rfl, rfl⟩
    · rw [if_neg same]
      exact ⟨_, rfl, rfl⟩
  · intro other members listed'
    rw [insertion_blocks]
    by_cases same : block = other
    · subst same
      cases listed.symm.trans listed'
      rw [if_pos rfl, if_pos (lt_size_of_getElem? listed)]
      refine ⟨_, rfl, fun inner member => ?_⟩
      rcases List.mem_append.mp member with early | late
      · exact List.mem_append_left _ early
      · exact List.mem_append_right _ (List.mem_cons_of_mem _ late)
    · rw [if_neg same]
      exact ⟨members, listed', fun _ member => member⟩
  · exact fun _ _ there => there
  · exact fun _ _ there => there

theorem Below.partOf {store after : Store} (part : store.PartOf after) {block : BlockId}
    {id : StmtId} (below : store.Below block id) : after.Below block id := by
  induction below with
  | member listed member =>
      obtain ⟨more, listed', inside⟩ := part.lists _ _ listed
      exact .member listed' (inside _ member)
  | nested _ there own listed member ih =>
      obtain ⟨entry, there', same⟩ := part.stmts _ _ there
      obtain ⟨more, listed', inside⟩ := part.lists _ _ listed
      exact ih.nested there' (same ▸ own) listed' (inside _ member)

end Store

namespace Program

def InScope (program : Program) (scope : Scope) (id : StmtId) : Prop :=
  ∃ block, program.scopeBody scope = .ok (some block) ∧ program.store.Below block id

namespace ReadsScope

variable {program : Program} {scope : Scope} {header : Option Header} {body : List StoredStmt}
  (reads : program.ReadsScope scope header body)
include reads

theorem told : ∀ stmt ∈ Stmt.within body, program.store.TellsStmt stmt := by
  obtain ⟨block, _, tells⟩ := reads.block
  cases block with
  | none =>
      obtain rfl : body = [] := tells
      intro stmt visited
      rw [Stmt.within_nil] at visited
      cases visited
  | some block => exact Store.TellsBody.told tells

theorem inScope_iff (id : StmtId) : program.InScope scope id ↔ id ∈ Stmt.numbers body := by
  obtain ⟨block, own, tells⟩ := reads.block
  rw [Stmt.numbers, List.mem_map]
  cases block with
  | none =>
      obtain rfl : body = [] := tells
      rw [Stmt.within_nil]
      constructor
      · rintro ⟨block, other, _⟩
        cases own.symm.trans other
      · rintro ⟨stmt, visited, _⟩
        cases visited
  | some block =>
      have tells : program.store.TellsBody block body := tells
      constructor
      · rintro ⟨other, again, below⟩
        cases own.symm.trans again
        exact tells.exists_of_below below
      · rintro ⟨stmt, visited, rfl⟩
        exact ⟨block, own, tells.below visited⟩

theorem vocabulary {names : List String} (defined : program.functionNames = .ok names) :
    program.vocabulary scope = .ok (.ofScope names header body) := by
  rw [Program.vocabulary, defined, reads.header, reads.trees]
  rfl

end ReadsScope

/-- The other program has all that the scope reaches, and the same functions. -/
structure Covers (program other : Program) (scope : Scope) : Prop where
  scopes : program.SameScopes other
  exprs : program.store.ExprsStay other.store
  shapes : ∀ (id : StmtId) entry, program.store.stmts[id]? = some entry →
    ∃ entry', other.store.stmts[id]? = some entry' ∧ entry'.shape = entry.shape
  reached : ∀ id, program.InScope scope id → other.InScope scope id

section
variable {program other : Program} {scope : Scope}

theorem Covers.sameWords (covers : program.Covers other scope)
    {header header' : Option Header} {body body' : List StoredStmt}
    (reads : program.ReadsScope scope header body) (reads' : other.ReadsScope scope header' body') :
    ∀ stmt ∈ Stmt.within body, ∃ stmt' ∈ Stmt.within body', SameWords stmt stmt' := by
  intro stmt visited
  have reached := (reads'.inScope_iff _).mp
      (covers.reached _ ((reads.inScope_iff _).mpr (Stmt.number_mem visited)))
  obtain ⟨stmt', visited', same⟩ := List.mem_map.mp reached
  exact ⟨stmt', visited', (reads.told stmt visited).sameWords
    (reads'.told stmt' visited') covers.exprs same (covers.shapes _)⟩

theorem Covers.kind_le (covers : program.Covers other scope) {header : Option Header}
    {body body' : List StoredStmt} (reads : program.ReadsScope scope header body)
    (reads' : other.ReadsScope scope header body') (names : List String) (name : String) :
    ((Vocabulary.ofScope names header body).kind name).rank ≤
      ((Vocabulary.ofScope names header body').kind name).rank :=
  Vocabulary.ofScope_kind_le (covers.sameWords reads reads') names header name

/-- The other program has the statements of the scope in other lists or another order, and the same
statements, expressions and functions. -/
structure Rearranges (program other : Program) (scope : Scope) : Prop where
  script : other.script = program.script
  outermost : other.functions = program.functions
  functions : other.store.functions = program.store.functions
  exprs : other.store.exprs = program.store.exprs
  shapes : other.store.stmts.map StmtEntry.shape = program.store.stmts.map StmtEntry.shape
  same : ∃ body body', program.scopeTrees scope = .ok body ∧ other.scopeTrees scope = .ok body' ∧
    (Stmt.numbers body').Perm (Stmt.numbers body)

theorem Rearranges.symm (rearranges : program.Rearranges other scope) :
    other.Rearranges program scope := by
  obtain ⟨body, body', read, read', same⟩ := rearranges.same
  constructor
  · exact rearranges.script.symm
  · exact rearranges.outermost.symm
  · exact rearranges.functions.symm
  · exact rearranges.exprs.symm
  · exact rearranges.shapes.symm
  · exact ⟨body', body, read', read, same.symm⟩

theorem Rearranges.sameScopes (rearranges : program.Rearranges other scope) :
    program.SameScopes other :=
  ⟨rearranges.script, rearranges.outermost, fun _ _ there => rearranges.functions ▸ there⟩

theorem Rearranges.covers (rearranges : program.Rearranges other scope)
    {header header' : Option Header} {body body' : List StoredStmt}
    (reads : program.ReadsScope scope header body) (reads' : other.ReadsScope scope header' body') :
    program.Covers other scope where
  scopes := rearranges.sameScopes
  exprs _ _ there := rearranges.exprs ▸ there
  shapes id entry there := by
    have shape : (other.store.stmts.map StmtEntry.shape)[id]? = some entry.shape := by
      rw [rearranges.shapes, Array.getElem?_map, there]
      rfl
    rw [Array.getElem?_map, Option.map_eq_some_iff] at shape
    exact shape
  reached id inside := by
    obtain ⟨_, _, read, read', same⟩ := rearranges.same
    cases reads.trees.symm.trans read
    cases reads'.trees.symm.trans read'
    rw [reads'.inScope_iff, same.mem_iff, ← reads.inScope_iff]
    exact inside

/-- The other program comes about by adding nodes, and then putting one statement into a list. -/
def Inserts (program other : Program) : Prop :=
  other.script = program.script ∧ other.functions = program.functions ∧
    ∃ (grown : Store) (block : BlockId) (index : Nat) (id : StmtId),
      program.store.Grows grown [] ∧ grown.insertStmt block index id = .ok other.store

theorem scopeBody_stays (same : program.SameScopes other)
    {block : BlockId} (own : program.scopeBody scope = .ok (some block)) :
    other.scopeBody scope = .ok (some block) := by
  cases scope with
  | script =>
      have script : program.script = some block := Except.ok.inj own
      exact congrArg Except.ok (same.script.trans script)
  | function id =>
      obtain ⟨entry, found, own⟩ := bind_eq_ok own
      have there := same.stay id entry (Store.of_found found)
      rw [scopeBody, Store.function, there]
      exact own

theorem Inserts.covers (inserts : program.Inserts other) (scope : Scope) :
    program.Covers other scope := by
  obtain ⟨script, outermost, grown, block, index, id, grows, ran⟩ := inserts
  have part := grows.partOf.trans (Store.insertStmt_partOf ran)
  have same : program.SameScopes other := ⟨script, outermost, part.functions⟩
  constructor
  · exact same
  · exact part.exprs
  · exact part.stmts
  · rintro inner ⟨own, body, below⟩
    exact ⟨own, scopeBody_stays same body, below.partOf part⟩

theorem ForestShaped.vocabularies (forest : program.ForestShaped) (forest' : other.ForestShaped)
    (known : program.HasScope scope) (same : program.SameScopes other) :
    ∃ names header body body', program.ReadsScope scope header body ∧
      other.ReadsScope scope header body' ∧
      program.vocabulary scope = .ok (.ofScope names header body) ∧
      other.vocabulary scope = .ok (.ofScope names header body') := by
  obtain ⟨names, defined⟩ := forest.reads_names
  obtain ⟨header, body, reads⟩ := forest.reads_scope known
  obtain ⟨header', body', reads'⟩ := forest'.reads_scope (known.stays same)
  obtain ⟨own, headers⟩ := known.header
  cases reads.header.symm.trans (headers program .rfl)
  cases reads'.header.symm.trans (headers other same)
  exact ⟨names, header, body, body', reads, reads', reads.vocabulary (defined program .rfl),
    reads'.vocabulary (defined other same)⟩

/-- The kinds of names in a scope do not depend on how its statements are arranged, and no kind gets
lower when a statement is put in. -/
theorem kinds_insensitive (forest : program.ForestShaped) (known : program.HasScope scope) :
    ∃ vocabulary, program.vocabulary scope = .ok vocabulary ∧
      (∀ other : Program, other.ForestShaped → program.Rearranges other scope →
        ∃ rearranged, other.vocabulary scope = .ok rearranged ∧
          ∀ name, rearranged.kind name = vocabulary.kind name) ∧
      ∀ other : Program, other.ForestShaped → program.Inserts other →
        ∃ more, other.vocabulary scope = .ok more ∧
          ∀ name, (vocabulary.kind name).rank ≤ (more.kind name).rank := by
  -- the program has the functions of its own, so its vocabulary is read as that of any other
  -- program
  obtain ⟨_, _, _, _, _, _, own, _⟩ := forest.vocabularies forest known .rfl
  refine ⟨_, own, fun other forest' rearranges => ?_, fun other forest' inserts => ?_⟩
  · obtain ⟨names, header, body, body', reads, reads', first, second⟩ :=
      forest.vocabularies forest' known rearranges.sameScopes
    refine ⟨_, second, fun name => ?_⟩
    rw [Except.ok.inj (own.symm.trans first)]
    -- each of the two has all statements of the other, so no kind is lower on either side
    apply NameKind.eq_of_rank
    apply Nat.le_antisymm
    · exact (rearranges.symm.covers reads' reads).kind_le reads' reads names name
    · exact (rearranges.covers reads reads').kind_le reads reads' names name
  · have covers := inserts.covers scope
    obtain ⟨names, header, body, body', reads, reads', first, second⟩ :=
      forest.vocabularies forest' known covers.scopes
    refine ⟨_, second, fun name => ?_⟩
    rw [Except.ok.inj (own.symm.trans first)]
    exact covers.kind_le reads reads' names name

end

theorem getElem?_append_of_some {A : Type} {table added : Array A} {id : Nat} {a : A}
    (there : table[id]? = some a) : (table ++ added)[id]? = some a := by
  rw [Array.getElem?_append_left (lt_size_of_getElem? there), there]

/-- The call `y = f(x)` beside a loop over `x` that assigns `x`. -/
def callBesideLoop : Program where
  store := {
    stmts := #[⟨.assign 0 3 true, .unplaced, some 1⟩, ⟨.whileLoop 4 0, .unplaced, some 1⟩,
        ⟨.assign 5 6 true, .unplaced, some 0⟩]
    exprs := #[.name "y", .name "f", .name "x", .param 1 [2], .name "x", .name "x", .num "1"]
    blocks := #[[2], [0, 1]]
    functions := #[] }
  script := some 1
  functions := []

def callInLoop : Program :=
  { callBesideLoop with store := { callBesideLoop.store with
      stmts := #[⟨.assign 0 3 true, .unplaced, some 0⟩, ⟨.whileLoop 4 0, .unplaced, some 1⟩,
          ⟨.assign 5 6 true, .unplaced, some 0⟩]
      blocks := #[[2, 0], [1]] } }

/-- The same store with a loop that assigns `f`, in no list yet. -/
def withLoop : Store where
  stmts := callBesideLoop.store.stmts ++
      #[⟨.assign 8 9 true, .unplaced, some 2⟩, ⟨.whileLoop 7 2, .unplaced, none⟩]
  exprs := callBesideLoop.store.exprs ++ #[.name "x", .name "f", .num "2"]
  blocks := callBesideLoop.store.blocks ++ #[[3]]
  functions := callBesideLoop.store.functions

def loopBetween : Program :=
  { callBesideLoop with store := { withLoop with
      stmts := callBesideLoop.store.stmts ++
          #[⟨.assign 8 9 true, .unplaced, some 2⟩, ⟨.whileLoop 7 2, .unplaced, some 1⟩]
      blocks := #[[2], [0, 4, 1], [3]] } }

theorem moved_call_insensitive :
    callBesideLoop.ForestShaped ∧ callInLoop.ForestShaped ∧
      callBesideLoop.Rearranges callInLoop .script ∧
      loopBetween.ForestShaped ∧ callBesideLoop.Inserts loopBetween ∧
      ∃ vocabulary rearranged more, callBesideLoop.vocabulary .script = .ok vocabulary ∧
        callInLoop.vocabulary .script = .ok rearranged ∧ loopBetween.vocabulary .script = .ok more ∧
        (∀ name, rearranged.kind name = vocabulary.kind name) ∧
        ∀ name, (vocabulary.kind name).rank ≤ (more.kind name).rank := by
  have forest : callBesideLoop.ForestShaped := by decide
  have moved : callInLoop.ForestShaped := by decide
  have grown : loopBetween.ForestShaped := by decide
  have rearranges : callBesideLoop.Rearranges callInLoop .script := by
    constructor
    · rfl
    · rfl
    · rfl
    · rfl
    · decide +kernel
    · exact ⟨_, _, rfl, rfl, by decide +kernel⟩
  have inserts : callBesideLoop.Inserts loopBetween := by
    have grows : callBesideLoop.store.Grows withLoop [] := by
      constructor
      · exact fun _ _ there => getElem?_append_of_some there
      · exact fun _ _ there => getElem?_append_of_some there
      · exact fun _ _ _ there => getElem?_append_of_some there
      · exact fun _ _ there => there
    exact ⟨rfl, rfl, withLoop, 1, 1, 4, grows, by decide +kernel⟩
  have known : callBesideLoop.HasScope .script := trivial
  obtain ⟨vocabulary, own, arranged, put⟩ := kinds_insensitive forest known
  obtain ⟨rearranged, second, same⟩ := arranged callInLoop moved rearranges
  obtain ⟨more, third, higher⟩ := put loopBetween grown inserts
  exact ⟨forest, moved, rearranges, grown, inserts, vocabulary, rearranged, more, own, second,
    third, same, higher⟩

end Program
end ScriptFlow
