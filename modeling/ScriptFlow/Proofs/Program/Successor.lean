import Mathlib.Data.List.Pairwise
import ScriptFlow.Proofs.Program.Views

/-!
What comes behind a statement: the next one of its list, and behind the last one the statement that
the list is a body of. Behind the last statement of a scope comes nothing. From any statement of a
scope the successors form a chain that ends.
-/

namespace ScriptFlow

namespace Store

variable (store : Store)

/-- The statement that a list is a body of. -/
def owner? (block : BlockId) : Option StmtId :=
  (List.range store.stmts.size).find? fun owner => (store.bodiesOf owner).contains block

def successor? (id : StmtId) : Option StmtId := do
  let block ← (← store.stmts[id]?).parent
  let list ← store.blocks[block]?
  match list[list.idxOf id + 1]? with
  | some next => return next
  | none => store.owner? block

/-- The statements met by following successors from a first one until there is none. -/
inductive Chain : Option StmtId → List StoredStmt → Prop where
  | done : Chain none []
  | step {stmt : StoredStmt} {rest : List StoredStmt}
      (next : Chain (store.successor? stmt.number) rest) : Chain (some stmt.number) (stmt :: rest)

end Store

/-- A statement within a body, and what follows it when the body is followed by `rest`. -/
inductive Follows : List StoredStmt → List StoredStmt → StoredStmt → List StoredStmt → Prop where
  | here (front : List StoredStmt) (stmt : StoredStmt) (back rest : List StoredStmt) :
      Follows (front ++ stmt :: back) rest stmt (back ++ rest)
  | within {inner : List StoredStmt} {stmt : StoredStmt}
      {chain : List StoredStmt} (front : List StoredStmt) (outer : StoredStmt)
      (back rest : List StoredStmt) (body : inner ∈ outer.shape.bodies)
      (later : Follows inner (outer :: (back ++ rest)) stmt chain) :
      Follows (front ++ outer :: back) rest stmt chain

theorem Follows.cons {body rest chain : List StoredStmt} {stmt : StoredStmt}
    (follows : Follows body rest stmt chain) (first : StoredStmt) :
    Follows (first :: body) rest stmt chain := by
  cases follows with
  | here front stmt back rest => exact .here (first :: front) stmt back rest
  | within front outer back rest body later =>
    exact .within (first :: front) outer back rest body later

theorem Follows.chain_within {body rest chain scope : List StoredStmt}
    {stmt : StoredStmt} (follows : Follows body rest stmt chain)
    (inside : ∀ inner ∈ Stmt.within body, inner ∈ Stmt.within scope)
    (others : ∀ inner ∈ rest, inner ∈ Stmt.within scope) :
    ∀ inner ∈ chain, inner ∈ Stmt.within scope := by
  induction follows with
  | here front stmt back rest =>
      intro inner member
      rcases List.mem_append.mp member with own | later
      · refine inside inner (Stmt.mem_within_self ?_)
        exact List.mem_append_right _ (List.mem_cons_of_mem _ own)
      · exact others inner later
  | within front outer back rest body _ ih =>
      have own : outer ∈ Stmt.within (front ++ outer :: back) :=
        Stmt.mem_within_self (List.mem_append_right _ List.mem_cons_self)
      refine ih (fun inner visited => inside inner (Stmt.mem_within_trans own ?_))
        fun inner member => ?_
      · rw [Stmt.nested, Stmt.bodies, Stmt.within_flatten]
        exact List.mem_flatMap.mpr ⟨_, body, visited⟩
      · rcases List.mem_cons.mp member with rfl | member
        · exact inside _ own
        rcases List.mem_append.mp member with later | after
        · exact inside inner
            (Stmt.mem_within_self (List.mem_append_right _ (List.mem_cons_of_mem _ later)))
        · exact others inner after

namespace Store

variable {store : Store}

theorem successor?_of_lists {block : BlockId} {front back : List StoredStmt}
    {stmt : StoredStmt} (listed : store.Lists block (front ++ stmt :: back))
    (distinct : ((front ++ stmt :: back).map Stmt.number).Nodup) :
    store.successor? stmt.number = match back with
      | [] => store.owner? block
      | next :: _ => some next.number := by
  obtain ⟨entry, there, parent⟩ := listed.2 stmt (List.mem_append_right _ List.mem_cons_self)
  have first : stmt.number ∉ front.map Stmt.number := by
    rw [List.map_append, List.map_cons] at distinct
    intro member
    exact (List.nodup_append.mp distinct).2.2 _ member _ List.mem_cons_self rfl
  have place : ((front ++ stmt :: back).map Stmt.number).idxOf stmt.number = front.length := by
    rw [List.map_append, List.map_cons, List.idxOf_append_of_notMem first, List.idxOf_cons_self,
      List.length_map, Nat.add_zero]
  have next : ((front ++ stmt :: back).map Stmt.number)[front.length + 1]? =
      (back.map Stmt.number)[0]? := by
    rw [List.map_append, List.map_cons, List.getElem?_append_right (by simp)]
    simp
  simp only [successor?, there, parent, listed.1, Option.bind_eq_bind,
    Option.bind_some, place, next]
  cases back <;> rfl

theorem Chain.body {block : BlockId} {body rest : List StoredStmt} (listed : store.Lists block body)
    (distinct : (body.map Stmt.number).Nodup) (after : store.Chain (store.owner? block) rest)
    {front back : List StoredStmt} {stmt : StoredStmt} (split : body = front ++ stmt :: back) :
    store.Chain (store.successor? stmt.number) (back ++ rest) := by
  subst split
  induction back generalizing front stmt with
  | nil =>
      rw [successor?_of_lists listed distinct]
      exact after
  | cons next others ih =>
      have same : front ++ stmt :: next :: others = (front ++ [stmt]) ++ next :: others := by
        rw [List.append_assoc, List.singleton_append]
      have later := @ih (front ++ [stmt]) next
      rw [← same] at later
      rw [successor?_of_lists listed distinct]
      exact .step (later listed distinct)

def OwnsBodies (store : Store) : Prop :=
  ∀ (id : StmtId) (block : BlockId), block ∈ store.bodiesOf id → store.owner? block = some id

theorem Keeps.body {stmt : StoredStmt} {body inner : List StoredStmt}
    (kept : store.Keeps body) (member : stmt ∈ body) (below : inner ∈ stmt.shape.bodies) :
    ∃ block ∈ store.bodiesOf stmt.number, store.Lists block inner := by
  obtain ⟨site, shape⟩ := stmt
  exact exists_left_of_forall₂ (kept.of_mem member).lists below

/-- What follows a statement within a body is the chain of its successors. -/
theorem Chain.of_follows (owns : store.OwnsBodies) {body rest chain : List StoredStmt}
    {stmt : StoredStmt} (follows : Follows body rest stmt chain)
    {block : BlockId} (listed : store.Lists block body) (kept : store.Keeps body)
    (distinct : (Stmt.numbers body).Nodup) (after : store.Chain (store.owner? block) rest) :
    store.Chain (store.successor? stmt.number) chain := by
  -- Distinct numbers all through the body are distinct on its list.
  have roots {body : List StoredStmt} (distinct : (Stmt.numbers body).Nodup) :
      (body.map Stmt.number).Nodup := by
    induction body with
    | nil => exact .nil
    | cons first rest ih =>
        rw [Stmt.numbers_cons] at distinct
        obtain ⟨fresh, others⟩ := List.nodup_cons.mp distinct
        refine List.nodup_cons.mpr ⟨fun member => fresh ?_, ih (List.nodup_append.mp others).2.1⟩
        obtain ⟨stmt, inside, same⟩ := List.mem_map.mp member
        exact List.mem_append_right _ (same ▸ Stmt.number_mem_of_mem inside)
  -- By induction on the way down to the statement: each body is followed by what follows its owner.
  induction follows generalizing block with
  | here front stmt back rest => exact Chain.body listed (roots distinct) after rfl
  | within front outer back rest body later ih =>
      have member : outer ∈ front ++ outer :: back := List.mem_append_right _ List.mem_cons_self
      obtain ⟨inner, inside, innerListed⟩ := kept.body member body
      refine ih innerListed (kept.inner (Stmt.mem_within_self member) body) ?_ ?_
      · rw [Stmt.numbers_flatMap] at distinct
        have own := (List.nodup_flatMap.mp distinct).1 outer member
        obtain ⟨site, shape⟩ := outer
        rw [Stmt.numbers_node, Stmt.numbers, Stmt.within_flatten, List.map_flatMap] at own
        exact (List.nodup_flatMap.mp (List.nodup_cons.mp own).2).1 _ body
      · rw [owns outer.number inner inside]
        exact .step (Chain.body listed (roots distinct) after rfl)

namespace Holds

variable {layout : Layout}

theorem lists_perm (store : Store) (bodies : List NumberedBody) : (store.listsOf bodies).Perm
      ((stmtsOf bodies).flatMap store.bodiesOf ++ bodies.map Prod.fst) := by
  induction bodies with
  | nil => exact .nil
  | cons body rest ih =>
      have own : store.blockNumbers body.2 = (Stmt.numbers body.2).flatMap store.bodiesOf := by
        rw [blockNumbers, Stmt.numbers, List.flatMap_map]
      rw [listsOf_cons, own, stmtsOf, List.flatMap_cons, ← stmtsOf,
        List.flatMap_append, List.map_cons]
      refine (ih.append_left _).trans ?_
      simp only [List.append_assoc]
      refine .append_left _ ?_
      exact List.perm_append_comm_assoc _ _ _

theorem lists_nodup (holds : store.Holds layout) :
    ((List.range store.stmts.size).flatMap store.bodiesOf ++ layout.bodies.map Prod.fst).Nodup := by
  have stmts : (stmtsOf layout.bodies).Perm (List.range store.stmts.size) := by
    have filled := holds.stmts
    rwa [Fills, List.range_zero, List.nil_append] at filled
  have all := (lists_perm store layout.bodies).trans ((stmts.flatMap_right _).append_right _)
  exact all.nodup_iff.mp holds.blocks.nodup

theorem lt_of_bodiesOf {id : StmtId} {block : BlockId} (inside : block ∈ store.bodiesOf id) :
    id < store.stmts.size := by
  cases there : store.stmts[id]? with
  | none =>
      rw [bodiesOf, there] at inside
      cases inside
  | some entry => exact lt_size_of_getElem? there

theorem ownsBodies (holds : store.Holds layout) : store.OwnsBodies := by
  intro id block inside
  have distinct := (List.nodup_flatMap.mp (List.nodup_append.mp holds.lists_nodup).1).2
  have mine : id ∈ List.range store.stmts.size := List.mem_range.mpr (lt_of_bodiesOf inside)
  cases found : store.owner? block with
  | none =>
      have absent := List.find?_eq_none.mp found id mine
      exact absurd (List.contains_iff_mem.mpr inside) absent
  | some owner =>
      have theirs := List.mem_of_find?_eq_some found
      have contained :=
        List.find?_some (p := fun owner => (store.bodiesOf owner).contains block) found
      have holder : block ∈ store.bodiesOf owner := List.contains_iff_mem.mp contained
      have symmetric : Std.Symm (Function.onFun List.Disjoint store.bodiesOf) :=
        ⟨fun _ _ apart _ inside other => apart other inside⟩
      by_cases same : owner = id
      · rw [same]
      · exact (distinct.forall theirs mine same holder inside).elim

theorem owner_none (holds : store.Holds layout) {body : NumberedBody}
    (member : body ∈ layout.bodies) : store.owner? body.1 = none := by
  refine List.find?_eq_none.mpr fun owner inside holder => ?_
  refine (List.nodup_append.mp holds.lists_nodup).2.2 body.1 ?_ body.1
    (List.mem_map_of_mem member) rfl
  exact List.mem_flatMap.mpr ⟨owner, inside, List.contains_iff_mem.mp holder⟩

/-- What follows a statement within a scope is the chain of its successors. -/
theorem chain (holds : store.Holds layout) {body : NumberedBody} (member : body ∈ layout.bodies)
    {stmt : StoredStmt} {chain : List StoredStmt} (follows : Follows body.2 [] stmt chain) :
    store.Chain (store.successor? stmt.number) chain := by
  obtain ⟨listed, kept⟩ := holds.body member
  refine Chain.of_follows holds.ownsBodies follows listed kept (holds.numbers_nodup member) ?_
  rw [holds.owner_none member]
  exact .done

end Holds

end Store
end ScriptFlow
