import ScriptFlow.Proofs.Counter.Runs
import ScriptFlow.Proofs.Digits
import ScriptFlow.Proofs.Program.Numbered

/-!
The counters of loops. A counter's name ends in the digits of the loop's number, which no other loop
of the program has, whatever stands before the digits; the counter of a scope ends in a letter.
-/

namespace ScriptFlow

def loopIds (body : List StoredStmt) : List StmtId :=
  ((Stmt.within body).filter fun stmt => stmt.shape.isLoop).map Stmt.number

/-- The statements stand one after another in a body or in a body inside it. -/
def Stmt.Stands (part body : List StoredStmt) : Prop :=
  part <:+: body ∨ ∃ stmt ∈ Stmt.within body, ∃ inner ∈ stmt.bodies, part <:+: inner

namespace Program

open Store (Checked)

def loops (program : Program) : Checked (List (StmtId × String)) := do
  let works ← (← program.scopes).mapM fun scope =>
    return (← program.scopeName scope, ← program.scopeTrees scope)
  return works.flatMap fun (name, body) => (loopIds body).map fun id => (id, name)

/-- Every loop with its counter; the loops of all scopes are numbered from one. -/
def loopCounters (program : Program) : Checked (List (StmtId × String)) := do
  return ((← program.loops).zipIdx 1).map fun ((id, name), number) =>
    (id, Counter.ofLoop name number)

end Program

namespace Counter

theorem toList_ofLoop (scope : String) (number : Nat) :
    (ofLoop scope number).toList = (scope ++ "_loop").toList ++ '_' ::
      (toString number).toList := by
  rw [ofLoop, String.toList_append, String.toList_append, String.toList_append,
    List.append_assoc, List.append_assoc]
  rfl

theorem toList_ofScope (scope : String) :
    (ofScope scope).toList = (scope ++ "_fun").toList ++ ['c'] := by
  rw [ofScope, String.toList_append, String.toList_append, List.append_assoc]
  rfl

theorem number_of_ofLoop {scope other : String} {number number' : Nat}
    (same : ofLoop scope number = ofLoop other number') : number = number' := by
  have chars := congrArg String.toList same
  rw [toList_ofLoop, toList_ofLoop] at chars
  exact (number_of_end rfl rfl chars).1

theorem ofLoop_ne_ofScope (scope other : String) (number : Nat) :
    ofLoop scope number ≠ ofScope other := by
  intro same
  have digits := congrArg (fun name => lastDigits name.toList) same
  simp only [toList_ofLoop, toList_ofScope] at digits
  rw [lastDigits_number rfl, lastDigits_mark rfl, List.reverse_eq_nil_iff] at digits
  exact toString_some number digits

theorem nodup_ofLoop {A : Type} (scope : A → String) (loops : List A) (number : Nat) :
    ((loops.zipIdx number).map fun loop => ofLoop (scope loop.1) loop.2).Nodup := by
  have distinct : ((loops.zipIdx number).map Prod.snd).Nodup := by
    rw [List.zipIdx_map_snd]
    exact List.nodup_range' ..
  exact List.pairwise_map.mpr ((List.pairwise_map.mp distinct).imp fun apart same =>
    apart (number_of_ofLoop same))

end Counter

theorem loopIds_append (front back : List StoredStmt) :
    loopIds (front ++ back) = loopIds front ++ loopIds back := by
  rw [loopIds, Stmt.within_append, List.filter_append, List.map_append, loopIds, loopIds]

theorem loopIds_node (site : Site) (shape : StmtShape StoredExpr (List StoredStmt)) :
    loopIds [.node site shape] = (if shape.isLoop then [site.id] else []) ++
      loopIds shape.bodies.flatten := by
  rw [loopIds, Stmt.within_node, List.filter_cons, loopIds]
  cases looped : shape.isLoop with
  | false => simp [looped]
  | true => simp [looped, Stmt.number]

namespace Stmt.Stands

variable {part body front back : List StoredStmt} {site : Site}
  {shape : StmtShape StoredExpr (List StoredStmt)}

theorem self (part : List StoredStmt) : Stmt.Stands part part := .inl (List.infix_refl part)

theorem widen (stands : Stmt.Stands part body) (inside : body <:+: front) :
    Stmt.Stands part front := by
  obtain ⟨before, after, rfl⟩ := inside
  rcases stands with there | ⟨stmt, visited, inner, nested, there⟩
  · exact .inl (there.trans (List.infix_append _ _ _))
  · refine .inr ⟨stmt, ?_, inner, nested, there⟩
    rw [Stmt.within_append, Stmt.within_append]
    exact List.mem_append_left _ (List.mem_append_right _ visited)

theorem nested (stands : Stmt.Stands part body) (inside : body ∈ shape.bodies) :
    Stmt.Stands part [.node site shape] := by
  rcases stands with there | ⟨stmt, visited, inner, nested, there⟩
  · exact .inr ⟨.node site shape, Stmt.mem_within_self (List.mem_singleton_self _),
      body, inside, there⟩
  · exact .inr ⟨stmt, Stmt.mem_within_of_body inside visited, inner, nested, there⟩

end Stmt.Stands

namespace Weave

open Instrument (Context)

/-- The statements about a loop are about that counter: it is zeroed before the loop, incremented
first in its body and displayed behind it. Only increments of the scope's counter come between. -/
structure WovenLoop.CountedBy (loop : WovenLoop) (stmts : StmtId) (exprs : ExprId)
    (scopeCounter counter : String) : Prop where
  body : loop.shape.loopBody? = some (loop.increment :: loop.inner)
  reset : Added stmts exprs (zeroing counter) loop.reset
  increment : Added stmts exprs (adding counter) loop.increment
  display : Added stmts exprs (showing counter) loop.display
  charges : ∀ charge ∈ loop.charges, Added stmts exprs (adding scopeCounter) charge

/-- The loop of that number stands in the body and is counted by the counter. -/
def CountsLoop (stmts : StmtId) (exprs : ExprId) (scopeCounter : String) (body : List StoredStmt)
    (id : StmtId) (counter : String) : Prop :=
  ∃ loop : WovenLoop, loop.site.id = id ∧ Stmt.Stands loop.stmts body ∧
    loop.CountedBy stmts exprs scopeCounter counter

section
variable {stmts : StmtId} {exprs : ExprId} {context : Context} {number next last : Nat}
  {body new : List StoredStmt}

theorem CountsLoop.widen {scopeCounter counter : String} {id : StmtId} {whole : List StoredStmt}
    (counts : CountsLoop stmts exprs scopeCounter body id counter) (inside : body <:+: whole) :
    CountsLoop stmts exprs scopeCounter whole id counter := by
  obtain ⟨loop, same, stands, counted⟩ := counts
  exact ⟨loop, same, stands.widen inside, counted⟩

/-- The loops of a body are numbered on from a number, and each is counted by the counter of its
number. -/
structure Numbered (stmts : StmtId) (exprs : ExprId) (context : Context) (number : Nat)
    (body new : List StoredStmt) (next : Nat) : Prop where
  next : next = number + (loopIds body).length
  counts : ∀ loop ∈ (loopIds body).zipIdx number,
    CountsLoop stmts exprs context.counter new loop.1 (Counter.ofLoop context.name loop.2)

namespace Numbered

theorem nil : Numbered stmts exprs context number [] [] number := by
  have none : loopIds [] = [] := by rw [loopIds, Stmt.within_nil, List.filter_nil, List.map_nil]
  refine ⟨by rw [none, List.length_nil, Nat.add_zero], fun loop member => ?_⟩
  rw [none] at member
  exact absurd member List.not_mem_nil

theorem inside {whole : List StoredStmt}
    (numbered : Numbered stmts exprs context number body new next) (inside : new <:+: whole) :
    Numbered stmts exprs context number body whole next :=
  ⟨numbered.next, fun loop member => (numbered.counts loop member).widen inside⟩

theorem append {others newOthers : List StoredStmt}
    (first : Numbered stmts exprs context number body new next)
    (second : Numbered stmts exprs context next others newOthers last) :
    Numbered stmts exprs context number (body ++ others) (new ++ newOthers) last := by
  refine ⟨?_, fun loop member => ?_⟩
  · rw [second.next, first.next, loopIds_append, List.length_append, Nat.add_assoc]
  · rw [loopIds_append, List.zipIdx_append, ← first.next, List.mem_append] at member
    rcases member with early | late
    · exact (first.counts loop early).widen (List.prefix_append _ _).isInfix
    · exact (second.counts loop late).widen (List.suffix_append _ _).isInfix

theorem bodies {rows news : List (List StoredStmt)}
    (threaded : Threaded (Numbered stmts exprs context) number rows news next) :
    next = number + (loopIds rows.flatten).length ∧
      ∀ loop ∈ (loopIds rows.flatten).zipIdx number, ∃ new ∈ news,
        CountsLoop stmts exprs context.counter new loop.1 (Counter.ofLoop context.name loop.2) := by
  induction threaded with
  | nil state =>
    exact ⟨(@nil stmts exprs context state).next, fun loop member =>
      absurd member (by simp [loopIds])⟩
  | cons head _ ih =>
      rw [List.flatten_cons, loopIds_append, List.length_append, List.zipIdx_append, ← head.next]
      refine ⟨by rw [ih.1, head.next, Nat.add_assoc], fun loop member => ?_⟩
      rcases List.mem_append.mp member with early | late
      · exact ⟨_, List.mem_cons_self, head.counts loop early⟩
      · obtain ⟨new, inside, counts⟩ := ih.2 loop late
        exact ⟨new, List.mem_cons_of_mem _ inside, counts⟩

theorem kept {site : Site} {shape shape' : StmtShape StoredExpr (List StoredStmt)}
    (still : shape.isLoop = false)
    (threaded : Threaded (Numbered stmts exprs context) number shape.bodies shape'.bodies next) :
    Numbered stmts exprs context number [.node site shape] [.node site shape'] next := by
  obtain ⟨ends, counts⟩ := bodies threaded
  have same : loopIds [.node site shape] = loopIds shape.bodies.flatten := by
    rw [loopIds_node, still]
    rfl
  refine ⟨same ▸ ends, fun loop member => ?_⟩
  rw [same] at member
  obtain ⟨new, inside, found, number, stands, counted⟩ := counts loop member
  exact ⟨found, number, stands.nested inside, counted⟩

theorem rounds {loop : WovenLoop} {shape : StmtShape StoredExpr (List StoredStmt)}
    {inner : List StoredStmt} (woven : loop.Of stmts exprs context number shape inner)
    (body : Numbered stmts exprs context (number + 1) inner loop.inner next) :
    Numbered stmts exprs context number [.node loop.site shape] loop.stmts next := by
  have ids : loopIds [.node loop.site shape] = loop.site.id :: loopIds inner := by
    rw [loopIds_node, woven.rounds, woven.single, List.flatten_singleton]
    rfl
  have looped : loop.shape.loopBody? = some (loop.increment :: loop.inner) :=
    StmtShape.body_of_bodies woven.isLoop woven.split
  refine ⟨?_, fun counted member => ?_⟩
  · rw [ids, List.length_cons, body.next]
    omega
  · rw [ids, List.zipIdx_cons] at member
    rcases List.mem_cons.mp member with rfl | later
    · exact ⟨loop, rfl, .self _, looped, woven.reset, woven.increment, woven.display, woven.charges⟩
    · obtain ⟨found, same, stands, counts⟩ := body.counts counted later
      refine ⟨found, same, ?_, counts⟩
      -- a loop in the body stands in the list after the increment
      have below : Stmt.Stands found.stmts (loop.increment :: loop.inner) :=
        stands.widen (List.suffix_cons _ _).isInfix
      have around : Stmt.Stands found.stmts [.node loop.site loop.shape] :=
        below.nested (by rw [woven.split]; exact List.mem_singleton_self _)
      refine around.widen ?_
      exact ⟨loop.reset :: loop.charges, [loop.display], by rw [WovenLoop.stmts]; simp⟩

theorem placed : Placed stmts exprs context (Numbered stmts exprs context) where
  nil := nil
  charge _ holds := holds.inside (List.suffix_cons _ _).isInfix
  leave _ _ holds := ((kept rfl (.nil _)).inside (List.suffix_cons _ _).isInfix).append holds
  loop woven inner holds := (rounds woven inner).append holds
  keep _ still _ _ bodies holds := (kept still bodies).append holds

end Numbered

theorem scope_numbered
    (traced : new.map (Stmt.traced stmts exprs) = ((Weave.scope context body).run number).1) :
    Numbered stmts exprs context number body new ((Weave.scope context body).run number).2 := by
  obtain ⟨reset, inner, display, rfl, _, _, numbered⟩ := Numbered.placed.scope traced
  exact numbered.inside ⟨[reset], [display], rfl⟩

end

/-- One scope after another: every loop of a scope is counted in it by a counter of the scope's
name. -/
theorem regions_numbered {stmts : StmtId} {exprs : ExprId} {context : Region → Context}
    {final : Region → List StoredStmt} (regions : List Region) (number : Nat)
    (names : ∀ region ∈ regions, (context region).name = region.name)
    (woven : ((regions.mapM fun region => Weave.scope (context region) region.body.2).run
      number).1 = regions.map fun region => (final region).map (Stmt.traced stmts exprs)) :
    ∀ loop ∈ (regions.flatMap fun region => (loopIds region.body.2).map fun id =>
      (id, region.name)).zipIdx number,
      ∃ region ∈ regions, CountsLoop stmts exprs (Counter.ofScope region.name)
        (final region) loop.1.1
        (Counter.ofLoop loop.1.2 loop.2) := by
  induction regions generalizing number with
  | nil => exact fun loop member => absurd member List.not_mem_nil
  | cons region rest ih =>
      rw [List.mapM_cons, List.map_cons] at woven
      obtain ⟨here, later⟩ := List.cons.inj woven
      obtain ⟨next, counts⟩ := scope_numbered here.symm
      rw [Context.counter, names region List.mem_cons_self] at counts
      intro loop member
      rw [List.flatMap_cons, List.zipIdx_append, List.length_map, ← next, List.zipIdx_map,
        List.mem_append] at member
      rcases member with own | others
      · obtain ⟨⟨id, number⟩, inside, rfl⟩ := List.mem_map.mp own
        exact ⟨region, List.mem_cons_self, counts _ inside⟩
      · obtain ⟨other, behind, counted⟩ :=
          ih _ (fun other behind => names other (List.mem_cons_of_mem _ behind)) later loop others
        exact ⟨other, List.mem_cons_of_mem _ behind, counted⟩

end Weave

theorem Store.KeepsStmt.isLoop {store : Store} {stmt : StoredStmt} (kept : store.KeepsStmt stmt) :
    ∃ entry, store.stmts[stmt.number]? = some entry ∧ entry.shape.isLoop = stmt.shape.isLoop := by
  obtain ⟨entry, there, _, matched⟩ := kept
  refine ⟨entry, there, ?_⟩
  generalize entry.shape = own, stmt.shape = shape at matched
  cases matched <;> rfl

namespace Program

variable {program : Program} {layout : Layout}

theorem Holds.loops (holds : program.Holds layout) :
    program.loops = .ok (layout.regions.flatMap fun region => (loopIds region.body.2).map fun id =>
      (id, region.name)) := by
  have works : (layout.regions.map Region.scope).mapM (fun scope =>
      return (← program.scopeName scope, ← program.scopeTrees scope)) =
      (.ok (layout.regions.map fun region => (region.name, region.body.2)) : Store.Checked _) := by
    apply mapM_map_ok
    intro region member
    rw [holds.scopeName member, holds.scopeTrees member]
    rfl
  rw [Program.loops, holds.scopes, ok_bind, works, ok_bind, List.flatMap_map]
  rfl

theorem loops_fst (regions : List Region) :
    (regions.flatMap fun region => (loopIds region.body.2).map fun id => (id, region.name)).map
      Prod.fst = regions.flatMap fun region => loopIds region.body.2 := by
  rw [List.map_flatMap]
  exact List.flatMap_congr fun region _ => by rw [List.map_map]; exact List.map_id _

/-- The loops of the scopes are the loops of the store, each once. -/
theorem Holds.loopIds_nodup (holds : program.Holds layout) :
    (layout.regions.flatMap fun region => loopIds region.body.2).Nodup := by
  have distinct := holds.store.stmts.nodup
  rw [← Layout.regions_bodies, stmtsOf, List.flatMap_map] at distinct
  obtain ⟨each, apart⟩ := List.nodup_flatMap.mp distinct
  have inside (region : Region) : (loopIds region.body.2).Sublist (Stmt.numbers region.body.2) :=
    List.filter_sublist.map Stmt.number
  refine List.nodup_flatMap.mpr
    ⟨fun region member => (each region member).sublist (inside region), apart.imp ?_⟩
  exact fun disjoint id first second =>
    disjoint ((inside _).subset first) ((inside _).subset second)

theorem Holds.mem_loopIds (holds : program.Holds layout) (id : StmtId) :
    id ∈ (layout.regions.flatMap fun region => loopIds region.body.2) ↔
      ∃ entry, program.store.stmts[id]? = some entry ∧ entry.shape.isLoop = true := by
  constructor
  · intro member
    obtain ⟨region, inside, loop⟩ := List.mem_flatMap.mp member
    obtain ⟨stmt, found, rfl⟩ := List.mem_map.mp loop
    obtain ⟨visited, rounds⟩ := List.mem_filter.mp found
    obtain ⟨entry, there, same⟩ := (holds.region_keeps inside stmt visited).isLoop
    exact ⟨entry, there, same.trans rounds⟩
  · rintro ⟨entry, there, rounds⟩
    obtain ⟨region, inside, stmt, visited, rfl, kept⟩ := holds.stmt_of_entry there
    obtain ⟨entry', there', same⟩ := kept.isLoop
    cases there.symm.trans there'
    refine List.mem_flatMap.mpr
      ⟨region, inside, List.mem_map_of_mem (List.mem_filter.mpr ⟨visited, ?_⟩)⟩
    exact same.symm.trans rounds

/-- Every loop of the program has a counter of its own, which is no counter of a scope, whatever the
scopes are called; and an instrumentation counts the loop by it. -/
theorem loop_counters_apart {source : List Char} {program : Program}
    (parsed : parse source = .ok program) (classify : Bool) :
    ∃ (result : Program) (tally : Tally) (scopes : List Scope) (counters : List (StmtId × String)),
      program.instrument classify = .ok (result, tally) ∧ program.scopes = .ok scopes ∧
      program.loopCounters = .ok counters ∧
      (∀ id, id ∈ counters.map Prod.fst ↔
        ∃ entry, program.store.stmts[id]? = some entry ∧ entry.shape.isLoop = true) ∧
      (counters.map Prod.fst).Nodup ∧ (counters.map Prod.snd).Nodup ∧
      (∀ counter ∈ counters.map Prod.snd, ∀ name, counter ≠ Counter.ofScope name) ∧
      ∀ loop ∈ counters, ∃ scope ∈ scopes, ∃ (name : String) (after : List StoredStmt),
        program.scopeName scope = .ok name ∧ result.scopeTrees scope = .ok after ∧
        Weave.CountsLoop program.store.stmts.size program.store.exprs.size
          (Counter.ofScope name) after loop.1 loop.2 := by
  obtain ⟨layout, holds⟩ := parse_holds parsed
  obtain ⟨final, result, tally, ran, held, woven⟩ := holds.instrument classify
  have named : program.loopCounters = .ok (((layout.regions.flatMap fun region =>
      (loopIds region.body.2).map fun id => (id, region.name)).zipIdx 1).map
        fun loop => (loop.1.1, Counter.ofLoop loop.1.2 loop.2)) := by
    rw [loopCounters, holds.loops]
    rfl
  -- Numbering the loops leaves their statements and the order of these as they are.
  have ids (loops : List (StmtId × String)) :
      ((loops.zipIdx 1).map fun loop => (loop.1.1, Counter.ofLoop loop.1.2 loop.2)).map Prod.fst =
      loops.map Prod.fst := by
    conv_rhs => rw [← List.zipIdx_map_fst 1 loops, List.map_map]
    rw [List.map_map]
    rfl
  refine ⟨result, tally, _, _, ran, holds.scopes, named, ?_, ?_, ?_, ?_, ?_⟩
  · rw [ids, loops_fst]
    exact holds.mem_loopIds
  · rw [ids, loops_fst]
    exact holds.loopIds_nodup
  · rw [List.map_map]
    exact Counter.nodup_ofLoop Prod.snd _ 1
  · intro counter member name
    rw [List.map_map] at member
    obtain ⟨loop, _, rfl⟩ := List.mem_map.mp member
    exact Counter.ofLoop_ne_ofScope _ _ _
  · intro loop member
    obtain ⟨numbered, inside, rfl⟩ := List.mem_map.mp member
    -- The number of a loop among all loops is the one the walk had reached when it came to it.
    obtain ⟨region, among, counts⟩ :=
      Weave.regions_numbered layout.regions 1 (fun _ _ => rfl) woven numbered inside
    have inResult : region.rebody final ∈ (layout.rebody final).regions := by
      rw [Layout.regions_rebody]
      exact List.mem_map_of_mem among
    exact ⟨region.scope, List.mem_map_of_mem among, region.name, final region,
      holds.scopeName among, held.scopeTrees inResult, counts⟩

theorem named_like_counters_loop_counters_apart :
    ∃ program, parse
        "while f\nend\nfunction f_func\nend\nfunction f_loop_1\nfor i = 1:3\n for j = 1:i\n end\nend\nend\n".toList =
          .ok program ∧
      ∃ (result : Program) (tally : Tally) (scopes : List Scope)
        (counters : List (StmtId × String)),
        program.instrument true = .ok (result, tally) ∧ program.scopes = .ok scopes ∧
        program.loopCounters = .ok counters ∧
        (∀ id, id ∈ counters.map Prod.fst ↔
          ∃ entry, program.store.stmts[id]? = some entry ∧ entry.shape.isLoop = true) ∧
        (counters.map Prod.fst).Nodup ∧ (counters.map Prod.snd).Nodup ∧
        (∀ counter ∈ counters.map Prod.snd, ∀ name, counter ≠ Counter.ofScope name) ∧
        ∀ loop ∈ counters, ∃ scope ∈ scopes, ∃ (name : String) (after : List StoredStmt),
          program.scopeName scope = .ok name ∧ result.scopeTrees scope = .ok after ∧
          Weave.CountsLoop program.store.stmts.size program.store.exprs.size
            (Counter.ofScope name) after loop.1 loop.2 := by
  obtain ⟨program, parsed⟩ := exists_ok (by decide +kernel : (parse
    "while f\nend\nfunction f_func\nend\nfunction f_loop_1\nfor i = 1:3\n for j = 1:i\n end\nend\nend\n".toList).toOption.isSome)
  exact ⟨program, parsed, loop_counters_apart parsed true⟩

end Program
end ScriptFlow
