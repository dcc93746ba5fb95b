import Std.Data.String.ToNat
import ScriptFlow.Proofs.Counter.Interleave
import ScriptFlow.Proofs.Counter.Repeated

/-!
The names of counters. They are made from the scope's name and the number of the loop alone, so they
are all different, but nothing keeps them apart from the names that the program uses.
-/

namespace ScriptFlow

variable {Label Mark : Type}

def Stmt.mentions (stmt : Stmt Label (Expr Mark)) : List String :=
  stmt.names ++ stmt.shape.loopVar?.toList ++ stmt.shape.shared

def loopsIn (body : List StoredStmt) : Nat :=
  (Stmt.within body).countP fun stmt => stmt.shape.isLoop

/-- The counters of scopes with their names and statements; the loops are numbered from a number
on. -/
def countersFrom : Nat → List (String × List StoredStmt) → List (List String)
  | _, [] => []
  | number, (scope, body) :: rest =>
      (Counter.ofScope scope :: (List.range' number (loopsIn body)).map (Counter.ofLoop scope)) ::
        countersFrom (number + loopsIn body) rest

namespace Program

open Store (Checked)

variable (program : Program)

def namesIn (scope : Scope) : Checked (List String) := do
  let parameters := (← program.header? scope).map fun header => header.inputs ++ header.outputs
  return parameters.getD [] ++ (Stmt.within (← program.scopeTrees scope)).flatMap Stmt.mentions

def counters : Checked (List (List String)) := do
  let works ← (← program.scopes).mapM fun scope =>
    return (← program.scopeName scope, ← program.scopeTrees scope)
  return countersFrom 1 works

/-- The statements of a scope that the program did not have before. -/
def addedTo (result : Program) (scope : Scope) : Checked (List StoredStmt) := do
  return (Stmt.within (← result.scopeTrees scope)).filter fun stmt =>
    program.store.stmts.size ≤ stmt.number

/-- What an instrumentation assigns in a scope although the scope mentions it or a function has that
name. -/
def clashes (classify : Bool) (scope : Scope) : Checked (List String) := do
  let result ← program.instrument classify
  let used ← program.namesIn scope
  let defined ← program.functionNames
  return ((← program.addedTo result.1 scope).flatMap Stmt.binds).filter (· ∈ used ++ defined)

end Program

namespace Counter

theorem ofLoop_inj {scope : String} {number other : Nat}
    (same : ofLoop scope number = ofLoop scope other) : number = other :=
  Nat.repr_injective (String.append_right_inj _ |>.mp same)

theorem ofScope_ne_ofLoop (scope : String) (number : Nat) :
    ofScope scope ≠ ofLoop scope number := by
  intro same
  rw [ofScope, ofLoop, String.append_assoc, String.append_right_inj] at same
  have chars := congrArg String.toList same
  rw [String.toList_append] at chars
  exact absurd (List.cons.inj (List.cons.inj chars).2).1 (by decide)

theorem nodup (scope : String) (number count : Nat) :
    (ofScope scope :: (List.range' number count).map (ofLoop scope)).Nodup := by
  refine List.nodup_cons.mpr
    ⟨fun member => ?_, List.Nodup.map (fun _ _ => ofLoop_inj) (List.nodup_range' ..)⟩
  obtain ⟨loop, _, same⟩ := List.mem_map.mp member
  exact ofScope_ne_ofLoop scope loop same.symm

end Counter

/-- The statement says what a statement about the counter says. -/
def StmtShape.IsCounterOf (counter : String)
    (own : StmtShape ParsedExpr (List ParsedStmt)) : Prop :=
  own = (Weave.zeroing counter).shape.own ∨ own = (Weave.adding counter).shape.own ∨
    own = (Weave.showing counter).shape.own

namespace Weave

open Instrument (Context)

variable {stmts : StmtId} {exprs : ExprId} {context : Context} {number next last : Nat}
  {body new : List StoredStmt}

def IsCounterName (context : Context) (number next : Nat) (counter : String) : Prop :=
  counter = context.counter ∨ ∃ loop, number ≤ loop ∧ loop < next ∧
    counter = Counter.ofLoop context.name loop

theorem IsCounterName.mono {counter : String} {number' next' : Nat}
    (named : IsCounterName context number next counter) (first : number' ≤ number)
    (last : next ≤ next') : IsCounterName context number' next' counter := by
  rcases named with rfl | ⟨loop, low, high, rfl⟩
  · exact .inl rfl
  · exact .inr ⟨loop, Nat.le_trans first low, Nat.lt_of_lt_of_le high last, rfl⟩

/-- What was put into a body is about its counters, and every loop's counter is zeroed. -/
structure Named (stmts : StmtId) (context : Context) (number : Nat) (body new : List StoredStmt)
    (next : Nat) : Prop where
  numbered : next = number + loopsIn body
  counters : ∀ stmt ∈ Stmt.within new, stmts ≤ stmt.number →
    ∃ counter, IsCounterName context number next counter ∧ stmt.shape.own.IsCounterOf counter
  resets : ∀ loop, number ≤ loop → loop < next → ∃ stmt ∈ Stmt.within new, stmts ≤ stmt.number ∧
    stmt.shape.own = (zeroing (Counter.ofLoop context.name loop)).shape.own

namespace Named

theorem nil : Named stmts context number [] [] number := by
  refine ⟨?_, fun stmt member => ?_, fun loop low high => absurd high (Nat.not_lt.mpr low)⟩
  · rw [loopsIn, Stmt.within_nil, List.countP_nil, Nat.add_zero]
  · rw [Stmt.within_nil] at member
    exact absurd member List.not_mem_nil

theorem append {others newOthers : List StoredStmt}
    (first : Named stmts context number body new next)
    (second : Named stmts context next others newOthers last) :
    Named stmts context number (body ++ others) (new ++ newOthers) last := by
  have low : number ≤ next := first.numbered ▸ Nat.le_add_right ..
  have high : next ≤ last := second.numbered ▸ Nat.le_add_right ..
  refine ⟨?_, fun stmt member late => ?_, fun loop above below => ?_⟩
  · rw [loopsIn, Stmt.within_append, List.countP_append, second.numbered, first.numbered, loopsIn,
      loopsIn, Nat.add_assoc]
  · rw [Stmt.within_append] at member
    rcases List.mem_append.mp member with early | later
    · obtain ⟨counter, named, about⟩ := first.counters stmt early late
      exact ⟨counter, named.mono (Nat.le_refl _) high, about⟩
    · obtain ⟨counter, named, about⟩ := second.counters stmt later late
      exact ⟨counter, named.mono low (Nat.le_refl _), about⟩
  · rw [Stmt.within_append]
    rcases Nat.lt_or_ge loop next with early | later
    · obtain ⟨stmt, member, rest⟩ := first.resets loop above early
      exact ⟨stmt, List.mem_append_left _ member, rest⟩
    · obtain ⟨stmt, member, rest⟩ := second.resets loop later below
      exact ⟨stmt, List.mem_append_right _ member, rest⟩

theorem flatten {bodies news : List (List StoredStmt)}
    (threaded : Threaded (Named stmts context) number bodies news next) :
    Named stmts context number bodies.flatten news.flatten next := by
  induction threaded with
  | nil => exact nil
  | cons head _ ih => exact head.append ih

theorem added {stmt : StoredStmt} {counter : String} (named : counter = context.counter)
    (late : stmts ≤ stmt.number) (leaf : stmt.nested = [])
    (about : stmt.shape.own.IsCounterOf counter) : Named stmts context number [] [stmt] number := by
  have bare : Named stmts context number [] [] number := nil
  refine ⟨bare.numbered, fun inner member _ => ?_, fun loop low high =>
    absurd high (Nat.not_lt.mpr low)⟩
  rw [Stmt.within_leaf leaf, List.mem_singleton] at member
  subst member
  exact ⟨counter, .inl named, about⟩

theorem charge {stmt : StoredStmt} (added : Added stmts exprs (adding context.counter) stmt) :
    Named stmts context number [] [stmt] number :=
  .added rfl added.late (added.leaf rfl) (.inr (.inl added.own))

theorem kept {site : Site} {shape shape' : StmtShape StoredExpr (List StoredStmt)}
    (early : site.id < stmts) (still : shape.isLoop = false)
    (bodies : Named stmts context number shape.bodies.flatten shape'.bodies.flatten next) :
    Named stmts context number [.node site shape] [.node site shape'] next := by
  refine ⟨?_, fun stmt member late => ?_, fun loop low high => ?_⟩
  · rw [bodies.numbered, loopsIn, loopsIn, Stmt.within_node,
      List.countP_cons_of_neg (by simp [still])]
  · rw [Stmt.within_node] at member
    rcases List.mem_cons.mp member with rfl | below
    · exact absurd early (Nat.not_lt.mpr late)
    · exact bodies.counters stmt below late
  · obtain ⟨stmt, member, rest⟩ := bodies.resets loop low high
    refine ⟨stmt, ?_, rest⟩
    rw [Stmt.within_node]
    exact List.mem_cons_of_mem _ member

theorem rounds {loop : WovenLoop} {shape : StmtShape StoredExpr (List StoredStmt)}
    {inner : List StoredStmt} (woven : loop.Of stmts exprs context number shape inner)
    (body : Named stmts context (number + 1) inner loop.inner next) :
    Named stmts context number [.node loop.site shape] loop.stmts next := by
  have high : number + 1 ≤ next := body.numbered ▸ Nat.le_add_right ..
  -- The loop takes its number before those inside it take theirs.
  have own : IsCounterName context number next (Counter.ofLoop context.name number) :=
    .inr ⟨number, Nat.le_refl _, high, rfl⟩
  refine ⟨?_, fun stmt member late => ?_, fun other low below => ?_⟩
  · rw [body.numbered, loopsIn, loopsIn, Stmt.within_node,
      List.countP_cons_of_pos (by simpa using woven.rounds), woven.single, List.flatten_singleton]
    omega
  · rw [woven.within] at member
    simp only [List.mem_cons, List.mem_append, List.not_mem_nil, or_false] at member
    rcases member with rfl | charge | rfl | rfl | inside | rfl
    · exact ⟨_, own, .inl woven.reset.own⟩
    · exact ⟨_, .inl rfl, .inr (.inl (woven.charges stmt charge).own)⟩
    · exact absurd woven.early (Nat.not_lt.mpr late)
    · exact ⟨_, own, .inr (.inl woven.increment.own)⟩
    · obtain ⟨counter, named, about⟩ := body.counters stmt inside late
      exact ⟨counter, named.mono (Nat.le_succ _) (Nat.le_refl _), about⟩
    · exact ⟨_, own, .inr (.inr woven.display.own)⟩
  · rw [woven.within]
    rcases Nat.eq_or_lt_of_le low with rfl | above
    · exact ⟨loop.reset, List.mem_cons_self, woven.reset.late, woven.reset.own⟩
    · obtain ⟨stmt, member, rest⟩ := body.resets other above below
      exact ⟨stmt, by simp [member], rest⟩

theorem placed : Placed stmts exprs context (Named stmts context) where
  nil := nil
  charge added holds := (charge added).append holds
  leave early added holds :=
    (Named.added rfl added.late (added.leaf rfl) (.inr (.inr added.own))).append
      ((kept early rfl nil).append holds)
  loop woven inner holds := (rounds woven inner).append holds
  keep early still _ _ bodies holds := (kept early still (flatten bodies)).append holds

end Named

/-- The statements put into a scope are about its counters, and each of them is zeroed. -/
theorem scope_named
    (traced : new.map (Stmt.traced stmts exprs) = ((Weave.scope context body).run number).1) :
    ((Weave.scope context body).run number).2 = number + loopsIn body ∧
      (∀ stmt ∈ Stmt.within new, stmts ≤ stmt.number →
        ∃ counter ∈ Counter.ofScope context.name :: (List.range' number (loopsIn body)).map
          (Counter.ofLoop context.name),
          stmt.shape.own.IsCounterOf counter) ∧
      ∀ counter ∈ Counter.ofScope context.name :: (List.range' number (loopsIn body)).map
        (Counter.ofLoop context.name),
        ∃ stmt ∈ Stmt.within new, stmts ≤ stmt.number ∧
          stmt.shape.own = (zeroing counter).shape.own := by
  obtain ⟨reset, inner, display, rfl, resetAdded, displayAdded, named⟩ := Named.placed.scope traced
  -- The statements at both ends have no bodies, so the visit only goes on between them.
  have visits : Stmt.within (reset :: (inner ++ [display])) = reset ::
      (Stmt.within inner ++ [display]) := by
    rw [Stmt.within_cons, resetAdded.leaf rfl, Stmt.within_nil, List.nil_append, Stmt.within_append,
      Stmt.within_leaf (displayAdded.leaf rfl)]
  rw [visits]
  refine ⟨named.numbered, fun stmt member late => ?_, fun counter member => ?_⟩
  · simp only [List.mem_cons, List.mem_append, List.not_mem_nil, or_false] at member
    rcases member with rfl | inside | rfl
    · exact ⟨context.counter, List.mem_cons_self, .inl resetAdded.own⟩
    · obtain ⟨counter, name, about⟩ := named.counters stmt inside late
      refine ⟨counter, ?_, about⟩
      rcases name with rfl | ⟨loop, low, high, rfl⟩
      · exact List.mem_cons_self
      · rw [named.numbered] at high
        exact List.mem_cons_of_mem _ (List.mem_map_of_mem (List.mem_range'_1.mpr ⟨low, high⟩))
    · exact ⟨context.counter, List.mem_cons_self, .inr (.inr displayAdded.own)⟩
  · rcases List.mem_cons.mp member with rfl | loops
    · exact ⟨reset, List.mem_cons_self, resetAdded.late, resetAdded.own⟩
    · obtain ⟨loop, range, rfl⟩ := List.mem_map.mp loops
      obtain ⟨low, high⟩ := List.mem_range'_1.mp range
      obtain ⟨stmt, inside, rest⟩ := named.resets loop low (named.numbered ▸ high)
      exact ⟨stmt, by simp [inside], rest⟩

end Weave

namespace StmtShape.IsCounterOf

variable {counter : String} {stmt : StoredStmt}

theorem binds_own (stmt : StoredStmt) :
    (Stmt.node .unplaced stmt.shape.own : ParsedStmt).binds = stmt.binds :=
  Stmt.binds_map (fun _ => ()) stmt.label _ _ stmt.shape

theorem mentions_own (stmt : StoredStmt) :
    (Stmt.node .unplaced stmt.shape.own : ParsedStmt).mentions = stmt.mentions := by
  obtain ⟨site, shape⟩ := stmt
  have names := Stmt.names_map (fun _ => ()) site Position.unplaced
      (fun _ => ([] : List ParsedStmt)) shape
  have others : shape.own.loopVar? = shape.loopVar? ∧ shape.own.shared = shape.shared := by
    cases shape <;> exact ⟨rfl, rfl⟩
  rw [Stmt.mentions, Stmt.mentions, Stmt.shape_node, Stmt.shape_node, others.1, others.2]
  exact congrArg (· ++ _ ++ _) names

theorem binds (about : stmt.shape.own.IsCounterOf counter) :
    ∀ name ∈ stmt.binds, name = counter := by
  intro name member
  rw [← binds_own] at member
  rcases about with same | same | same <;> rw [same] at member
  · exact List.mem_singleton.mp member
  · exact List.mem_singleton.mp member
  · exact absurd member List.not_mem_nil

theorem binds_reset (zeroed : stmt.shape.own = (Weave.zeroing counter).shape.own) :
    stmt.binds = [counter] := by
  rw [← binds_own, zeroed]
  rfl

theorem mentions (about : stmt.shape.own.IsCounterOf counter) :
    ∀ name ∈ stmt.mentions, name = counter ∨ name = "fprintf" := by
  intro name member
  rw [← mentions_own] at member
  rcases about with same | same | same <;> rw [same] at member
  · exact .inl (List.mem_singleton.mp member)
  · have twice : name ∈ [counter, counter] := member
    simp only [List.mem_cons, List.not_mem_nil, or_false, or_self] at twice
    exact .inl twice
  · have both : name ∈ ["fprintf", counter] := member
    simp only [List.mem_cons, List.not_mem_nil, or_false] at both
    exact both.symm

end StmtShape.IsCounterOf

namespace Program

/-- What an instrumentation put into the scope: it assigns the counters named, each of them, and
mentions only them and the function that prints. It clashes with the program in those that the
program uses. -/
def Counts (program result : Program) (classify : Bool) (scope : Scope)
    (counters : List String) : Prop :=
  counters.Nodup ∧ ∃ (added : List StoredStmt) (used defined clashes : List String),
    program.addedTo result scope = .ok added ∧ program.namesIn scope = .ok used ∧
    program.functionNames = .ok defined ∧ program.clashes classify scope = .ok clashes ∧
    (∀ name, name ∈ added.flatMap Stmt.binds ↔ name ∈ counters) ∧
    (∀ name ∈ added.flatMap Stmt.mentions, name ∈ counters ∨ name = "fprintf") ∧
    ∀ name, name ∈ clashes ↔ name ∈ counters ∧ (name ∈ used ∨ name ∈ defined)

theorem Holds.counters {program : Program} {layout : Layout} (holds : program.Holds layout) :
    program.counters =
      .ok (countersFrom 1 (layout.regions.map fun region => (region.name, region.body.2))) := by
  have works : (layout.regions.map Region.scope).mapM (fun scope =>
      return (← program.scopeName scope, ← program.scopeTrees scope)) =
      (.ok (layout.regions.map fun region => (region.name, region.body.2)) : Store.Checked _) := by
    apply mapM_map_ok
    intro region member
    rw [holds.scopeName member, holds.scopeTrees member]
    rfl
  rw [Program.counters, holds.scopes, ok_bind, works]
  rfl

theorem regions_named {stmts : StmtId} {exprs : ExprId} {context : Region → Instrument.Context}
    {final : Region → List StoredStmt} (regions : List Region) (number : Nat)
    (names : ∀ region ∈ regions, (context region).name = region.name)
    (woven : ((regions.mapM fun region => Weave.scope (context region) region.body.2).run
      number).1 = regions.map fun region => (final region).map (Stmt.traced stmts exprs)) :
    List.Forall₂ (fun region counters => region ∈ regions ∧ counters.Nodup ∧
        (∀ stmt ∈ Stmt.within (final region), stmts ≤ stmt.number →
          ∃ counter ∈ counters, stmt.shape.own.IsCounterOf counter) ∧
        ∀ counter ∈ counters, ∃ stmt ∈ Stmt.within (final region), stmts ≤ stmt.number ∧
          stmt.shape.own = (Weave.zeroing counter).shape.own)
      regions (countersFrom number (regions.map fun region => (region.name, region.body.2))) := by
  induction regions generalizing number with
  | nil => exact .nil
  | cons region rest ih =>
      rw [List.mapM_cons, List.map_cons] at woven
      obtain ⟨here, later⟩ := List.cons.inj woven
      obtain ⟨next, added, zeroed⟩ := Weave.scope_named here.symm
      rw [names region List.mem_cons_self] at added zeroed
      rw [List.map_cons, countersFrom]
      refine .cons ⟨List.mem_cons_self, Counter.nodup _ _ _, added, zeroed⟩ ?_
      refine (ih (number + loopsIn region.body.2) (fun other member =>
          names other (List.mem_cons_of_mem _ member)) ?_).imp fun _ _ held =>
        ⟨List.mem_cons_of_mem _ held.1, held.2⟩
      rw [← next]
      exact later

theorem Holds.namesIn {program : Program} {layout : Layout} {region : Region}
    (holds : program.Holds layout) (member : region ∈ layout.regions) :
    ∃ names, program.namesIn region.scope = .ok names := by
  rw [Program.namesIn, holds.header? member, ok_bind, holds.scopeTrees member]
  exact ⟨_, rfl⟩

/-- An instrumentation assigns exactly the counters that go with the names of the scopes and the
order of the loops, whether the program uses these names or not. -/
theorem instrument_assigns_counters {source : List Char} {program : Program}
    (parsed : parse source = .ok program) (classify : Bool) :
    ∃ (result : Program) (tally : Tally) (scopes : List Scope) (counters : List (List String)),
      program.instrument classify = .ok (result, tally) ∧ program.scopes = .ok scopes ∧
      program.counters = .ok counters ∧
      List.Forall₂ (program.Counts result classify) scopes counters := by
  obtain ⟨layout, holds⟩ := parse_holds parsed
  obtain ⟨final, result, tally, ran, held, woven⟩ := holds.instrument classify
  refine ⟨result, tally, _, _, ran, holds.scopes, holds.counters, ?_⟩
  rw [List.forall₂_map_left_iff]
  -- Region by region, with the loops numbered through all of them.
  refine (regions_named layout.regions 1 (fun _ _ => rfl) woven).imp fun region counters named => ?_
  obtain ⟨member, distinct, about, zeroed⟩ := named
  have inResult : region.rebody final ∈ (layout.rebody final).regions := by
    rw [Layout.regions_rebody]
    exact List.mem_map_of_mem member
  have trees : result.scopeTrees region.scope = .ok (final region) := held.scopeTrees inResult
  have added : program.addedTo result region.scope = .ok
      ((Stmt.within (final region)).filter fun stmt => program.store.stmts.size ≤ stmt.number) := by
    rw [addedTo, trees]
    rfl
  obtain ⟨used, uses⟩ := holds.namesIn member
  have overlap : program.clashes classify region.scope =
      .ok ((((Stmt.within (final region)).filter fun stmt => program.store.stmts.size ≤
      stmt.number).flatMap Stmt.binds).filter (· ∈ used ++ layout.names)) := by
    rw [clashes, ran, ok_bind, uses, ok_bind, holds.functionNames, ok_bind, added]
    rfl
  -- What the added statements assign are the counters: each is about one, and each is zeroed by
  -- one.
  have assigns (name : String) : name ∈ ((Stmt.within (final region)).filter fun stmt =>
      program.store.stmts.size ≤ stmt.number).flatMap Stmt.binds ↔ name ∈ counters := by
    simp only [List.mem_flatMap, List.mem_filter, decide_eq_true_eq]
    constructor
    · rintro ⟨stmt, ⟨inside, late⟩, binds⟩
      obtain ⟨counter, own, told⟩ := about stmt inside late
      exact told.binds name binds ▸ own
    · intro own
      obtain ⟨stmt, inside, late, told⟩ := zeroed name own
      exact ⟨stmt, ⟨inside,
          late⟩, by rw [StmtShape.IsCounterOf.binds_reset told]; exact List.mem_singleton_self _⟩
  refine ⟨distinct, _, used, layout.names, _, added, uses, holds.functionNames, overlap, assigns,
    fun name mentioned => ?_, fun name => ?_⟩
  · simp only [List.mem_flatMap, List.mem_filter, decide_eq_true_eq] at mentioned
    obtain ⟨stmt, ⟨inside, late⟩, mentions⟩ := mentioned
    obtain ⟨counter, own, told⟩ := about stmt inside late
    exact (told.mentions name mentions).imp_left fun same : name = counter => same ▸ own
  · rw [List.mem_filter, assigns, decide_eq_true_eq, List.mem_append]

/-- A program that assigns the counter of its script by itself. -/
theorem script_counter_clashes : (parse "script_func = 1;".toList).toOption.map
      (fun program => (program.clashes false .script).toOption) = some (some ["script_func"]) := by
  decide +kernel

theorem nested_loops_assigns_counters :
    ∃ program,
      parse "while f(1)\n for i = 1:3\n end\nend\nfunction f_func\nf(f_loop_1);\nend\n".toList =
      .ok program ∧
      ∃ (result : Program) (tally : Tally) (scopes : List Scope) (counters : List (List String)),
        program.instrument true = .ok (result, tally) ∧ program.scopes = .ok scopes ∧
        program.counters = .ok counters ∧
        List.Forall₂ (program.Counts result true) scopes counters := by
  obtain ⟨program, parsed⟩ := exists_ok (by decide +kernel : (parse
    "while f(1)\n for i = 1:3\n end\nend\nfunction f_func\nf(f_loop_1);\nend\n".toList).toOption.isSome)
  exact ⟨program, parsed, instrument_assigns_counters parsed true⟩

end Program
end ScriptFlow
