import ScriptFlow.Proofs.Counter.Runs

/-!
What the counters of loops count. The counter of a loop is zeroed before the loop, incremented
whenever the body is entered and displayed when the loop has ended, unless a return ended it.
-/

namespace ScriptFlow

open Weave

namespace Event

/-- A statement that was put in was run, and it does what the counter statement does. -/
def Performs (size : StmtId) (counter : ParsedStmt) (event : Event) : Prop :=
  ∃ site, size ≤ site.id ∧ event = .ran site counter.shape.own

/-- A statement about the counter that was put in was run. -/
def Touches (size : StmtId) (counter : String) (event : Event) : Prop :=
  ∃ site own, size ≤ site.id ∧ event = .ran site own ∧ own.IsCounterOf counter

end Event

open Classical in
noncomputable def occurrences (kind : Event → Prop) (trace : List Event) : Nat :=
  trace.countP fun event => kind event

/-- Rounds of a loop in which its counter is incremented as often as the body is entered, and
neither zeroed nor displayed. -/
structure CountedRounds (size : StmtId) (counter : String) (loop : Site) (inner : List StoredStmt)
    (rounds : List Event) (outcome : Outcome) : Prop where
  run : Run (.rounds loop inner) rounds outcome
  counts :
    occurrences (·.Performs size (adding counter)) rounds = occurrences (· = .entered loop) rounds
  only : ∀ event ∈ rounds, ¬ event.Performs size (zeroing counter) ∧
      ¬ event.Performs size (showing counter)

/-- The trace is a sequence of activations of the loop with other events in between: events that
have to do neither with the counter nor with rounds of the loop. The last activation may end with a
return. -/
inductive Activations (size : StmtId) (counter : String) (loop : Site) (inner : List StoredStmt) :
    Bool → List Event → Prop where
  | nil {returned} : Activations size counter loop inner returned []
  | other {returned event rest} (untouched : ¬ event.Touches size counter)
      (outside : event ≠ .entered loop)
      (later : Activations size counter loop inner returned rest) :
      Activations size counter loop inner returned (event :: rest)
  | ended {returned reset between own rounds display rest}
      (zeroed : reset.Performs size (zeroing counter))
      (untouched : ∀ event ∈ between, ¬ event.Touches size counter ∧ event ≠ .entered loop)
      (counted : CountedRounds size counter loop inner rounds .done)
      (displayed : display.Performs size (showing counter))
      (later : Activations size counter loop inner returned rest) :
      Activations size counter loop inner returned
        (reset :: (between ++ .ran loop own :: (rounds ++ display :: rest)))
  | left {reset between own rounds} (zeroed : reset.Performs size (zeroing counter))
      (untouched : ∀ event ∈ between, ¬ event.Touches size counter ∧ event ≠ .entered loop)
      (counted : CountedRounds size counter loop inner rounds .left) :
      Activations size counter loop inner true (reset :: (between ++ .ran loop own :: rounds))

section
variable {size : StmtId} {stmts : StmtId} {exprs : ExprId} {counter other : String}
  {statement : ParsedStmt} {event : Event} {stmt : StoredStmt}
  {own : StmtShape ParsedExpr (List ParsedStmt)}

theorem Weave.Added.performs (added : Added stmts exprs statement stmt) :
    stmt.event.Performs stmts statement :=
  ⟨stmt.label, added.late, by rw [Stmt.event, added.own]⟩

theorem not_performs_early (early : event.site.id < size) : ¬ event.Performs size statement := by
  rintro ⟨site, late, rfl⟩
  exact absurd early (Nat.not_lt.mpr late)

theorem not_touches_early (early : event.site.id < size) : ¬ event.Touches size counter := by
  rintro ⟨site, own, late, rfl, _⟩
  exact absurd early (Nat.not_lt.mpr late)

theorem not_touches_entered (site : Site) : ¬ (Event.entered site).Touches size counter := by
  rintro ⟨_, _, _, same, _⟩
  cases same

namespace StmtShape.IsCounterOf

theorem last_mentioned (about : own.IsCounterOf counter) :
    (Stmt.node .unplaced own : ParsedStmt).mentions.getLast? = some counter := by
  rcases about with rfl | rfl | rfl <;> rfl

theorem unique (about : own.IsCounterOf counter) (also : own.IsCounterOf other) : counter = other :=
  Option.some.inj (about.last_mentioned.symm.trans also.last_mentioned)

end StmtShape.IsCounterOf

theorem Event.Performs.touches (performs : event.Performs size statement)
    (about : statement.shape.own.IsCounterOf counter) : event.Touches size counter := by
  obtain ⟨site, late, rfl⟩ := performs
  exact ⟨site, _, late, rfl, about⟩

theorem Event.Touches.unique (touches : event.Touches size counter)
    (also : event.Touches size other) : counter = other := by
  obtain ⟨_, _, _, rfl, about⟩ := touches
  obtain ⟨_, _, _, same, about'⟩ := also
  cases same
  exact about.unique about'

theorem own_increment_ne_reset : (adding counter).shape.own ≠ (zeroing counter).shape.own := by
  intro same
  have length := congrArg (fun own => (Stmt.node .unplaced own : ParsedStmt).mentions.length) same
  cases length

theorem own_increment_ne_display : (adding counter).shape.own ≠ (showing counter).shape.own := by
  intro same
  have length := congrArg (fun own => (Stmt.node .unplaced own : ParsedStmt).binds.length) same
  cases length

theorem own_reset_ne_display : (zeroing counter).shape.own ≠ (showing counter).shape.own := by
  intro same
  have length := congrArg (fun own => (Stmt.node .unplaced own : ParsedStmt).binds.length) same
  cases length

theorem Event.Performs.own_eq {first second : ParsedStmt} (performs : event.Performs size first)
    (also : event.Performs size second) : first.shape.own = second.shape.own := by
  obtain ⟨_, _, rfl⟩ := performs
  obtain ⟨_, _, same⟩ := also
  exact (Event.ran.inj same).2

end

section
variable {kind : Event → Prop} {event : Event} {trace others : List Event}

theorem occurrences_nil : occurrences kind [] = 0 := rfl

theorem occurrences_append :
    occurrences kind (trace ++ others) = occurrences kind trace + occurrences kind others :=
  List.countP_append

theorem occurrences_here (here : kind event) :
    occurrences kind (event :: trace) = occurrences kind trace + 1 :=
  List.countP_cons_of_pos (by simpa using here)

theorem occurrences_elsewhere (elsewhere : ¬ kind event) :
    occurrences kind (event :: trace) = occurrences kind trace :=
  List.countP_cons_of_neg (by simpa using elsewhere)

theorem occurrences_none (none : ∀ event ∈ trace, ¬ kind event) : occurrences kind trace = 0 :=
  List.countP_eq_zero.mpr fun event member => by simpa using none event member

end

theorem Activations.additive (size : StmtId) (counter : String) (loop : Site)
    (inner : List StoredStmt) : Additive (Activations size counter loop inner) where
  nil := .nil
  append := by
    intro returned trace others first second
    generalize same : false = start at first
    induction first with
    | nil => exact second
    | other untouched outside _ ih => exact .other untouched outside (ih same)
    | ended zeroed untouched counted displayed _ ih =>
        simp only [List.cons_append, List.append_assoc]
        exact .ended zeroed untouched counted displayed (ih same)
    | left _ _ _ => cases same

theorem Activations.others {size : StmtId} {counter : String} {loop : Site}
    {inner : List StoredStmt} {returned : Bool} {trace : List Event}
    (none : ∀ event ∈ trace, ¬ event.Touches size counter ∧ event ≠ .entered loop) :
    Activations size counter loop inner returned trace := by
  induction trace with
  | nil => exact .nil
  | cons event rest ih =>
      obtain ⟨untouched, outside⟩ := none event List.mem_cons_self
      exact .other untouched outside
        (ih fun other member => none other (List.mem_cons_of_mem _ member))

/-- The loops that an event has to do with: counters of that range, rounds of loops with those
numbers. -/
def Event.Ranged (size : StmtId) (scope : String) (number next : Nat) (ids : List StmtId)
    (event : Event) : Prop :=
  (∀ loop, event.Touches size (Counter.ofLoop scope loop) → number ≤ loop ∧ loop < next) ∧
    ∀ site, event = .entered site → site.id ∈ ids

def Event.Neutral (size : StmtId) (scope : String) (event : Event) : Prop :=
  (∀ loop, ¬ event.Touches size (Counter.ofLoop scope loop)) ∧ ∀ site, event ≠ .entered site

namespace Event

variable {size : StmtId} {scope : String} {number next : Nat} {ids : List StmtId} {event : Event}

theorem Neutral.ranged (neutral : event.Neutral size scope) :
    event.Ranged size scope number next ids :=
  ⟨fun loop touches => absurd touches (neutral.1 loop), fun site same =>
    absurd same (neutral.2 site)⟩

theorem neutral_ran {site : Site} {own : StmtShape ParsedExpr (List ParsedStmt)}
    (early : site.id < size) : (ran site own).Neutral size scope :=
  ⟨fun _ => not_touches_early early, fun _ same => by cases same⟩

theorem neutral_took {site : Site} {branch : Option Nat} :
    (took site branch).Neutral size scope := by
  refine ⟨fun loop touches => ?_, fun _ same => by cases same⟩
  obtain ⟨_, _, _, same, _⟩ := touches
  cases same

theorem neutral_scope (touches : event.Touches size (Counter.ofScope scope)) :
    event.Neutral size scope := by
  refine ⟨fun loop also => Counter.ofScope_ne_ofLoop scope loop (touches.unique also),
    fun site same => ?_⟩
  rw [same] at touches
  exact not_touches_entered site touches

end Event

theorem ranged_additive (size : StmtId) (scope : String) (number next : Nat) (ids : List StmtId) :
    Additive fun _ trace => ∀ event ∈ trace, event.Ranged size scope number next ids where
  nil _ member := absurd member List.not_mem_nil
  append first second event member := (List.mem_append.mp member).elim (first event) (second event)

/-- Every loop among the statements has a counter of its own, and the runs of the codes count with
it. -/
structure Counted (size : StmtId) (scope : String) (number : Nat) (stmts : List StoredStmt)
    (codes : List Code) (next : Nat) : Prop where
  low : number ≤ next
  ranged : ∀ code ∈ codes, Additive.OnRuns (fun _ trace => ∀ event ∈ trace,
    event.Ranged size scope number next (Stmt.numbers stmts)) code
  loops : (Stmt.numbers stmts).Nodup → ∀ site shape inner, .node site shape ∈ Stmt.within stmts →
    shape.loopBody? = some inner → ∃ loop, number ≤ loop ∧ loop < next ∧
      ∀ code ∈ codes, Additive.OnRuns (Activations size (Counter.ofLoop scope loop) site inner) code

namespace Counted

variable {size : StmtId} {scope : String} {number next last : Nat} {stmts others : List StoredStmt}
  {codes more : List Code}

theorem none : Counted size scope number [] [] number :=
  ⟨Nat.le_refl _, fun _ member => absurd member List.not_mem_nil, fun _ _ _ _ visited =>
    absurd visited (by rw [Stmt.within_nil]; exact List.not_mem_nil)⟩

theorem apart {ids : List StmtId} {site : Site} {loop : Nat} {inner : List StoredStmt}
    {code : Code} (ranged : Additive.OnRuns (fun _ trace => ∀ event ∈ trace,
      event.Ranged size scope number next ids) code)
    (outside : ¬ (number ≤ loop ∧ loop < next)) (away : site.id ∉ ids) :
    Additive.OnRuns (Activations size (Counter.ofLoop scope loop) site inner) code :=
  fun trace outcome run =>
  Activations.others fun event member =>
    ⟨fun touches => outside ((ranged trace outcome run event member).1 loop touches),
      fun same => away ((ranged trace outcome run event member).2 site same)⟩

theorem append (first : Counted size scope number stmts codes next)
    (second : Counted size scope next others more last) :
    Counted size scope number (stmts ++ others) (codes ++ more) last := by
  have low := first.low
  have high := second.low
  refine ⟨Nat.le_trans low high, fun code member trace outcome run event inside => ?_,
    fun distinct site shape inner visited loops => ?_⟩
  · rw [Stmt.numbers_append]
    rcases List.mem_append.mp member with early | late
    · obtain ⟨touches, entered⟩ := first.ranged code early trace outcome run event inside
      exact ⟨fun loop touched =>
        ⟨(touches loop touched).1, Nat.lt_of_lt_of_le (touches loop touched).2 high⟩,
        fun site same => List.mem_append_left _ (entered site same)⟩
    · obtain ⟨touches, entered⟩ := second.ranged code late trace outcome run event inside
      exact ⟨fun loop touched => ⟨Nat.le_trans low (touches loop touched).1,
          (touches loop touched).2⟩, fun site same => List.mem_append_right _ (entered site same)⟩
  -- a loop counts in the runs of its own side and is not touched in those of the other, whose
  -- numbers are apart
  · rw [Stmt.numbers_append] at distinct
    obtain ⟨distinctFirst, distinctSecond, disjoint⟩ := List.nodup_append.mp distinct
    rw [Stmt.within_append] at visited
    rcases List.mem_append.mp visited with early | late
    · obtain ⟨loop, above, below, counted⟩ := first.loops distinctFirst site shape inner early loops
      refine ⟨loop, above, Nat.lt_of_lt_of_le below high, fun code member => ?_⟩
      rcases List.mem_append.mp member with own | later
      · exact counted code own
      · refine apart (second.ranged code later) (by omega) fun inside => ?_
        exact disjoint _ (Stmt.number_mem early) _ inside rfl
    · obtain ⟨loop, above, below, counted⟩ :=
        second.loops distinctSecond site shape inner late loops
      refine ⟨loop, Nat.le_trans low above, below, fun code member => ?_⟩
      rcases List.mem_append.mp member with earlier | own
      · refine apart (first.ranged code earlier) (by omega) fun inside => ?_
        exact disjoint _ inside _ (Stmt.number_mem late) rfl
      · exact counted code own

theorem into (counted : Counted size scope number stmts codes next)
    (build : ∀ {Q : Bool → List Event → Prop}, Additive Q →
      (∀ returned event, Event.Neutral size scope event → Q returned [event]) →
      (∀ code ∈ codes, Additive.OnRuns Q code) → ∀ code ∈ more, Additive.OnRuns Q code) :
    Counted size scope number stmts more next := by
  refine ⟨counted.low, ?_, fun distinct site shape inner visited loops => ?_⟩
  · refine build (ranged_additive _ _ _ _ _) (fun _ event neutral other member => ?_) counted.ranged
    rw [List.mem_singleton.mp member]
    exact neutral.ranged
  · obtain ⟨loop, above, below, runs⟩ := counted.loops distinct site shape inner visited loops
    refine ⟨loop, above, below,
      build (Activations.additive _ _ _ _) (fun _ event neutral => ?_) runs⟩
    exact .other (neutral.1 loop) (neutral.2 site) .nil

theorem wrap {site : Site} {shape : StmtShape StoredExpr (List StoredStmt)}
    (noLoop : shape.isLoop = false)
    (counted : Counted size scope number shape.bodies.flatten codes next) :
    Counted size scope number [.node site shape] codes next := by
  refine ⟨counted.low, fun code member trace outcome run event inside => ?_,
    fun distinct place other inner visited loops => ?_⟩
  · obtain ⟨touches, entered⟩ := counted.ranged code member trace outcome run event inside
    rw [Stmt.numbers_node]
    exact ⟨touches, fun place same => List.mem_cons_of_mem _ (entered place same)⟩
  · rw [Stmt.numbers_node] at distinct
    rw [Stmt.within_node] at visited
    rcases List.mem_cons.mp visited with same | below
    · cases same
      cases (StmtShape.isLoop_of_body loops).symm.trans noLoop
    · exact counted.loops (List.nodup_cons.mp distinct).2 place other inner below loops

theorem flatten {bodies news : List (List StoredStmt)}
    (threaded : Threaded (fun number _ new next => Counted size scope number new [.body new] next)
      number bodies news next) : Counted size scope number news.flatten (news.map .body) next := by
  induction threaded with
  | nil => exact none
  | cons head _ ih => exact head.append ih

theorem idle {stmt : StoredStmt} (leaf : stmt.nested = []) (noLoop : stmt.shape.isLoop = false)
    (counted : Counted size scope number stmts codes next) :
    Counted size scope number (stmt :: stmts) codes next := by
  obtain ⟨site, shape⟩ := stmt
  have bare : Counted size scope number shape.bodies.flatten [] number := by
    rw [show shape.bodies.flatten = [] from leaf]
    exact none
  exact (wrap noLoop bare).append counted

theorem followed (first : Counted size scope number stmts [.body stmts] next)
    (second : Counted size scope next others [.body others] last) :
    Counted size scope number (stmts ++ others) [.body (stmts ++ others)] last :=
  (first.append second).into fun closed _ runs code member => by
    rw [List.mem_singleton.mp member]
    exact closed.followed (runs _ List.mem_cons_self)
      (runs _ (List.mem_cons_of_mem _ List.mem_cons_self))

theorem plain {stmt : StoredStmt} (leaf : stmt.nested = [])
    (isPlain : stmt.Plain) (neutral : stmt.event.Neutral size scope)
    (counted : Counted size scope number stmts [.body stmts] next) :
    Counted size scope number (stmt :: stmts) [.body (stmt :: stmts)] next :=
  (counted.idle leaf isPlain.1).into fun closed idle runs code member => by
    rw [List.mem_singleton.mp member]
    exact closed.plain isPlain (idle _ _ neutral) (runs _ List.mem_cons_self)

end Counted

namespace Weave

open Instrument (Context)

variable {stmts : StmtId} {exprs : ExprId} {context : Context} {number next last : Nat}

theorem Added.touches {statement : ParsedStmt} {stmt : StoredStmt} {counter : String}
    (added : Added stmts exprs statement stmt) (about : statement.shape.own.IsCounterOf counter) :
    stmt.event.Touches stmts counter := added.performs.touches about

namespace WovenLoop.Of

variable {loop : WovenLoop} {shape : StmtShape StoredExpr (List StoredStmt)}
  {inner : List StoredStmt} {rounds trace : List Event} {outcome : Outcome}

theorem round (woven : loop.Of stmts exprs context number shape inner)
    (body : Counted stmts context.name (number + 1) loop.inner [.body loop.inner] next)
    (distinct : loop.site.id ∉ Stmt.numbers loop.inner)
    (run : Run (.body (loop.increment :: loop.inner)) trace outcome) :
    ∃ others, trace = loop.increment.event :: others ∧ ∀ event ∈ others,
      ¬ event.Touches stmts (Counter.ofLoop context.name number) ∧ event ≠ .entered loop.site := by
  obtain ⟨others, rfl, tail⟩ := (plain_increment woven.increment).run_cons.mp run
  refine ⟨others, rfl, fun event member => ?_⟩
  obtain ⟨touches, entered⟩ := body.ranged _ List.mem_cons_self others outcome tail event member
  exact ⟨fun touched => absurd (touches number touched).1 (Nat.not_succ_le_self number),
    fun same => distinct (entered loop.site same)⟩

theorem round_counts (woven : loop.Of stmts exprs context number shape inner) {others : List Event}
    (away : ∀ event ∈ others, ¬ event.Touches stmts (Counter.ofLoop context.name number) ∧
      event ≠ .entered loop.site) :
    occurrences (·.Performs stmts (adding (Counter.ofLoop context.name number)))
        (.entered loop.site :: loop.increment.event :: others) = 1 ∧
      occurrences (· = .entered loop.site)
        (.entered loop.site :: loop.increment.event :: others) = 1 ∧
      ∀ event ∈ .entered loop.site :: loop.increment.event :: others,
        ¬ event.Performs stmts (zeroing (Counter.ofLoop context.name number)) ∧
        ¬ event.Performs stmts (showing (Counter.ofLoop context.name number)) := by
  -- Entering a round performs no statement.
  have entry : ¬ (Event.entered loop.site).Touches stmts (Counter.ofLoop context.name number) :=
    not_touches_entered loop.site
  refine ⟨?_, ?_, fun event member => ?_⟩
  · rw [occurrences_elsewhere fun performs => entry (performs.touches (.inr (.inl rfl))),
      occurrences_here woven.increment.performs, occurrences_none fun event member performs =>
      (away event member).1 (performs.touches (.inr (.inl rfl)))]
  · rw [@occurrences_here (· = .entered loop.site) _ _ rfl,
      occurrences_elsewhere (by rw [Stmt.event]; exact Event.noConfusion),
      occurrences_none fun event member => (away event member).2]
  · rcases List.mem_cons.mp member with rfl | member
    · exact ⟨fun performs => entry (performs.touches (.inl rfl)),
        fun performs => entry (performs.touches (.inr (.inr rfl)))⟩
    rcases List.mem_cons.mp member with rfl | member
    · exact ⟨fun performs => own_increment_ne_reset (woven.increment.performs.own_eq performs),
        fun performs => own_increment_ne_display (woven.increment.performs.own_eq performs)⟩
    · exact ⟨fun performs => (away event member).1 (performs.touches (.inl rfl)),
        fun performs => (away event member).1 (performs.touches (.inr (.inr rfl)))⟩

theorem countedRounds (woven : loop.Of stmts exprs context number shape inner)
    (body : Counted stmts context.name (number + 1) loop.inner [.body loop.inner] next)
    (distinct : loop.site.id ∉ Stmt.numbers loop.inner)
    (run : Run (.rounds loop.site (loop.increment :: loop.inner)) rounds outcome) :
    CountedRounds stmts (Counter.ofLoop context.name number) loop.site
      (loop.increment :: loop.inner) rounds outcome := by
  -- each round starts with the increment, and the body's own events have to do with later loops
  -- only
  have whole := run
  generalize same : Code.rounds loop.site (loop.increment :: loop.inner) = code at run
  induction run with
  | stop =>
      cases same
      exact ⟨.stop, rfl, fun _ member => absurd member List.not_mem_nil⟩
  | @again _ _ trace others _ _ round _ rest _ ih =>
      cases same
      obtain ⟨others, rfl, away⟩ := woven.round body distinct round
      obtain ⟨increments, entries, only⟩ := woven.round_counts away
      have later := ih rest rfl
      rw [← List.cons_append] at whole ⊢
      refine ⟨whole, ?_, fun event member => ?_⟩
      · rw [occurrences_append, occurrences_append, increments, entries, later.counts]
      · exact (List.mem_append.mp member).elim (only event) (later.only event)
  | exit round _ _ =>
      cases same
      obtain ⟨others, rfl, away⟩ := woven.round body distinct round
      obtain ⟨increments, entries, only⟩ := woven.round_counts away
      exact ⟨whole, increments.trans entries.symm, only⟩
  | _ => cases same

theorem activation (woven : loop.Of stmts exprs context number shape inner)
    (body : Counted stmts context.name (number + 1) loop.inner [.body loop.inner] next)
    (distinct : loop.site.id ∉ Stmt.numbers loop.inner) :
    Additive.OnRuns (Activations stmts (Counter.ofLoop context.name number) loop.site
      (loop.increment :: loop.inner)) (.body loop.stmts) := by
  intro trace outcome run
  have loops := StmtShape.body_of_bodies woven.isLoop woven.split
  obtain ⟨others, rfl, after⟩ := (plain_reset woven.reset).run_cons.mp run
  obtain ⟨rest, rfl, last⟩ :=
    after.plains fun charge member => plain_increment (woven.charges charge member)
  -- The charges in front of the loop are about the counter of the scope.
  have between : ∀ event ∈ loop.charges.map Stmt.event,
      ¬ event.Touches stmts (Counter.ofLoop context.name number) ∧ event ≠ .entered loop.site := by
    intro event member
    obtain ⟨charge, charged, rfl⟩ := List.mem_map.mp member
    have neutral := Event.neutral_scope ((woven.charges charge charged).touches (.inr (.inl rfl)))
    exact ⟨neutral.1 number, neutral.2 loop.site⟩
  -- A loop that runs to its end is displayed; one that is left from inside is not.
  cases last with
  | next head tail =>
      obtain ⟨rounds, rfl, runs⟩ := head.loop_inv loops
      obtain ⟨none, rfl, ends⟩ := (plain_display woven.display).run_cons.mp tail
      cases ends
      exact .ended woven.reset.performs between
        (woven.countedRounds body distinct runs) woven.display.performs .nil
  | skip head early =>
      obtain ⟨rounds, rfl, runs⟩ := head.loop_inv loops
      rcases runs.rounds_outcome with rfl | rfl
      · exact absurd rfl early
      · exact .left woven.reset.performs between (woven.countedRounds body distinct runs)

theorem numbers (woven : loop.Of stmts exprs context number shape inner) :
    Stmt.numbers loop.stmts = loop.reset.number :: (loop.charges.map Stmt.number ++ loop.site.id ::
      loop.increment.number :: (Stmt.numbers loop.inner ++ [loop.display.number])) := by
  rw [Stmt.numbers, woven.within]
  simp only [List.map_cons, List.map_append, List.map_nil]
  rfl

theorem ranged (woven : loop.Of stmts exprs context number shape inner)
    (body : Counted stmts context.name (number + 1) loop.inner [.body loop.inner] next) :
    Additive.OnRuns (fun _ trace => ∀ event ∈ trace, event.Ranged stmts context.name number next
      (Stmt.numbers loop.stmts)) (.body loop.stmts) := by
  have low := body.low
  have single {event : Event}
      (here : event.Ranged stmts context.name number next (Stmt.numbers loop.stmts)) :
      ∀ other ∈ [event], other.Ranged stmts context.name number next (Stmt.numbers loop.stmts) :=
    fun other member => List.mem_singleton.mp member ▸ here
  -- Statements about the counter of the loop touch this counter alone.
  have own {stmt : StoredStmt}
      (touches : stmt.event.Touches stmts (Counter.ofLoop context.name number)) :
      stmt.event.Ranged stmts context.name number next (Stmt.numbers loop.stmts) := by
    refine ⟨fun other also => ?_, fun site same => by cases same⟩
    rw [← Counter.ofLoop_inj (touches.unique also)]
    exact ⟨Nat.le_refl _, low⟩
  refine woven.runs (ranged_additive _ _ _ _ _) (single (own (woven.reset.touches (.inl rfl))))
    (fun charge member => single (Event.neutral_scope ((woven.charges charge member).touches
      (.inr (.inl rfl)))).ranged) (single (Event.neutral_ran woven.early).ranged)
    (single ⟨fun _ touches => absurd touches (not_touches_entered _), ?_⟩)
    (single (own (woven.increment.touches (.inr (.inl rfl)))))
    (single (own (woven.display.touches (.inr (.inr rfl))))) ?_
  · rintro site ⟨⟩
    simp [woven.numbers]
  · intro trace outcome run event member
    obtain ⟨touches, entered⟩ := body.ranged _ List.mem_cons_self trace outcome run event member
    refine ⟨fun other touched => ⟨Nat.le_of_succ_le (touches other touched).1,
        (touches other touched).2⟩, fun site same => ?_⟩
    simp [woven.numbers, entered site same]

theorem outer (woven : loop.Of stmts exprs context number shape inner)
    {other : Nat} {site : Site} {within : List StoredStmt} (apart : number < other)
    (distinct : site ≠ loop.site)
    (counts : Additive.OnRuns
      (Activations stmts (Counter.ofLoop context.name other) site within) (.body loop.inner)) :
    Additive.OnRuns (Activations stmts (Counter.ofLoop context.name other) site within)
      (.body loop.stmts) := by
  have own {stmt : StoredStmt}
      (touches : stmt.event.Touches stmts (Counter.ofLoop context.name number)) :
      Activations stmts (Counter.ofLoop context.name other) site within false [stmt.event] := by
    refine .other (fun also => ?_) (by rw [Stmt.event]; exact Event.noConfusion) .nil
    exact Nat.ne_of_lt apart (Counter.ofLoop_inj (touches.unique also))
  have neutral {event : Event} (idle : event.Neutral stmts context.name) :
      Activations stmts (Counter.ofLoop context.name other) site within false [event] :=
    .other (idle.1 other) (idle.2 site) .nil
  exact woven.runs (Activations.additive _ _ _ _) (own (woven.reset.touches (.inl rfl)))
    (fun charge member =>
    neutral (Event.neutral_scope ((woven.charges charge member).touches (.inr (.inl rfl)))))
    (neutral (Event.neutral_ran woven.early)) (.other (not_touches_entered _) (fun same =>
      distinct (by cases same; rfl)) .nil) (own (woven.increment.touches (.inr (.inl rfl))))
    (own (woven.display.touches (.inr (.inr rfl)))) counts

theorem counted (woven : loop.Of stmts exprs context number shape inner)
    (body : Counted stmts context.name (number + 1) loop.inner [.body loop.inner] next) :
    Counted stmts context.name number loop.stmts [.body loop.stmts] next := by
  have low := body.low
  refine ⟨Nat.le_of_succ_le low, fun code member => ?_,
    fun distinct site shape' inner' visited loops => ?_⟩
  · rw [List.mem_singleton.mp member]
    exact woven.ranged body
  · rw [woven.numbers] at distinct
    have distinctRest := (List.nodup_append.mp (List.nodup_cons.mp distinct).2).2.1
    obtain ⟨outside, distinctBody⟩ := List.nodup_cons.mp distinctRest
    have distinctInner := (List.nodup_append.mp (List.nodup_cons.mp distinctBody).2).1
    have noLoop {stmt : StoredStmt} (plain : stmt.Plain)
        (same : Stmt.node site shape' = stmt) : False := by
      subst same
      cases (StmtShape.isLoop_of_body loops).symm.trans plain.1
    -- of the statements of a woven loop only the loop and what is inside it can be loops
    rw [woven.within] at visited
    simp only [List.mem_cons, List.mem_append, List.not_mem_nil, or_false] at visited
    rcases visited with reset | charge | own | increment | inside | display
    · exact absurd reset (noLoop (plain_reset woven.reset))
    · exact absurd rfl (noLoop (plain_increment (woven.charges _ charge)))
    · cases own
      cases (StmtShape.body_of_bodies woven.isLoop woven.split).symm.trans loops
      refine ⟨number, Nat.le_refl _, low, fun code member => ?_⟩
      rw [List.mem_singleton.mp member]
      exact woven.activation body fun member => outside (by simp [member])
    · exact absurd increment (noLoop (plain_increment woven.increment))
    · obtain ⟨other, above, below, counts⟩ :=
        body.loops distinctInner site shape' inner' inside loops
      refine ⟨other, Nat.le_of_succ_le above, below, fun code member => ?_⟩
      rw [List.mem_singleton.mp member]
      refine woven.outer above (fun same => ?_) (counts _ List.mem_cons_self)
      have numbered : site.id ∈ Stmt.numbers loop.inner := Stmt.number_mem inside
      rw [same] at numbered
      exact outside (by simp [numbered])
    · exact absurd display (noLoop (plain_display woven.display))

end WovenLoop.Of

theorem counted_placed : Placed stmts exprs context
    fun number _ new next => Counted stmts context.name number new [.body new] next where
  nil := Counted.none.into fun closed _ _ code member => by
    rw [List.mem_singleton.mp member]
    exact closed.nil_runs
  charge added counted :=
    counted.plain (added.leaf rfl) (plain_increment added)
      (Event.neutral_scope (added.touches (.inr (.inl rfl))))
  leave early added counted := by
    refine .plain (added.leaf rfl) (plain_display added)
      (Event.neutral_scope (added.touches (.inr (.inr rfl)))) ?_
    refine (counted.idle rfl rfl).into fun closed idle runs code member => ?_
    rw [List.mem_singleton.mp member]
    exact closed.cons (Additive.leave (idle _ _ (Event.neutral_ran early)))
      (runs _ List.mem_cons_self)
  loop woven body counted := (woven.counted body).followed counted
  keep early still goes own bodies counted := by
    have noLoop := still
    rw [← StmtShape.own_isLoop, ← own, StmtShape.own_isLoop] at noLoop
    refine ((Counted.wrap noLoop (Counted.flatten bodies)).append counted).into
      fun closed idle runs code member => ?_
    rw [List.mem_singleton.mp member]
    refine closed.cons
      (closed.stmt noLoop (StmtShape.stays goes own) (idle _ _ (Event.neutral_ran early))
      (fun branch => idle _ _ Event.neutral_took) fun body inside => ?_) (runs _ (by simp))
    exact runs _ (List.mem_append_left _ (List.mem_map_of_mem inside))

end Weave
end ScriptFlow
