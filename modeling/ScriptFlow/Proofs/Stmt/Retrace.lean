import ScriptFlow.Proofs.Stmt.Run

/-!
Runs from what is left of their traces. A trace without the events of plain statements still tells
at every point how the run went on, so it determines the whole run.
-/

namespace ScriptFlow

namespace Code

def stmts : Code → List StoredStmt
  | .body list | .rounds _ list => list
  | .stmt single => [single]

/-- The code's statements and, of what is left of a loop, the loop. -/
def numbers : Code → List StmtId
  | .body list => Stmt.numbers list
  | .stmt single => Stmt.numbers [single]
  | .rounds loop list => loop.id :: Stmt.numbers list

/-- All statements are different, and those with late numbers are plain. -/
structure Kept (size : StmtId) (code : Code) : Prop where
  distinct : code.numbers.Nodup
  plain : ∀ stmt ∈ Stmt.within code.stmts, size ≤ stmt.number → stmt.Plain
  loop : ∀ site body, code = .rounds site body → site.id < size

/-- What comes after the code does not start with a round of one of its loops. -/
def Away (code : Code) (trace : List Event) : Prop :=
  ∀ site rest, trace = .entered site :: rest → site.id ∉ code.numbers

variable {size : StmtId} {site : Site} {shape : StmtShape StoredExpr (List StoredStmt)}
  {stmt : StoredStmt} {body rest : List StoredStmt} {trace : List Event}

namespace Kept

theorem head (kept : (Code.body (stmt :: rest)).Kept size) : (Code.stmt stmt).Kept size := by
  have split : Stmt.numbers (stmt :: rest) = Stmt.numbers [stmt] ++ Stmt.numbers rest :=
    Stmt.numbers_append [stmt] rest
  have distinct : (Stmt.numbers (stmt :: rest)).Nodup := kept.distinct
  rw [split] at distinct
  exact ⟨(List.nodup_append.mp distinct).1, fun inner member => kept.plain inner
    (Stmt.mem_within_of_mem List.mem_cons_self member), fun _ _ same => by cases same⟩

theorem tail (kept : (Code.body (stmt :: rest)).Kept size) : (Code.body rest).Kept size := by
  have split : Stmt.numbers (stmt :: rest) = Stmt.numbers [stmt] ++ Stmt.numbers rest :=
    Stmt.numbers_append [stmt] rest
  have distinct : (Stmt.numbers (stmt :: rest)).Nodup := kept.distinct
  rw [split] at distinct
  exact ⟨(List.nodup_append.mp distinct).2.1, fun inner member =>
    kept.plain inner (Stmt.mem_within_of_rest member), fun _ _ same => by cases same⟩

theorem early (kept : (Code.stmt (.node site shape)).Kept size)
    (busy : ¬ (Stmt.node site shape : StoredStmt).Plain) : site.id < size := by
  by_contra late
  exact busy (kept.plain _ (Stmt.mem_within_self List.mem_cons_self) (Nat.le_of_not_lt late))

theorem inner (kept : (Code.stmt (.node site shape)).Kept size) (member : body ∈ shape.bodies) :
    (Code.body body).Kept size := by
  have distinct : (Stmt.numbers [.node site shape]).Nodup := kept.distinct
  rw [Stmt.numbers_node] at distinct
  exact ⟨(List.nodup_cons.mp distinct).2.sublist (Stmt.numbers_body member), fun stmt visited =>
    kept.plain stmt (Stmt.mem_within_of_body member visited), fun _ _ same => by cases same⟩

theorem looped (kept : (Code.stmt (.node site shape)).Kept size)
    (loops : shape.loopBody? = some body) : (Code.rounds site body).Kept size := by
  have member : body ∈ shape.bodies := by
    rw [StmtShape.bodies_of_body loops]
    exact List.mem_cons_self
  have distinct : (Stmt.numbers [.node site shape]).Nodup := kept.distinct
  rw [Stmt.numbers_node] at distinct
  refine ⟨List.nodup_cons.mpr ⟨fun inside => ?_, (kept.inner member).distinct⟩,
    (kept.inner member).plain, ?_⟩
  · exact (List.nodup_cons.mp distinct).1 ((Stmt.numbers_body member).subset inside)
  · rintro _ _ ⟨⟩
    exact kept.early fun plain => by cases plain.1.symm.trans (StmtShape.isLoop_of_body loops)

theorem round (kept : (Code.rounds site body).Kept size) : (Code.body body).Kept size :=
  ⟨(List.nodup_cons.mp kept.distinct).2, kept.plain, fun _ _ same => by cases same⟩

end Kept

theorem Away.of_numbers {code other : Code} (away : code.Away trace)
    (inside : ∀ id ∈ other.numbers, id ∈ code.numbers) : other.Away trace :=
  fun site rest same member => away site rest same (inside _ member)

end Code

namespace Run

variable {size : StmtId} {stmt : StoredStmt} {rest body : List StoredStmt}
  {trace : List Event} {outcome : Outcome}

theorem erase_stmt (kept : (Code.stmt stmt).Kept size) (run : Run (.stmt stmt) trace outcome) :
    erase size trace = [] ∨ ∃ others, erase size trace = stmt.event :: others := by
  by_cases early : stmt.number < size
  · obtain ⟨others, rfl⟩ : ∃ others, trace = stmt.event :: others := by
      cases run with
      | plain _ _ => exact ⟨_, rfl⟩
      | take _ _ _ => exact ⟨_, rfl⟩
      | pass _ => exact ⟨_, rfl⟩
      | loop _ _ => exact ⟨_, rfl⟩
    exact .inr ⟨_, erase_early early⟩
  · have plain := kept.plain stmt (Stmt.mem_within_self List.mem_cons_self) (Nat.le_of_not_lt early)
    obtain ⟨rfl, _⟩ := plain.run_inv run
    exact .inl (erase_late (Nat.le_of_not_lt early))

theorem erase_body (kept : (Code.body body).Kept size) (run : Run (.body body) trace outcome) :
    erase size trace = [] ∨ ∃ site own others, erase size trace = .ran site own :: others := by
  induction body generalizing trace with
  | nil =>
      cases run
      exact .inl rfl
  | cons stmt rest ih =>
      cases run with
      | next head tail =>
          rw [erase_append]
          rcases erase_stmt kept.head head with none | ⟨others, same⟩
          · rw [none]
            exact ih kept.tail tail
          · rw [same]
            exact .inr ⟨_, _, _, rfl⟩
      | skip head _ => exact (erase_stmt kept.head head).imp_right fun ⟨_, same⟩ => ⟨_, _, _, same⟩

theorem away_head {later : List Event} (away : (Code.body (stmt :: rest)).Away later) :
    (Code.stmt stmt).Away later :=
  away.of_numbers fun id member => by
    rw [Code.numbers, ← List.singleton_append, Stmt.numbers_append]
    exact List.mem_append_left _ member

theorem away_rest {later : List Event} (away : (Code.body (stmt :: rest)).Away later) :
    (Code.body rest).Away later :=
  away.of_numbers fun id member => by
    rw [Code.numbers, ← List.singleton_append, Stmt.numbers_append]
    exact List.mem_append_right _ member

theorem away_tail (kept : (Code.body (stmt :: rest)).Kept size)
    (run : Run (.body rest) trace outcome) {later : List Event}
    (away : (Code.body (stmt :: rest)).Away later) :
    (Code.stmt stmt).Away (erase size trace ++ later) := by
  rcases erase_body kept.tail run with none | ⟨_, _, _, same⟩
  · rw [none]
    exact away_head away
  · rw [same]
    intro site others starts
    cases starts

theorem away_inner {site : Site} {shape : StmtShape StoredExpr (List StoredStmt)}
    (member : body ∈ shape.bodies) {later : List Event}
    (away : (Code.stmt (.node site shape)).Away later) : (Code.body body).Away later :=
  away.of_numbers fun id inside => by
    rw [Code.numbers, Stmt.numbers_node]
    exact List.mem_cons_of_mem _ ((Stmt.numbers_body member).subset inside)

theorem away_looped {site : Site} {shape : StmtShape StoredExpr (List StoredStmt)}
    (loops : shape.loopBody? = some body) {later : List Event}
    (away : (Code.stmt (.node site shape)).Away later) : (Code.rounds site body).Away later :=
  away.of_numbers fun id inside => by
    rw [Code.numbers, Stmt.numbers_node, StmtShape.bodies_of_body loops, List.flatten_singleton]
    exact inside

theorem away_round {loop : Site} {later : List Event} (away : (Code.rounds loop body).Away later) :
    (Code.body body).Away later := away.of_numbers fun _ member => List.mem_cons_of_mem _ member

theorem away_rounds {loop : Site} (kept : (Code.rounds loop body).Kept size)
    (run : Run (.rounds loop body) trace outcome)
    {later : List Event} (away : (Code.rounds loop body).Away later) :
    (Code.body body).Away (erase size trace ++ later) := by
  have outside : loop.id ∉ Stmt.numbers body := (List.nodup_cons.mp kept.distinct).1
  have early := kept.loop loop body rfl
  cases run with
  | stop => exact away_round away
  | again _ _ _ =>
      rw [erase_early early]
      rintro site others ⟨⟩
      exact outside
  | exit _ _ =>
      rw [erase_early early]
      rintro site others ⟨⟩
      exact outside

theorem not_entered {loop : Site} {later others : List Event}
    (away : (Code.rounds loop body).Away later) : later ≠ .entered loop :: others :=
  fun same => away loop others same List.mem_cons_self

/-- Two runs of the same code whose traces go on alike without their late events are the same
run. -/
theorem determined {code : Code} (first : Run code trace outcome)
    (kept : code.Kept size) {trace' : List Event} {outcome' : Outcome}
    {later later' : List Event} (second : Run code trace' outcome')
    (same : erase size trace ++ later = erase size trace' ++ later') (away : code.Away later)
    (away' : code.Away later') : trace = trace' ∧ outcome = outcome' ∧ later = later' := by
  -- along the first run; what comes after a part of the code never starts with a round of a loop in
  -- the part, so that both runs leave a loop after the same round
  induction first generalizing trace' outcome' later later' with
  | nil =>
      cases second
      exact ⟨rfl, rfl, same⟩
  | next head tail ihHead ihTail =>
      rw [erase_append, List.append_assoc] at same
      cases second with
      | next head' tail' =>
          rw [erase_append, List.append_assoc] at same
          obtain ⟨rfl, _, goes⟩ :=
            ihHead kept.head head' same (away_tail kept tail away) (away_tail kept tail' away')
          obtain ⟨rfl, ends, after⟩ :=
            ihTail kept.tail tail' goes (away_rest away) (away_rest away')
          exact ⟨rfl, ends, after⟩
      | skip head' early =>
          -- the head ends alike in both, so that it cannot be the last one in only one of them
          obtain ⟨_, ends, _⟩ :=
            ihHead kept.head head' same (away_tail kept tail away) (away_head away')
          exact absurd ends.symm early
  | skip head early ih =>
      cases second with
      | next head' tail' =>
          rw [erase_append, List.append_assoc] at same
          obtain ⟨_, ends, _⟩ :=
            ih kept.head head' same (away_head away) (away_tail kept tail' away')
          exact absurd ends early
      | skip head' _ => exact ih kept.head head' same (away_head away) (away_head away')
  | plain noLoop noChoice =>
      cases second with
      | plain _ _ => exact ⟨rfl, rfl, List.append_cancel_left same⟩
      | take choice _ _ => cases choice.symm.trans noChoice
      | pass choice => cases (StmtShape.isChoice_of_mayPass choice).symm.trans noChoice
      | loop loops _ => cases (StmtShape.isLoop_of_body loops).symm.trans noLoop
  | @take site shape branch body trace outcome choice chosen run ih =>
      have early := kept.early fun plain => by cases plain.2.1.symm.trans choice
      rw [erase_early early, erase_early early] at same
      cases second with
      | plain _ noChoice => cases choice.symm.trans noChoice
      | @take _ _ branch' body' _ _ _ chosen' run' =>
          rw [erase_early early, erase_early early] at same
          obtain ⟨took, goes⟩ := List.cons.inj (List.cons.inj same).2
          cases took
          cases chosen.symm.trans chosen'
          have member := List.mem_of_getElem? chosen
          obtain ⟨rfl, ends, after⟩ :=
            ih (kept.inner member) run' goes (away_inner member away) (away_inner member away')
          exact ⟨rfl, ends, after⟩
      | pass _ =>
          rw [erase_early early, erase_early early] at same
          cases (List.cons.inj (List.cons.inj same).2).1
      | loop loops _ => cases (StmtShape.isChoice_of_body loops).symm.trans choice
  | @pass site shape passes =>
      have choice := StmtShape.isChoice_of_mayPass passes
      have early := kept.early fun plain => by cases plain.2.1.symm.trans choice
      cases second with
      | plain _ noChoice => cases choice.symm.trans noChoice
      | take _ _ _ =>
          rw [erase_early early, erase_early early, erase_early early, erase_early early] at same
          cases (List.cons.inj (List.cons.inj same).2).1
      | pass _ => exact ⟨rfl, rfl, List.append_cancel_left same⟩
      | loop loops _ => cases (StmtShape.isChoice_of_body loops).symm.trans choice
  | @loop site shape body trace outcome loops run ih =>
      have early := kept.early fun plain => by
        cases plain.1.symm.trans (StmtShape.isLoop_of_body loops)
      rw [erase_early early] at same
      cases second with
      | plain noLoop _ => cases (StmtShape.isLoop_of_body loops).symm.trans noLoop
      | take choice _ _ => cases (StmtShape.isChoice_of_body loops).symm.trans choice
      | pass passes =>
        cases (StmtShape.isChoice_of_body loops).symm.trans (StmtShape.isChoice_of_mayPass passes)
      | loop loops' run' =>
          rw [erase_early early] at same
          cases loops.symm.trans loops'
          obtain ⟨rfl, ends, after⟩ :=
            ih (kept.looped loops) run' (List.cons.inj same).2 (away_looped loops away)
              (away_looped loops away')
          exact ⟨rfl, ends, after⟩
  | @stop site body =>
      have early := kept.loop site body rfl
      cases second with
      | stop => exact ⟨rfl, rfl, same⟩
      | again _ _ _ =>
          rw [erase_early early] at same
          exact absurd same (not_entered away)
      | exit _ _ =>
          rw [erase_early early] at same
          exact absurd same (not_entered away)
  | @again site body trace others ended outcome round stays rest ihRound ihRest =>
      have early := kept.loop site body rfl
      rw [erase_early early, erase_append, List.cons_append, List.append_assoc] at same
      cases second with
      | stop => exact absurd same.symm (not_entered away')
      | again round' _ rest' =>
          rw [erase_early early, erase_append, List.cons_append, List.append_assoc] at same
          obtain ⟨rfl, _, goes⟩ :=
            ihRound kept.round round' (List.cons.inj same).2 (away_rounds kept rest away)
              (away_rounds kept rest' away')
          obtain ⟨rfl, ends, after⟩ := ihRest kept rest' goes away away'
          exact ⟨rfl, ends, after⟩
      | exit round' ends' =>
          rw [erase_early early] at same
          obtain ⟨_, rfl, _⟩ := ihRound kept.round round' (List.cons.inj same).2
              (away_rounds kept rest away) (away_round away')
          cases stays.symm.trans ends'
  | @exit site body trace ended outcome round ends ih =>
      have early := kept.loop site body rfl
      rw [erase_early early] at same
      cases second with
      | stop => exact absurd same.symm (not_entered away')
      | again round' stays rest' =>
          rw [erase_early early, erase_append, List.cons_append, List.cons_append,
            List.append_assoc] at same
          obtain ⟨_, rfl, _⟩ := ih kept.round round' (List.cons.inj same).2 (away_round away)
              (away_rounds kept rest' away')
          cases stays.symm.trans ends
      | exit round' ends' =>
          rw [erase_early early] at same
          obtain ⟨rfl, rfl, after⟩ :=
            ih kept.round round' (List.cons.inj same).2 (away_round away) (away_round away')
          exact ⟨rfl, Option.some.inj (ends.symm.trans ends'), after⟩

/-- What is left of its trace determines a run. -/
theorem unique {code : Code} (kept : code.Kept size) (first : Run code trace outcome)
    {trace' : List Event} (second : Run code trace' outcome)
    (same : erase size trace = erase size trace') : trace = trace' :=
  (first.determined kept second (congrArg (· ++ []) same) (fun _ _ starts => by cases starts)
    fun _ _ starts => by cases starts).1

end Run
end ScriptFlow
