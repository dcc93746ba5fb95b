import ScriptFlow.Proofs.Counter.Names
import ScriptFlow.Proofs.Stmt.Retrace

/-!
Runs of instrumented scopes. Without the events of the counter statements they are the runs of the
scope as it was, each of which comes from one of them; and the counters count what they are for.
-/

namespace ScriptFlow

namespace Weave

variable {stmts : StmtId} {exprs : ExprId} {counter : ParsedStmt} {stmt : StoredStmt}

theorem plain_of_own (same : stmt.shape.own = counter.shape.own)
    (isCounter : IsCounter counter) : stmt.Plain := by
  rw [Stmt.Plain, ← StmtShape.own_isLoop, ← StmtShape.own_isChoice, ← StmtShape.own_outcome, same]
  obtain ⟨name, rfl | rfl | rfl⟩ := isCounter <;> exact ⟨rfl, rfl, rfl⟩

theorem Added.plain (added : Added stmts exprs counter stmt)
    (isCounter : IsCounter counter) : stmt.Plain :=
  plain_of_own added.own isCounter

theorem plain_reset {name : String} (added : Added stmts exprs (zeroing name) stmt) : stmt.Plain :=
  added.plain ⟨name, .inl rfl⟩

theorem plain_increment {name : String} (added : Added stmts exprs (adding name) stmt) :
    stmt.Plain :=
  added.plain ⟨name, .inr (.inl rfl)⟩

theorem plain_display {name : String} (added : Added stmts exprs (showing name) stmt) :
    stmt.Plain :=
  added.plain ⟨name, .inr (.inr rfl)⟩

namespace WovenLoop.Of

variable {loop : WovenLoop} {context : Instrument.Context} {number : Nat}
  {shape : StmtShape StoredExpr (List StoredStmt)} {inner : List StoredStmt}

theorem isLoop (woven : loop.Of stmts exprs context number shape inner) :
    loop.shape.isLoop = true := by
  rw [← StmtShape.own_isLoop, woven.own, StmtShape.own_isLoop]
  exact woven.rounds

theorem runs {Q : Bool → List Event → Prop} (woven : loop.Of stmts exprs context number shape inner)
    (closed : Additive Q) (reset : Q false [loop.reset.event])
    (charges : ∀ charge ∈ loop.charges, Q false [charge.event])
    (own : Q false [.ran loop.site loop.shape.own]) (enters : Q false [.entered loop.site])
    (increment : Q false [loop.increment.event]) (display : Q false [loop.display.event])
    (rounds : Additive.OnRuns Q (.body loop.inner)) : Additive.OnRuns Q (.body loop.stmts) := by
  have charged := closed.plains fun charge member =>
      ⟨plain_increment (woven.charges charge member), charges charge member⟩
  have looped := closed.loop woven.split woven.isLoop own enters
      (closed.plain (plain_increment woven.increment) increment rounds)
  have shown := closed.plain (plain_display woven.display) display closed.nil_runs
  exact closed.plain (plain_reset woven.reset) reset
    (closed.followed charged (closed.cons looped shown))

end WovenLoop.Of
end Weave

/-- Runs of the second code without their late events are runs of the first, and every run of the
first is one of these. -/
structure Retraces (size : StmtId) (code new : Code) : Prop where
  erased : ∀ trace outcome, Run new trace outcome → Run code (erase size trace) outcome
  lifted : ∀ trace outcome, Run code trace outcome → ∃ trace', Run new trace' outcome ∧
      erase size trace' = trace

namespace Retraces

variable {size : StmtId} {site : Site} {stmt stmt' : StoredStmt} {body new : List StoredStmt}

theorem nil : Retraces size (.body []) (.body []) := by
  refine ⟨fun trace outcome run => ?_, fun trace outcome run => ?_⟩
  · cases run
    exact .nil
  · cases run
    exact ⟨[], .nil, rfl⟩

theorem skip (late : size ≤ stmt.number) (plain : stmt.Plain)
    (rest : Retraces size (.body body) (.body new)) :
    Retraces size (.body body) (.body (stmt :: new)) := by
  have gone (trace : List Event) : erase size (stmt.event :: trace) = erase size trace :=
    erase_late late
  refine ⟨fun trace outcome run => ?_, fun trace outcome run => ?_⟩
  · obtain ⟨others, rfl, tail⟩ := plain.run_cons.mp run
    rw [gone]
    exact rest.erased others outcome tail
  · obtain ⟨others, tail, same⟩ := rest.lifted trace outcome run
    exact ⟨_, plain.run_cons.mpr ⟨others, rfl, tail⟩, (gone others).trans same⟩

theorem cons (head : Retraces size (.stmt stmt) (.stmt stmt'))
    (tail : Retraces size (.body body) (.body new)) :
    Retraces size (.body (stmt :: body)) (.body (stmt' :: new)) := by
  refine ⟨fun trace outcome run => ?_, fun trace outcome run => ?_⟩
  · cases run with
    | next first later =>
        rw [erase_append]
        exact .next (head.erased _ _ first) (tail.erased _ _ later)
    | skip first early => exact .skip (head.erased _ _ first) early
  · cases run with
    | next first later =>
        obtain ⟨front, runs, rfl⟩ := head.lifted _ _ first
        obtain ⟨back, goes, rfl⟩ := tail.lifted _ _ later
        exact ⟨front ++ back, .next runs goes, erase_append⟩
    | skip first early =>
        obtain ⟨front, runs, same⟩ := head.lifted _ _ first
        exact ⟨front, .skip runs early, same⟩

theorem rounds (early : site.id < size) (inner : Retraces size (.body body) (.body new)) :
    Retraces size (.rounds site body) (.rounds site new) := by
  refine ⟨fun trace outcome run => ?_, fun trace outcome run => ?_⟩
  -- By induction on the rounds: each is a run of the body, which is matched on its own.
  · generalize code : Code.rounds site new = code at run
    induction run with
    | stop =>
        cases code
        exact .stop
    | again round stays _ _ ih =>
        cases code
        rw [erase_early early, erase_append]
        exact .again (inner.erased _ _ round) stays (ih rfl)
    | exit round ends _ =>
        cases code
        rw [erase_early early]
        exact .exit (inner.erased _ _ round) ends
    | _ => cases code
  · generalize code : Code.rounds site body = code at run
    induction run with
    | stop =>
        cases code
        exact ⟨[], .stop, rfl⟩
    | again round stays _ _ ih =>
        cases code
        obtain ⟨front, runs, rfl⟩ := inner.lifted _ _ round
        obtain ⟨back, goes, rfl⟩ := ih rfl
        exact ⟨_, .again runs stays goes, by rw [erase_early early, erase_append]⟩
    | exit round ends _ =>
        cases code
        obtain ⟨front, runs, rfl⟩ := inner.lifted _ _ round
        exact ⟨_, .exit runs ends, by rw [erase_early early]⟩
    | _ => cases code

theorem body_at {bodies news : List (List StoredStmt)}
    (all : List.Forall₂ (fun body new => Retraces size (.body body) (.body new)) bodies news)
    (branch : Nat) : (∀ body, bodies[branch]? = some body → ∃ new, news[branch]? = some new ∧
      Retraces size (.body body) (.body new)) ∧ ∀ new, news[branch]? = some new →
      ∃ body, bodies[branch]? = some body ∧ Retraces size (.body body) (.body new) := by
  induction all generalizing branch with
  | nil => exact ⟨fun _ there => (by cases there), fun _ there => (by cases there)⟩
  | cons head _ ih =>
      cases branch with
      | zero =>
          refine ⟨fun body there => ?_, fun new there => ?_⟩
          · cases there
            exact ⟨_, rfl, head⟩
          · cases there
            exact ⟨_, rfl, head⟩
      | succ branch => exact ih branch

theorem kept {shape shape' : StmtShape StoredExpr (List StoredStmt)} (early : site.id < size)
    (own : shape'.own = shape.own) (bodies : List.Forall₂ (fun body new =>
      Retraces size (.body body) (.body new)) shape.bodies shape'.bodies) :
    Retraces size (.stmt (.node site shape)) (.stmt (.node site shape')) := by
  have sameLoop : shape'.isLoop = shape.isLoop := by
    rw [← StmtShape.own_isLoop, own, StmtShape.own_isLoop]
  have sameChoice : shape'.isChoice = shape.isChoice := by
    rw [← StmtShape.own_isChoice, own, StmtShape.own_isChoice]
  have samePass : shape'.mayPass = shape.mayPass := by
    rw [← StmtShape.own_mayPass, own, StmtShape.own_mayPass]
  have sameEnd : shape'.outcome = shape.outcome := by
    rw [← StmtShape.own_outcome, own, StmtShape.own_outcome]
  -- the statement goes on with the same of its bodies in both directions; the bodies' runs are
  -- given
  refine ⟨fun trace outcome run => ?_, fun trace outcome run => ?_⟩
  · cases run with
    | plain noLoop noChoice =>
        rw [erase_early early, own, sameEnd]
        exact .plain (sameLoop ▸ noLoop) (sameChoice ▸ noChoice)
    | take choice chosen runs =>
        obtain ⟨body, there, inner⟩ := (body_at bodies _).2 _ chosen
        rw [erase_early early, erase_early early, own]
        exact .take (sameChoice ▸ choice) there (inner.erased _ _ runs)
    | pass passes =>
        rw [erase_early early, erase_early early, own]
        exact .pass (samePass ▸ passes)
    | loop loops runs =>
        rw [StmtShape.bodies_of_body loops, List.forall₂_cons_right_iff] at bodies
        obtain ⟨body, others, inner, none, single⟩ := bodies
        rw [List.forall₂_nil_right_iff] at none
        rw [none] at single
        rw [erase_early early, own]
        exact .loop (StmtShape.body_of_bodies (sameLoop ▸ StmtShape.isLoop_of_body loops) single)
          ((rounds early inner).erased _ _ runs)
  · cases run with
    | plain noLoop noChoice =>
        have ran := @Run.plain site shape' (sameLoop.trans noLoop) (sameChoice.trans noChoice)
        rw [own, sameEnd] at ran
        exact ⟨_, ran, erase_early early⟩
    | take choice chosen runs =>
        obtain ⟨new, there, inner⟩ := (body_at bodies _).1 _ chosen
        obtain ⟨front, goes, rfl⟩ := inner.lifted _ _ runs
        exact ⟨_, .take
          (sameChoice.trans choice) there goes, by rw [erase_early early, erase_early early, own]⟩
    | pass passes =>
        exact ⟨_,
          .pass (samePass.trans passes), by rw [erase_early early, erase_early early, own]; rfl⟩
    | loop loops runs =>
        rw [StmtShape.bodies_of_body loops, List.forall₂_cons_left_iff] at bodies
        obtain ⟨new, others, inner, none, single⟩ := bodies
        rw [List.forall₂_nil_left_iff] at none
        rw [none] at single
        obtain ⟨front, goes, rfl⟩ := (rounds early inner).lifted _ _ runs
        exact ⟨_, .loop (StmtShape.body_of_bodies (sameLoop.trans (StmtShape.isLoop_of_body loops))
            single) goes, by rw [erase_early early, own]⟩

theorem sideBySide (stmts : StmtId) (exprs : ExprId) :
    Weave.SideBySide stmts exprs fun body new => Retraces stmts (.body body) (.body new) where
  nil := nil
  skip isCounter added rest :=
    skip (Weave.Added.late added) (Weave.Added.plain added isCounter) rest
  keep early own bodies rest := cons (kept early own bodies) rest

end Retraces
end ScriptFlow
