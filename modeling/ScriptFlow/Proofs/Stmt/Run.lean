import ScriptFlow.Proofs.Stmt.Relabel
import ScriptFlow.Proofs.Store.Kept

/-!
Structured runs. A list runs in order, a choice takes one branch, a loop runs its body any number of
times, and break, continue and return leave what they are in. A run records every statement, every
branch taken and every entry of a loop's body; what expressions come to plays no part.
-/

namespace ScriptFlow

/-- What a run records. A statement is recorded with what it says by itself. -/
inductive Event where
  | ran (site : Site) (own : StmtShape ParsedExpr (List ParsedStmt))
  | took (site : Site) (branch : Option Nat)
  | entered (site : Site)

/-- How a run ends: at the end of its code, or at a break, a continue or a return. -/
inductive Outcome where
  | done
  | broke
  | continued
  | left
  deriving DecidableEq

def Outcome.exit? : Outcome → Option Outcome
  | done | continued => none
  | broke => some done
  | left => some left

namespace StmtShape

variable {A B : Type}

def outcome : StmtShape A B → Outcome
  | breakLoop => .broke
  | continueLoop => .continued
  | leave => .left
  | _ => .done

def isChoice : StmtShape A B → Bool
  | branch _ _ | switch _ _ _ => true
  | _ => false

def mayPass : StmtShape A B → Bool
  | branch _ none | switch _ _ none => true
  | _ => false

end StmtShape

/-- What runs: a list of statements, one statement, or what is left of a loop. -/
inductive Code where
  | body (stmts : List StoredStmt)
  | stmt (stmt : StoredStmt)
  | rounds (loop : Site) (body : List StoredStmt)

inductive Run : Code → List Event → Outcome → Prop where
  | nil : Run (.body []) [] .done
  | next {stmt rest trace others outcome} (head : Run (.stmt stmt) trace .done)
      (tail : Run (.body rest) others outcome) :
      Run (.body (stmt :: rest)) (trace ++ others) outcome
  | skip {stmt rest trace outcome} (head : Run (.stmt stmt) trace outcome)
      (early : outcome ≠ .done) : Run (.body (stmt :: rest)) trace outcome
  | plain {site shape} (noLoop : shape.isLoop = false) (noChoice : shape.isChoice = false) :
      Run (.stmt (.node site shape)) [.ran site shape.own] shape.outcome
  | take {site shape branch body trace outcome} (choice : shape.isChoice = true)
      (chosen : shape.bodies[branch]? = some body) (run : Run (.body body) trace outcome) :
      Run (.stmt (.node site shape))
        (.ran site shape.own :: .took site (some branch) :: trace) outcome
  | pass {site shape} (choice : shape.mayPass = true) :
      Run (.stmt (.node site shape)) [.ran site shape.own, .took site none] .done
  | loop {site shape body trace outcome} (loops : shape.loopBody? = some body)
      (run : Run (.rounds site body) trace outcome) :
      Run (.stmt (.node site shape)) (.ran site shape.own :: trace) outcome
  | stop {site body} : Run (.rounds site body) [] .done
  | again {site body trace others ended outcome} (round : Run (.body body) trace ended)
      (stays : ended.exit? = none) (rest : Run (.rounds site body) others outcome) :
      Run (.rounds site body) (.entered site :: (trace ++ others)) outcome
  | exit {site body trace ended outcome} (round : Run (.body body) trace ended)
      (ends : ended.exit? = some outcome) : Run (.rounds site body) (.entered site :: trace) outcome

namespace Event

def site : Event → Site
  | ran site _ | took site _ | entered site => site

end Event

/-- The trace without what happened at statements that were put in. -/
def erase (size : StmtId) (trace : List Event) : List Event :=
  trace.filter fun event => event.site.id < size

section
variable {size : StmtId} {event : Event} {trace others : List Event}

theorem erase_append : erase size (trace ++ others) = erase size trace ++ erase size others :=
  List.filter_append _ _

theorem erase_early (early : event.site.id < size) :
    erase size (event :: trace) = event :: erase size trace :=
  List.filter_cons_of_pos (decide_eq_true early)

theorem erase_late (late : size ≤ event.site.id) : erase size (event :: trace) = erase size trace :=
  List.filter_cons_of_neg (by simpa using late)

end

namespace StmtShape

section
variable {Label Body : Type} (shape : StmtShape (Expr Label) Body)

theorem own_isLoop : shape.own.isLoop = shape.isLoop := by cases shape <;> rfl

theorem own_isChoice : shape.own.isChoice = shape.isChoice := by cases shape <;> rfl

theorem own_outcome : shape.own.outcome = shape.outcome := by cases shape <;> rfl

theorem stays {Label' Body' : Type} {shape : StmtShape (Expr Label) Body}
    {shape' : StmtShape (Expr Label') Body'} (goes : shape ≠ .leave)
    (own : shape'.own = shape.own) : shape'.outcome ≠ .left := by
  rw [← own_outcome, own, own_outcome]
  cases shape <;> first | exact absurd rfl goes | exact Outcome.noConfusion

theorem own_mayPass : shape.own.mayPass = shape.mayPass := by
  cases shape with
  | branch _ last => cases last <;> rfl
  | switch _ _ last => cases last <;> rfl
  | _ => rfl

end

variable {A B : Type} {shape : StmtShape A B}

theorem isChoice_of_mayPass (pass : shape.mayPass = true) : shape.isChoice = true := by
  cases shape <;> first | rfl | cases pass

theorem isLoop_of_body {body : B} (loops : shape.loopBody? = some body) : shape.isLoop = true := by
  rw [isLoop, loops]
  rfl

theorem isChoice_of_body {body : B} (loops : shape.loopBody? = some body) :
    shape.isChoice = false := by
  cases shape <;> first | rfl | cases loops

theorem bodies_of_body {body : B} (loops : shape.loopBody? = some body) :
    shape.bodies = [body] := by
  cases shape <;> first | exact congrArg ([·]) (Option.some.inj loops) | cases loops

theorem body_of_bodies {body : B} (loops : shape.isLoop = true) (single : shape.bodies = [body]) :
    shape.loopBody? = some body := by
  cases shape <;> first | exact congrArg some (List.cons.inj single).1 | cases loops

end StmtShape

/-- The statement runs on its own and is followed by the next one. -/
def Stmt.Plain (stmt : StoredStmt) : Prop :=
  stmt.shape.isLoop = false ∧ stmt.shape.isChoice = false ∧ stmt.shape.outcome = .done

def Stmt.event (stmt : StoredStmt) : Event := .ran stmt.label stmt.shape.own

section
variable {stmt : StoredStmt} {rest : List StoredStmt} {trace : List Event} {outcome : Outcome}

theorem Stmt.Plain.run_inv (plain : stmt.Plain) (run : Run (.stmt stmt) trace outcome) :
    trace = [stmt.event] ∧ outcome = .done := by
  obtain ⟨noLoop, noChoice, goes⟩ := plain
  cases run with
  | plain _ _ => exact ⟨rfl, goes⟩
  | take choice _ _ => cases choice.symm.trans noChoice
  | pass choice => cases (StmtShape.isChoice_of_mayPass choice).symm.trans noChoice
  | loop loops _ => cases (StmtShape.isLoop_of_body loops).symm.trans noLoop

theorem Stmt.Plain.run (plain : stmt.Plain) : Run (.stmt stmt) [stmt.event] .done := by
  obtain ⟨site, shape⟩ := stmt
  obtain ⟨noLoop, noChoice, goes⟩ := plain
  have ran := @Run.plain site shape noLoop noChoice
  rwa [show shape.outcome = .done from goes] at ran

theorem Stmt.Plain.run_cons (plain : stmt.Plain) :
    Run (.body (stmt :: rest)) trace outcome ↔
      ∃ others, trace = stmt.event :: others ∧ Run (.body rest) others outcome := by
  constructor
  · intro run
    cases run with
    | next head tail =>
        obtain ⟨rfl, _⟩ := plain.run_inv head
        exact ⟨_, rfl, tail⟩
    | skip head early => exact absurd (plain.run_inv head).2 early
  · rintro ⟨others, rfl, tail⟩
    exact .next plain.run tail

theorem Run.plains {plains : List StoredStmt} (all : ∀ stmt ∈ plains, stmt.Plain)
    (run : Run (.body (plains ++ rest)) trace outcome) :
    ∃ others, trace = plains.map Stmt.event ++ others ∧ Run (.body rest) others outcome := by
  induction plains generalizing trace with
  | nil => exact ⟨trace, rfl, run⟩
  | cons first others ih =>
      obtain ⟨later, rfl, tail⟩ := (all first List.mem_cons_self).run_cons.mp run
      obtain ⟨last, rfl, ends⟩ :=
        ih (fun stmt member => all stmt (List.mem_cons_of_mem _ member)) tail
      exact ⟨last, rfl, ends⟩

/-- A run of two lists is one of the first that goes on with one of the second, or that leaves
both. -/
theorem Run.split {front back : List StoredStmt} (run : Run (.body (front ++ back)) trace outcome) :
    (∃ first second, trace = first ++ second ∧ Run (.body front) first .done ∧
      Run (.body back) second outcome) ∨ outcome ≠ .done ∧ Run (.body front) trace outcome := by
  induction front generalizing trace with
  | nil => exact .inl ⟨[], trace, rfl, .nil, run⟩
  | cons stmt rest ih =>
      cases run with
      | @next _ _ first others _ head tail =>
          rcases ih tail with ⟨middle, last, rfl, goes, ends⟩ | ⟨early, goes⟩
          · exact .inl ⟨first ++ middle, last, (List.append_assoc ..).symm, .next head goes, ends⟩
          · exact .inr ⟨early, .next head goes⟩
      | skip head early => exact .inr ⟨early, .skip head early⟩

/-- A run of a loop is one of its rounds. -/
theorem Run.loop_inv {site : Site} {shape : StmtShape StoredExpr (List StoredStmt)}
    {inner : List StoredStmt} (loops : shape.loopBody? = some inner)
    (run : Run (.stmt (.node site shape)) trace outcome) :
    ∃ rounds, trace = .ran site shape.own :: rounds ∧ Run (.rounds site inner) rounds outcome := by
  cases run with
  | plain noLoop _ => cases (StmtShape.isLoop_of_body loops).symm.trans noLoop
  | take choice _ _ => cases (StmtShape.isChoice_of_body loops).symm.trans choice
  | pass passes =>
    cases (StmtShape.isChoice_of_body loops).symm.trans (StmtShape.isChoice_of_mayPass passes)
  | loop found runs =>
      cases loops.symm.trans found
      exact ⟨_, rfl, runs⟩

theorem Run.rounds_outcome {loop : Site} {body : List StoredStmt}
    (run : Run (.rounds loop body) trace outcome) : outcome = .done ∨ outcome = .left := by
  generalize same : Code.rounds loop body = code at run
  induction run with
  | stop => exact .inl rfl
  | again _ _ _ _ ih => exact ih same
  | @exit _ _ _ ended _ _ ends _ =>
      cases ended with
      | broke => exact .inl (Option.some.inj ends).symm
      | left => exact .inr (Option.some.inj ends).symm
      | done => cases ends
      | continued => cases ends
  | _ => cases same

end

/-- What is to be shown of the trace of a run, given whether the run returned, adds up along the
trace. -/
structure Additive (Q : Bool → List Event → Prop) : Prop where
  nil : Q false []
  append : ∀ {returned : Bool} {trace others : List Event}, Q false trace → Q returned others →
      Q returned (trace ++ others)

namespace Additive

variable {Q : Bool → List Event → Prop}

/-- Every run of the code is as it should be. -/
def OnRuns (Q : Bool → List Event → Prop) (code : Code) : Prop :=
  ∀ trace outcome, Run code trace outcome → Q (outcome = .left) trace

theorem cons (closed : Additive Q) {stmt : StoredStmt} {rest : List StoredStmt}
    (head : OnRuns Q (.stmt stmt)) (tail : OnRuns Q (.body rest)) :
    OnRuns Q (.body (stmt :: rest)) := by
  intro trace outcome run
  cases run with
  | next first later => exact closed.append (head _ _ first) (tail _ _ later)
  | skip first _ => exact head _ _ first

theorem followed (closed : Additive Q) {front back : List StoredStmt}
    (first : OnRuns Q (.body front)) (second : OnRuns Q (.body back)) :
    OnRuns Q (.body (front ++ back)) := by
  intro trace outcome run
  rcases run.split with ⟨start, rest, rfl, goes, ends⟩ | ⟨_, goes⟩
  · exact closed.append (first _ _ goes) (second _ _ ends)
  · exact first _ _ goes

theorem nil_runs (closed : Additive Q) : OnRuns Q (.body []) := by
  intro trace outcome run
  cases run
  exact closed.nil

theorem plain (closed : Additive Q) {stmt : StoredStmt} {rest : List StoredStmt}
    (isPlain : stmt.Plain) (own : Q false [stmt.event]) (tail : OnRuns Q (.body rest)) :
    OnRuns Q (.body (stmt :: rest)) := by
  intro trace outcome run
  obtain ⟨others, rfl, later⟩ := isPlain.run_cons.mp run
  exact closed.append own (tail _ _ later)

theorem plains (closed : Additive Q) {list : List StoredStmt}
    (all : ∀ stmt ∈ list, stmt.Plain ∧ Q false [stmt.event]) : OnRuns Q (.body list) := by
  induction list with
  | nil => exact closed.nil_runs
  | cons stmt rest ih =>
      obtain ⟨isPlain, own⟩ := all stmt List.mem_cons_self
      exact closed.plain isPlain own
        (ih fun other member => all other (List.mem_cons_of_mem _ member))

theorem rounds (closed : Additive Q) {loop : Site} {body : List StoredStmt}
    (enters : Q false [.entered loop]) (round : OnRuns Q (.body body)) :
    OnRuns Q (.rounds loop body) := by
  intro trace outcome run
  generalize same : Code.rounds loop body = code at run
  induction run with
  | stop => exact closed.nil
  | @again _ _ _ _ ended _ runs stays _ _ ih =>
      cases same
      have stayed := round _ _ runs
      -- A round that goes on has not been left.
      have notLeft : ended ≠ .left := fun left => by rw [left] at stays; cases stays
      rw [decide_eq_false notLeft] at stayed
      exact closed.append enters (closed.append stayed (ih rfl))
  | @exit _ _ _ ended last runs ends _ =>
      cases same
      have whole := round _ _ runs
      have sameEnd : (decide (ended = .left)) = decide (last = .left) := by
        cases ended <;> cases ends <;> rfl
      rw [sameEnd] at whole
      exact closed.append enters whole
  | _ => cases same

theorem leave {site : Site} (own : Q true [.ran site .leave]) :
    OnRuns Q (.stmt (.node site .leave)) := by
  intro trace outcome run
  cases run with
  | plain _ _ => exact own
  | take choice _ _ => cases choice
  | pass passes => cases passes
  | loop loops _ => cases loops

theorem loop (closed : Additive Q) {site : Site} {shape : StmtShape StoredExpr (List StoredStmt)}
    {inner : List StoredStmt} (single : shape.bodies = [inner]) (isLoop : shape.isLoop = true)
    (own : Q false [.ran site shape.own]) (enters : Q false [.entered site])
    (round : OnRuns Q (.body inner)) : OnRuns Q (.stmt (.node site shape)) := by
  intro trace outcome run
  obtain ⟨rounds, rfl, runs⟩ := run.loop_inv (StmtShape.body_of_bodies isLoop single)
  exact closed.append own (closed.rounds enters round _ _ runs)

theorem stmt (closed : Additive Q) {site : Site} {shape : StmtShape StoredExpr (List StoredStmt)}
    (noLoop : shape.isLoop = false) (stays : shape.outcome ≠ .left)
    (own : Q false [.ran site shape.own]) (took : ∀ branch, Q false [.took site branch])
    (bodies : ∀ body ∈ shape.bodies, OnRuns Q (.body body)) :
    OnRuns Q (.stmt (.node site shape)) := by
  intro trace outcome run
  cases run with
  | plain _ _ =>
      rw [decide_eq_false stays]
      exact own
  | take _ chosen runs =>
      exact closed.append own
        (closed.append (took _) (bodies _ (List.mem_of_getElem? chosen) _ _ runs))
  | pass _ => exact closed.append own (took _)
  | loop loops _ => cases (StmtShape.isLoop_of_body loops).symm.trans noLoop

end Additive

end ScriptFlow
