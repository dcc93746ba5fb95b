import ScriptFlow.Proofs.Stmt.Layer

/-!
Traversals with a state. Going through a shape from left to right threads the state through its
parts, so what every single step does adds up over the list of the parts.
-/

namespace ScriptFlow

section
variable {S A B C D T U : Type}

/-- Each item became a result, and every step went on from the state that the one before left. -/
inductive Threaded (P : S → A → T → S → Prop) : S → List A → List T → S → Prop where
  | nil (state : S) : Threaded P state [] [] state
  | cons {before between after item result items results} (head : P before item result between)
      (tail : Threaded P between items results after) :
      Threaded P before (item :: items) (result :: results) after

theorem Threaded.append {P : S → A → T → S → Prop} {before between after : S}
    {items others : List A} {results more : List T}
    (first : Threaded P before items results between)
    (second : Threaded P between others more after) :
    Threaded P before (items ++ others) (results ++ more) after := by
  induction first with
  | nil => exact second
  | cons head _ ih => exact .cons head (ih second)

theorem Threaded.flatten {P : S → A → T → S → Prop} {before after : S} {rows : List (List A)}
    {results : List (List T)} (threaded : Threaded (fun s row result s' =>
      Threaded P s row result s') before rows results after) :
    Threaded P before rows.flatten results.flatten after := by
  induction threaded with
  | nil => exact .nil _
  | cons head _ ih => exact head.append ih

theorem Threaded.map_eq {X : Type} {P : S → A → T → S → Prop} {f : A → X}
    {g : T → X} {before after : S} {items : List A} {results : List T}
    (threaded : Threaded P before items results after) (same : ∀ s a t s', P s a t s' → f a = g t) :
    items.map f = results.map g := by
  induction threaded with
  | nil => rfl
  | cons head _ ih => rw [List.map_cons, List.map_cons, same _ _ _ _ head, ih]

theorem Threaded.imp {P Q : S → A → T → S → Prop} {before after : S} {items : List A}
    {results : List T} (threaded : Threaded P before items results after)
    (step : ∀ a ∈ items, ∀ s t s', P s a t s' → Q s a t s') :
    Threaded Q before items results after := by
  induction threaded with
  | nil => exact .nil _
  | cons head _ ih =>
      exact .cons (step _ List.mem_cons_self _ _ _ head)
        (ih fun a member => step a (List.mem_cons_of_mem _ member))

theorem Threaded.results {P : S → A → T → S → Prop} {Q : T → Prop} {before after : S}
    {items : List A} {results : List T} (threaded : Threaded P before items results after)
    (each : ∀ s a t s', P s a t s' → Q t) : ∀ t ∈ results, Q t := by
  induction threaded with
  | nil => exact fun t member => absurd member List.not_mem_nil
  | cons head _ ih =>
      intro t member
      rcases List.mem_cons.mp member with rfl | later
      · exact each _ _ _ _ head
      · exact ih t later

theorem run_bind {first : StateM S A} {next : A → StateM S B} {before : S} :
    (first >>= next).run before = (next (first.run before).1).run (first.run before).2 := rfl

theorem run_pure (a : A) (before : S) : (pure a : StateM S A).run before = (a, before) := rfl

theorem mapM_run_mem {act : A → StateM S B} {f : A → B} {items : List A}
    {number : S} (ran : ((items.mapM act).run number).1 = items.map f) :
    ∀ a ∈ items, ∃ start, ((act a).run start).1 = f a := by
  induction items generalizing number with
  | nil => exact fun _ member => absurd member List.not_mem_nil
  | cons first rest ih =>
      rw [List.mapM_cons] at ran
      obtain ⟨head, tail⟩ := List.cons.inj ran
      intro a member
      rcases List.mem_cons.mp member with rfl | later
      · exact ⟨number, head⟩
      · exact ih tail a later

theorem mapM_threaded {act : A → StateM S B} {out : T → B} {P : S → A → T → S → Prop}
    {items : List A} (acts : ∀ a ∈ items, ∀ s, ∃ t s', (act a).run s = (out t, s') ∧ P s a t s')
    (before : S) : ∃ results after, (items.mapM act).run before = (results.map out, after) ∧
      Threaded P before items results after := by
  induction items generalizing before with
  | nil => exact ⟨[], before, rfl, .nil before⟩
  | cons first rest ih =>
      obtain ⟨result, between, ran, head⟩ := acts first List.mem_cons_self before
      obtain ⟨results, after, others, tail⟩ :=
        ih (fun a member => acts a (List.mem_cons_of_mem _ member)) between
      refine ⟨result :: results, after, ?_, .cons head tail⟩
      simp only [List.mapM_cons, run_bind, run_pure, ran, others, List.map_cons]

theorem mapM_threaded_option {act : A → StateM S B} {out : T → B} {P : S → A → T → S → Prop}
    {item : Option A} (acts : ∀ a ∈ item, ∀ s, ∃ t s', (act a).run s = (out t, s') ∧ P s a t s')
    (before : S) :
    ∃ result after, (item.mapM act).run before = (Option.map out result, after) ∧
      Threaded P before item.toList result.toList after ∧
      Option.Rel (fun a t => ∃ s s', P s a t s') item result := by
  cases item with
  | none => exact ⟨none, before, rfl, .nil before, .none⟩
  | some a =>
      obtain ⟨result, after, ran, head⟩ := acts a rfl before
      refine ⟨some result, after, ?_, .cons head (.nil after), .some ⟨_, _, head⟩⟩
      simp only [Option.mapM_some, map_eq_pure_bind, run_bind, run_pure, ran, Option.map_some]

end

namespace ExprShape

variable {S A B C T X : Type}

theorem mapM_map {M : Type → Type} [Monad M] [LawfulMonad M] (f : A → B) (act : B → M C)
    (shape : ExprShape A) : (shape.map f).mapM act = shape.mapM (fun a => act (f a)) := by
  have rows (items : List (List A)) :
      (items.map (·.map f)).mapM (·.mapM act) = items.mapM (·.mapM fun a => act (f a)) := by
    rw [List.mapM_map]
    simp only [Function.comp_def, List.mapM_map]
  cases shape with
  | matrix items | cell items => simp only [map, mapM, rows]
  | range start step stop => cases step <;> simp [map, mapM]
  | _ => simp [map, mapM, List.mapM_map, Function.comp_def]

theorem mapM_threaded {act : A → StateM S B} {out : T → B}
    {P : S → A → T → S → Prop} {shape : ExprShape A}
    (acts : ∀ a ∈ shape.operands, ∀ s, ∃ t s', (act a).run s = (out t, s') ∧ P s a t s')
    (before : S) :
    ∃ (result : ExprShape T) (after : S), (shape.mapM act).run before = (result.map out, after) ∧
      Threaded P before shape.operands result.operands after ∧
      ∀ {X : Type} (f : A → X) (g : T → X), (∀ s a t s', P s a t s' → f a = g t) →
        shape.map f = result.map g := by
  -- Operands that come in lists or rows thread the state through them in order, as single ones do.
  have row (items : List A) (inside : ∀ a ∈ items, a ∈ shape.operands) (before : S) :
      ∃ results after, (items.mapM act).run before = (results.map out, after) ∧
        Threaded P before items results after :=
    ScriptFlow.mapM_threaded (fun a member => acts a (inside a member)) before
  have grid (rows : List (List A)) (inside : ∀ a ∈ rows.flatten, a ∈ shape.operands)
      (before : S) : ∃ results after, (rows.mapM fun items : List A =>
      items.mapM act).run before = (results.map (·.map out), after) ∧
      Threaded (fun s row result s' => Threaded P s row result s') before rows results after :=
    ScriptFlow.mapM_threaded (fun items member =>
      row items fun a below => inside a (List.mem_flatten.mpr ⟨items, member, below⟩)) before
  cases shape with
  | num text => exact ⟨.num text, before, rfl, .nil _, fun _ _ _ => rfl⟩
  | str text quoting => exact ⟨.str text quoting, before, rfl, .nil _, fun _ _ _ => rfl⟩
  | name n => exact ⟨.name n, before, rfl, .nil _, fun _ _ _ => rfl⟩
  | colon => exact ⟨.colon, before, rfl, .nil _, fun _ _ _ => rfl⟩
  | last => exact ⟨.last, before, rfl, .nil _, fun _ _ _ => rfl⟩
  | param head args =>
      obtain ⟨first, between, ran, step⟩ := acts head List.mem_cons_self before
      obtain ⟨others, after, rest, steps⟩ :=
        row args (fun a member => List.mem_cons_of_mem _ member) between
      refine ⟨.param first others, after, ?_, .cons step steps, fun f g same => ?_⟩
      · simp only [mapM, run_bind, run_pure, ran, rest, map]
      · simp only [map, same _ _ _ _ step, steps.map_eq same]
  | cellIndex head args =>
      obtain ⟨first, between, ran, step⟩ := acts head List.mem_cons_self before
      obtain ⟨others, after, rest, steps⟩ :=
        row args (fun a member => List.mem_cons_of_mem _ member) between
      refine ⟨.cellIndex first others, after, ?_, .cons step steps, fun f g same => ?_⟩
      · simp only [mapM, run_bind, run_pure, ran, rest, map]
      · simp only [map, same _ _ _ _ step, steps.map_eq same]
  | field base key =>
      obtain ⟨first, after, ran, step⟩ := acts base List.mem_cons_self before
      refine ⟨.field first key, after, ?_, .cons step (.nil _), fun f g same => ?_⟩
      · simp only [mapM, run_bind, run_pure, ran, map]
      · simp only [map, same _ _ _ _ step]
  | matrix rows =>
      obtain ⟨results, after, ran, steps⟩ := grid rows (fun a member => member) before
      refine ⟨.matrix results, after, ?_, steps.flatten, fun f g same => ?_⟩
      · simp only [mapM, run_bind, run_pure, ran, map]
      · simp only [map, steps.map_eq fun _ _ _ _ inner => inner.map_eq same]
  | cell rows =>
      obtain ⟨results, after, ran, steps⟩ := grid rows (fun a member => member) before
      refine ⟨.cell results, after, ?_, steps.flatten, fun f g same => ?_⟩
      · simp only [mapM, run_bind, run_pure, ran, map]
      · simp only [map, steps.map_eq fun _ _ _ _ inner => inner.map_eq same]
  | unary op operand =>
      obtain ⟨first, after, ran, step⟩ := acts operand List.mem_cons_self before
      refine ⟨.unary op first, after, ?_, .cons step (.nil _), fun f g same => ?_⟩
      · simp only [mapM, run_bind, run_pure, ran, map]
      · simp only [map, same _ _ _ _ step]
  | transpose op operand =>
      obtain ⟨first, after, ran, step⟩ := acts operand List.mem_cons_self before
      refine ⟨.transpose op first, after, ?_, .cons step (.nil _), fun f g same => ?_⟩
      · simp only [mapM, run_bind, run_pure, ran, map]
      · simp only [map, same _ _ _ _ step]
  | binary left op right =>
      obtain ⟨first, between, ran, step⟩ := acts left List.mem_cons_self before
      obtain ⟨second, after, ran', step'⟩ :=
        acts right (List.mem_cons_of_mem _ List.mem_cons_self) between
      refine ⟨.binary first op second, after, ?_,
        .cons step (.cons step' (.nil _)), fun f g same => ?_⟩
      · simp only [mapM, run_bind, run_pure, ran, ran', map]
      · simp only [map, same _ _ _ _ step, same _ _ _ _ step']
  | range start step stop =>
      obtain ⟨first, between, ran, head⟩ := acts start List.mem_cons_self before
      have inner : ∀ a ∈ step, ∀ s, ∃ t s', (act a).run s = (out t, s') ∧ P s a t s' :=
        fun a member => acts a (by simp_all [operands])
      obtain ⟨middle, behind, rest, middles, _⟩ := mapM_threaded_option inner between
      obtain ⟨final, after, ran', last⟩ := acts stop (by simp [operands]) behind
      refine ⟨.range first middle final, after, ?_, ?_, fun f g same => ?_⟩
      · simp only [mapM, run_bind, run_pure, ran, rest, ran', map]
      · exact .cons head (middles.append (.cons last (.nil _)))
      · have inner := middles.map_eq same
        have optional : step.map f = middle.map g := by
          cases step <;> cases middle <;> simp_all
        simp only [map, same _ _ _ _ head, same _ _ _ _ last, optional]

end ExprShape
namespace StmtShape

variable {S A B C D T U X Y : Type}

def clauseParts (clause : A × B) : List (A ⊕ B) := [.inl clause.1, .inr clause.2]

def parts : StmtShape A B → List (A ⊕ B)
  | eval expr _ => [.inl expr]
  | assign target value _ => [.inl target, .inl value]
  | branch clauses otherwise => clauses.flatMap clauseParts ++ otherwise.toList.map .inr
  | switch subject cases otherwise =>
      .inl subject :: (cases.flatMap clauseParts ++ otherwise.toList.map .inr)
  | forLoop _ range body => [.inl range, .inr body]
  | whileLoop cond body => [.inl cond, .inr body]
  | _ => []

theorem clauseParts_perm (clauses : List (A × B)) :
    (clauses.flatMap clauseParts).Perm
      ((clauses.map Prod.fst).map .inl ++ (clauses.map Prod.snd).map .inr) := by
  induction clauses with
  | nil => exact .nil
  | cons clause rest ih =>
      simp only [List.flatMap_cons, clauseParts, List.map_cons, List.cons_append, List.nil_append]
      refine .cons _ (.trans (.cons _ ih) ?_)
      exact List.perm_middle.symm

theorem parts_perm (shape : StmtShape A B) :
    shape.parts.Perm (shape.exprs.map .inl ++ shape.bodies.map .inr) := by
  cases shape with
  | branch clauses otherwise =>
      simp only [parts, exprs, guards, bodies, List.map_append, ← List.append_assoc]
      exact (clauseParts_perm clauses).append_right _
  | switch subject cases otherwise =>
      simp only [parts, exprs, guards, bodies, List.map_append, List.map_cons, List.cons_append,
        ← List.append_assoc]
      exact .cons _ ((clauseParts_perm cases).append_right _)
  | _ => exact .refl _

theorem mapM_map {M : Type → Type} [Monad M] [LawfulMonad M] (f : A → X) (g : B → Y) (act : X → M C)
    (inner : Y → M D) (shape : StmtShape A B) :
    (shape.map f g).mapM act inner = shape.mapM (fun a => act (f a)) (fun b => inner (g b)) := by
  have option (last : Option B) : (last.map g).mapM inner = last.mapM fun b => inner (g b) := by
    cases last <;> simp
  have clauses (items : List (A × B)) : (items.map (Prod.map f g)).mapM (mapClauseM act inner) =
      items.mapM (mapClauseM (fun a => act (f a)) fun b => inner (g b)) := by
    rw [List.mapM_map]
    rfl
  cases shape with
  | branch items last => simp only [map, mapM, clauses, option]
  | switch subject items last => simp only [map, mapM, clauses, option]
  | _ => simp [map, mapM]

def PartStep (P : S → A → T → S → Prop) (Q : S → B → U → S → Prop) (before : S) :
    A ⊕ B → T ⊕ U → S → Prop
  | .inl a, .inl t, after => P before a t after
  | .inr b, .inr u, after => Q before b u after
  | _, _, _ => False

section
variable {act : A → StateM S C} {inner : B → StateM S D} {out : T → C} {outer : U → D}
  {P : S → A → T → S → Prop} {Q : S → B → U → S → Prop}

theorem clauses_threaded {clauses : List (A × B)}
    (acts : ∀ clause ∈ clauses, ∀ s, ∃ t s', (act clause.1).run s = (out t, s') ∧ P s clause.1 t s')
    (inners : ∀ clause ∈ clauses, ∀ s, ∃ u s', (inner clause.2).run s = (outer u, s') ∧
      Q s clause.2 u s') (before : S) :
    ∃ (results : List (T × U)) (after : S),
      (clauses.mapM (mapClauseM act inner)).run before = (results.map (Prod.map out outer), after) ∧
      Threaded (PartStep P Q) before (clauses.flatMap clauseParts)
        (results.flatMap clauseParts) after ∧
      List.Forall₂ (ClauseMatch (fun a t => ∃ s s', P s a t s') fun b u => ∃ s s', Q s b u s')
        clauses results := by
  induction clauses generalizing before with
  | nil => exact ⟨[], before, rfl, .nil before, .nil⟩
  | cons clause rest ih =>
      obtain ⟨guard, between, ran, head⟩ := acts clause List.mem_cons_self before
      obtain ⟨body, behind, ran', second⟩ := inners clause List.mem_cons_self between
      obtain ⟨results, after, others, tail, matched⟩ :=
        ih (fun item member => acts item (List.mem_cons_of_mem _ member))
          (fun item member => inners item (List.mem_cons_of_mem _ member)) behind
      refine ⟨(guard, body) :: results, after, ?_, ?_, .cons ⟨⟨_, _, head⟩, _, _, second⟩ matched⟩
      · simp only [List.mapM_cons, mapClauseM, run_bind, run_pure, ran, ran', others,
          List.map_cons, Prod.map]
      · exact .cons head (.cons second tail)

theorem threaded_inr {items : List B} {results : List U} {before after : S}
    (threaded : Threaded Q before items results after) :
    Threaded (PartStep P Q) before (items.map .inr) (results.map .inr) after := by
  induction threaded with
  | nil => exact .nil _
  | cons head _ ih => exact .cons head ih

theorem mapM_threaded {shape : StmtShape A B}
    (acts : ∀ a ∈ shape.exprs, ∀ s, ∃ t s', (act a).run s = (out t, s') ∧ P s a t s')
    (inners : ∀ b ∈ shape.bodies, ∀ s, ∃ u s', (inner b).run s = (outer u, s') ∧ Q s b u s')
    (before : S) :
    ∃ (result : StmtShape T U) (after : S),
      (shape.mapM act inner).run before = (result.map out outer, after) ∧
      Threaded (PartStep P Q) before shape.parts result.parts after ∧
      Match (fun a t => ∃ s s', P s a t s') (fun b u => ∃ s s', Q s b u s') shape result := by
  -- Clauses alternate guards and bodies; a last body comes behind all of them.
  have clauses (items : List (A × B)) (guards : ∀ item ∈ items, item.1 ∈ shape.exprs)
      (blocks : ∀ item ∈ items, item.2 ∈ shape.bodies) :=
    clauses_threaded (fun item member => acts item.1 (guards item member))
      (fun item member => inners item.2 (blocks item member))
  have option (last : Option B) (inside : ∀ b ∈ last, b ∈ shape.bodies) :=
    mapM_threaded_option (fun b member => inners b (inside b member))
  cases shape with
  | eval expr quiet =>
      obtain ⟨first, after, ran, step⟩ := acts expr List.mem_cons_self before
      refine ⟨.eval first quiet, after, ?_, .cons step (.nil _), .eval quiet ⟨_, _, step⟩⟩
      simp only [mapM, run_bind, run_pure, ran, map]
  | assign target value quiet =>
      obtain ⟨first, between, ran, step⟩ := acts target List.mem_cons_self before
      obtain ⟨second, after, ran', step'⟩ :=
        acts value (List.mem_cons_of_mem _ List.mem_cons_self) between
      refine ⟨.assign first second quiet, after, ?_, .cons step (.cons step' (.nil _)),
        .assign quiet ⟨_, _, step⟩ ⟨_, _, step'⟩⟩
      simp only [mapM, run_bind, run_pure, ran, ran', map]
  | branch items last =>
      obtain ⟨results, between, ran, steps, matched⟩ := clauses items
        (fun item member => List.mem_map_of_mem member)
        (fun item member => List.mem_append_left _ (List.mem_map_of_mem member)) before
      obtain ⟨final, after, ran', steps', related⟩ := option last
        (fun b member => List.mem_append_right _ (by simpa using member)) between
      refine ⟨.branch results final, after, ?_, steps.append (threaded_inr steps'),
        .branch matched related⟩
      simp only [mapM, run_bind, run_pure, ran, ran', map]
  | switch subject items last =>
      obtain ⟨first, start, ran, step⟩ := acts subject List.mem_cons_self before
      obtain ⟨results, between, ran', steps, matched⟩ := clauses items
        (fun item member => List.mem_cons_of_mem _ (List.mem_map_of_mem member))
        (fun item member => List.mem_append_left _ (List.mem_map_of_mem member)) start
      obtain ⟨final, after, ran'', steps', related⟩ := option last
        (fun b member => List.mem_append_right _ (by simpa using member)) between
      refine ⟨.switch first results final, after, ?_,
        .cons step (steps.append (threaded_inr steps')), .switch ⟨_, _, step⟩ matched related⟩
      simp only [mapM, run_bind, run_pure, ran, ran', ran'', map]
  | forLoop var range body =>
      obtain ⟨first, between, ran, step⟩ := acts range List.mem_cons_self before
      obtain ⟨nested, after, ran', step'⟩ := inners body List.mem_cons_self between
      refine ⟨.forLoop var first nested, after, ?_, .cons step (.cons step' (.nil _)),
        .forLoop var ⟨_, _, step⟩ ⟨_, _, step'⟩⟩
      simp only [mapM, run_bind, run_pure, ran, ran', map]
  | whileLoop cond body =>
      obtain ⟨first, between, ran, step⟩ := acts cond List.mem_cons_self before
      obtain ⟨nested, after, ran', step'⟩ := inners body List.mem_cons_self between
      refine ⟨.whileLoop first nested, after, ?_, .cons step (.cons step' (.nil _)),
        .whileLoop ⟨_, _, step⟩ ⟨_, _, step'⟩⟩
      simp only [mapM, run_bind, run_pure, ran, ran', map]
  | breakLoop => exact ⟨.breakLoop, before, rfl, .nil _, .breakLoop⟩
  | continueLoop => exact ⟨.continueLoop, before, rfl, .nil _, .continueLoop⟩
  | leave => exact ⟨.leave, before, rfl, .nil _, .leave⟩
  | global names => exact ⟨.global names, before, rfl, .nil _, .global names⟩
  | persistent names => exact ⟨.persistent names, before, rfl, .nil _, .persistent names⟩

end

end StmtShape
end ScriptFlow
