import ScriptFlow.Flow.Transfer
import ScriptFlow.Proofs.Expr.Layer

/-!
Layers of statements. Two shapes match when they are built alike, their expressions are related one
by one and so are their bodies. Everything that goes through a shape in order respects a match.
-/

namespace ScriptFlow

namespace StmtShape

variable {A B C D X Y : Type}

def ClauseMatch (R : A → C → Prop) (S : B → D → Prop) (left : A × B) (right : C × D) : Prop :=
  R left.1 right.1 ∧ S left.2 right.2

inductive Match (R : A → C → Prop) (S : B → D → Prop) : StmtShape A B → StmtShape C D → Prop where
  | eval {expr expr'} (quiet : Bool) (exprs : R expr expr') :
      Match R S (.eval expr quiet) (.eval expr' quiet)
  | assign {target target' value value'} (quiet : Bool)
      (targets : R target target') (values : R value value') :
      Match R S (.assign target value quiet) (.assign target' value' quiet)
  | branch {clauses clauses' last last'} (matched : List.Forall₂ (ClauseMatch R S) clauses clauses')
      (lasts : Option.Rel S last last') : Match R S (.branch clauses last) (.branch clauses' last')
  | switch {subject subject' cases cases' last last'} (subjects : R subject subject')
      (matched : List.Forall₂ (ClauseMatch R S) cases cases') (lasts : Option.Rel S last last') :
      Match R S (.switch subject cases last) (.switch subject' cases' last')
  | forLoop {range range' body body'} (var : String) (ranges : R range range')
      (inner : S body body') : Match R S (.forLoop var range body) (.forLoop var range' body')
  | whileLoop {cond cond' body body'} (conds : R cond cond') (inner : S body body') :
      Match R S (.whileLoop cond body) (.whileLoop cond' body')
  | breakLoop : Match R S .breakLoop .breakLoop
  | continueLoop : Match R S .continueLoop .continueLoop
  | leave : Match R S .leave .leave
  | global (names : List String) : Match R S (.global names) (.global names)
  | persistent (names : List String) : Match R S (.persistent names) (.persistent names)

section
variable {R R' : A → C → Prop} {S S' : B → D → Prop}

theorem clause_fsts {clauses : List (A × B)} {clauses' : List (C × D)}
    (matched : List.Forall₂ (ClauseMatch R S) clauses clauses') :
    List.Forall₂ R (clauses.map Prod.fst) (clauses'.map Prod.fst) := by
  induction matched with
  | nil => exact .nil
  | cons head _ ih => exact .cons head.1 ih

theorem clause_snds {clauses : List (A × B)} {clauses' : List (C × D)}
    (matched : List.Forall₂ (ClauseMatch R S) clauses clauses') :
    List.Forall₂ S (clauses.map Prod.snd) (clauses'.map Prod.snd) := by
  induction matched with
  | nil => exact .nil
  | cons head _ ih => exact .cons head.2 ih

theorem option_list {last : Option B} {last' : Option D} (lasts : Option.Rel S last last') :
    List.Forall₂ S last.toList last'.toList := by
  cases lasts with
  | none => exact .nil
  | some inner => exact .cons inner .nil

variable {left : StmtShape A B} {right : StmtShape C D}

theorem Match.guards (matched : Match R S left right) :
    List.Forall₂ R left.guards right.guards := by
  cases matched with
  | branch clauses _ => exact clause_fsts clauses
  | switch subject clauses _ => exact .cons subject (clause_fsts clauses)
  | forLoop _ range _ => exact .cons range .nil
  | whileLoop cond _ => exact .cons cond .nil
  | _ => exact .nil

theorem Match.exprs (matched : Match R S left right) : List.Forall₂ R left.exprs right.exprs := by
  have guards := matched.guards
  cases matched with
  | eval _ expr => exact .cons expr .nil
  | assign _ target value => exact .cons target (.cons value .nil)
  | _ => exact guards

theorem Match.bodies (matched : Match R S left right) :
    List.Forall₂ S left.bodies right.bodies := by
  cases matched with
  | branch clauses last => exact List.rel_append (clause_snds clauses) (option_list last)
  | switch _ clauses last => exact List.rel_append (clause_snds clauses) (option_list last)
  | forLoop _ _ inner | whileLoop _ inner => exact .cons inner .nil
  | _ => exact .nil

theorem Match.imp (matched : Match R S left right)
    (exprs : ∀ a ∈ left.exprs, ∀ c ∈ right.exprs, R a c → R' a c)
    (bodies : ∀ b ∈ left.bodies, ∀ d ∈ right.bodies, S b d → S' b d) : Match R' S' left right := by
  -- Clauses and a last body carry their relation one by one, each with its place in the two shapes.
  have clauses {items : List (A × B)} {items' : List (C × D)}
      (related : List.Forall₂ (ClauseMatch R S) items items')
      (inExprs : ∀ item ∈ items, item.1 ∈ left.exprs)
        (inExprs' : ∀ item ∈ items', item.1 ∈ right.exprs)
      (inBodies : ∀ item ∈ items, item.2 ∈ left.bodies)
      (inBodies' : ∀ item ∈ items', item.2 ∈ right.bodies) :
      List.Forall₂ (ClauseMatch R' S') items items' := by
    induction related with
    | nil => exact .nil
    | cons head _ ih =>
        simp only [List.mem_cons, forall_eq_or_imp] at inExprs inExprs' inBodies inBodies'
        exact .cons ⟨exprs _ inExprs.1 _ inExprs'.1 head.1,
          bodies _ inBodies.1 _ inBodies'.1 head.2⟩ (ih inExprs.2 inExprs'.2 inBodies.2 inBodies'.2)
  have option {last : Option B} {last' : Option D} (related : Option.Rel S last last')
      (inBodies : ∀ b ∈ last, b ∈ left.bodies) (inBodies' : ∀ d ∈ last', d ∈ right.bodies) :
      Option.Rel S' last last' := by
    cases related with
    | none => exact .none
    | some inner => exact .some (bodies _ (inBodies _ rfl) _ (inBodies' _ rfl) inner)
  cases matched with
  | eval quiet expr =>
    exact .eval quiet (exprs _ (by simp [StmtShape.exprs]) _ (by simp [StmtShape.exprs]) expr)
  | assign quiet target value =>
      exact .assign quiet (exprs _ (by simp [StmtShape.exprs]) _ (by simp [StmtShape.exprs]) target)
        (exprs _ (by simp [StmtShape.exprs]) _ (by simp [StmtShape.exprs]) value)
  | branch items last =>
      refine .branch (clauses items ?_ ?_ ?_ ?_) (option last ?_ ?_) <;>
        simp +contextual [StmtShape.exprs, StmtShape.guards, StmtShape.bodies]
      all_goals
        intro a b member
        first | exact ⟨_, member⟩ | exact .inl ⟨_, member⟩
  | switch subject items last =>
      refine .switch (exprs _ ?_ _ ?_ subject) (clauses items ?_ ?_ ?_ ?_) (option last ?_ ?_) <;>
        simp +contextual [StmtShape.exprs, StmtShape.guards, StmtShape.bodies]
      all_goals
        intro a b member
        first | exact .inr ⟨_, member⟩ | exact .inl ⟨_, member⟩
  | forLoop var range inner =>
      exact .forLoop var (exprs _ (by simp [StmtShape.exprs, StmtShape.guards]) _
          (by simp [StmtShape.exprs, StmtShape.guards]) range)
        (bodies _ (by simp [StmtShape.bodies]) _ (by simp [StmtShape.bodies]) inner)
  | whileLoop cond inner =>
      exact .whileLoop (exprs _ (by simp [StmtShape.exprs, StmtShape.guards]) _
          (by simp [StmtShape.exprs, StmtShape.guards]) cond)
        (bodies _ (by simp [StmtShape.bodies]) _ (by simp [StmtShape.bodies]) inner)
  | breakLoop => exact .breakLoop
  | continueLoop => exact .continueLoop
  | leave => exact .leave
  | global names => exact .global names
  | persistent names => exact .persistent names

end

section
variable {E : Type}

theorem match_self {R : A → A → Prop} {S : B → B → Prop} {shape : StmtShape A B}
    (exprs : ∀ a ∈ shape.exprs, R a a) (bodies : ∀ b ∈ shape.bodies, S b b) :
    Match R S shape shape := by
  have same : Match Eq Eq shape shape := by
    have clauses (items : List (A × B)) : List.Forall₂ (ClauseMatch Eq Eq) items items :=
      List.forall₂_same.mpr fun _ _ => ⟨rfl, rfl⟩
    have option (last : Option B) : Option.Rel Eq last last := by
      cases last with
      | none => exact .none
      | some inner => exact .some rfl
    cases shape with
    | eval _ quiet => exact .eval quiet rfl
    | assign _ _ quiet => exact .assign quiet rfl rfl
    | branch items last => exact .branch (clauses items) (option last)
    | switch _ items last => exact .switch rfl (clauses items) (option last)
    | forLoop var _ _ => exact .forLoop var rfl rfl
    | whileLoop _ _ => exact .whileLoop rfl rfl
    | breakLoop => exact .breakLoop
    | continueLoop => exact .continueLoop
    | leave => exact .leave
    | global names => exact .global names
    | persistent names => exact .persistent names
  exact same.imp (fun a member _ _ equal => equal ▸ exprs a member)
    (fun b member _ _ equal => equal ▸ bodies b member)

theorem Match.flip {R : A → C → Prop} {S : B → D → Prop} {left : StmtShape A B}
    {right : StmtShape C D} (matched : Match R S left right) :
    Match (fun c a => R a c) (fun d b => S b d) right left := by
  have clauses {items : List (A × B)} {items' : List (C × D)}
      (related : List.Forall₂ (ClauseMatch R S) items items') :
      List.Forall₂ (ClauseMatch (fun c a => R a c) fun d b => S b d) items' items := by
    induction related with
    | nil => exact .nil
    | cons head _ ih => exact .cons head ih
  have option {last : Option B} {last' : Option D} (related : Option.Rel S last last') :
      Option.Rel (fun d b => S b d) last' last := by
    cases related with
    | none => exact .none
    | some inner => exact .some inner
  cases matched with
  | eval quiet expr => exact .eval quiet expr
  | assign quiet target value => exact .assign quiet target value
  | branch items last => exact .branch (clauses items) (option last)
  | switch subject items last => exact .switch subject (clauses items) (option last)
  | forLoop var range inner => exact .forLoop var range inner
  | whileLoop cond inner => exact .whileLoop cond inner
  | breakLoop => exact .breakLoop
  | continueLoop => exact .continueLoop
  | leave => exact .leave
  | global names => exact .global names
  | persistent names => exact .persistent names

theorem Match.mapped {X' Y' : Type} {R : X → X' → Prop} {S : Y → Y' → Prop} {f : A → X} {g : B → Y}
    {f' : C → X'} {g' : D → Y'} {left : StmtShape A B} {right : StmtShape C D}
    (matched : Match (fun a c => R (f a) (f' c)) (fun b d => S (g b) (g' d)) left right) :
    Match R S (left.map f g) (right.map f' g') := by
  have clauses {items : List (A × B)} {items' : List (C × D)} (related : List.Forall₂
      (ClauseMatch (fun a c => R (f a) (f' c)) fun b d => S (g b) (g' d)) items items') :
      List.Forall₂ (ClauseMatch R S) (items.map (Prod.map f g)) (items'.map (Prod.map f' g')) := by
    induction related with
    | nil => exact .nil
    | cons head _ ih => exact .cons head ih
  have option {last : Option B} {last' : Option D}
      (related : Option.Rel (fun b d => S (g b) (g' d)) last last') :
      Option.Rel S (last.map g) (last'.map g') := by
    cases related with
    | none => exact .none
    | some inner => exact .some inner
  cases matched with
  | eval quiet expr => exact .eval quiet expr
  | assign quiet target value => exact .assign quiet target value
  | branch items last => exact .branch (clauses items) (option last)
  | switch subject items last => exact .switch subject (clauses items) (option last)
  | forLoop var range inner => exact .forLoop var range inner
  | whileLoop cond inner => exact .whileLoop cond inner
  | breakLoop => exact .breakLoop
  | continueLoop => exact .continueLoop
  | leave => exact .leave
  | global names => exact .global names
  | persistent names => exact .persistent names

theorem map_id (shape : StmtShape A B) : shape.map (fun a => a) (fun b => b) = shape := by
  cases shape <;> simp [map]

theorem Match.mapped_right {R : A → X → Prop} {S : B → Y → Prop} {f : C → X} {g : D → Y}
    {left : StmtShape A B} {right : StmtShape C D}
    (matched : Match (fun a c => R a (f c)) (fun b d => S b (g d)) left right) :
    Match R S left (right.map f g) := by
  have whole := Match.mapped (f := fun a => a) (g := fun b => b) matched
  rwa [map_id] at whole

theorem eq_map_of_match {f : A → C} {g : B → D} {left : StmtShape A B} {right : StmtShape C D}
    (matched : Match (fun a c => f a = c) (fun b d => g b = d) left right) :
    left.map f g = right := by
  have clauses {items : List (A × B)} {items' : List (C × D)} (related : List.Forall₂
      (ClauseMatch (fun a c => f a = c) (fun b d => g b = d)) items items') :
      items.map (Prod.map f g) = items' := by
    induction related with
    | nil => rfl
    | cons head _ ih => rw [List.map_cons, ih, Prod.map, head.1, head.2]
  have option {last : Option B} {last' : Option D}
      (related : Option.Rel (fun b d => g b = d) last last') : last.map g = last' := by
    cases related with
    | none => rfl
    | some inner => exact congrArg some inner
  cases matched with
  | eval _ expr => rw [map, expr]
  | assign _ target value => rw [map, target, value]
  | branch items last => rw [map, clauses items, option last]
  | switch subject items last => rw [map, subject, clauses items, option last]
  | forLoop _ range inner => rw [map, range, inner]
  | whileLoop cond inner => rw [map, cond, inner]
  | _ => rfl

theorem mapM_of_match {f : A → Except E C} {g : B → Except E D} {left : StmtShape A B}
    {right : StmtShape C D}
    (matched : Match (fun a c => f a = .ok c) (fun b d => g b = .ok d) left right) :
    left.mapM f g = .ok right := by
  have clauses {items : List (A × B)} {items' : List (C × D)} (related : List.Forall₂
      (ClauseMatch (fun a c => f a = .ok c) (fun b d => g b = .ok d)) items items') :
      items.mapM (mapClauseM f g) = .ok items' := by
    induction related with
    | nil => rfl
    | cons head _ ih =>
        simp only [List.mapM_cons, mapClauseM, head.1, head.2, ih]
        rfl
  have option {last : Option B} {last' : Option D}
      (related : Option.Rel (fun b d => g b = .ok d) last last') : last.mapM g = .ok last' := by
    cases related with
    | none => rfl
    | some inner =>
        simp only [Option.mapM_some, inner]
        rfl
  cases matched with
  | eval _ expr =>
      simp only [mapM, expr]
      rfl
  | assign _ target value =>
      simp only [mapM, target, value]
      rfl
  | branch items last =>
      simp only [mapM, clauses items, option last]
      rfl
  | switch subject items last =>
      simp only [mapM, subject, clauses items, option last]
      rfl
  | forLoop _ range inner =>
      simp only [mapM, range, inner]
      rfl
  | whileLoop cond inner =>
      simp only [mapM, cond, inner]
      rfl
  | _ => rfl

theorem mapM_map_ok {f : A → C} {g : B → D} {f' : A → X} {g' : B → Y}
    {act : C → Except E X} {inner : D → Except E Y} {shape : StmtShape A B}
    (exprs : ∀ a ∈ shape.exprs, act (f a) = .ok (f' a))
    (bodies : ∀ b ∈ shape.bodies, inner (g b) = .ok (g' b)) :
    (shape.map f g).mapM act inner = .ok (shape.map f' g') :=
  mapM_of_match (match_self exprs bodies).mapped

end

theorem map_map {X Y : Type} (f : A → C) (g : B → D) (f' : C → X) (g' : D → Y)
    (shape : StmtShape A B) : (shape.map f g).map f' g' = shape.map (f' ∘ f) (g' ∘ g) := by
  cases shape <;> simp [map]

theorem map_congr {f f' : A → C} {g g' : B → D} {shape : StmtShape A B}
    (exprs : ∀ a ∈ shape.exprs, f a = f' a) (bodies : ∀ b ∈ shape.bodies, g b = g' b) :
    shape.map f g = shape.map f' g' :=
  eq_map_of_match (match_self (R := fun a c => f a = f' c) exprs bodies).mapped_right

theorem exprs_map (f : A → C) (g : B → D) (shape : StmtShape A B) :
    (shape.map f g).exprs = shape.exprs.map f := by
  cases shape <;> simp [map, exprs, guards]

end StmtShape

namespace Stmt

variable {Label Operand : Type}

theorem induction {P : Stmt Label Operand → Prop}
    (node : ∀ label shape, (∀ inner ∈ shape.bodies.flatten, P inner) → P (.node label shape))
    (stmt : Stmt Label Operand) : P stmt :=
  tree_induction nested_shrink (fun | .node label shape => node label shape) stmt

theorem body_induction {P : List (Stmt Label Operand) → Prop} (nil : P [])
    (cons : ∀ stmt rest, P [stmt] → P rest → P (stmt :: rest))
    (node : ∀ label shape, (∀ body ∈ shape.bodies, P body) → P [.node label shape])
    (body : List (Stmt Label Operand)) : P body := by
  have list (body : List (Stmt Label Operand)) (each : ∀ stmt ∈ body, P [stmt]) : P body := by
    induction body with
    | nil => exact nil
    | cons stmt rest ih =>
        apply cons stmt rest (each stmt List.mem_cons_self)
        exact ih fun inner member => each inner (List.mem_cons_of_mem _ member)
  have single (stmt : Stmt Label Operand) : P [stmt] := by
    induction stmt using Stmt.induction with
    | node label shape ih =>
        apply node label shape
        intro inner member
        exact list inner fun stmt below => ih stmt (List.mem_flatten.mpr ⟨inner, member, below⟩)
  exact list body fun stmt _ => single stmt

@[simp] theorem label_node (label : Label) (shape) :
    (Stmt.node label shape : Stmt Label Operand).label = label := rfl

@[simp] theorem shape_node (label : Label) (shape) :
    (Stmt.node label shape : Stmt Label Operand).shape = shape := rfl

@[simp] theorem within_nil : within ([] : List (Stmt Label Operand)) = [] := preorder_nil

theorem within_append (front back : List (Stmt Label Operand)) :
    within (front ++ back) = within front ++ within back := preorder_append front back

theorem within_cons (stmt : Stmt Label Operand) (rest : List (Stmt Label Operand)) :
    within (stmt :: rest) = stmt :: (within stmt.nested ++ within rest) := by
  rw [within, preorder_cons, preorder_append]
  rfl

theorem within_leaves {body : List (Stmt Label Operand)}
    (leaves : ∀ stmt ∈ body, stmt.nested = []) : within body = body := by
  induction body with
  | nil => exact within_nil
  | cons stmt rest ih =>
      rw [within_cons, leaves stmt List.mem_cons_self, within_nil, List.nil_append,
        ih fun other member => leaves other (List.mem_cons_of_mem _ member)]

theorem within_leaf {stmt : Stmt Label Operand} (leaf : stmt.nested = []) :
    within [stmt] = [stmt] :=
  within_leaves fun _ member => List.mem_singleton.mp member ▸ leaf

theorem within_node (label : Label) (shape : StmtShape Operand (List (Stmt Label Operand))) :
    within [node label shape] = node label shape :: within shape.bodies.flatten := by
  rw [within_cons, within_nil, List.append_nil]
  rfl

theorem within_flatten (bodies : List (List (Stmt Label Operand))) :
    within bodies.flatten = bodies.flatMap within := by
  induction bodies with
  | nil => simp
  | cons body rest ih => rw [List.flatten_cons, within_append, ih, List.flatMap_cons]

theorem within_flatMap (body : List (Stmt Label Operand)) :
    within body = body.flatMap fun stmt => within [stmt] := by
  induction body with
  | nil => simp
  | cons stmt rest ih =>
      rw [← List.singleton_append, within_append, ih, List.flatMap_append, List.flatMap_singleton]

theorem mem_within_of_mem {stmt inner : Stmt Label Operand} {body : List (Stmt Label Operand)}
    (member : stmt ∈ body) (visited : inner ∈ within [stmt]) : inner ∈ within body := by
  rw [within_flatMap]
  exact List.mem_flatMap.mpr ⟨stmt, member, visited⟩

theorem mem_within_self {stmt : Stmt Label Operand} {body : List (Stmt Label Operand)}
    (member : stmt ∈ body) : stmt ∈ within body := mem_preorder_self member

theorem mem_within_trans {stmt inner : Stmt Label Operand} {body : List (Stmt Label Operand)}
    (visited : stmt ∈ within body) (below : inner ∈ within stmt.nested) : inner ∈ within body :=
  preorder_subset visited inner below

theorem mem_within_of_body {label : Label} {shape : StmtShape Operand (List (Stmt Label Operand))}
    {body rest : List (Stmt Label Operand)} {inner : Stmt Label Operand}
    (member : body ∈ shape.bodies) (visited : inner ∈ within body) :
    inner ∈ within (.node label shape :: rest) := by
  rw [within_cons, nested, bodies, shape_node, within_flatten]
  exact List.mem_cons_of_mem _
    (List.mem_append_left _ (List.mem_flatMap.mpr ⟨body, member, visited⟩))

theorem mem_within_of_rest {stmt inner : Stmt Label Operand} {rest : List (Stmt Label Operand)}
    (visited : inner ∈ within rest) : inner ∈ within (stmt :: rest) := by
  rw [within_cons]
  exact List.mem_cons_of_mem _ (List.mem_append_right _ visited)

theorem forall_within_node {P : Stmt Label Operand → Prop} {label : Label}
    {shape : StmtShape Operand (List (Stmt Label Operand))} :
    (∀ inner ∈ within [node label shape], P inner) ↔ P (node label shape) ∧
      ∀ body ∈ shape.bodies, ∀ stmt ∈ body, ∀ inner ∈ within [stmt], P inner := by
  constructor
  · intro all
    refine ⟨all _ (mem_within_self List.mem_cons_self),
      fun body member inner inside deep visited => all deep ?_⟩
    exact mem_within_of_body member (mem_within_of_mem inside visited)
  · rintro ⟨own, bodies⟩ inner visited
    rw [within_node, List.mem_cons] at visited
    rcases visited with rfl | below
    · exact own
    · rw [within_flatMap, List.mem_flatMap] at below
      obtain ⟨stmt, member, visited⟩ := below
      obtain ⟨body, inBodies, inBody⟩ := List.mem_flatten.mp member
      exact bodies body inBodies stmt inBody inner visited

theorem size_node (label : Label) (shape : StmtShape Operand (List (Stmt Label Operand))) :
    (node label shape).size = 1 + total (shape.bodies.flatten.map size) := by
  simp only [size, fold_node, StmtShape.bodies_map, List.map_flatten]

theorem size_lt_of_nested (label : Label) {shape : StmtShape Operand (List (Stmt Label Operand))}
    {inner : Stmt Label Operand} (below : inner ∈ shape.bodies.flatten) :
    inner.size < (node label shape).size := by
  have bound := le_total (List.mem_map_of_mem (f := size) below)
  rw [size_node]
  omega

theorem length_within (body : List (Stmt Label Operand)) :
    (within body).length = total (body.map size) :=
  length_preorder (fun tree => by cases tree; exact size_node _ _) body

end Stmt
end ScriptFlow
