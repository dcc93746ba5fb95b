import ScriptFlow.Proofs.Flow.Annotate

/-!
Flow values as a semilattice. Merging is pointwise, so its laws are those of joining what two maps
have at one name. A transfer takes some names away and then merges a fixed value in, so it takes
merged values to merged values, and so does every composition of transfers that a list of statements
comes to.
-/

namespace ScriptFlow

namespace FlowMap

variable {Value : Type} {merge : Value → Value → Value}

theorem meet_none (value : Option Value) : meet merge value none = value := by cases value <;> rfl

theorem meet_comm (comm : ∀ left right, merge left right = merge right left)
    (left right : Option Value) : meet merge left right = meet merge right left := by
  cases left <;> cases right <;> simp only [meet, comm]

theorem meet_assoc (assoc : ∀ a b c, merge (merge a b) c = merge a (merge b c))
    (first second third : Option Value) :
    meet merge (meet merge first second) third = meet merge first (meet merge second third) := by
  cases first <;> cases second <;> cases third <;> simp only [meet, assoc]

theorem meet_self (idem : ∀ value, merge value value = value) (value : Option Value) :
    meet merge value value = value := by
  cases value <;> simp only [meet, idem]

theorem unionWith_run (left right : FlowMap Value) :
    (unionWith merge right).run left = ((), union merge left right) := by
  rw [union, Std.ExtTreeMap.foldl_eq_foldl_toList, unionWith]
  generalize right.toList = entries
  induction entries generalizing left with
  | nil => rfl
  | cons entry rest ih =>
      rw [List.forIn_cons, List.foldl_cons]
      exact ih (join merge left entry.1 entry.2)

theorem removeKeys_union (keys : NameSet) (left right : FlowMap Value) :
    (union merge left right).removeKeys keys = union merge (left.removeKeys keys)
      (right.removeKeys keys) := by
  refine Std.ExtTreeMap.ext_getElem? fun name => ?_
  simp only [getElem?_removeKeys, getElem?_union]
  split <;> rfl

end FlowMap

namespace FlowValue

theorem union_comm (left right : IdSet) : left ∪ right = right ∪ left :=
  Std.ExtTreeSet.ext_mem fun id => by
    rw [Std.ExtTreeSet.mem_union_iff, Std.ExtTreeSet.mem_union_iff, or_comm]

theorem union_assoc (first second third : IdSet) :
    first ∪ second ∪ third = first ∪ (second ∪ third) :=
  Std.ExtTreeSet.ext_mem fun id => by
    simp only [Std.ExtTreeSet.mem_union_iff, or_assoc]

theorem union_self (set : IdSet) : set ∪ set = set :=
  Std.ExtTreeSet.ext_mem fun id => by
    rw [Std.ExtTreeSet.mem_union_iff, or_self]

variable (x y z : FlowValue) {name : String}

theorem getElem?_merge : (x.merge y)[name]? = FlowMap.meet (· ∪ ·) x[name]? y[name]? :=
  FlowMap.getElem?_union x y

theorem merge_comm : x.merge y = y.merge x :=
  Std.ExtTreeMap.ext_getElem? fun name => by
    rw [getElem?_merge, getElem?_merge, FlowMap.meet_comm union_comm]

theorem merge_assoc : (x.merge y).merge z = x.merge (y.merge z) :=
  Std.ExtTreeMap.ext_getElem? fun name => by
    simp only [getElem?_merge, FlowMap.meet_assoc union_assoc]

theorem merge_self : x.merge x = x :=
  Std.ExtTreeMap.ext_getElem? fun name => by
    rw [getElem?_merge, FlowMap.meet_self union_self]

theorem merge_empty : x.merge ∅ = x :=
  Std.ExtTreeMap.ext_getElem? fun name => by
    rw [getElem?_merge, Std.ExtTreeMap.getElem?_empty, FlowMap.meet_none]

theorem empty_merge : merge ∅ x = x := by rw [merge_comm, merge_empty]

/-- What the value attributes to a name, the other does too, and it has all the names. -/
def Within : Prop :=
  ∀ (name : String) (users : IdSet), x[name]? = some users → ∃ more : IdSet, y[name]? = some more ∧
    ∀ user ∈ users, user ∈ more

variable {x y}

theorem within_iff : x.Within y ↔ x.merge y = y := by
  constructor
  · intro inside
    refine Std.ExtTreeMap.ext_getElem? fun name => ?_
    rw [getElem?_merge]
    cases here : x[name]? with
    | none => rfl
    | some users =>
        obtain ⟨more, there, larger⟩ := inside name users here
        rw [there, FlowMap.meet]
        refine congrArg some (Std.ExtTreeSet.ext_mem fun user => ?_)
        rw [Std.ExtTreeSet.mem_union_iff]
        exact or_iff_right_of_imp (larger user)
  · intro same name users here
    -- The users that x has for a name are among the merged ones, which are those of y.
    have there : (x.merge y)[name]? = FlowMap.meet (· ∪ ·) x[name]? y[name]? := getElem?_merge x y
    rw [same, here] at there
    cases other : y[name]? with
    | none =>
        rw [other] at there
        cases there
    | some more =>
        rw [other, FlowMap.meet, Option.some.injEq] at there
        refine ⟨more, rfl, fun user member => ?_⟩
        rw [there, Std.ExtTreeSet.mem_union_iff]
        exact .inl member

/-- Merged values go to merged values, and larger ones to larger ones. -/
structure Distributes (through : FlowValue → FlowValue) : Prop where
  merge : ∀ x y, through (x.merge y) = (through x).merge (through y)
  mono : ∀ x y, x.Within y → (through x).Within (through y)

theorem Distributes.of_merge {through : FlowValue → FlowValue}
    (merge : ∀ x y, through (x.merge y) = (through x).merge (through y)) : Distributes through := by
  refine ⟨merge, fun x y inside => within_iff.mpr ?_⟩
  rw [← merge, within_iff.mp inside]

end FlowValue

namespace Transfer

/-- What a list of transfers makes of the value behind the last of them. -/
def applyAll (transfers : List Transfer) (out : FlowValue) : FlowValue := transfers.foldr apply out

theorem apply_merge (transfer : Transfer) (x y : FlowValue) :
    transfer.apply (x.merge y) = (transfer.apply x).merge (transfer.apply y) := by
  let left : FlowValue := x.removeKeys transfer.kill
  let right : FlowValue := y.removeKeys transfer.kill
  have taken : (x.merge y).removeKeys transfer.kill = left.merge right :=
    FlowMap.removeKeys_union transfer.kill x y
  -- what the statement adds may be merged in twice
  calc transfer.apply (x.merge y)
      = (left.merge right).merge transfer.gen := by rw [apply, taken]
    _ = (left.merge right).merge (transfer.gen.merge transfer.gen) := by rw [FlowValue.merge_self]
    _ = left.merge ((right.merge transfer.gen).merge transfer.gen) := by
      simp only [FlowValue.merge_assoc]
    _ = left.merge (transfer.gen.merge (right.merge transfer.gen)) := by
      rw [FlowValue.merge_comm (right.merge _)]
    _ = (left.merge transfer.gen).merge (right.merge transfer.gen) :=
      (FlowValue.merge_assoc ..).symm

theorem distributes (transfer : Transfer) : FlowValue.Distributes transfer.apply :=
  .of_merge transfer.apply_merge

theorem distributes_applyAll (transfers : List Transfer) :
    FlowValue.Distributes (applyAll transfers) := by
  refine .of_merge fun x y => ?_
  induction transfers with
  | nil => rfl
  | cons transfer rest ih =>
      have whole (out : FlowValue) :
          applyAll (transfer :: rest) out = transfer.apply (applyAll rest out) := rfl
      rw [whole, whole, whole, ih, apply_merge]

end Transfer

namespace Flow

/-- The points of the third walk are those of the first two, merged statement by statement. -/
inductive Merged : List Point → List Point → List Point → Prop where
  | nil : Merged [] [] []
  | cons {id : StmtId} {into into' out out' : FlowValue} {first second third : List Point}
      (rest : Merged first second third) :
      Merged (⟨id, into, out⟩ :: first) (⟨id, into', out'⟩ :: second)
        (⟨id, into.merge into', out.merge out'⟩ :: third)

theorem Merged.append {first second third others others' others'' : List Point}
    (merged : Merged first second third) (more : Merged others others' others'') :
    Merged (first ++ others) (second ++ others') (third ++ others'') := by
  induction merged with
  | nil => exact more
  | cons _ ih => exact .cons ih

/-- The walk fails on every value with one error or on none. Then it takes merged values to merged
values and leaves merged points. -/
def Uniform (walk : Step) : Prop :=
  (∃ error, ∀ out, walk out = .error error) ∨
    ∃ (through : FlowValue → FlowValue) (points : FlowValue → List Point),
      (∀ out, walk out = .ok (through out, points out)) ∧
      (∀ x y, through (x.merge y) = (through x).merge (through y)) ∧
      ∀ x y, Merged (points x) (points y) (points (x.merge y))

variable {isFunction : String → Bool}

theorem uniform_body {body : List StoredStmt}
    (each : ∀ stmt ∈ body, Uniform (annotateStmt isFunction stmt)) :
    Uniform (annotateBody isFunction body) := by
  induction body with
  | nil => exact .inr ⟨id, fun _ => [], fun _ => rfl, fun _ _ => rfl, fun _ _ => .nil⟩
  | cons stmt rest ih =>
      -- A body is walked from behind: the rest fails whatever flows in, or the statement in front
      -- decides.
      rcases ih fun inner member => each inner (List.mem_cons_of_mem _ member) with
        ⟨error, fails⟩ | ⟨behind, later, ran, merges, merged⟩
      · refine .inl ⟨error, fun out => ?_⟩
        rw [annotateBody_cons, fails]
        rfl
      rcases each stmt List.mem_cons_self with ⟨error, fails⟩
        | ⟨through, points, ran', merges', merged'⟩
      · refine .inl ⟨error, fun out => ?_⟩
        rw [annotateBody_cons, ran, ok_bind]
        dsimp only
        rw [fails]
        rfl
      · refine .inr ⟨fun out => through (behind out), fun out => later out ++ points (behind out),
          fun out => ?_, fun x y => ?_, fun x y => ?_⟩
        · exact annotateBody_cons_of_ok (ran out) (ran' (behind out))
        · dsimp only
          rw [merges, merges']
        · dsimp only
          rw [merges]
          exact (merged x y).append (merged' (behind x) (behind y))

theorem uniform_bodies {bodies : List (List StoredStmt)}
    (each : ∀ body ∈ bodies, Uniform (annotateBody isFunction body)) :
    (∃ error, ∀ into,
      (bodies.mapM fun body => do return (← annotateBody isFunction body into).2) = .error error) ∨
      ∃ inner : FlowValue → List (List Point),
        (∀ into, (bodies.mapM fun body => do return (← annotateBody isFunction body into).2) =
          .ok (inner into)) ∧
        ∀ x y, Merged (inner x).flatten (inner y).flatten (inner (x.merge y)).flatten := by
  induction bodies with
  | nil => exact .inr ⟨fun _ => [], fun _ => rfl, fun _ _ => .nil⟩
  | cons body rest ih =>
      simp only [List.mapM_cons]
      rcases each body List.mem_cons_self with ⟨error, fails⟩ | ⟨through, points, ran, _, merged⟩
      · refine .inl ⟨error, fun into => ?_⟩
        rw [fails]
        rfl
      rcases ih fun other member => each other (List.mem_cons_of_mem _ member) with ⟨error, fails⟩
        | ⟨inner, ran', merged'⟩
      · refine .inl ⟨error, fun into => ?_⟩
        rw [ran, ok_bind, fails]
        rfl
      · refine .inr ⟨fun into => points into :: inner into, fun into => ?_, fun x y => ?_⟩
        · rw [ran, ok_bind, ran']
          rfl
        · rw [List.flatten_cons, List.flatten_cons, List.flatten_cons]
          exact (merged x y).append (merged' x y)

theorem uniform_stmt (stmt : StoredStmt) : Uniform (annotateStmt isFunction stmt) := by
  induction stmt using Stmt.induction with
  | node site shape ih =>
      have nested (body) (member : body ∈ shape.bodies) : Uniform (annotateBody isFunction body) :=
        uniform_body fun stmt below => ih stmt (List.mem_flatten.mpr ⟨body, member, below⟩)
      have run (out : FlowValue) : annotateStmt isFunction (.node site shape) out =
          annotateNode isFunction site shape out :=
        annotateStmt_node ..
      -- the transfer is the statement's own, whatever flows out of it
      cases made : Transfer.ofShape isFunction site.id site.position shape with
      | error error =>
          refine .inl ⟨error, fun out => ?_⟩
          rw [run, annotateNode, made]
          rfl
      | ok transfer =>
          rcases uniform_bodies nested with ⟨error, fails⟩ | ⟨inner, ran, merged⟩
          · refine .inl ⟨error, fun out => ?_⟩
            rw [run, annotateNode, made, ok_bind]
            dsimp only
            rw [fails]
            rfl
          · refine .inr ⟨transfer.apply, fun out => ⟨site.id, transfer.apply out, out⟩ :: (inner
                (transfer.apply out)).flatten, fun out => ?_, transfer.apply_merge, fun x y => ?_⟩
            · rw [run, annotateNode, made, ok_bind]
              dsimp only
              rw [ran]
              rfl
            · dsimp only
              rw [transfer.apply_merge]
              exact .cons (merged (transfer.apply x) (transfer.apply y))

def transferOf (isFunction : String → Bool) (stmt : StoredStmt) : Except IllFormed Transfer :=
  Transfer.ofShape isFunction stmt.label.id stmt.label.position stmt.shape

/-- What flows into a list is what the transfers of its statements make of what flows out of it. -/
theorem annotateBody_transfers {body : List StoredStmt} {out into : FlowValue}
    {points : List Point} (ran : annotateBody isFunction body out = .ok (into, points)) :
    ∃ transfers, body.mapM (transferOf isFunction) = .ok transfers ∧
      into = Transfer.applyAll transfers out := by
  induction body generalizing into points with
  | nil =>
      cases ran
      exact ⟨[], rfl, rfl⟩
  | cons stmt rest ih =>
      obtain ⟨between, behind, here, later, first, rfl⟩ := annotateBody_cons_ok ran
      obtain ⟨transfers, made, rfl⟩ := ih later
      obtain ⟨site, shape⟩ := stmt
      rw [annotateStmt_node] at first
      obtain ⟨transfer, inner, own, rfl, _⟩ := annotateNode_ok first
      refine ⟨transfer :: transfers, ?_, rfl⟩
      have mine : transferOf isFunction (.node site shape) = .ok transfer := own
      rw [List.mapM_cons, mine, ok_bind, made]
      rfl

theorem walk_transfers (isFunction : String → Bool) (body : List StoredStmt) :
    (∃ error, ∀ out, annotateBody isFunction body out = .error error) ∨
      ∃ (transfers : List Transfer) (points : FlowValue → List Point),
        body.mapM (transferOf isFunction) = .ok transfers ∧
        (∀ out, annotateBody isFunction body out =
          .ok (Transfer.applyAll transfers out, points out)) ∧
        ∀ x y, Merged (points x) (points y) (points (x.merge y)) := by
  rcases @uniform_body isFunction body fun stmt _ => uniform_stmt stmt with fails
    | ⟨through, points, ran, _, merged⟩
  · exact .inl fails
  · obtain ⟨transfers, made, _⟩ := annotateBody_transfers (ran ∅)
    refine .inr ⟨transfers, points, made, fun out => ?_, merged⟩
    obtain ⟨others, made', same⟩ := annotateBody_transfers (ran out)
    cases made.symm.trans made'
    rw [ran, same]

end Flow

namespace FlowMap

/-- The laws of flow values. The union of two maps is pointwise, made in place or not, and taking
names away, which leaves all others as they are, distributes over it. With union of sets it is the
join of a semilattice with the empty map as least value, over which the transfer of every statement
distributes, and so does the walk over every list of statements, which is the composition of their
transfers. -/
theorem union_laws :
    (∀ (Value : Type) (merge : Value → Value → Value) (left right : FlowMap Value),
      (∀ name : String, (union merge left right)[name]? =
        match left[name]?, right[name]? with
        | some value, some other => some (merge value other)
        | some value, none => some value
        | none, value => value) ∧
      (∀ (keys : NameSet) (name : String),
        (left.removeKeys keys)[name]? = if name ∈ keys then none else left[name]?) ∧
      (unionWith merge right).run left = ((), union merge left right) ∧
      ∀ keys, (union merge left right).removeKeys keys =
        union merge (left.removeKeys keys) (right.removeKeys keys)) ∧
    (∀ x y z : FlowValue, x.merge y = union (· ∪ ·) x y ∧ x.merge y = y.merge x ∧
      (x.merge y).merge z = x.merge (y.merge z) ∧ x.merge x = x ∧ x.merge ∅ = x ∧
      FlowValue.merge ∅ x = x) ∧
    (∀ transfer : Transfer,
      (∀ out, transfer.apply out =
        FlowValue.merge (out.removeKeys transfer.kill) transfer.gen) ∧
      FlowValue.Distributes transfer.apply) ∧
    (∀ transfers : List Transfer, FlowValue.Distributes (Transfer.applyAll transfers)) ∧
    ∀ (isFunction : String → Bool) (body : List StoredStmt),
      (∃ error, ∀ out, Flow.annotateBody isFunction body out = .error error) ∨
      ∃ (transfers : List Transfer) (points : FlowValue → List Flow.Point),
        body.mapM (Flow.transferOf isFunction) = .ok transfers ∧
        (∀ out, Flow.annotateBody isFunction body out =
          .ok (Transfer.applyAll transfers out, points out)) ∧
        ∀ x y, Flow.Merged (points x) (points y) (points (x.merge y)) := by
  refine ⟨fun Value merge left right => ⟨fun name => ?_, fun keys name => getElem?_removeKeys keys,
      unionWith_run left right, fun keys => removeKeys_union keys left right⟩,
    fun x y z => ?_, fun transfer => ⟨fun _ => rfl, transfer.distributes⟩,
    Transfer.distributes_applyAll, Flow.walk_transfers⟩
  · rw [getElem?_union]
    cases left[name]? <;> cases right[name]? <;> rfl
  · exact ⟨rfl, x.merge_comm y, x.merge_assoc y z, x.merge_self, x.merge_empty, x.empty_merge⟩

end FlowMap
end ScriptFlow
