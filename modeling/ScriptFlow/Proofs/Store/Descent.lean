import Mathlib.Data.List.Pairwise
import ScriptFlow.Proofs.Store.Kept

/-!
Going down in a table. Where every number is used once, by a root or by one entry, a way down from a
root meets no number twice. So it is no longer than the table, and a view that goes no deeper than
the table is long gets to the end of every way.
-/

namespace ScriptFlow

def entries {A B : Type} (table : Array A) (f : A → List B) (id : Nat) : List B :=
  (table[id]?.map f).getD []

theorem entries_some {A B : Type} {table : Array A} {f : A → List B} {id : Nat} {a : A}
    (there : table[id]? = some a) : entries table f id = f a := by
  rw [entries, there]
  rfl

theorem flatMap_range_entries {A B : Type} (table : Array A) (f : A → List B) :
    (List.range table.size).flatMap (entries table f) = table.toList.flatMap f := by
  have list (items : List A) : (List.range items.length).flatMap
      (fun id => (items[id]?.map f).getD []) = items.flatMap f := by
    induction items with
    | nil => rfl
    | cons first rest ih =>
        rw [List.length_cons, List.range_succ_eq_map, List.flatMap_cons, List.flatMap_map,
          List.flatMap_cons, ← ih]
        rfl
  rw [← list, Array.length_toList]
  refine List.flatMap_congr fun id _ => ?_
  rw [entries, Array.getElem?_toList]

/-- No number is used twice, and every number that is used is below the bound. -/
structure UsedOnce (numbers : List Nat) (bound : Nat) : Prop where
  distinct : numbers.Nodup
  inside : ∀ number ∈ numbers, number < bound

theorem usedOnce_iff (numbers : List Nat) (bound : Nat) :
    UsedOnce numbers bound ↔ numbers.Nodup ∧ ∀ number ∈ numbers, number < bound :=
  ⟨fun once => ⟨once.distinct, once.inside⟩, fun ⟨distinct, inside⟩ => ⟨distinct, inside⟩⟩

instance (numbers : List Nat) (bound : Nat) : Decidable (UsedOnce numbers bound) :=
  decidable_of_iff _ (usedOnce_iff numbers bound).symm

theorem UsedOnce.of_perm {numbers : List Nat} {bound : Nat}
    (same : numbers.Perm (List.range bound)) : UsedOnce numbers bound where
  distinct := same.nodup_iff.mpr List.nodup_range
  inside _ member := List.mem_range.mp (same.mem_iff.mp member)

section
variable {A : Type} {table : Array A} {below : A → List Nat} {roots : List Nat}

theorem mem_entries {parent child : Nat} :
    child ∈ entries table below parent ↔ ∃ entry, table[parent]? = some entry ∧
      child ∈ below entry := by
  rw [entries]
  cases there : table[parent]? with
  | none => simp
  | some entry => simp

theorem mem_flatMap_of_entries {parent child : Nat} (edge : child ∈ entries table below parent) :
    child ∈ table.toList.flatMap below := by
  obtain ⟨entry, there, member⟩ := mem_entries.mp edge
  obtain ⟨inside, rfl⟩ := Array.getElem?_eq_some_iff.mp there
  exact List.mem_flatMap.mpr ⟨_, Array.getElem_mem_toList inside, member⟩

theorem parent_unique (distinct : (table.toList.flatMap below).Nodup) {parent other child : Nat}
    (edge : child ∈ entries table below parent) (again : child ∈ entries table below other) :
    parent = other := by
  rw [← flatMap_range_entries] at distinct
  have apart := (List.nodup_flatMap.mp distinct).2
  have inside {id : Nat} (edge : child ∈ entries table below id) : id ∈ List.range table.size := by
    obtain ⟨entry, there, _⟩ := mem_entries.mp edge
    exact List.mem_range.mpr (lt_size_of_getElem? there)
  have symmetric : Std.Symm (Function.onFun List.Disjoint (entries table below)) :=
    ⟨fun _ _ disjoint _ here there => disjoint there here⟩
  by_contra different
  exact apart.forall (inside edge) (inside again) different edge again

theorem UsedOnce.members {ids : List Nat} {size bound : Nat}
    (once : UsedOnce ids size) (inner : UsedOnce (table.toList.flatMap below) bound) :
    UsedOnce (ids.flatMap (entries table below)) bound where
  distinct := by
    apply List.nodup_flatMap.mpr
    constructor
    · intro id _
      rw [entries]
      cases there : table[id]? with
      | none => exact List.nodup_nil
      | some entry =>
          obtain ⟨inside, rfl⟩ := Array.getElem?_eq_some_iff.mp there
          exact (List.nodup_flatMap.mp inner.distinct).1 _ (Array.getElem_mem_toList inside)
    · apply once.distinct.imp
      intro id other different number here there
      exact different (parent_unique inner.distinct here there)
  inside number member := by
    obtain ⟨id, _, edge⟩ := List.mem_flatMap.mp member
    exact inner.inside number (mem_flatMap_of_entries edge)

variable (table below roots) in
/-- A way down from a root, its end first. -/
inductive Descent : List Nat → Prop where
  | root {id : Nat} (member : id ∈ roots) : Descent [id]
  | step {id child : Nat} {path : List Nat} (way : Descent (id :: path))
      (edge : child ∈ entries table below id) : Descent (child :: id :: path)

theorem Descent.mem_cases {path : List Nat} (way : Descent table below roots path) {id : Nat}
    (member : id ∈ path) : id ∈ roots ∨ ∃ parent ∈ path.tail, id ∈ entries table below parent := by
  induction way with
  | root own =>
      rw [List.mem_singleton] at member
      exact .inl (member ▸ own)
  | @step last child path _ edge ih =>
      rcases List.mem_cons.mp member with rfl | before
      · exact .inr ⟨last, List.mem_cons_self, edge⟩
      · rcases ih before with top | ⟨parent, inside, edge⟩
        · exact .inl top
        · exact .inr ⟨parent, List.mem_cons_of_mem _ inside, edge⟩

section
variable (once : UsedOnce (roots ++ table.toList.flatMap below) table.size)
include once

theorem Descent.nodup {path : List Nat} (way : Descent table below roots path) : path.Nodup := by
  -- a number met again would be a root and below an entry, or below two entries
  obtain ⟨_, distinct, apart⟩ := List.nodup_append.mp once.distinct
  induction way with
  | root _ => exact List.nodup_singleton _
  | @step last child path way edge ih =>
      apply List.nodup_cons.mpr
      constructor
      · intro before
        rcases way.mem_cases before with top | ⟨parent, inside, again⟩
        · exact apart child top child (mem_flatMap_of_entries edge) rfl
        · obtain rfl := parent_unique distinct edge again
          exact (List.nodup_cons.mp ih).1 inside
      · exact ih

theorem Descent.inside {path : List Nat} (way : Descent table below roots path) :
    ∀ id ∈ path, id < table.size := by
  intro id member
  apply once.inside
  rcases way.mem_cases member with top | ⟨parent, _, edge⟩
  · exact List.mem_append_left _ top
  · exact List.mem_append_right _ (mem_flatMap_of_entries edge)

theorem UsedOnce.descend {P : Nat → Nat → Prop}
    (step : ∀ depth id entry, table[id]? = some entry →
      (∀ child ∈ below entry, P depth child) → P (depth + 1) id) {id : Nat} (root : id ∈ roots) :
    P table.size id := by
  -- the longer the way so far, the less is left to go
  have along (depth : Nat) : ∀ {id path}, Descent table below roots (id :: path) →
      table.size ≤ depth + path.length → P depth id := by
    induction depth with
    | zero =>
        intro id path way long
        have short := length_le_of_nodup_lt (way.nodup once) (way.inside once)
        rw [List.length_cons] at short
        omega
    | succ depth ih =>
        intro id path way long
        have inside := way.inside once id List.mem_cons_self
        apply step depth id table[id] (Array.getElem?_eq_getElem inside)
        intro child member
        apply ih (way.step (mem_entries.mpr ⟨_, Array.getElem?_eq_getElem inside, member⟩))
        rw [List.length_cons]
        omega
  exact along table.size (.root root) (Nat.le_add_right _ _)

end
end
end ScriptFlow
