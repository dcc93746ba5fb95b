import Mathlib.Data.List.Basic
import ScriptFlow.Flow.Transfer

/-!
Looking up flow values. Every operation on flow values is determined by what it does at one name, so
that is all that is said of it here.
-/

namespace ScriptFlow

theorem NameSet.mem_ofList {names : List String} {name : String} :
    name ∈ NameSet.ofList names ↔ name ∈ names := by
  rw [NameSet.ofList, Std.ExtTreeSet.mem_ofList, List.contains_iff_mem]

theorem lookup_of_mem {Value : Type} {entries : List (String × Value)} {name : String}
    {value : Value} (distinct : (entries.map Prod.fst).Nodup) (member : (name, value) ∈ entries) :
    entries.lookup name = some value := by
  induction entries with
  | nil => cases member
  | cons entry rest ih =>
      obtain ⟨fresh, others⟩ := List.nodup_cons.mp distinct
      rcases List.mem_cons.mp member with rfl | later
      · rw [List.lookup_cons, beq_self_eq_true]
      · have other : (name == entry.1) = false := by
          rw [beq_eq_false_iff_ne]
          rintro rfl
          exact fresh (List.mem_map.mpr ⟨_, later, rfl⟩)
        rw [List.lookup_cons, other, ih others later]

theorem lookup_none {Value : Type} {entries : List (String × Value)} {name : String}
    (absent : name ∉ entries.map Prod.fst) : entries.lookup name = none := by
  induction entries with
  | nil => rfl
  | cons entry rest ih =>
      rw [List.map_cons, List.mem_cons, not_or] at absent
      rw [List.lookup_cons, beq_eq_false_iff_ne.mpr absent.1, ih absent.2]

namespace FlowMap

variable {Value : Type} {merge : Value → Value → Value} {map : FlowMap Value} {name : String}

def meet (merge : Value → Value → Value) : Option Value → Option Value → Option Value
  | some left, some right => some (merge left right)
  | some left, none => some left
  | none, right => right

theorem getElem?_removeKeys (keys : NameSet) :
    (map.removeKeys keys)[name]? = if name ∈ keys then none else map[name]? := by
  rw [removeKeys, Std.ExtTreeMap.getElem?_filter']
  by_cases member : name ∈ keys
  · have inside : keys.contains name = true := Std.ExtTreeSet.contains_iff_mem.mpr member
    rw [if_pos member, inside]
    cases map[name]? <;> rfl
  · have outside : keys.contains name = false := by
      rw [← Bool.not_eq_true, Std.ExtTreeSet.contains_iff_mem]
      exact member
    rw [if_neg member, outside]
    cases map[name]? <;> rfl

theorem getElem?_join (key : String) (value : Value) : (join merge map key value)[name]? = if key =
      name then meet merge map[name]? (some value) else map[name]? := by
  rw [join, Std.ExtTreeMap.getElem?_insert]
  by_cases same : key = name
  · subst same
    rw [if_pos (Std.compare_self), if_pos rfl]
    cases map[key]? <;> rfl
  · rw [if_neg (fun equal => same (Std.LawfulEqCmp.eq_of_compare equal)), if_neg same]

theorem getElem?_joins (entries : List (String × Value)) (distinct : (entries.map Prod.fst).Nodup) :
    (entries.foldl (fun map entry => join merge map entry.1 entry.2) map)[name]? =
      meet merge map[name]? (entries.lookup name) := by
  induction entries generalizing map with
  | nil =>
      rw [List.foldl_nil, List.lookup_nil]
      cases map[name]? <;> rfl
  | cons entry rest ih =>
      obtain ⟨fresh, others⟩ := List.nodup_cons.mp distinct
      rw [List.foldl_cons, ih others, getElem?_join, List.lookup_cons]
      by_cases same : entry.1 = name
      · subst same
        rw [if_pos rfl, lookup_none fresh, beq_self_eq_true]
        cases map[entry.1]? <;> rfl
      · have other : (name == entry.1) = false := beq_eq_false_iff_ne.mpr (Ne.symm same)
        rw [if_neg same, other]

theorem keys_nodup (map : FlowMap Value) : (map.toList.map Prod.fst).Nodup := by
  rw [List.nodup_iff_pairwise_ne, List.pairwise_map]
  refine Std.ExtTreeMap.distinct_keys_toList.imp fun {first second} apart same => apart ?_
  rw [same]
  exact Std.compare_self

theorem lookup_toList (name : String) : map.toList.lookup name = map[name]? := by
  cases found : map[name]? with
  | none =>
      refine lookup_none fun member => ?_
      obtain ⟨⟨key, value⟩, inside, rfl⟩ := List.mem_map.mp member
      rw [Std.ExtTreeMap.mem_toList_iff_getElem?_eq_some.mp inside] at found
      cases found
  | some value =>
    exact lookup_of_mem map.keys_nodup (Std.ExtTreeMap.mem_toList_iff_getElem?_eq_some.mpr found)

theorem getElem?_union (left right : FlowMap Value) :
    (union merge left right)[name]? = meet merge left[name]? right[name]? := by
  rw [union, Std.ExtTreeMap.foldl_eq_foldl_toList, getElem?_joins _ right.keys_nodup, lookup_toList]

end FlowMap

namespace Transfer

variable {isFunction : String → Bool} {id : Nat} {names : List String} {name : String}

theorem getElem?_insertMany (value : IdSet) (flow : FlowValue) :
    (flow.insertMany (names.map fun name => (name, value)))[name]? = if name ∈
      names then some value else flow[name]? := by
  induction names generalizing flow with
  | nil => rw [List.map_nil, Std.ExtTreeMap.insertMany_nil, if_neg List.not_mem_nil]
  | cons first rest ih =>
      rw [List.map_cons, Std.ExtTreeMap.insertMany_cons, ih, Std.ExtTreeMap.getElem?_insert]
      by_cases later : name ∈ rest
      · rw [if_pos later, if_pos (List.mem_cons_of_mem _ later)]
      · rw [if_neg later]
        by_cases same : first = name
        · subst same
          rw [if_pos Std.compare_self, if_pos List.mem_cons_self]
        · rw [if_neg fun equal => same (Std.LawfulEqCmp.eq_of_compare equal), if_neg]
          simp [Ne.symm same, later]

theorem getElem?_generated :
    (generated isFunction id names)[name]? =
      if name ∈ names ∧ isFunction name = false then some ({id} : IdSet) else none := by
  rw [generated, Std.ExtTreeMap.ofList_eq_insertMany_empty, getElem?_insertMany,
    Std.ExtTreeMap.getElem?_empty]
  simp only [List.mem_filter, Bool.not_eq_true']

theorem getElem?_apply (transfer : Transfer) (flow : FlowValue) :
    (transfer.apply flow)[name]? = FlowMap.meet (· ∪ ·)
      (if name ∈ transfer.kill then none else flow[name]?) transfer.gen[name]? := by
  rw [apply, FlowValue.merge, FlowMap.getElem?_union, FlowMap.getElem?_removeKeys]

end Transfer
end ScriptFlow
