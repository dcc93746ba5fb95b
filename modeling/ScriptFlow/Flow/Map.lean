import Std.Data.ExtTreeMap
import ScriptFlow.Stmt.Target

/-!
Flow values: finite maps from names, in ascending order of the names. Two maps are equal exactly
when they have the same value, or none, for every name.
-/

namespace ScriptFlow

abbrev IdSet := Std.ExtTreeSet Nat

abbrev FlowMap (Value : Type) := Std.ExtTreeMap String Value

/-- For every variable, the statements that it is attributed to. -/
abbrev FlowValue := FlowMap IdSet

namespace FlowMap

variable {Value : Type}

def removeKeys (map : FlowMap Value) (keys : NameSet) : FlowMap Value :=
  map.filter fun key _ => !keys.contains key

/-- Adds one entry; a name that is there already gets the merged value. -/
def join (merge : Value → Value → Value) (map : FlowMap Value) (key : String) (value : Value) :
    FlowMap Value :=
  map.insert key (match map[key]? with
    | some old => merge old value
    | none => value)

/-- The pointwise union: names on both sides get the merged value, others keep theirs. -/
def union (merge : Value → Value → Value) (left right : FlowMap Value) : FlowMap Value :=
  right.foldl (join merge) left

/-- The same union in place: the map that is the state takes in the other's entries in their
order. -/
def unionWith (merge : Value → Value → Value) (other : FlowMap Value) :
    StateM (FlowMap Value) Unit := do
  for entry in other.toList do
    let merged := match (← get)[entry.1]? with
      | some old => merge old entry.2
      | none => entry.2
    modify fun map => map.insert entry.1 merged

end FlowMap

namespace FlowValue

def merge (left right : FlowValue) : FlowValue := FlowMap.union (· ∪ ·) left right

end FlowValue
end ScriptFlow
