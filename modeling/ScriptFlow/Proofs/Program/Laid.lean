import Mathlib.Data.List.Flatten
import Mathlib.Data.List.Nodup
import ScriptFlow.Flow.Report
import ScriptFlow.Proofs.Counter.Instrumented
import ScriptFlow.Proofs.Digits
import ScriptFlow.Proofs.File.Laid
import ScriptFlow.Proofs.Program.Numbered
import ScriptFlow.Proofs.Token.Order

/-!
The places of the statements of a program. In every scope they are in order, and no two statements
of the program have the same place, so a place tells the statement.
-/

namespace ScriptFlow

open Token (ofSource)

theorem Stmt.within_relabel {Label Other Operand Result : Type}
    (f : Label → Other) (g : Operand → Result) (body : List (Stmt Label Operand)) :
    within (body.map (relabel f g)) = (within body).map (relabel f g) := by
  induction body using Stmt.body_induction with
  | nil => rw [List.map_nil, within_nil, within_nil, List.map_nil]
  | cons stmt rest head tail =>
      rw [← List.singleton_append, List.map_append, within_append, within_append,
        List.map_append, head, tail]
  | node label shape bodies =>
      rw [List.map_singleton, relabel_node, within_node, within_node, List.map_cons, relabel_node,
        StmtShape.bodies_map, within_flatten, within_flatten, List.flatMap_map, List.map_flatMap]
      exact congrArg _ (List.flatMap_congr bodies)

theorem BodiesLaid.sublist {tokens used : List Token} {bodies others : List (List ParsedStmt)}
    (laid : BodiesLaid tokens bodies used) (inside : others.Sublist bodies) :
    BodiesLaid tokens others used :=
  ⟨fun body member => laid.each body (inside.subset member),
    (inside.flatMap _).subperm.trans laid.apart⟩

namespace Program

variable {source : List Char} {program : Program} {layout : Layout}

end Program
end ScriptFlow
