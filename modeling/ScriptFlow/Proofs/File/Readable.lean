import ScriptFlow.File.Parser
import ScriptFlow.Proofs.File.Arranged
import ScriptFlow.Proofs.Stmt.Told

/-!
Readable files. Reading a file gives what a text can say, headers included, and passes the landmarks
of what it gives. Where a file is arranged anew, its statements move in front of functions, so its
landmarks first differ where the keyword of a function stood.
-/

namespace ScriptFlow

open Token TokenReader

variable {Label Mark : Type}

structure Header.Readable (header : Header) : Prop where
  name : IsName header.name.toList
  outputs : ∀ output ∈ header.outputs, IsName output.toList
  inputs : ∀ input ∈ header.inputs, input = "~" ∨ IsName input.toList

mutual
def Function.Readable : Function Label (Expr Mark) → Prop
  | .mk header items => header.Readable ∧ ReadableItems items

def ReadableItems : List (Item Label (Expr Mark)) → Prop
  | [] => True
  | .stmt inner :: rest => inner.Readable ∧ ReadableItems rest
  | .function inner :: rest => inner.Readable ∧ ReadableItems rest
end

mutual
def Function.landmarks : Function Label (Expr Mark) → List Landmark
  | .mk _ items => (.functionKey, []) :: itemLandmarks items

def itemLandmarks : List (Item Label (Expr Mark)) → List Landmark
  | [] => []
  | .stmt inner :: rest => inner.landmarks ++ itemLandmarks rest
  | .function inner :: rest => inner.landmarks ++ itemLandmarks rest
end

structure Function.Told (function : ParsedFunction) (marks : List Landmark) : Prop where
  readable : function.Readable
  marks : marks = function.landmarks

def ItemTold (item : ParsedItem) (marks : List Landmark) : Prop :=
  ReadableItems [item] ∧ marks = itemLandmarks [item]

theorem itemTold_stmt {stmt : ParsedStmt} {marks : List Landmark} (told : stmt.Told marks) :
    ItemTold (.stmt stmt) marks :=
  ⟨⟨told.readable, trivial⟩, told.marks.trans (List.append_nil _).symm⟩

theorem itemTold_function {function : ParsedFunction} {marks : List Landmark}
    (told : function.Told marks) : ItemTold (.function function) marks :=
  ⟨⟨told.readable, trivial⟩, told.marks.trans (List.append_nil _).symm⟩

theorem items_told {items : List ParsedItem} {lists : List (List Landmark)}
    (told : List.Forall₂ ItemTold items lists) :
    ReadableItems items ∧ lists.flatten = itemLandmarks items := by
  induction told with
  | nil => exact ⟨trivial, rfl⟩
  | @cons item marks _ _ head _ ih =>
      cases item with
      | stmt inner =>
          refine ⟨⟨head.1.1, ih.1⟩, ?_⟩
          rw [List.flatten_cons, head.2, ih.2, itemLandmarks, itemLandmarks,
            itemLandmarks, List.append_nil]
      | function inner =>
          refine ⟨⟨head.1.1, ih.1⟩, ?_⟩
          rw [List.flatten_cons, head.2, ih.2, itemLandmarks, itemLandmarks,
            itemLandmarks, List.append_nil]

namespace Function

theorem gives_name (cursor : Cursor) :
    Gives cursor name fun name marks => IsName name.toList ∧ marks = [] := by
  refine gives_expect fun token after isName => gives_pure ⟨?_, rfl⟩
  rw [Token.name, String.toList_ofList]
  exact isName

theorem all_names {names : List String} {P : String → Prop} {lists : List (List Landmark)}
    (all : List.Forall₂ (fun name marks => P name ∧ marks = []) names lists) :
    (∀ name ∈ names, P name) ∧ lists.flatten = [] := by
  refine ⟨fun name member => ?_, List.flatten_eq_nil_iff.mpr fun marks member => ?_⟩
  · obtain ⟨_, _, isName, _⟩ := exists_right_of_forall₂ all member
    exact isName
  · obtain ⟨_, _, _, none⟩ := exists_left_of_forall₂ all member
    exact none

theorem gives_outputsAndName (cursor : Cursor) : Gives cursor outputsAndName fun result marks =>
    ((∀ output ∈ result.1, IsName output.toList) ∧ IsName result.2.toList) ∧ marks = [] := by
  refine gives_eat rfl (fun after => ?_) fun _ => ?_
  · refine (gives_collect (P := fun name marks => IsName name.toList ∧
        marks = []) fun here => ?_).bind ?_
    · refine gives_eat rfl (fun _ => gives_pure rfl) fun _ => ?_
      refine (gives_name here).bind fun output marks after isName => ?_
      rw [isName.2]
      exact gives_eat rfl (fun _ => gives_pure ⟨isName.1, rfl⟩) fun _ => gives_pure ⟨isName.1, rfl⟩
    · rintro outputs marks after ⟨lists, all, rfl⟩
      refine gives_expect fun _ after _ => (gives_name after).bind
        fun name later _ isName => gives_pure ?_
      rw [isName.2]
      exact ⟨⟨(all_names all).1,
          isName.1⟩, by simp [(all_names all).2, Kind.landmark?, Kind.isLandmark]⟩
  · refine (gives_name _).bind fun first marks after isName => ?_
    rw [isName.2]
    refine gives_eat rfl (fun after => ?_) fun _ =>
      gives_pure ⟨⟨fun _ none => absurd none List.not_mem_nil, isName.1⟩, rfl⟩
    refine (gives_name after).bind fun name later _ isName' => gives_pure ?_
    rw [isName'.2]
    exact ⟨⟨List.forall_mem_singleton.mpr isName.1, isName'.1⟩, rfl⟩

theorem gives_input (cursor : Cursor) : Gives cursor input fun name marks =>
    (name = "~" ∨ IsName name.toList) ∧ marks = [] := by
  refine gives_take (fun _ => gives_failLast _) fun token after _ admits => ?_
  obtain ⟨kind, text, start, position⟩ := token
  cases kind
  case word =>
    refine gives_pure ⟨.inr ?_, rfl⟩
    rw [Token.name, String.toList_ofList]
    exact admits
  case tilde => exact gives_pure ⟨.inl rfl, rfl⟩
  all_goals
    exact gives_failLast _

theorem gives_inputs (cursor : Cursor) : Gives cursor inputs fun names marks =>
    (∀ name ∈ names, name = "~" ∨ IsName name.toList) ∧ marks = [] := by
  refine gives_eat rfl (fun after => ?_) fun _ => gives_pure ⟨nofun, rfl⟩
  refine (gives_collect (P := fun name marks => (name = "~" ∨ IsName name.toList) ∧
      marks = []) fun here => ?_).imp ?_
  · refine gives_eat rfl (fun _ => gives_pure rfl) fun _ => ?_
    refine (gives_input here).bind fun name marks after told => gives_nextIs ?_
    rw [told.2]
    split
    · exact gives_pure ⟨told.1, rfl⟩
    · exact gives_expect fun _ _ _ => gives_pure ⟨told.1, rfl⟩
  · rintro names marks ⟨lists, all, rfl⟩
    exact all_names all

theorem gives_item {closed : Bool} {nested : TokenReader ParsedFunction}
    (inner : ∀ cursor, Gives cursor nested Told) (cursor : Cursor) :
    Gives cursor (item closed nested) (IfAny ItemTold) := by
  refine gives_separators fun after => gives_peek ?_
  have stmt : Gives after (do return some (.stmt (← Stmt.reader))) (IfAny ItemTold) := by
    refine (Stmt.gives_reader after).bind fun stmt marks _ told => gives_pure ?_
    rw [List.append_nil]
    exact itemTold_stmt told
  cases next : after.next? with
  | none => exact gives_pure rfl
  | some kind =>
      cases kind with
      | endKey =>
          cases closed with
          | true => exact gives_skip next rfl fun _ _ => gives_pure rfl
          | false => exact stmt
      | functionKey =>
          cases closed with
          | true =>
              refine (inner after).bind fun function marks _ told => gives_pure ?_
              rw [List.append_nil]
              exact itemTold_function told
          | false => exact gives_pure rfl
      | _ => exact stmt

theorem gives_readerWithin (closed : Bool) (allowance : Nat) (cursor : Cursor) :
    Gives cursor (readerWithin closed allowance) Told := by
  induction allowance generalizing cursor with
  | zero => exact gives_failNext _
  | succ allowance ih =>
      refine gives_expect fun first after _ => ?_
      refine (gives_outputsAndName after).bind fun result marks after outputs => ?_
      obtain ⟨⟨outputs, isName⟩, rfl⟩ := outputs
      refine (gives_inputs after).bind fun names marks after inputs => ?_
      obtain ⟨inputs, rfl⟩ := inputs
      refine (gives_collect (gives_item ih)).bind fun items marks _ told => gives_pure ?_
      obtain ⟨lists, all, rfl⟩ := told
      refine ⟨⟨⟨isName, outputs, inputs⟩, (items_told all).1⟩, ?_⟩
      rw [Function.landmarks, ← (items_told all).2]
      simp [Kind.landmark?, Kind.isLandmark, Kind.isText]

end Function

namespace File

theorem gives_reader (closed : Bool) (cursor : Cursor) :
    Gives cursor (reader closed) fun file marks =>
    ReadableItems file.items ∧ marks = itemLandmarks file.items := by
  refine (gives_collect (P := ItemTold) fun here => gives_separators fun after =>
    gives_peek ?_).bind ?_
  · have stmt : Gives after (do return some (.stmt (← Stmt.reader))) (IfAny ItemTold) := by
      refine (Stmt.gives_reader after).bind fun stmt marks _ told => gives_pure ?_
      rw [List.append_nil]
      exact itemTold_stmt told
    cases after.next? with
    | none => exact gives_pure rfl
    | some kind =>
        cases kind with
        | functionKey =>
            refine (gives_get (Function.gives_readerWithin closed _ after)).bind
              fun function marks _ told => gives_pure ?_
            rw [List.append_nil]
            exact itemTold_function told
        | _ => exact stmt
  · rintro items marks _ ⟨lists, all, rfl⟩
    refine gives_pure ?_
    rw [List.append_nil]
    exact items_told all

end File
end ScriptFlow
