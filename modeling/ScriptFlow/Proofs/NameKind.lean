import ScriptFlow.Proofs.Counter.Instrumented
import ScriptFlow.Proofs.Flow.Lookup
import ScriptFlow.Proofs.Program.Views
import ScriptFlow.Proofs.Stmt.Targets

/-!
Kinds of names by what a scope says of them. The vocabulary of a scope collects names in three sets;
a name is in one of them exactly when the scope binds it, has it in an expression, or may call it. A
use is a call when no `end` or lone colon in its arguments is its own. A mark inside another index
is left to that index, also one in its head, where no argument list of that index holds it: only
where no head holds a mark are the marks of a use those whose innermost argument list is that of the
use.
-/

namespace ScriptFlow

variable {Label Mark : Type}

namespace Expr

def indexed? : Expr Label → Option (Expr Label × List (Expr Label))
  | node _ (.param head args) | node _ (.cellIndex head args) => some (head, args)
  | _ => none

/-- A mark, `end` or a lone colon, stands in the expression outside every argument list in it; one
in the head of an index counts only if heads do. -/
inductive Marked (heads : Prop) : Expr Label → Prop where
  | last {label : Label} : Marked heads (node label .last)
  | colon {label : Label} : Marked heads (node label .colon)
  | operand {expr inner : Expr Label} (plain : expr.indexed? = none)
      (member : inner ∈ expr.operands) (rest : Marked heads inner) : Marked heads expr
  | head {expr head : Expr Label} {args : List (Expr Label)} (count : heads)
      (index : expr.indexed? = some (head, args)) (rest : Marked heads head) : Marked heads expr

theorem selects_plain {label : Label} {shape : ExprShape (Expr Label)}
    (plain : (node label shape).indexed? = none) : (node label shape).selects = true ↔
      shape = .last ∨ shape = .colon ∨ ∃ inner ∈ shape.operands, inner.selects = true := by
  have operands : (shape.map selects).operands.any id = true ↔
      ∃ inner ∈ shape.operands, inner.selects = true := by
    simp [ExprShape.operands_map]
  rw [← operands, selects, fold_node]
  cases shape with
  | param head args | cellIndex head args => cases plain
  | _ => simp [ExprShape.map]

theorem selects_index {expr head : Expr Label} {args : List (Expr Label)}
    (index : expr.indexed? = some (head, args)) : expr.selects = false := by
  obtain ⟨label, shape⟩ := expr
  rw [selects, fold_node]
  cases shape with
  | param head args | cellIndex head args => rfl
  | _ => cases index

theorem selects_iff (expr : Expr Label) : expr.selects = true ↔ expr.Marked False := by
  induction expr using Expr.induction with
  | node label shape ih =>
      -- An index keeps the marks inside it to itself; any other expression hands on those of its
      -- operands.
      cases index : (node label shape).indexed? with
      | some parts =>
          rw [selects_index index]
          constructor
          · intro selected
            cases selected
          · intro marked
            cases marked with
            | last | colon => cases index
            | operand plain _ _ => cases index.symm.trans plain
            | head count _ _ => exact count.elim
      | none =>
          rw [selects_plain index]
          constructor
          · rintro (rfl | rfl | ⟨inner, member, selected⟩)
            · exact .last
            · exact .colon
            · exact .operand index member ((ih inner member).mp selected)
          · intro marked
            cases marked with
            | last => exact .inl rfl
            | colon => exact .inr (.inl rfl)
            | operand _ member rest => exact .inr (.inr ⟨_, member, (ih _ member).mpr rest⟩)
            | head count _ _ => exact count.elim

/-- No index in the expression has a mark in its head. -/
def PlainHeads (expr : Expr Label) : Prop :=
  ∀ inner ∈ expr.within, ∀ head args, inner.indexed? = some (head, args) → ¬ head.Marked True

theorem PlainHeads.operand {expr inner : Expr Label} (plain : expr.PlainHeads)
    (member : inner ∈ expr.operands) : inner.PlainHeads :=
  fun _ below => plain _ (mem_within_of_operand member below)

theorem PlainHeads.inside {expr inner : Expr Label} (plain : expr.PlainHeads)
    (below : inner ∈ expr.within) : inner.PlainHeads :=
  fun _ deeper => plain _ ((preorder_sublist below).subset deeper)

theorem PlainHeads.marked_iff {expr : Expr Label} (plain : expr.PlainHeads) :
    expr.Marked True ↔ expr.Marked False := by
  constructor
  · intro marked
    induction marked with
    | last => exact .last
    | colon => exact .colon
    | operand index member _ ih => exact .operand index member (ih (plain.operand member))
    | @head expr head args _ index rest _ =>
      exact absurd rest (plain expr (mem_within_self expr) head args index)
  · intro marked
    induction marked with
    | last => exact .last
    | colon => exact .colon
    | operand index member _ ih => exact .operand index member (ih (plain.operand member))
    | head count _ _ _ => exact count.elim

/-- The expression is a name in front of arguments of which none has a mark. -/
def Calls (heads : Prop) (expr : Expr Label) (name : String) : Prop :=
  ∃ label inner args, expr = node label (.param (node inner (.name name)) args) ∧
    ∀ arg ∈ args, ¬ arg.Marked heads

theorem called?_eq_some (expr : Expr Label) (name : String) :
    expr.called? = some name ↔ expr.Calls False name := by
  constructor
  · intro called
    rw [called?.eq_def] at called
    split at called
    · split at called
      · cases called
      · rename_i _ label inner _ args selected
        cases called
        refine ⟨label, inner, args, rfl, fun arg member marked => selected ?_⟩
        exact List.any_eq_true.mpr ⟨arg, member, (selects_iff arg).mpr marked⟩
    · cases called
  · rintro ⟨label, inner, args, rfl, unmarked⟩
    rw [called?, if_neg]
    intro selected
    obtain ⟨arg, member, marked⟩ := List.any_eq_true.mp selected
    exact unmarked arg member ((selects_iff arg).mp marked)

theorem PlainHeads.calls_iff {expr : Expr Label} (plain : expr.PlainHeads) (name : String) :
    expr.Calls True name ↔ expr.Calls False name := by
  have args {label inner : Label} {args : List (Expr Label)}
      (same : expr = node label (.param (node inner (.name name)) args)) (arg : Expr Label)
      (member : arg ∈ args) : arg.Marked True ↔ arg.Marked False := by
    subst same
    exact (plain.operand (List.mem_cons_of_mem _ member)).marked_iff
  constructor
  · rintro ⟨label, inner, rest, same, unmarked⟩
    exact ⟨label, inner, rest, same, fun arg member =>
      mt (args same arg member).mpr (unmarked arg member)⟩
  · rintro ⟨label, inner, rest, same, unmarked⟩
    exact ⟨label, inner, rest, same, fun arg member =>
      mt (args same arg member).mp (unmarked arg member)⟩

end Expr

namespace Stmt

/-- The statement makes the name a variable of its scope. -/
inductive BindsName (stmt : Stmt Mark (Expr Label)) (name : String) : Prop where
  | assigned {target : Expr Label} {label : Label} (well : stmt.WellTargeted)
      (member : target ∈ stmt.targets) (ends : target.EndsAt (.node label (.name name)))
  | counted (loop : stmt.shape.loopVar? = some name)
  | shared (member : name ∈ stmt.shape.shared)

theorem mem_assigned_iff (stmt : Stmt Mark (Expr Label)) (name : String) :
    name ∈ stmt.shape.bases.toOption.getD [] ↔ (stmt.WellTargeted ∧ ∃ target ∈ stmt.targets,
      ∃ label, target.EndsAt (.node label (.name name))) ∨ stmt.shape.loopVar? = some name := by
  cases own : stmt.shape.target? with
  | none =>
      have bases : stmt.shape.bases.toOption.getD [] = stmt.shape.loopVar?.toList := by
        rw [StmtShape.bases, own]
        rfl
      rw [bases, Option.mem_toList]
      constructor
      · exact .inr
      · rintro (⟨_, target, member, _⟩ | loop)
        · rw [targets, own] at member
          cases member
        · exact loop
  | some target =>
      -- an assignment is no loop
      have noLoop : stmt.shape.loopVar? ≠ some name := by
        cases shape : stmt.shape with
        | forLoop var range body =>
            rw [shape] at own
            cases own
        | _ => exact (Option.some_ne_none name).symm
      rw [or_iff_left noLoop]
      cases made : stmt.shape.bases with
      | ok names =>
          have well : stmt.WellTargeted := stmt.bases_ok_iff.mp ⟨names, made⟩
          rw [Except.toOption, Option.getD_some, mem_bases_iff own made, and_iff_right well]
      | error last =>
          have bad := ((stmt.bases_error_iff last).mp made).not_wellTargeted
          constructor
          · intro none
            cases none
          · rintro ⟨well, _⟩
            exact absurd well bad

theorem mem_binds_iff (stmt : Stmt Mark (Expr Label)) (name : String) :
    name ∈ stmt.binds ↔ stmt.BindsName name := by
  rw [binds, List.mem_append, mem_assigned_iff]
  constructor
  · rintro ((⟨well, target, member, label, ends⟩ | loop) | member)
    · exact .assigned well member ends
    · exact .counted loop
    · exact .shared member
  · intro bound
    cases bound with
    | assigned well member ends => exact .inl (.inl ⟨well, _, member, _, ends⟩)
    | counted loop => exact .inl (.inr loop)
    | shared member => exact .inr member

end Stmt

section
variable (header : Option Header) (body : List (Stmt Mark (Expr Label))) (name : String)

def BoundIn : Prop :=
  (∃ own, header = some own ∧ name ∈ own.inputs ++ own.outputs ∧ name ≠ "~") ∨
    ∃ stmt ∈ Stmt.within body, stmt.BindsName name

/-- Some expression of the scope satisfies the property. -/
def UsedIn (property : Expr Label → Prop) : Prop :=
  ∃ stmt ∈ Stmt.within body, ∃ expr ∈ stmt.shape.exprs, ∃ use ∈ expr.within, property use

theorem usedIn_congr {body : List (Stmt Mark (Expr Label))} {property other : Expr Label → Prop}
    (same : ∀ stmt ∈ Stmt.within body, ∀ expr ∈ stmt.shape.exprs, ∀ use ∈ expr.within,
      (property use ↔ other use)) : UsedIn body property ↔ UsedIn body other := by
  constructor
  · rintro ⟨stmt, visited, expr, member, use, below, holds⟩
    exact ⟨stmt, visited, expr, member, use, below,
      (same stmt visited expr member use below).mp holds⟩
  · rintro ⟨stmt, visited, expr, member, use, below, holds⟩
    exact ⟨stmt, visited, expr, member, use, below,
      (same stmt visited expr member use below).mpr holds⟩

def MayCall (heads : Prop) (defined : List String) : Prop :=
  UsedIn body (fun use => ∃ label, use = .node label (.name name)) ∧
    (name ∈ defined ∨ name ∈ builtins ∨ UsedIn body fun use => use.Calls heads name)

end

namespace Vocabulary

/-- The kinds of all names by what the scope binds and calls, in a program that defines the
functions. -/
structure Classifies (vocabulary : Vocabulary) (heads : Prop) (defined : List String)
    (header : Option Header) (body : List (Stmt Mark (Expr Label))) : Prop where
  var_iff : ∀ name, vocabulary.kind name = .var ↔ BoundIn header body name
  function_iff : ∀ name, vocabulary.kind name = .function ↔
    ¬ BoundIn header body name ∧ MayCall body name heads defined
  unknown_iff : ∀ name, vocabulary.kind name = .unknown ↔
    ¬ BoundIn header body name ∧ ¬ MayCall body name heads defined

variable (defined : List String) (header : Option Header) (body : List (Stmt Mark (Expr Label)))

theorem mem_bound_iff (name : String) :
    name ∈ (ofScope defined header body).bound ↔ BoundIn header body name := by
  have parameters : name ∈ (header.map Header.binds).getD [] ↔
      ∃ own, header = some own ∧ name ∈ own.inputs ++ own.outputs ∧ name ≠ "~" := by
    cases header with
    | none => simp
    | some own => simp [Header.binds, or_and_right]
  rw [ofScope, NameSet.mem_ofList, List.mem_append, parameters, List.mem_flatMap]
  simp only [Stmt.mem_binds_iff, BoundIn]

theorem mem_occurring_iff (name : String) : name ∈ (ofScope defined header body).occurring ↔
    UsedIn body fun use => ∃ label, use = .node label (.name name) := by
  simp only [ofScope, NameSet.mem_ofList, List.mem_flatMap, Stmt.names, Expr.mem_names_iff, UsedIn]
  constructor
  · rintro ⟨stmt, visited, expr, member, label, below⟩
    exact ⟨stmt, visited, expr, member, _, below, label, rfl⟩
  · rintro ⟨stmt, visited, expr, member, _, below, label, rfl⟩
    exact ⟨stmt, visited, expr, member, label, below⟩

theorem mem_callable_iff (name : String) : name ∈ (ofScope defined header body).callable ↔
    name ∈ defined ∨ name ∈ builtins ∨ UsedIn body fun use => use.Calls False name := by
  simp only [ofScope, NameSet.mem_ofList, List.mem_append, or_assoc, List.mem_flatMap, Stmt.calls,
    Expr.calls, List.mem_filterMap, Expr.called?_eq_some, UsedIn]

/-- Kinds follow what the scope says, where a mark in another index, head or arguments, is not the
use's own. -/
theorem ofScope_classifies :
    (ofScope defined header body).Classifies False defined header body := by
  have callable (name : String) : (name ∈ (ofScope defined header body).occurring ∧
      name ∈ (ofScope defined header body).callable) ↔ MayCall body name False defined := by
    rw [mem_occurring_iff, mem_callable_iff, MayCall]
  have bound := mem_bound_iff defined header body
  constructor
  all_goals
    intro name
    simp only [kind, ← bound, ← callable]
    by_cases binds : name ∈ (ofScope defined header body).bound
    · simp [binds]
    · by_cases calls : name ∈ (ofScope defined header body).occurring ∧
        name ∈ (ofScope defined header body).callable
      · simp [binds, calls]
      · simp [binds, calls]

theorem ofScope_classifies_plain
    (plain : ∀ stmt ∈ Stmt.within body, ∀ expr ∈ stmt.shape.exprs, expr.PlainHeads) :
    (ofScope defined header body).Classifies True defined header body := by
  have uses (name : String) : UsedIn body (fun use => use.Calls True name) ↔
      UsedIn body fun use => use.Calls False name := by
    apply usedIn_congr
    intro stmt visited expr member use below
    exact ((plain stmt visited expr member).inside below).calls_iff name
  -- kinds depend on how marks are counted only through what may be called
  have same (name : String) : MayCall body name True defined ↔ MayCall body name False defined := by
    rw [MayCall, uses, MayCall]
  have kinds := ofScope_classifies defined header body
  constructor
  · exact kinds.var_iff
  · intro name
    rw [same]
    exact kinds.function_iff name
  · intro name
    rw [same]
    exact kinds.unknown_iff name

end Vocabulary

namespace Program

theorem Holds.mem_names_iff {program : Program} {layout : Layout} (holds : program.Holds layout)
    (name : String) : name ∈ layout.names ↔ ∃ (id : FuncId) (entry : FunctionEntry),
      program.store.functions[id]? = some entry ∧ entry.header.name = name := by
  rw [Layout.names, List.mem_filterMap]
  constructor
  · rintro ⟨region, member, named⟩
    obtain ⟨header, own, rfl⟩ := Option.map_eq_some_iff.mp named
    rcases Holds.mem_regions member with ⟨body, _, rfl⟩ | ⟨routine, inside, rfl⟩
    · cases own
    · cases own
      obtain ⟨tree, visited, rfl⟩ := List.mem_map.mp (Rose.labels_eq layout.functions ▸ inside)
      exact ⟨_, _, (holds.store.routines tree visited).1, rfl⟩
  · rintro ⟨id, entry, found, rfl⟩
    have number : id ∈ (Rose.labels layout.functions).map Routine.id :=
      holds.store.functions.mem_iff.mpr ⟨Nat.zero_le id, lt_size_of_getElem? found⟩
    obtain ⟨routine, inside, rfl⟩ := List.mem_map.mp number
    obtain ⟨nested, own⟩ := holds.routine inside
    rw [Store.function, found] at own
    cases own
    exact ⟨routine.region, List.mem_append_right _ (List.mem_map_of_mem inside), rfl⟩

/-- The kinds of names in every scope of a parsed program. -/
theorem kinds_of_names {source : List Char} {program : Program}
    (parsed : parse source = .ok program) :
    ∃ scopes defined, program.scopes = .ok scopes ∧ program.functionNames = .ok defined ∧
      (∀ name, name ∈ defined ↔ ∃ (id : FuncId) (entry : FunctionEntry),
        program.store.functions[id]? = some entry ∧ entry.header.name = name) ∧
      ∀ scope, scope = .script ∨ scope ∈ scopes → ∃ header body vocabulary,
        program.header? scope = .ok header ∧ program.scopeTrees scope = .ok body ∧
        program.vocabulary scope = .ok vocabulary ∧
        vocabulary.Classifies False defined header body ∧
        ((∀ stmt ∈ Stmt.within body, ∀ expr ∈ stmt.shape.exprs, expr.PlainHeads) →
          vocabulary.Classifies True defined header body) := by
  obtain ⟨layout, holds⟩ := parse_holds parsed
  refine ⟨_, layout.names, holds.scopes, holds.functionNames, holds.mem_names_iff,
    fun scope known => ?_⟩
  obtain ⟨header, body, named, read, vocabulary⟩ := holds.scope_read known
  refine ⟨header, body, _, named, read, vocabulary, ?_, ?_⟩
  · exact Vocabulary.ofScope_classifies _ _ _
  · exact Vocabulary.ofScope_classifies_plain _ _ _

/-- A mark in the head of an index within the arguments does not count. -/
example : (parse "y = f([1, end](2));\n".toList).toOption.bind (fun program =>
    (program.vocabulary .script).toOption.map fun vocabulary => vocabulary.kind "f") =
      some .function := by
  decide +kernel

end Program
end ScriptFlow
