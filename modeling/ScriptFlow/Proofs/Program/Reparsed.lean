import ScriptFlow.Proofs.Counter.Readable
import ScriptFlow.Proofs.Counter.Repeated
import ScriptFlow.Proofs.File.Reparsed

/-!
Reading back programs. A parsed program can be said by a text, and so can what instrumentations make
of it; written and read again it is the same program exactly when no quote in it transposes a text.
-/

namespace ScriptFlow

open Store (Checked)

/-- What a program says apart from numbers and places: whether it has a script, and its file. -/
structure Content where
  script : Bool
  file : File Unit ParsedExpr

def Content.ofFile (file : File Unit ParsedExpr) : Content :=
  ⟨!(file.items.filterMap Item.statement?).isEmpty, file⟩

namespace Program

variable (program : Program)

def content : Checked Content := do
  return ⟨program.script.isSome, ((← program.file).map id Stmt.unnumbered).unplaced⟩

def expressions : Checked (List StoredExpr) := do
  let bodies ← (← program.scopes).mapM program.scopeTrees
  return (Stmt.within bodies.flatten).flatMap fun stmt => stmt.shape.exprs.flatMap Expr.within

end Program

section
variable {Label Mark : Type} {stmts : List (Stmt Label (Expr Mark))}
  {functions : List (Function Label (Expr Mark))}

theorem readableItems_itemsOf : ReadableItems (itemsOf stmts functions) ↔
    (∀ stmt ∈ stmts, stmt.Readable) ∧ ∀ function ∈ functions, function.Readable := by
  induction stmts with
  | nil =>
      induction functions with
      | nil => simp [itemsOf, ReadableItems]
      | cons first rest ih =>
          change first.Readable ∧ ReadableItems (itemsOf [] rest) ↔ _
          rw [ih]
          simp
  | cons first rest ih =>
      change first.Readable ∧ ReadableItems (itemsOf rest functions) ↔ _
      rw [ih, List.forall_mem_cons, and_assoc]

theorem faithfulFunctions_itemsOf :
    FaithfulFunctions (itemsOf stmts functions) ↔ ∀ function ∈ functions, function.Faithful := by
  induction stmts with
  | nil =>
      induction functions with
      | nil => simp [itemsOf, FaithfulFunctions]
      | cons first rest ih =>
          change first.Faithful ∧ FaithfulFunctions (itemsOf [] rest) ↔ _
          rw [ih, List.forall_mem_cons]
  | cons first rest ih => exact ih

mutual
theorem Function.Readable.arranged :
    (function : Function Label (Expr Mark)) → function.Readable → function.arranged.Readable
  | .mk _ items, readable =>
      ⟨readable.1, readableItems_itemsOf.mpr
        ⟨readable.2.statements, readable_arrangedFunctions items readable.2⟩⟩

theorem readable_arrangedFunctions : (items : List (Item Label (Expr Mark))) → ReadableItems items →
    ∀ function ∈ arrangedFunctions items, function.Readable
  | [], _ => fun _ none => absurd none List.not_mem_nil
  | .stmt _ :: rest, readable => readable_arrangedFunctions rest readable.2
  | .function inner :: rest, readable =>
      List.forall_mem_cons.mpr ⟨Function.Readable.arranged inner readable.1,
        readable_arrangedFunctions rest readable.2⟩
end

end

theorem Rose.forall_labels {Label : Type} {P : Label → Prop} (label : Label)
    (children : List (Rose Label)) : (∀ other ∈ labels [.node label children], P other) ↔ P label ∧
      ∀ child ∈ children, ∀ other ∈ labels [child], P other := by
  rw [labels_node, List.forall_mem_cons, labels_flatMap, List.forall_mem_flatMap]

theorem Routine.forall_function {P : StoredFunction → Prop}
    {H : Header → Prop} {S : StoredStmt → Prop}
    (parts : ∀ header stmts functions, P (.mk header (itemsOf stmts functions)) ↔ H header ∧
      (∀ stmt ∈ stmts, S stmt) ∧ ∀ function ∈ functions, P function) (tree : Rose Routine) :
    P (Routine.function tree) ↔ ∀ routine ∈ Rose.labels [tree], H routine.header ∧
      ∀ stmt ∈ routine.body.2, S stmt := by
  induction tree using Rose.induction with
  | node routine children ih =>
      rw [Routine.function, parts, routineFunctions_eq, List.forall_mem_map,
        Rose.forall_labels, and_assoc]
      exact and_congr_right fun _ => and_congr_right fun _ => forall₂_congr ih

theorem Routine.arranged_function (tree : Rose Routine) :
    (Routine.function tree).arranged = Routine.function tree := by
  induction tree using Rose.induction with
  | node routine children ih =>
      rw [Routine.function, Function.arranged, statements_itemsOf, arrangedFunctions_itemsOf,
        routineFunctions_eq, List.map_map]
      exact congrArg (fun functions => Function.mk _ (itemsOf _ functions)) (List.map_congr_left ih)

namespace Layout

variable (layout : Layout)

theorem arranged_file : layout.file.arranged = layout.file := by
  rw [Layout.file, File.arranged, statements_itemsOf, arrangedFunctions_itemsOf, List.map_map]
  exact congrArg (fun functions => File.mk (itemsOf _ functions))
    (List.map_congr_left fun tree _ => Routine.arranged_function tree)

theorem forall_regions {P : StoredFunction → Prop} {H : Header → Prop} {S : StoredStmt → Prop}
    (parts : ∀ header stmts functions, P (.mk header (itemsOf stmts functions)) ↔
      H header ∧ (∀ stmt ∈ stmts, S stmt) ∧ ∀ function ∈ functions, P function) :
    ((∀ stmt ∈ (layout.script.map Prod.snd).getD [], S stmt) ∧
      ∀ function ∈ layout.functions.map Routine.function, P function) ↔ ∀ region ∈ layout.regions,
      (∀ header ∈ region.header, H header) ∧ ∀ stmt ∈ region.body.2, S stmt := by
  have functions : (∀ function ∈ layout.functions.map Routine.function, P function) ↔
      ∀ routine ∈ Rose.labels layout.functions, H routine.header ∧
      ∀ stmt ∈ routine.body.2, S stmt := by
    rw [List.forall_mem_map, Rose.labels_flatMap, List.forall_mem_flatMap]
    exact forall₂_congr fun tree _ => Routine.forall_function parts tree
  rw [functions, regions, List.forall_mem_append, List.forall_mem_map, List.forall_mem_map]
  refine and_congr ?_ (forall₂_congr fun routine _ => ?_)
  · cases layout.script <;> simp
  · simp [Routine.region]

/-- A text can say every header and statement, and a script that is there has statements. -/
structure Readable (layout : Layout) : Prop where
  headers : ∀ region ∈ layout.regions, ∀ header ∈ region.header, header.Readable
  stmts : ∀ region ∈ layout.regions, ∀ stmt ∈ region.body.2, stmt.Readable
  script : ∀ body ∈ layout.script, body.2 ≠ []

theorem readable_file : ReadableItems layout.file.items ↔ ∀ region ∈ layout.regions,
    (∀ header ∈ region.header, header.Readable) ∧ ∀ stmt ∈ region.body.2, stmt.Readable := by
  rw [Layout.file, readableItems_itemsOf]
  apply layout.forall_regions
  intro header stmts functions
  rw [Function.Readable, readableItems_itemsOf]

theorem faithful_file :
    layout.file.Faithful ↔ ∀ region ∈ layout.regions, ∀ stmt ∈ region.body.2, stmt.Faithful := by
  have regions := layout.forall_regions (P := Function.Faithful) (H := fun _ => True)
      (S := Stmt.Faithful) ?_
  · rw [Layout.file, File.Faithful, statements_itemsOf, faithfulFunctions_itemsOf, regions]
    simp
  · intro header stmts functions
    rw [Function.Faithful, statements_itemsOf, faithfulFunctions_itemsOf, true_and]

variable {layout}

theorem Readable.of_file (readable : ReadableItems layout.file.items)
    (script : layout.script = none ↔ layout.file.items.filterMap Item.statement? = []) :
    layout.Readable where
  headers region member := (layout.readable_file.mp readable region member).1
  stmts region member := (layout.readable_file.mp readable region member).2
  script := by
    intro body own empty
    rw [Layout.file, statements_itemsOf, own] at script
    cases script.mpr empty

theorem Readable.items (readable : layout.Readable) : ReadableItems layout.file.items :=
  layout.readable_file.mpr fun region member =>
    ⟨readable.headers region member, readable.stmts region member⟩

theorem Readable.script_none (readable : layout.Readable) :
    layout.script = none ↔ layout.file.items.filterMap Item.statement? = [] := by
  rw [Layout.file, statements_itemsOf]
  cases own : layout.script with
  | none => simp
  | some body => simpa using readable.script body own

theorem Readable.isName (readable : layout.Readable) {region : Region}
    (member : region ∈ layout.regions) : Token.IsName region.name.toList := by
  rw [Region.name]
  cases own : region.header with
  | none =>
    exact .of_chars (by decide : Token.Kind.ofWord ('s' :: "cript".toList) = .word)
      (by decide) (by decide)
  | some header => exact (readable.headers region member header own).name

theorem Readable.rebody (readable : layout.Readable) {final : Region → List StoredStmt}
    {stmts : StmtId} {exprs : ExprId} {classify : Bool} (woven : ((layout.regions.mapM fun region =>
      Weave.scope (layout.context classify region) region.body.2).run 1).1 =
      layout.regions.map fun region => (final region).map (Stmt.traced stmts exprs)) :
    (layout.rebody final).Readable := by
  have became : ∀ region ∈ layout.regions, (∀ stmt ∈ final region, stmt.Readable) ∧
      final region ≠ [] := by
    intro region member
    obtain ⟨number, traced⟩ := mapM_run_mem woven region member
    exact Weave.scope_readable (readable.isName member) traced.symm (readable.stmts region member)
  refine ⟨?_, ?_, ?_⟩
  · rw [regions_rebody, List.forall_mem_map]
    exact readable.headers
  · rw [regions_rebody, List.forall_mem_map]
    exact fun region member => (became region member).1
  · intro body own
    obtain ⟨old, there, rfl⟩ := Option.map_eq_some_iff.mp own
    exact (became _ (List.mem_append_left _ (List.mem_map.mpr ⟨old, by simp [there], rfl⟩))).2

end Layout

namespace Program

variable {program : Program} {layout : Layout}

/-- A parsed program can be said by a text. -/
theorem parse_readable {source : List Char} (parsed : parse source = .ok program) :
    ∃ layout, program.Holds layout ∧ layout.Readable := by
  obtain ⟨file, read, rfl⟩ := parse_file parsed
  obtain ⟨_, readable, _⟩ := File.parse_told read
  obtain ⟨layout, holds, same, script⟩ := ofFile_holds file
  refine ⟨layout, holds, .of_file ?_ ?_⟩
  · have arranged : ReadableItems file.arranged.items :=
      readableItems_itemsOf.mpr
        ⟨readable.statements, readable_arrangedFunctions file.items readable⟩
    rw [← same] at arranged
    exact (readableItems_map (fun stmt => Stmt.readable_relabel _ _ stmt) layout.file.items).mp
      arranged
  · have statements := congrArg (fun file => file.items.filterMap Item.statement?) same
    simp only [File.map, statements_map, File.arranged, statements_itemsOf] at statements
    rw [script, ← statements, List.map_eq_nil_iff]

theorem instrumentAll_readable (holds : program.Holds layout)
    (readable : layout.Readable) (choices : List Bool) :
    ∃ (result : Program) (layout : Layout), program.instrumentAll choices = .ok result ∧
      result.Holds layout ∧ layout.Readable := by
  -- the layout that is held and the readable one are not known to be the same, so the invariant
  -- brings its own
  have step {program result : Program} {layout : Layout} {classify : Bool} {tally : Tally}
      (_ : program.Holds layout) (ran : program.instrument classify = .ok (result, tally))
      (before : ∃ layout, program.Holds layout ∧ layout.Readable) :
      ∃ layout, result.Holds layout ∧ layout.Readable := by
    obtain ⟨layout, holds, readable⟩ := before
    obtain ⟨final, other, _, ran', held, woven⟩ := holds.instrument classify
    cases ran.symm.trans ran'
    exact ⟨_, held, readable.rebody woven⟩
  obtain ⟨result, _, ran, _, layout, held, after⟩ :=
    holds.instrumentAll step ⟨layout, holds, readable⟩ choices
  exact ⟨result, layout, ran, held, after⟩

theorem Holds.content (holds : program.Holds layout)
    (script : layout.script = none ↔ layout.file.items.filterMap Item.statement? = []) :
    program.content = .ok (.ofFile (layout.file.map id Stmt.unnumbered).unplaced) := by
  rw [Program.content, holds.file, holds.script, Option.isSome_map]
  have flag : layout.script.isSome = (!(layout.file.items.filterMap Item.statement?).isEmpty) := by
    rw [Bool.eq_iff_iff, Bool.not_eq_true', List.isEmpty_eq_false_iff, Option.isSome_iff_ne_none]
    exact not_congr script
  have same :
      ((layout.file.map id Stmt.unnumbered).unplaced.items.filterMap Item.statement?).isEmpty =
      (layout.file.items.filterMap Item.statement?).isEmpty := by
    simp only [File.unplaced, File.map, statements_map, List.isEmpty_map]
  rw [flag, Content.ofFile, same]
  rfl

theorem ofFile_content (file : ParsedFile) :
    (ofFile file).content = .ok (.ofFile file.arranged.unplaced) := by
  obtain ⟨layout, holds, same, script⟩ := ofFile_holds file
  rw [holds.content, same]
  have statements := congrArg (fun file => file.items.filterMap Item.statement?) same
  simp only [File.map, statements_map, File.arranged, statements_itemsOf] at statements
  rw [script, ← statements, List.map_eq_nil_iff]

theorem Holds.expressions (holds : program.Holds layout) :
    ∃ exprs, program.expressions = .ok exprs ∧
      (layout.file.Faithful ↔ ∀ expr ∈ exprs, expr.quotesText = false) := by
  have bodies : (layout.regions.map Region.scope).mapM program.scopeTrees =
      .ok (layout.regions.map fun region => region.body.2) :=
    mapM_map_ok fun region member => holds.scopeTrees member
  refine ⟨(Stmt.within (layout.regions.map fun region => region.body.2).flatten).flatMap fun stmt =>
    stmt.shape.exprs.flatMap Expr.within, ?_, ?_⟩
  · rw [Program.expressions, holds.scopes, ok_bind, bodies]
    rfl
  · simp only [layout.faithful_file, List.forall_mem_flatMap, Stmt.within_flatten, List.flatMap_map]
    refine forall₂_congr fun region _ => ?_
    rw [Stmt.within_flatMap, List.forall_mem_flatMap]
    rfl

/-- What is written for a readable program is read as the same program exactly when no quote in it
transposes a text. -/
theorem Holds.reparses_iff (holds : program.Holds layout) (readable : layout.Readable) :
    (∃ again, parse layout.file.print = .ok again ∧ again.content = program.content) ↔
      layout.file.Faithful := by
  have printed : (layout.file.map id Stmt.unnumbered).print = layout.file.print :=
    File.print_map (fun stmt => Stmt.written_relabel _ _ stmt) layout.file
  have faithful : (layout.file.map id Stmt.unnumbered).Faithful ↔ layout.file.Faithful :=
    File.faithful_map (fun stmt => Stmt.faithful_relabel _ _ stmt) layout.file
  have items : ReadableItems (layout.file.map id Stmt.unnumbered).items :=
    (readableItems_map (fun stmt => Stmt.readable_relabel _ _ stmt) layout.file.items).mpr
      readable.items
  have arranged : (layout.file.map id Stmt.unnumbered).arranged =
      layout.file.map id Stmt.unnumbered := by
    rw [File.arranged_map, layout.arranged_file]
  rw [holds.content readable.script_none, ← printed, ← faithful]
  -- the program's file is arranged already, so that reading it anew can be compared with it as it
  -- stands
  constructor
  · rintro ⟨again, parsed, same⟩
    obtain ⟨found, read, rfl⟩ := parse_file parsed
    rw [ofFile_content] at same
    by_contra unfaithful
    have other := File.parse_print_other items unfaithful read
    rw [arranged] at other
    exact other (congrArg Content.file (Except.ok.inj same))
  · intro clean
    obtain ⟨found, read, same⟩ := File.parse_print items clean
    have moved : found.arranged.unplaced = (layout.file.map id Stmt.unnumbered).unplaced := by
      have both := congrArg File.arranged same
      rwa [File.unplaced, File.unplaced, File.arranged_map, File.arranged_map,
        arranged, arranged] at both
    refine ⟨ofFile found, ?_, ?_⟩
    · rw [parse, read]
      rfl
    · rw [ofFile_content, moved]

/-- A parsed program, instrumented or not, is written so that reading gives the same program exactly
when no quote in it transposes a text. -/
theorem reparses_iff_no_quoted_text {source : List Char} (parsed : parse source = .ok program)
    (choices : List Bool) :
    ∃ (result : Program) (file : File Site StoredExpr) (exprs : List StoredExpr)
      (content : Content),
      program.instrumentAll choices = .ok result ∧ result.file = .ok file ∧
      result.expressions = .ok exprs ∧
      result.content = .ok content ∧
      ((∃ again, parse file.print = .ok again ∧ again.content = .ok content) ↔
        ∀ expr ∈ exprs, expr.quotesText = false) := by
  obtain ⟨layout, holds, readable⟩ := parse_readable parsed
  obtain ⟨result, last, ran, held, stays⟩ := instrumentAll_readable holds readable choices
  obtain ⟨exprs, listed, clean⟩ := held.expressions
  have content := held.content stays.script_none
  have reparses := held.reparses_iff stays
  rw [clean, content] at reparses
  exact ⟨result, last.file, exprs, _, ran, held.file, listed, content, reparses⟩

theorem call_in_loop_reparses_iff :
    ∃ program,
      parse "while f('a')\n x = [1 2]';\nend\nfunction f\n return\nend\n".toList = .ok program ∧
      ∃ (result : Program) (file : File Site StoredExpr) (exprs : List StoredExpr)
        (content : Content),
        program.instrumentAll [true, false] = .ok result ∧ result.file = .ok file ∧
        result.expressions = .ok exprs ∧
        result.content = .ok content ∧
        ((∃ again, parse file.print = .ok again ∧ again.content = .ok content) ↔
          ∀ expr ∈ exprs, expr.quotesText = false) := by
  obtain ⟨program, parsed⟩ := exists_ok (by decide +kernel : (parse
    "while f('a')\n x = [1 2]';\nend\nfunction f\n return\nend\n".toList).toOption.isSome)
  exact ⟨program, parsed, reparses_iff_no_quoted_text parsed [true, false]⟩

/-- The parentheses around a text are left out, so that the quote behind it goes on with the
text. -/
example : ((parse "x = ('a')';".toList).toOption.bind fun program =>
    program.file.toOption.map fun file => (String.ofList file.print,
        (parse file.print).toOption.isSome)) = some ("x = 'a'';\n", false) := by decide +kernel

end Program
end ScriptFlow
