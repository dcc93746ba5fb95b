import ScriptFlow.Command.Run
import ScriptFlow.Proofs.Flow.Chain
import ScriptFlow.Proofs.Program.Numbered
import ScriptFlow.Proofs.Program.Rebody

/-!
The analysis of a program and its report, scope by scope. The statements of the scopes are apart
from one another, and the values around a statement name statements of its own scope only. So every
scope has its own part in the analysis of the program, and its own section in the report.
-/

namespace ScriptFlow

theorem join_single {A : Type} [DecidableEq A] {items : List A}
    (distinct : items.Nodup) {item : A} (member : item ∈ items) (text : String) :
    String.join (items.map fun other => if other = item then text else "") = text := by
  have silent (others : List A) (absent : item ∉ others) :
      String.join (others.map fun other => if other = item then text else "") = "" := by
    induction others with
    | nil => rfl
    | cons first rest ih =>
        rw [List.mem_cons, not_or] at absent
        rw [List.map_cons, String.join_cons, if_neg (Ne.symm absent.1), ih absent.2,
          String.append_empty]
  induction items with
  | nil => cases member
  | cons first rest ih =>
      obtain ⟨fresh, others⟩ := List.nodup_cons.mp distinct
      rw [List.map_cons, String.join_cons]
      by_cases here : first = item
      · subst here
        rw [if_pos rfl, silent rest fresh, String.append_empty]
      · have later : item ∈ rest := by
          rcases List.mem_cons.mp member with same | later
          · exact absurd same.symm here
          · exact later
        rw [if_neg here, ih others later, String.empty_append]

namespace Flow

/-- The values of the point attribute a variable to the statement. -/
def Point.Mentions (point : Point) (id : StmtId) : Prop :=
  ∃ name, id ∈ point.into.users name ∨ id ∈ point.out.users name

theorem mem_byStatement {points : List Point} {id : StmtId} :
    id ∈ byStatement points ↔ id ∈ points.map Point.id := by
  rw [byStatement, Std.ExtTreeMap.mem_ofList, List.map_map, List.contains_iff_mem]
  rfl

theorem Describes.mem_chain {isFunction : String → Bool} {flow : FlowValue}
    {chain : List StoredStmt} (described : Describes isFunction flow chain) {name : String}
    {id : StmtId} (user : id ∈ flow.users name) : ∃ stmt ∈ chain, stmt.number = id := by
  obtain ⟨front, stmt, back, rfl, same, _⟩ := (described.users name id).mp user
  exact ⟨stmt, List.mem_append_right _ List.mem_cons_self, same⟩

theorem annotateBody_point {isFunction : String → Bool} {body : List StoredStmt} {into : FlowValue}
    {points : List Point} (ran : annotateBody isFunction body ∅ = .ok (into, points))
    {stmt : StoredStmt} (visited : stmt ∈ Stmt.within body) :
    ∃ point ∈ points, point.id = stmt.number ∧ ∀ id, point.Mentions id →
      id ∈ Stmt.numbers body := by
  obtain ⟨_, each⟩ := body_explained (fun inner _ => stmt_explained inner) ran describes_empty
  obtain ⟨chain, follows, point, here, same, out, into⟩ := each stmt visited
  have chained : ∀ met ∈ chain, met ∈ Stmt.within body :=
    follows.chain_within (fun _ visited => visited) fun _ none => absurd none List.not_mem_nil
  refine ⟨point, here, same, fun id mention => ?_⟩
  obtain ⟨name, before | behind⟩ := mention
  · obtain ⟨met, inside, rfl⟩ := into.mem_chain before
    rcases List.mem_cons.mp inside with rfl | later
    · exact Stmt.number_mem visited
    · exact Stmt.number_mem (chained met later)
  · obtain ⟨met, inside, rfl⟩ := out.mem_chain behind
    exact Stmt.number_mem (chained met inside)

end Flow

namespace Analysis

open Store (Checked)

/-- How a report names a statement: the first line of its text without the blanks around it, and its
place. -/
def shown (stmt : StoredStmt) : String :=
  let first := stmt.print.takeWhile (· != '\n')
  let trimmed := ((first.dropWhile Text.isSpace).reverse.dropWhile Text.isSpace).reverse
  let place := stmt.label.position
  "[" ++ String.ofList trimmed ++
    " at [" ++ toString place.line ++ ", " ++ toString place.column ++ "]]"

/-- The line about a variable is its name, and among reaching definitions the statements of the
scope behind it that the variable is attributed to. -/
def Line (analysis : Analysis) (body : List StoredStmt) (fact : String × IdSet) (line : String) :
    Prop :=
  match analysis with
  | .live => line = fact.1
  | .reaching => ∃ users : List StoredStmt,
      List.Forall₂ (fun id user => user ∈ Stmt.within body ∧ user.number = id) fact.2.toList users ∧
      line = fact.1 ++ ": " ++ ", ".intercalate (users.map shown)

/-- The section about a statement: the lines about what flows into it, the statement itself, the
lines about what flows out of it, and a blank line. -/
def Section (analysis : Analysis) (body : List StoredStmt) (stmt : StoredStmt) (point : Flow.Point)
    (written : String) : Prop :=
  ∃ into out : List String,
    List.Forall₂ (analysis.Line body) point.into.toList into ∧
    List.Forall₂ (analysis.Line body) point.out.toList out ∧
    written =
      "in \x7b\n" ++ String.join (into.map (· ++ "\n")) ++ "\x7d\n" ++
      String.ofList stmt.print ++
      "\nout \x7b\n" ++ String.join (out.map (· ++ "\n")) ++ "\x7d\n\n"

/-- The text has a section about every statement, nested ones included and each before those nested
in it, and nothing else. -/
def Tells (analysis : Analysis) (body : List StoredStmt) (points : Flow.Points) (text : String) :
    Prop :=
  ∃ sections, text = String.join sections ∧
    List.Forall₂ (fun stmt written => ∃ point, points[stmt.number]? = some point ∧
      analysis.Section body stmt point written) (Stmt.within body) sections

variable {analysis : Analysis} {body : List StoredStmt} {stmt : StoredStmt} {point : Flow.Point}

theorem exists_lines {flow : FlowValue}
    (known : ∀ name, ∀ id ∈ flow.users name, id ∈ Stmt.numbers body) :
    ∃ lines, List.Forall₂ (analysis.Line body) flow.toList lines := by
  refine exists_forall₂ fun fact member => ?_
  cases analysis with
  | live => exact ⟨fact.1, rfl⟩
  | reaching =>
      have own : flow.users fact.1 = fact.2 := by
        rw [FlowValue.users, Std.ExtTreeMap.mem_toList_iff_getElem?_eq_some.mp member]
        rfl
      obtain ⟨users, told⟩ : ∃ users, List.Forall₂
          (fun id user => user ∈ Stmt.within body ∧ user.number = id) fact.2.toList users := by
        refine exists_forall₂ fun id inside => ?_
        rw [Std.ExtTreeSet.mem_toList, ← own] at inside
        exact List.mem_map.mp (known fact.1 id inside)
      exact ⟨_, users, told, rfl⟩

theorem exists_section (known : ∀ id, point.Mentions id → id ∈ Stmt.numbers body) :
    ∃ written, analysis.Section body stmt point written := by
  obtain ⟨into, before⟩ : ∃ lines, List.Forall₂ (analysis.Line body) point.into.toList lines :=
    exists_lines fun name id user => known id ⟨name, .inl user⟩
  obtain ⟨out, behind⟩ : ∃ lines, List.Forall₂ (analysis.Line body) point.out.toList lines :=
    exists_lines fun name id user => known id ⟨name, .inr user⟩
  exact ⟨_, into, out, before, behind, rfl⟩

theorem exists_tells {points : Flow.Points}
    (known : ∀ stmt ∈ Stmt.within body, ∃ point,
      points[stmt.number]? = some point ∧ ∀ id, point.Mentions id → id ∈ Stmt.numbers body) :
    ∃ text, analysis.Tells body points text := by
  obtain ⟨sections, told⟩ : ∃ sections, List.Forall₂ (fun stmt written =>
      ∃ point, points[stmt.number]? = some point ∧ analysis.Section body stmt point written)
      (Stmt.within body) sections := by
    refine exists_forall₂ fun stmt visited => ?_
    obtain ⟨point, here, mentioned⟩ := known stmt visited
    obtain ⟨written, told⟩ := exists_section mentioned
    exact ⟨written, point, here, told⟩
  exact ⟨_, sections, rfl, told⟩

section
variable {use : StmtId → Checked String}
  (uses : ∀ stmt ∈ Stmt.within body, use stmt.number = .ok (shown stmt))

include uses

theorem Line.entry {fact : String × IdSet} {line : String} (told : analysis.Line body fact line) :
    analysis.entry use fact.1 fact.2 = .ok line := by
  cases analysis with
  | live => exact congrArg Except.ok told.symm
  | reaching =>
      obtain ⟨users, told, rfl⟩ := told
      have named : fact.2.toList.mapM use = .ok (users.map shown) := by
        refine mapM_of_forall₂ (List.forall₂_map_right_iff.mpr (told.imp fun id user both => ?_))
        obtain ⟨visited, rfl⟩ := both
        exact uses user visited
      rw [Analysis.entry, named]
      rfl

theorem Section.annotated {written : String} (told : analysis.Section body stmt point written) :
    analysis.annotated use stmt point = .ok written := by
  obtain ⟨into, out, before, behind, rfl⟩ := told
  have entries {flow : FlowValue} {lines : List String}
      (lists : List.Forall₂ (analysis.Line body) flow.toList lines) : analysis.entries use flow =
      .ok lines := mapM_of_forall₂ (lists.imp fun _ _ => Line.entry uses)
  rw [Analysis.annotated, entries before, ok_bind, entries behind, ok_bind]
  have next (rest : String) : "\n" ++ ("out \x7b\n" ++ rest) = "\nout \x7b\n" ++ rest := by
    rw [← String.append_assoc]
    rfl
  refine congrArg Except.ok ?_
  simp [braced, String.append_assoc, next]

end

theorem showUse_eq {program : Program} (found : program.store.stmtTree stmt.number = .ok stmt) :
    showUse program stmt.number = .ok (shown stmt) := by
  rw [showUse, found]
  refine congrArg Except.ok ?_
  simp [shown, Stmt.headline, Text.trim, Text.trimEnd, Text.trimStart, Position.display,
    String.append_assoc]
  rfl

end Analysis

namespace Program

/-- The analysis of the program is made of parts, the analyses of its scopes. A part has the
statements of its own scope and no others. -/
structure ByScope (program : Program) (points : Flow.Points) (scopes : List Scope)
    (body : Scope → List StoredStmt) (part : Scope → Flow.Points) : Prop where
  listed : program.scopes = .ok scopes
  distinct : scopes.Nodup
  bodies : ∀ scope ∈ scopes, program.scopeTrees scope = .ok (body scope)
  once : ∀ scope ∈ scopes, (Stmt.numbers (body scope)).Nodup
  analyzed : ∀ scope ∈ scopes, program.analyzeScope scope = .ok (part scope)
  annotated : ∀ scope ∈ scopes, ∀ id, id ∈ part scope ↔ id ∈ Stmt.numbers (body scope)
  apart : ∀ scope ∈ scopes, ∀ other ∈ scopes, scope ≠ other → ∀ id ∈ part scope, id ∉ part other
  every : ∀ id, id ∈ points ↔ id < program.store.stmts.size
  same : ∀ scope ∈ scopes, ∀ id ∈ part scope, points[id]? = (part scope)[id]?

def Named (program : Program) (name : String) (scope : Scope) : Prop :=
  ∃ header, program.header? scope = .ok (some header) ∧ header.name = name

/-- The report of the program is made of sections, the reports of its scopes. A section goes over
the statements of its own scope; the report of a name is the section of the first function of the
name. -/
structure ReportsByScope (program : Program) (points : Flow.Points) (scopes : List Scope)
    (body : Scope → List StoredStmt) (part : Scope → Flow.Points) (analysis : Analysis)
    (text : Scope → String) : Prop where
  tells : ∀ scope ∈ scopes, analysis.Tells (body scope) (part scope) (text scope)
  scope : ∀ scope ∈ scopes, analysis.report program (part scope) = .ok (text scope)
  whole : analysis.report program points = .ok (String.join (scopes.map text))
  command : Command.output program (.report analysis none) = .ok (String.join (scopes.map text))
  named : ∀ name, (∃ front scope back, scopes = front ++ scope :: back ∧ program.Named name scope ∧
      (∀ other ∈ front, ¬ program.Named name other) ∧
      Command.output program (.report analysis (some name)) = .ok (text scope)) ∨
    ((∀ scope ∈ scopes, ¬ program.Named name scope) ∧
      Command.output program (.report analysis (some name)) = .error (.unknownFunction name))

namespace Holds

open Store (Checked)

variable {program : Program} {layout : Layout} {region : Region} {analysis : Analysis}

theorem uses (holds : program.Holds layout) {points : Flow.Points}
    (there : ∀ id ∈ points, id < program.store.stmts.size) :
    ∃ table, Analysis.uses program points = .ok table ∧
      ∀ id ∈ points, Store.found table[id]? = Analysis.showUse program id := by
  obtain ⟨entries, ran⟩ : ∃ entries : List (StmtId × String),
      (points.keys.mapM fun id => return (id, ← Analysis.showUse program id) : Checked _) =
      .ok entries := by
    refine exists_mapM_ok fun id member => ?_
    obtain ⟨region, inside, own⟩ :=
      holds.mem_stmts.mp (there id (Std.ExtTreeMap.mem_keys.mp member))
    obtain ⟨stmt, visited, rfl⟩ := List.mem_map.mp own
    rw [Analysis.showUse_eq (holds.stmtTree inside visited)]
    exact ⟨_, rfl⟩
  have made := forall₂_of_mapM_ok ran
  have entry (id : StmtId) (pair : StmtId × String)
      (here : (do return (id, ← Analysis.showUse program id) : Checked _) = .ok pair) :
      pair.1 = id ∧ Analysis.showUse program id = .ok pair.2 := by
    obtain ⟨text, shown, here⟩ := bind_eq_ok here
    cases here
    exact ⟨rfl, shown⟩
  -- The table lists the annotated statements in their order, so none of them twice.
  have keys : entries.map Prod.fst = points.keys := by
    have firsts := made.imp fun id pair here => (entry id pair here).1.symm
    rw [← List.forall₂_map_right_iff] at firsts
    exact (List.forall₂_eq_eq_eq ▸ firsts : points.keys = entries.map Prod.fst).symm
  refine ⟨.ofList entries, ?_, fun id member => ?_⟩
  · rw [Analysis.uses, ran]
    rfl
  · obtain ⟨pair, inside, here⟩ := exists_right_of_forall₂ made (Std.ExtTreeMap.mem_keys.mpr member)
    obtain ⟨same, shown⟩ := entry id pair here
    have distinct : entries.Pairwise fun a b => ¬ compare a.1 b.1 = Ordering.eq := by
      have apart := points.distinct_keys
      rw [← keys, List.pairwise_map] at apart
      exact apart
    have found : (Std.ExtTreeMap.ofList entries)[id]? = some pair.2 :=
      Std.ExtTreeMap.getElem?_ofList_of_mem (by rw [same]; exact Std.compare_self) distinct inside
    rw [found, shown, Store.found]

theorem scopeReport (holds : program.Holds layout) (member : region ∈ layout.regions)
    (use : StmtId → Checked String) (points : Flow.Points) :
    analysis.scopeReport program use points region.scope = (do
      let sections ← (Stmt.within region.body.2).mapM fun stmt => match points[stmt.number]? with
        | some point => analysis.annotated use stmt point
        | none => return ""
      return String.join sections) := by
  have sections : (((Stmt.within region.body.2).map Stmt.outline).mapM fun stmt =>
      match points[stmt.label.id]? with
      | some point => do analysis.annotated use (← program.store.stmtTree stmt.label.id) point
      | none =>
        return "") = (Stmt.within region.body.2).mapM fun stmt => match points[stmt.number]? with
        | some point => analysis.annotated use stmt point
        | none => return "" := by
    rw [List.mapM_map]
    refine mapM_congr_mem fun stmt visited => ?_
    have number : stmt.outline.label.id = stmt.number := stmt.number_outline
    simp only [Function.comp_apply, number]
    cases points[stmt.number]? with
    | none => rfl
    | some point =>
        rw [holds.stmtTree member visited]
        rfl
  rw [Analysis.scopeReport, holds.scopeOutlines member, ok_bind, Stmt.within_outline]
  exact congrArg (fun texts : Checked (List String) => do return String.join (← texts)) sections

theorem scopeReport_silent (holds : program.Holds layout)
    (member : region ∈ layout.regions) (use : StmtId → Checked String)
    {points : Flow.Points} (outside : ∀ id ∈ Stmt.numbers region.body.2, id ∉ points) :
    analysis.scopeReport program use points region.scope = .ok "" := by
  have silent (stmt : StoredStmt) (visited : stmt ∈ Stmt.within region.body.2) :
      points[stmt.number]? = none :=
    Std.ExtTreeMap.getElem?_eq_none (outside _ (Stmt.number_mem visited))
  rw [holds.scopeReport member]
  generalize Stmt.within region.body.2 = stmts at silent
  have sections : (stmts.mapM fun stmt => match points[stmt.number]? with
      | some point => analysis.annotated use stmt point
      | none => return "") = .ok (stmts.map fun _ => "") := by
    refine mapM_of_forall₂ ?_
    rw [List.forall₂_map_right_iff, List.forall₂_same]
    intro stmt visited
    rw [silent stmt visited]
    rfl
  rw [sections, ok_bind]
  clear silent sections
  induction stmts with
  | nil => rfl
  | cons first rest ih => rwa [List.map_cons, String.join_cons, String.empty_append]

theorem scopeReport_tells (holds : program.Holds layout) (member : region ∈ layout.regions)
    {use : StmtId → Checked String} {part points : Flow.Points} {text : String}
    (tells : analysis.Tells region.body.2 part text)
    (same : ∀ id ∈ Stmt.numbers region.body.2, points[id]? = part[id]?)
    (uses : ∀ stmt ∈ Stmt.within region.body.2, use stmt.number = .ok (Analysis.shown stmt)) :
    analysis.scopeReport program use points region.scope = .ok text := by
  obtain ⟨sections, rfl, told⟩ := tells
  have ran : ((Stmt.within region.body.2).mapM fun stmt => match points[stmt.number]? with
      | some point => analysis.annotated use stmt point
      | none => return "") = .ok sections := by
    refine mapM_of_forall₂ ((forall₂_mem told).imp fun stmt written both => ?_)
    obtain ⟨visited, _, point, found, said⟩ := both
    rw [same _ (Stmt.number_mem visited), found]
    exact said.annotated uses
  rw [holds.scopeReport member, ran]
  rfl

structure Part (program : Program) (region : Region) (points part : Flow.Points) : Prop where
  analyzed : program.analyzeScope region.scope = .ok part
  annotated : ∀ id, id ∈ part ↔ id ∈ Stmt.numbers region.body.2
  point : ∀ id ∈ Stmt.numbers region.body.2, ∃ point, part[id]? = some point ∧
      points[id]? = some point ∧ ∀ other, point.Mentions other → other ∈ Stmt.numbers region.body.2

theorem part (holds : program.Holds layout) {points : Flow.Points}
    (analyzed : program.analyze = .ok points) (member : region ∈ layout.regions) :
    ∃ part, Part program region points part := by
  rw [holds.analyze] at analyzed
  obtain ⟨lists, ran, analyzed⟩ := bind_eq_ok analyzed
  cases analyzed
  obtain ⟨list, inside, here⟩ := exists_right_of_forall₂ (forall₂_of_mapM_ok ran) member
  obtain ⟨into, walked⟩ := Layout.points_ok here
  have numbers := Flow.points_numbers walked
  have distinct := numbers.nodup_iff.mpr (holds.store.numbers_nodup (region_mem_bodies member))
  refine ⟨Flow.byStatement list, ?_, fun id => ?_, fun id present => ?_⟩
  · rw [Program.analyzeScope, holds.annotateScope member, here]
    rfl
  · rw [Flow.mem_byStatement]
    exact numbers.mem_iff
  · obtain ⟨stmt, visited, rfl⟩ := List.mem_map.mp present
    obtain ⟨point, own, same, mentions⟩ := Flow.annotateBody_point walked visited
    refine ⟨point, ?_, ?_, mentions⟩
    · rw [← same]
      exact Flow.getElem?_byStatement distinct own
    · rw [← same]
      exact Flow.getElem?_byStatement (holds.points_nodup ran)
        (List.mem_flatten.mpr ⟨list, inside, own⟩)

theorem mem_points (holds : program.Holds layout) {points : Flow.Points}
    (analyzed : program.analyze = .ok points) {id : StmtId} :
    id ∈ points ↔ id < program.store.stmts.size := by
  constructor
  · intro present
    rw [holds.analyze] at analyzed
    obtain ⟨lists, ran, analyzed⟩ := bind_eq_ok analyzed
    cases analyzed
    obtain ⟨point, inside, rfl⟩ := List.mem_map.mp (Flow.mem_byStatement.mp present)
    obtain ⟨list, among, own⟩ := List.mem_flatten.mp inside
    obtain ⟨region, member, here⟩ := exists_left_of_forall₂ (forall₂_of_mapM_ok ran) among
    obtain ⟨into, walked⟩ := Layout.points_ok here
    exact holds.mem_stmts.mpr
      ⟨region, member, (Flow.points_numbers walked).mem_iff.mp (List.mem_map_of_mem own)⟩
  · intro there
    obtain ⟨region, member, inside⟩ := holds.mem_stmts.mp there
    obtain ⟨part, isPart⟩ := holds.part analyzed member
    obtain ⟨point, _, found, _⟩ := isPart.point id inside
    exact Std.ExtTreeMap.mem_iff_isSome_getElem?.mpr (by rw [found]; rfl)

variable {points part : Flow.Points}

theorem part_there (holds : program.Holds layout) (member : region ∈ layout.regions)
    (isPart : Part program region points part) : ∀ id ∈ part, id < program.store.stmts.size :=
  fun id inside => holds.mem_stmts.mpr ⟨region, member, (isPart.annotated id).mp inside⟩

theorem part_tells (isPart : Part program region points part) :
    ∃ text, analysis.Tells region.body.2 part text := by
  refine Analysis.exists_tells fun stmt visited => ?_
  obtain ⟨point, found, _, mentions⟩ := isPart.point _ (Stmt.number_mem visited)
  exact ⟨point, found, mentions⟩

/-- The section of a scope is the same from any points that have the part of the scope in them. -/
theorem scopeReport_part (holds : program.Holds layout) (member : region ∈ layout.regions)
    (isPart : Part program region points part) {text : String}
    (tells : analysis.Tells region.body.2 part text) {more : Flow.Points}
    (same : ∀ id ∈ Stmt.numbers region.body.2, more[id]? = part[id]?)
    {use : StmtId → Checked String} (uses : ∀ id ∈ more, use id = Analysis.showUse program id) :
    analysis.scopeReport program use more region.scope = .ok text := by
  refine holds.scopeReport_tells member tells same fun stmt visited => ?_
  have inside := Stmt.number_mem visited
  obtain ⟨_, there, _⟩ := isPart.point stmt.number inside
  rw [uses, Analysis.showUse_eq (holds.stmtTree member visited)]
  rw [Std.ExtTreeMap.mem_iff_isSome_getElem?, same _ inside, there]
  rfl

theorem report_part (holds : program.Holds layout) (member : region ∈ layout.regions)
    (isPart : Part program region points part) {text : String}
    (tells : analysis.Tells region.body.2 part text) : analysis.report program part = .ok text := by
  obtain ⟨table, made, uses⟩ := holds.uses (holds.part_there member isPart)
  have distinct := layout.scopes_nodup holds.store
  have sections : (layout.regions.map Region.scope).mapM
      (analysis.scopeReport program (fun id => Store.found table[id]?) part) =
      .ok ((layout.regions.map Region.scope).map fun scope =>
      if scope = region.scope then text else "") := by
    rw [List.map_map]
    refine mapM_map_ok fun other member' => ?_
    by_cases here : other.scope = region.scope
    · rw [Function.comp_apply, if_pos here, here]
      exact holds.scopeReport_part member isPart tells (fun _ _ => rfl) uses
    · rw [Function.comp_apply, if_neg here]
      refine holds.scopeReport_silent member' _ fun id inside present => ?_
      exact holds.stmts_apart member' member here inside ((isPart.annotated id).mp present)
  rw [Analysis.report, made, ok_bind, holds.scopes, ok_bind]
  change (do return String.join (← (layout.regions.map Region.scope).mapM _)) = _
  rw [sections]
  exact congrArg Except.ok (join_single distinct (List.mem_map_of_mem member) text)

theorem findFunction (holds : program.Holds layout) (name : String) :
    program.findFunction name = .ok ((layout.regions.find? fun region =>
      region.header.map Header.name == some name).map Region.scope) := by
  have named : ((layout.regions.map Region.scope).mapM fun scope =>
      (do return (scope, (← program.header? scope).map Header.name) : Checked _)) =
      .ok (layout.regions.map fun region => (region.scope, region.header.map Header.name)) := by
    refine mapM_map_ok fun region member => ?_
    rw [holds.header? member]
    rfl
  rw [Program.findFunction, holds.scopes, ok_bind, named, ok_bind, List.find?_map]
  exact congrArg Except.ok (Option.map_map ..)

theorem named_iff (holds : program.Holds layout)
    (member : region ∈ layout.regions) {name : String} :
    program.Named name region.scope ↔ region.header.map Header.name = some name := by
  rw [Program.Named, holds.header? member]
  constructor
  · rintro ⟨header, found, rfl⟩
    rw [Except.ok.inj found, Option.map_some]
  · intro named
    obtain ⟨header, own, rfl⟩ := Option.map_eq_some_iff.mp named
    exact ⟨header, congrArg Except.ok own, rfl⟩

theorem report_whole (holds : program.Holds layout) (analyzed : program.analyze = .ok points)
    {text : Region → String} (sections : ∀ region ∈ layout.regions, ∃ part,
      Part program region points part ∧ analysis.Tells region.body.2 part (text region)) :
    analysis.report program points = .ok (String.join (layout.regions.map text)) := by
  obtain ⟨table, made, uses⟩ := holds.uses fun id => (holds.mem_points analyzed).mp
  have ran : (layout.regions.map Region.scope).mapM
      (analysis.scopeReport program (fun id => Store.found table[id]?) points) =
      .ok (layout.regions.map text) := by
    refine mapM_map_ok fun region member => ?_
    obtain ⟨part, isPart, tells⟩ := sections region member
    refine holds.scopeReport_part member isPart tells (fun id inside => ?_) uses
    obtain ⟨point, own, found, _⟩ := isPart.point id inside
    rw [own, found]
  rw [Analysis.report, made, ok_bind, holds.scopes, ok_bind]
  change (do return String.join (← (layout.regions.map Region.scope).mapM _)) = _
  rw [ran]
  rfl

theorem byScope (holds : program.Holds layout) {body : Scope → List StoredStmt}
    {part : Scope → Flow.Points} (analyzed : program.analyze = .ok points)
    (bodies : ∀ region ∈ layout.regions, body region.scope = region.body.2)
    (parts : ∀ region ∈ layout.regions, Part program region points (part region.scope)) :
    program.ByScope points (layout.regions.map Region.scope) body part where
  listed := holds.scopes
  distinct := layout.scopes_nodup holds.store
  bodies := by
    rw [List.forall_mem_map]
    intro region member
    rw [bodies region member]
    exact holds.scopeTrees member
  once := by
    rw [List.forall_mem_map]
    intro region member
    rw [bodies region member]
    exact holds.store.numbers_nodup (region_mem_bodies member)
  analyzed := by
    rw [List.forall_mem_map]
    exact fun region member => (parts region member).analyzed
  annotated := by
    rw [List.forall_mem_map]
    intro region member id
    rw [bodies region member]
    exact (parts region member).annotated id
  apart := by
    simp only [List.forall_mem_map]
    intro region member other member' apart id inside inside'
    exact holds.stmts_apart member member' apart (((parts region member).annotated id).mp inside)
      (((parts other member').annotated id).mp inside')
  every id := holds.mem_points analyzed
  same := by
    rw [List.forall_mem_map]
    intro region member id inside
    obtain ⟨point, own, found, _⟩ :=
      (parts region member).point id (((parts region member).annotated id).mp inside)
    rw [own, found]

theorem reportsByScope (holds : program.Holds layout) {body : Scope → List StoredStmt}
    {part : Scope → Flow.Points} {text : Scope → String} (analyzed : program.analyze = .ok points)
    (bodies : ∀ region ∈ layout.regions, body region.scope = region.body.2)
    (parts : ∀ region ∈ layout.regions, Part program region points (part region.scope))
    (tells : ∀ region ∈ layout.regions,
      analysis.Tells region.body.2 (part region.scope) (text region.scope)) :
    program.ReportsByScope points (layout.regions.map Region.scope) body part analysis text := by
  have scope (region : Region) (member : region ∈ layout.regions) :
      analysis.report program (part region.scope) = .ok (text region.scope) :=
    holds.report_part member (parts region member) (tells region member)
  have whole : analysis.report program points =
      .ok (String.join ((layout.regions.map Region.scope).map text)) := by
    rw [List.map_map]
    exact holds.report_whole analyzed fun region member =>
      ⟨_, parts region member, tells region member⟩
  refine ⟨?_, ?_, whole, ?_, fun name => ?_⟩
  · rw [List.forall_mem_map]
    intro region member
    rw [bodies region member]
    exact tells region member
  · rw [List.forall_mem_map]
    exact scope
  · rw [Command.output, Command.analyzed, analyzed]
    change (analysis.report program points).mapError _ = _
    rw [whole]
    rfl
  -- Only the first scope of a name is reported for it, and a name without a scope is unknown.
  · cases found : layout.regions.find? fun region => region.header.map Header.name == some name with
    | none =>
        refine .inr ⟨?_, ?_⟩
        · rw [List.forall_mem_map]
          intro region member named
          have other := List.find?_eq_none.mp found region member
          rw [(holds.named_iff member).mp named] at other
          exact other BEq.rfl
        · rw [Command.output, Command.analyzed, holds.findFunction, found]
          rfl
    | some region =>
        obtain ⟨named, front, back, split, others⟩ := List.find?_eq_some_iff_append.mp found
        have member : region ∈ layout.regions := by
          rw [split]
          exact List.mem_append_right _ List.mem_cons_self
        refine .inl ⟨front.map Region.scope, region.scope, back.map Region.scope, ?_, ?_, ?_, ?_⟩
        · rw [split, List.map_append, List.map_cons]
        · exact (holds.named_iff member).mpr (eq_of_beq named)
        · rw [List.forall_mem_map]
          intro other before named'
          have inside : other ∈ layout.regions := by
            rw [split]
            exact List.mem_append_left _ before
          have differs := others other before
          rw [(holds.named_iff inside).mp named'] at differs
          simp at differs
        · rw [Command.output, Command.analyzed, holds.findFunction, found]
          change ((program.analyzeScope region.scope).mapError Command.Error.analysis >>=
            fun points =>
            (analysis.report program points).mapError Command.Error.store) = _
          rw [(parts region member).analyzed]
          change (analysis.report program (part region.scope)).mapError Command.Error.store = _
          rw [scope region member]
          rfl

end Holds

/-- The analysis of a parsed program and its reports go scope by scope. -/
theorem analysis_byScope {source : List Char} {program : Program}
    (parsed : parse source = .ok program) {points : Flow.Points}
    (analyzed : program.analyze = .ok points) :
    ∃ (scopes : List Scope) (body : Scope → List StoredStmt) (part : Scope → Flow.Points),
      program.ByScope points scopes body part ∧
      ∀ analysis, ∃ text, program.ReportsByScope points scopes body part analysis text := by
  obtain ⟨layout, holds⟩ := parse_holds parsed
  let body (scope : Scope) := (program.scopeTrees scope).toOption.getD []
  let part (scope : Scope) := (program.analyzeScope scope).toOption.getD ∅
  have bodies (region : Region) (member : region ∈ layout.regions) :
      body region.scope = region.body.2 := by
    simp only [body, holds.scopeTrees member]
    rfl
  have parts (region : Region) (member : region ∈ layout.regions) :
      Holds.Part program region points (part region.scope) := by
    obtain ⟨own, isPart⟩ := holds.part analyzed member
    have same : part region.scope = own := by
      simp only [part, isPart.analyzed]
      rfl
    rwa [same]
  refine ⟨layout.regions.map Region.scope, body, part,
    holds.byScope analyzed bodies parts, fun analysis => ?_⟩
  let text (scope : Scope) := (analysis.report program (part scope)).toOption.getD ""
  refine ⟨text, holds.reportsByScope analyzed bodies parts fun region member => ?_⟩
  obtain ⟨own, tells⟩ : ∃ own, analysis.Tells region.body.2 (part region.scope) own :=
    Holds.part_tells (parts region member)
  have same : text region.scope = own := by
    simp only [text, holds.report_part member (parts region member) tells]
    rfl
  rwa [same]

theorem nested_function_byScope :
    ∃ program points, parse
      "x = f(1);\nif x\n y = x;\nend\nfunction r = f(a)\n r = a;\n function g(a)\n  a\n end\nend\n".toList =
        .ok program ∧ program.analyze = .ok points ∧
      ∃ (scopes : List Scope) (body : Scope → List StoredStmt) (part : Scope → Flow.Points),
        program.ByScope points scopes body part ∧
        ∀ analysis, ∃ text, program.ReportsByScope points scopes body part analysis text := by
  have succeeds : ((parse
      "x = f(1);\nif x\n y = x;\nend\nfunction r = f(a)\n r = a;\n function g(a)\n  a\n end\nend\n".toList).toOption.bind
        fun program => program.analyze.toOption).isSome = true := by decide +kernel
  obtain ⟨points, succeeds⟩ := Option.isSome_iff_exists.mp succeeds
  obtain ⟨program, parsed, analyzed⟩ := Option.bind_eq_some_iff.mp succeeds
  have parsed := ok_of_toOption parsed
  have analyzed := ok_of_toOption analyzed
  exact ⟨program, points, parsed, analyzed, analysis_byScope parsed analyzed⟩

end Program
end ScriptFlow
