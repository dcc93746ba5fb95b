import ScriptFlow.Proofs.Counter.Interleave
import ScriptFlow.Proofs.File.Relabelled

/-!
Readable counters. The name of a counter is a word whenever that of its scope is, so a text can say
every counter statement; what becomes of readable statements is readable.
-/

namespace ScriptFlow

open Token

theorem ofWord_joined {text : List Char} (joined : '_' ∈ text) : Kind.ofWord text = .word := by
  have plain : ∀ kind ∈ Kind.keywords, '_' ∉ kind.spelling.toList := by decide
  rw [Kind.ofWord]
  cases found : Kind.keywords.find? fun kind => kind.spelling.toList = text with
  | none => rfl
  | some kind =>
      have same : kind.spelling.toList = text := by simpa using List.find?_some found
      exact absurd (same ▸ joined) (plain kind (List.mem_of_find?_eq_some found))

theorem wordStart_rest {c : Char} (start : isWordStart c = true) : isWordRest c = true := by
  simp only [isWordStart, isWordRest, Char.isAlphanum, Bool.or_eq_true] at start ⊢
  exact start.imp_left .inl

namespace Token.IsName

variable {text more : List Char}

theorem rest (isName : IsName text) : ∀ c ∈ text, isWordRest c = true := by
  obtain ⟨first, others, rfl, start, all⟩ := isName.shape
  exact List.forall_mem_cons.mpr ⟨wordStart_rest start, all⟩

theorem oneLine (isName : IsName text) : '\n' ∉ text :=
  fun member => absurd (isName.rest _ member) (by decide)

theorem of_chars {c : Char} (free : Kind.ofWord (c :: text) = .word)
    (start : isWordStart c = true) (all : text.all isWordRest = true) : IsName (c :: text) :=
  ⟨free, c, text, rfl, start, List.all_eq_true.mp all⟩

theorem join (isName : IsName text) (joined : '_' ∈ more) (all : more.all isWordRest = true) :
    IsName (text ++ more) := by
  obtain ⟨first, others, rfl, start, own⟩ := isName.shape
  refine ⟨ofWord_joined (List.mem_append_right _ joined), first, others ++ more, rfl,
    start, fun c member => ?_⟩
  exact (List.mem_append.mp member).elim (own c) (List.all_eq_true.mp all c)

end Token.IsName

namespace Counter

variable {scope counter : String}

theorem isName_ofScope (isName : IsName scope.toList) : IsName (ofScope scope).toList := by
  rw [ofScope, String.toList_append]
  exact isName.join (by decide) (by decide)

theorem isName_ofLoop (isName : IsName scope.toList) (number : Nat) :
    IsName (ofLoop scope number).toList := by
  have digits : (toString number).toList.all isWordRest = true := by
    rw [List.all_eq_true]
    intro c member
    have digit : c.isDigit = true :=
      Nat.isDigit_of_mem_toDigits (by decide : 0 < 10) (by decide) (by simpa using member)
    simp [isWordRest, Char.isAlphanum, digit]
  rw [ofLoop, String.toList_append, String.toList_append, List.append_assoc]
  refine isName.join (List.mem_append_left _ (by decide)) ?_
  rw [List.all_append, digits]
  decide

theorem isName_fprintf : IsName "fprintf".toList :=
  .of_chars (by decide : Kind.ofWord ('f' :: "printf".toList) = .word) (by decide) (by decide)

theorem readable_digit {text : String} {c : Char} (digit : c.isDigit = true)
    (single : text.toList = [c]) : (expr (.num text)).Readable false false := by
  refine .num ?_
  rw [single]
  exact number_of_digit digit []

theorem readable_assign {value : ParsedExpr} (isName : IsName counter.toList)
    (readable : value.Readable false false) :
    (stmt (.assign (name counter) value true)).Readable := by
  refine Stmt.readable_node.mpr ⟨⟨?_, nofun, nofun, nofun, nofun, nofun⟩, nofun⟩
  exact List.forall_mem_cons.mpr ⟨.name isName, List.forall_mem_singleton.mpr readable⟩

theorem readable_zeroing (isName : IsName counter.toList) : (Weave.zeroing counter).Readable :=
  readable_assign isName (readable_digit (by decide : '0'.isDigit = true) rfl)

theorem readable_adding (isName : IsName counter.toList) : (Weave.adding counter).Readable :=
  readable_assign isName
    (.binary .add (.name isName) (readable_digit (by decide : '1'.isDigit = true) rfl))

theorem readable_showing (isName : IsName counter.toList) : (Weave.showing counter).Readable := by
  refine Stmt.readable_node.mpr ⟨⟨?_, nofun, nofun, nofun, nofun, nofun⟩, nofun⟩
  refine List.forall_mem_singleton.mpr (.param (.name isName_fprintf) ?_)
  · simp only [List.forall_mem_cons]
    exact ⟨.str .single (by decide), .str .single isName.oneLine, .name isName, nofun⟩

end Counter

namespace Weave

open Instrument (Context)

variable {stmts : StmtId} {exprs : ExprId} {context : Context}
  {counter : ParsedStmt} {stmt : StoredStmt}

theorem Added.readable (added : Added stmts exprs counter stmt)
    (readable : counter.Readable) : stmt.Readable := by
  -- both trees are the same apart from their labels, which readability does not look at
  rw [Added, Stmt.traced, injected] at added
  have same :=
    Stmt.readable_relabel (fun site : Site => (⟨earlier stmts site.id, site.position⟩ : Origin))
      (earlier exprs) stmt
  rw [added, Stmt.readable_relabel] at same
  exact same.mp readable

theorem kept_readable {shape shape' : StmtShape StoredExpr (List StoredStmt)}
    (same : shape'.own = shape.own) (readable : shape.Readable) : shape'.Readable := by
  have bare (shape : StmtShape StoredExpr (List StoredStmt)) :
      shape.own.Readable ↔ shape.Readable :=
    StmtShape.readable_map (fun _ => ()) (fun _ => []) shape
  rw [← bare, same, bare]
  exact readable

theorem rounds_readable {number : Nat} {loop : WovenLoop}
    {shape : StmtShape StoredExpr (List StoredStmt)} {inner : List StoredStmt}
    (isName : IsName context.name.toList) (woven : loop.Of stmts exprs context number shape inner)
    (itself : shape.Readable) (body : ∀ stmt ∈ loop.inner, stmt.Readable) :
    ∀ stmt ∈ loop.stmts, stmt.Readable := by
  have own : IsName (Counter.ofLoop context.name number).toList :=
    Counter.isName_ofLoop isName number
  have kept : (Stmt.node loop.site loop.shape).Readable := by
    refine Stmt.readable_node.mpr ⟨kept_readable woven.own itself, ?_⟩
    rw [woven.split, List.forall_mem_singleton, List.forall_mem_cons]
    exact ⟨woven.increment.readable (Counter.readable_adding own), body⟩
  have charged : ∀ stmt ∈ loop.charges, stmt.Readable := fun stmt member =>
    (woven.charges stmt member).readable (Counter.readable_adding (Counter.isName_ofScope isName))
  rw [WovenLoop.stmts, List.forall_mem_cons, List.forall_mem_append, List.forall_mem_cons,
    List.forall_mem_singleton]
  exact ⟨woven.reset.readable (Counter.readable_zeroing own), charged, kept,
    woven.display.readable (Counter.readable_showing own)⟩

theorem readable_placed (isName : IsName context.name.toList) :
    Placed stmts exprs context fun _ body new _ => (∀ stmt ∈ body, stmt.Readable) →
      ∀ stmt ∈ new, stmt.Readable where
  nil := fun _ _ none => absurd none List.not_mem_nil
  charge added holds readable :=
    List.forall_mem_cons.mpr
      ⟨added.readable (Counter.readable_adding (Counter.isName_ofScope isName)), holds readable⟩
  leave _ added holds readable := by
    obtain ⟨first, rest⟩ := List.forall_mem_cons.mp readable
    have display := added.readable (Counter.readable_showing (Counter.isName_ofScope isName))
    exact List.forall_mem_cons.mpr ⟨display, List.forall_mem_cons.mpr ⟨first, holds rest⟩⟩
  loop woven holds others readable := by
    obtain ⟨first, rest⟩ := List.forall_mem_cons.mp readable
    obtain ⟨itself, bodies⟩ := Stmt.readable_node.mp first
    rw [woven.single, List.forall_mem_singleton] at bodies
    exact List.forall_mem_append.mpr
      ⟨rounds_readable isName woven itself (holds bodies), others rest⟩
  keep _ _ _ own bodies holds readable := by
    obtain ⟨first, rest⟩ := List.forall_mem_cons.mp readable
    obtain ⟨itself, inner⟩ := Stmt.readable_node.mp first
    have inside := (bodies.imp fun body member _ new _ stays =>
        (stays (inner body member) : ∀ stmt ∈ new, stmt.Readable)).results fun _ _ _ _ all => all
    exact List.forall_mem_cons.mpr
      ⟨Stmt.readable_node.mpr ⟨kept_readable own itself, inside⟩, holds rest⟩

/-- What becomes of a scope is readable and holds statements at least about its counter. -/
theorem scope_readable (isName : IsName context.name.toList)
    {body new : List StoredStmt} {number : Nat}
    (traced : new.map (Stmt.traced stmts exprs) = ((Weave.scope context body).run number).1)
    (readable : ∀ stmt ∈ body, stmt.Readable) : (∀ stmt ∈ new, stmt.Readable) ∧ new ≠ [] := by
  obtain ⟨reset, inner, display, rfl, resetAdded, displayAdded, stays⟩ :=
    (readable_placed isName).scope traced
  have own : IsName context.counter.toList := Counter.isName_ofScope isName
  refine ⟨?_, List.cons_ne_nil _ _⟩
  rw [List.forall_mem_cons, List.forall_mem_append, List.forall_mem_singleton]
  exact ⟨resetAdded.readable (Counter.readable_zeroing own), stays readable,
    displayAdded.readable (Counter.readable_showing own)⟩

end Weave
end ScriptFlow
