import ScriptFlow.File.Parser
import ScriptFlow.Proofs.Expr.Spelled
import ScriptFlow.Proofs.Token.Finding

/-!
Brackets and `end`s. The brackets of a written expression match, and an `end` that stands for a
value is inside of some, so an expression has no part in the count that tells whether functions are
closed.
-/

namespace ScriptFlow

open Token Token.Lexeme

namespace File

/-- Where that many brackets are open, the lexemes add that much to the count and leave the depth as
it is. -/
def Tallies (depth count : Int) (lexemes : List Lexeme) : Prop :=
  ∀ rest, surplus depth (kinds lexemes ++ rest) = count + surplus depth rest

variable {depth count more : Int} {front back inner : List Lexeme}

theorem tallies_nil : Tallies depth 0 [] := fun _ => (Int.zero_add _).symm

theorem Tallies.append (fronts : Tallies depth count front) (backs : Tallies depth more back) :
    Tallies depth (count + more) (front ++ back) := by
  intro rest
  rw [kinds_append, List.append_assoc, fronts, backs, Int.add_assoc]

theorem Tallies.silent (fronts : Tallies depth 0 front) (backs : Tallies depth 0 back) :
    Tallies depth 0 (front ++ back) :=
  fronts.append backs

theorem tallies_gap (kind : Gap) (text : List Char) (tallies : Tallies depth count back) :
    Tallies depth count (.gap kind text :: back) := tallies

def plain (kind : Kind) : Bool := depthAfter 0 kind == 0 && !opens kind && kind != .endKey

theorem depthAfter_plain {kind : Kind} (plain : plain kind = true) (depth : Int) :
    depthAfter depth kind = depth := by
  cases kind <;> first | rfl | cases plain

theorem tallies_plain {kind : Kind} {text : List Char} (still : plain kind = true) :
    Tallies depth 0 [.token kind text] := by
  intro rest
  have none : opens kind = false ∧ kind ≠ .endKey := by
    simp only [plain, Bool.and_eq_true, Bool.not_eq_true', bne_iff_ne] at still
    exact ⟨still.1.2, still.2⟩
  change surplus depth (kind :: rest) = _
  rw [surplus, depthAfter_plain still, none.1, if_neg none.2]
  simp

theorem tallies_last (inside : depth ≠ 0) : Tallies depth 0 [mark .endKey] := by
  intro rest
  change (if depth ≠ 0 then (0 : Int) else _) + surplus depth rest = _
  rw [if_pos inside]

theorem tallies_enclosed {opener closer : Kind}
    (brackets : (opener, closer) ∈
      [(Kind.openParen, Kind.closeParen), (.openBracket, .closeBracket), (.openBrace, .closeBrace)])
    (tallies : Tallies (depth + 1) 0 inner) :
    Tallies depth 0 ([mark opener] ++ inner ++ [mark closer]) := by
  intro rest
  have facts : opens opener = false ∧ opener ≠ .endKey ∧ opens closer = false ∧ closer ≠ .endKey ∧
      depthAfter depth opener = depth + 1 ∧ depthAfter (depth + 1) closer = depth := by
    have back : depth + 1 - 1 = depth := by omega
    simp only [List.mem_cons, Prod.mk.injEq, List.not_mem_nil, or_false] at brackets
    rcases brackets with ⟨rfl, rfl⟩ | ⟨rfl, rfl⟩ | ⟨rfl, rfl⟩
      <;> exact ⟨rfl, by decide, rfl, by decide, rfl, back⟩
  obtain ⟨still, other, still', other', opened, closed⟩ := facts
  have split : kinds ([mark opener] ++ inner ++ [mark closer]) ++ rest = opener ::
      (kinds inner ++ closer :: rest) := by
    simp
  rw [split, surplus, opened, tallies, surplus, closed, still, still', if_neg other, if_neg other']
  simp

theorem tallies_separated {kind : Kind} (still : plain kind = true) {parts : List (List Lexeme)}
    (each : ∀ part ∈ parts, Tallies depth 0 part) : Tallies depth 0 (separated kind parts) := by
  induction parts with
  | nil => exact tallies_nil
  | cons part rest ih =>
      cases rest with
      | nil =>
          rw [separated_single]
          exact each part List.mem_cons_self
      | cons next rest =>
          rw [separated_cons]
          refine (each part List.mem_cons_self).silent ?_
          exact (tallies_plain still).silent
            (tallies_gap _ _ (ih fun part member => each part (List.mem_cons_of_mem _ member)))

end File

namespace Expr

open File

variable {Label : Type} {inIndex : Bool} {expr : Expr Label}

def Deep (inIndex : Bool) (depth : Int) : Prop := 0 ≤ depth ∧ (inIndex = true → 0 < depth)

theorem tallies_writtenAt {depth : Int} (deep : Deep inIndex depth)
    (own : ∀ depth, Deep inIndex depth → Tallies depth 0 expr.lexemes) (level : Nat) :
    Tallies depth 0 (expr.writtenAt level) := by
  rcases Nat.lt_or_ge expr.level level with low | high
  · rw [writtenAt_low low]
    exact tallies_enclosed (by simp)
      (own (depth + 1) ⟨by have := deep.1; omega, fun _ => by have := deep.1; omega⟩)
  · rw [writtenAt_high high]
    exact own depth deep

theorem plain_op (op : BinaryOp) : plain op.kind = true := by cases op <;> rfl

/-- An expression has no part in the count of what opens and closes. -/
theorem Readable.tallies (readable : Readable inIndex false expr) {depth : Int}
    (deep : Deep inIndex depth) : Tallies depth 0 expr.lexemes := by
  induction expr using Expr.induction generalizing inIndex depth with
  | node label shape ih =>
      have below {operand : Expr Label} (inside : operand ∈ shape.operands)
          (readable : Readable inIndex false operand) (level : Nat) :
          Tallies depth 0 (operand.writtenAt level) :=
        tallies_writtenAt deep (fun _ deep => ih operand inside readable deep) level
      -- in brackets the count is one higher, which is also what lets an index write `end`
      have inner : Deep inIndex (depth + 1) :=
        ⟨by have := deep.1; omega, fun _ => by have := deep.1; omega⟩
      have list {args : List (Expr Label)} (inside : ∀ arg ∈ args, arg ∈ shape.operands)
          (readable : ∀ arg ∈ args, Readable true true arg) :
          Tallies (depth + 1) 0 (separated .comma (args.map lexemes)) := by
        refine tallies_separated rfl fun part member => ?_
        obtain ⟨arg, own, rfl⟩ := List.mem_map.mp member
        rcases (readable arg own).argument_cases with ⟨label, rfl⟩ | value
        · exact tallies_plain rfl
        · exact ih arg (inside arg own) value ⟨inner.1, fun _ => by have := deep.1; omega⟩
      have grid {rows : List (List (Expr Label))}
          (inside : ∀ expr ∈ rows.flatten, expr ∈ shape.operands)
          (readable : ∀ row ∈ rows, ∀ element ∈ row, Readable inIndex false element) :
          Tallies (depth + 1) 0 (writtenRows rows) := by
        refine tallies_separated rfl fun part member => ?_
        obtain ⟨row, own, rfl⟩ := List.mem_map.mp member
        refine tallies_separated rfl fun part member => ?_
        obtain ⟨element, here, rfl⟩ := List.mem_map.mp member
        exact ih element (inside element (List.mem_flatten.mpr ⟨row, own, here⟩))
          (readable row own element here) inner
      cases readable with
      | num | name => exact tallies_plain rfl
      | @str _ _ _ _ quoting => cases quoting <;> exact tallies_plain rfl
      | last =>
          have positive := deep.2 rfl
          exact tallies_last (by omega)
      | param heads arguments =>
          rw [lexemes_param]
          exact (below List.mem_cons_self heads _).silent (tallies_enclosed (by simp)
            (list (fun arg member => List.mem_cons_of_mem _ member) arguments))
      | cellIndex heads arguments =>
          rw [lexemes_cellIndex]
          exact (below List.mem_cons_self heads _).silent (tallies_enclosed (by simp)
            (list (fun arg member => List.mem_cons_of_mem _ member) arguments))
      | field bases isName =>
          rw [lexemes_field]
          exact (below List.mem_cons_self bases _).silent
            ((tallies_plain rfl).silent (tallies_plain rfl))
      | matrix filled elements =>
          rw [lexemes_matrix]
          exact tallies_enclosed (by simp) (grid (fun _ member => member) elements)
      | cell filled elements =>
          rw [lexemes_cell]
          exact tallies_enclosed (by simp) (grid (fun _ member => member) elements)
      | unary op operands =>
          rw [lexemes_unary]
          exact (tallies_plain (by cases op <;> rfl)).silent (below List.mem_cons_self operands _)
      | transpose op operands =>
          rw [lexemes_transpose]
          exact (below List.mem_cons_self operands _).silent (tallies_plain (by cases op <;> rfl))
      | binary op lefts rights =>
          rw [lexemes_binary]
          refine (below List.mem_cons_self lefts _).silent (tallies_gap _ _ ?_)
          exact (tallies_plain (plain_op op)).silent
            (tallies_gap _ _ (below (by simp [ExprShape.operands]) rights _))
      | @range _ _ _ start step stop starts steps stops =>
          have first := below (by simp [ExprShape.operands]) starts (Level.range + 1)
          have last := below (by simp [ExprShape.operands]) stops (Level.range + 1)
          have colon : Tallies depth 0 [mark .colon] := tallies_plain rfl
          cases step with
          | none =>
              rw [lexemes_range_none]
              exact first.silent (colon.silent last)
          | some middle =>
              rw [lexemes_range_some]
              exact first.silent (colon.silent ((below (by simp [ExprShape.operands])
                  (steps middle rfl) _).silent (colon.silent last)))

end Expr
end ScriptFlow
