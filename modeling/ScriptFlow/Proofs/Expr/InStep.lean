import ScriptFlow.Proofs.Expr.Inorder
import ScriptFlow.Proofs.Expr.Refusing
import ScriptFlow.Proofs.Token.Pairing

/-!
Two runs of the readers of expressions. From alike cursors the runs agree: blanks matter only where
a literal is open, and an `end` of a function ends an expression just as a comma does.
-/

namespace ScriptFlow

open Token TokenReader

/-- From alike cursors the runs of the reader agree on what is read, and leave alike cursors. -/
def Pairing.InStep {A : Type} (pairing : Pairing) (nest : Nest) (reader : TokenReader A) : Prop :=
  ∀ here there, pairing.Alike nest here there →
    Agree reader reader here there fun a b after after' => a = b ∧ pairing.Alike nest after after'

namespace Expr

/-- What encloses the expression is open. -/
structure Context.Fits (context : Context) (nest : Nest) : Prop where
  literal : context.inLiteral = true → nest.inLiteral = true
  index : context.inIndex = true → nest.brackets ≠ []

def NestedInStep (pairing : Pairing) (nested : Nested) : Prop :=
  ∀ context nest, context.Fits nest → pairing.InStep nest (nested context)

variable {pairing : Pairing} {nest : Nest} {context : Context} {here there : Cursor}
  {nested operand : Nested} {first next bound : TokenReader ParsedExpr} {close : Kind}

theorem agree_gather {Part : Type} {part : TokenReader (Option Part)}
    {join : ParsedExpr → Part → ParsedExpr} {on : Cursor → Cursor → Prop}
    (lengths : ∀ here there, on here there → there.ahead.length = here.ahead.length)
    (heads : Agree first first here there fun a b after after' => a = b ∧ on after after')
    (parts : ∀ here there, on here there → Agree part part here there (Round Eq on on)) :
    Agree (gather first part join) (gather first part join) here there fun a b after after' =>
      a = b ∧ on after after' := by
  refine heads.bind fun a b after after' same => ?_
  obtain ⟨rfl, alike⟩ := same
  refine (agree_collect (lengths _ _ alike) alike parts).bind
    fun as bs last last' rest => agree_pure ?_
  obtain ⟨same, alike⟩ := rest
  rw [List.forall₂_eq_eq_eq] at same
  exact ⟨by rw [same], alike⟩

theorem plain_binary (op : BinaryOp) : op.kind.isSimple = true ∨ op.kind.isSign = true := by
  cases op <;> first | exact .inl rfl | exact .inr rfl

theorem plain_unary (op : UnaryOp) : op.kind.isSimple = true ∨ op.kind.isSign = true := by
  cases op <;> first | exact .inl rfl | exact .inr rfl

theorem startsElement_alike (alike : pairing.Alike nest here there) (fits : context.Fits nest)
    {kind : Kind} (front : here.next? = some kind) (sign : kind.isSign = true) :
    startsElement context there = startsElement context here := by
  rw [startsElement, startsElement]
  cases literal : context.inLiteral with
  | false => rfl
  | true =>
      have inside := fits.literal literal
      have other : here.next? ≠ some .newline := by
        rw [front]
        rintro ⟨⟩
        cases sign
      rw [pairing.before alike inside other, pairing.behind alike front sign inside]

theorem operatorAt_alike (alike : pairing.Alike nest here there) (fits : context.Fits nest)
    (level : Nat) : operatorAt context level there = operatorAt context level here := by
  rcases pairing.next alike with same | strays
  · rw [operatorAt, operatorAt, same]
    cases found : here.next?.bind BinaryOp.ofKind? with
    | none => rfl
    | some op =>
        obtain ⟨kind, front, sort⟩ := Option.bind_eq_some_iff.mp found
        rw [kind_of_binary sort] at front
        by_cases sum : op.level = Level.sum
        · have sign : op.kind.isSign = true := by cases op <;> first | rfl | cases sum
          simp only [startsElement_alike alike fits front sign]
        · have other : level = Level.sum → op.level ≠ level := fun same => same ▸ sum
          by_cases same : op.level = level
          · have loose : level ≠ Level.sum := fun sums => other sums same
            simp only [loose, false_and, not_false_eq_true, and_true]
          · simp only [same, false_and, if_false]
  · rw [operatorAt, operatorAt, strays.here, strays.there]
    rfl

theorem agree_link (inner : pairing.InStep nest next) (refuses : Refuses .newline next)
    (fits : context.Fits nest) (level : Nat) (alike : pairing.Alike nest here there) :
    Agree (link context level next) (link context level next) here there
      (Round Eq (pairing.Alike nest) (pairing.Alike nest)) := by
  apply agree_get
  rw [operatorAt_alike alike fits level]
  cases found : operatorAt context level here with
  | none => exact agree_pure alike
  | some op =>
      refine Pairing.agree_takeOperator alike (operatorAt_next found) (plain_binary op)
        (fun _ => refuses.bind _) (fun _ => refuses.bind _) fun _ _ after after' alike => ?_
      refine (inner after after' alike).bind fun a b last last' same => agree_pure ?_
      exact ⟨by rw [same.1], same.2⟩

theorem inStep_chain (heads : pairing.InStep nest first) (tails : pairing.InStep nest next)
    (refuses : Refuses .newline next) (fits : context.Fits nest) (level : Nat) :
    pairing.InStep nest (chain context level first next) := by
  intro here there alike
  rw [chain_eq]
  exact agree_gather (fun _ _ => pairing.length) (heads here there alike) fun _ _ =>
    agree_link tails refuses fits level

theorem inStep_rangeOver (bounds : pairing.InStep nest bound) :
    pairing.InStep nest (rangeOver bound) := by
  intro here there alike
  refine (bounds here there alike).bind fun start _ after after' same => ?_
  obtain ⟨rfl, alike⟩ := same
  refine Pairing.agree_eatSimple rfl alike (fun after after' alike => ?_) (agree_pure ⟨rfl, alike⟩)
  refine (bounds after after' alike).bind fun second _ after after' same => ?_
  obtain ⟨rfl, alike⟩ := same
  refine Pairing.agree_eatSimple rfl alike (fun after after' alike => ?_) (agree_pure ⟨rfl, alike⟩)
  refine (bounds after after' alike).bind fun third _ after after' same => agree_pure ?_
  exact ⟨by rw [same.1], same.2⟩

theorem second_eq (last : Option Token) (token : Token) (rest : List Token) :
    Cursor.second? ⟨last, token :: rest⟩ = Cursor.next? ⟨some token, rest⟩ := by cases rest <;> rfl

theorem loneColon_alike (alike : pairing.Alike nest here there)
    (inner : nest.endsFunction = false) : loneColon there = loneColon here := by
  have same := Pairing.next_eq alike inner
  by_cases colon : here.next? = some .colon
  · obtain ⟨last, token, rest, rfl, kind⟩ := Pairing.ahead_of_next colon
    obtain ⟨last', token', rest', rfl, kind'⟩ := Pairing.ahead_of_next (same.trans colon)
    have onward := (Pairing.onward alike (kind'.trans kind.symm) (by rw [kind]; exact .simple rfl)
        (by rw [kind]; rfl)).2
    rw [kind, Nest.after_simple rfl] at onward
    rw [loneColon, loneColon, same, second_eq, second_eq, Pairing.next_eq onward inner]
  · rw [loneColon, loneColon, same, beq_eq_false_iff_ne.mpr colon]
    rfl

structure Closed (pairing : Pairing) (nest : Nest) (close : Kind) (here there : Cursor) : Prop where
  alike : pairing.Alike (nest.after close) here there
  last : here.last.map Token.kind = some close

theorem agree_behind {A : Type} {item : A} (inside : nest.brackets ≠ [])
    (alike : pairing.Alike nest here there) {ends : Cursor → Cursor → Prop} :
    Agree (do
      unless ← nextIs close do
        let _ ← expect .comma
      return some item) (do
      unless ← nextIs close do
        let _ ← expect .comma
      return some item) here there (Round Eq (pairing.Alike nest) ends) := by
  have settled := Nest.endsFunction_inside inside
  apply agree_nextIs
  rw [Pairing.next_eq alike settled]
  split
  · exact agree_pure ⟨rfl, alike⟩
  · refine Pairing.agree_expect alike rfl (.inl settled)
      (fun _ => .inside inside) fun _ _ _ _ _ alike _ => agree_pure ?_
    rw [Nest.after_still rfl] at alike
    exact ⟨rfl, alike⟩

theorem agree_argument (inner : NestedInStep pairing nested) (plain : close.isSign = false)
    (inside : nest.brackets ≠ []) (alike : pairing.Alike nest here there) :
    Agree (argument nested close) (argument nested close) here there
      (Round Eq (pairing.Alike nest) (Closed pairing nest close)) := by
  have settled := Nest.endsFunction_inside inside
  refine Pairing.agree_eat alike plain (.inl settled) (fun _ => .inside inside)
    (fun _ _ alike last => agree_pure ⟨alike, last⟩) fun _ => agree_get ?_
  rw [loneColon_alike alike settled]
  cases lone : loneColon here with
  | true =>
      exact Pairing.agree_takeSimple rfl alike (loneColon_next lone) fun _ _ _ _ _ alike _ =>
        agree_behind inside alike
  | false =>
      refine (inner ⟨false, true⟩ nest ⟨nofun, fun _ => inside⟩ here there alike).bind
        fun arg _ after after' same => ?_
      obtain ⟨rfl, alike⟩ := same
      exact agree_behind inside alike

theorem agree_arguments (inner : NestedInStep pairing nested) (plain : close.isSign = false)
    (inside : nest.brackets ≠ []) (alike : pairing.Alike nest here there) :
    Agree (arguments nested close) (arguments nested close) here there fun a b after after' =>
      a = b ∧ Closed pairing nest close after after' := by
  rw [arguments_eq]
  refine (agree_collect (pairing.length alike) alike fun _ _ =>
    agree_argument inner plain inside).imp fun as bs _ _ rest => ?_
  rw [List.forall₂_eq_eq_eq] at rest
  exact rest

theorem agree_rowPart (inner : NestedInStep pairing nested) (plain : close.isSign = false)
    (literal : nest.inLiteral = true) (alike : pairing.Alike nest here there) :
    Agree (rowPart nested context close) (rowPart nested context close) here there
      (Round Eq (pairing.Alike nest) (Closed pairing nest close)) := by
  have inside := Nest.brackets_of_inLiteral literal
  have settled := Nest.endsFunction_inside inside
  apply agree_peek
  rw [Pairing.next_eq alike settled]
  cases next : here.next? with
  | none => exact agree_failNext _ _
  | some kind =>
      -- A separator is taken on both sides and leaves the brackets as they are.
      have separator (part : RowPart) (separates : kind.separates = true) : Agree (do
            let _ ← take
            return some part) (do
            let _ ← take
            return some part) here there
              (Round Eq (pairing.Alike nest) (Closed pairing nest close)) := by
        refine Pairing.agree_take alike next (Kind.sign_separator separates) (.inl settled)
          (.inside inside) fun _ _ _ _ _ alike _ => agree_pure ?_
        rw [Nest.after_separator separates] at alike
        exact ⟨rfl, alike⟩
      have element : Agree (do return some (RowPart.element (← nested ⟨true, context.inIndex⟩)))
          (do return some (RowPart.element (← nested ⟨true, context.inIndex⟩))) here there
          (Round Eq (pairing.Alike nest) (Closed pairing nest close)) := by
        refine (inner ⟨true, context.inIndex⟩ nest ⟨fun _ => literal,
            fun _ => inside⟩ here there alike).bind fun a b _ _ same => agree_pure ?_
        exact ⟨by rw [same.1], same.2⟩
      -- What comes next is the same on both sides, so the readers take the same branch.
      by_cases ends : kind = close
      · have same : (kind = close) = True := eq_true ends
        simp only [same, if_true]
        refine Pairing.agree_take alike next (by rwa [ends]) (.inl settled) (.inside inside)
          fun _ _ _ _ fellows alike last => agree_pure ?_
        exact ⟨by rwa [ends] at alike, by rw [last, Option.map_some, fellows.here, ends]⟩
      · have same : (kind = close) = False := eq_false ends
        simp only [same, if_false]
        cases kind with
        | semicolon | newline => exact separator .rowEnd rfl
        | comma => exact separator .comma rfl
        | _ => exact element

theorem agree_rows (inner : NestedInStep pairing nested) (plain : close.isSign = false)
    (literal : nest.inLiteral = true) (alike : pairing.Alike nest here there) :
    Agree (rows nested context close) (rows nested context close) here there fun a b after after' =>
      a = b ∧ Closed pairing nest close after after' := by
  refine (agree_collect (pairing.length alike) alike fun _ _ =>
    agree_rowPart inner plain literal).bind
    fun as bs _ _ rest => agree_pure ?_
  rw [List.forall₂_eq_eq_eq] at rest
  exact ⟨by rw [rest.1], rest.2⟩

/-- A quote may stand there: what was taken last is no `end` outside of brackets. -/
def Transposes (nest : Nest) (cursor : Cursor) : Prop :=
  nest.brackets = [] → cursor.last.map Token.kind ≠ some .endKey

structure BehindOperand (pairing : Pairing) (nest : Nest) (here there : Cursor) : Prop where
  alike : pairing.Alike nest here there
  quote : Transposes nest here

theorem transposes_behind {kind : Kind} {cursor : Cursor}
    (last : cursor.last.map Token.kind = some kind) (other : kind ≠ .endKey) :
    Transposes nest cursor := fun _ same => other (Option.some.inj (last.symm.trans same))

theorem name_eq {kind : Kind} {token token' : Token} (fellows : pairing.Fellows kind token token') :
    token'.name = token.name := by
  rw [Token.name, Token.name, fellows.text]

theorem agree_primary (inner : NestedInStep pairing nested)
    (fits : context.Fits nest) (alike : pairing.Alike nest here there) :
    Agree (primary nested context) (primary nested context) here there fun a b after after' =>
      a = b ∧ BehindOperand pairing nest after after' := by
  refine Pairing.agree_takeAny alike
    (agree_failLast _ _) fun last token rest last' token' rest' alike kinds => ?_
  obtain ⟨kind, text, start, position⟩ := token
  obtain ⟨kind', text', start', position'⟩ := token'
  rcases kinds with same | ⟨ends, same, same'⟩
  · cases same
    -- the token is the same in both runs, and may stand there in every case that does not fail
    have onward (allows : nest.Allows (last.map Token.kind) kind) (plain : kind.isSign = false) :=
      Pairing.onward alike rfl allows plain
    have value (simple : kind.isSimple = true) {expr expr' : ParsedExpr} (same : expr = expr') :
        Agree (pure expr) (pure expr') ⟨some ⟨kind, text, start, position⟩, rest⟩
        ⟨some ⟨kind, text', start', position'⟩, rest'⟩ fun a b after after' => a = b ∧
        BehindOperand pairing nest after after' := by
      have alike := (onward (.simple simple) (Kind.sign_simple simple)).2
      rw [Nest.after_simple simple] at alike
      refine agree_pure ⟨same, alike, transposes_behind rfl ?_⟩
      rintro rfl
      cases simple
    have name (simple : kind.isSimple = true) : text' = text :=
      (onward (.simple simple) (Kind.sign_simple simple)).1
    have list {close : Kind} {shape : List (List ParsedExpr) → ExprShape ParsedExpr}
      (opens : kind.opensBracket = true)
        (literal : (nest.after kind).inLiteral = true) (closes : close.closesBracket = true) :
        Agree (do return bare (shape (← rows nested context close)))
          (do return bare (shape (← rows nested context close)))
          ⟨some ⟨kind, text, start, position⟩, rest⟩ ⟨some ⟨kind, text', start', position'⟩, rest'⟩
          fun a b after after' => a = b ∧ BehindOperand pairing nest after after' := by
      have alike := (onward (.plain (by cases kind <;> first | rfl | cases opens))
          (Kind.sign_bracket (by rw [opens, Bool.true_or]))).2
      refine (agree_rows inner (Kind.sign_bracket (by rw [closes, Bool.or_true])) literal
        alike).bind fun a b after after' same => agree_pure ⟨by rw [same.1], ?_⟩
      have alike := same.2.alike
      rw [Nest.after_close opens closes] at alike
      refine ⟨alike, transposes_behind same.2.last ?_⟩
      rintro rfl
      cases closes
    cases kind
    case number => exact value rfl (by rw [Token.name, Token.name, name rfl])
    case singleQuoted => exact value rfl (by rw [literal, literal, name rfl])
    case doubleQuoted => exact value rfl (by rw [literal, literal, name rfl])
    case word => exact value rfl (by rw [Token.name, Token.name, name rfl])
    case openParen =>
      have alike := (onward (.plain rfl) rfl).2
      have inside : (nest.after .openParen).brackets ≠ [] := List.cons_ne_nil _ _
      refine (inner ⟨false, context.inIndex⟩ _ ⟨nofun, fun _ => inside⟩ _ _ alike).bind
        fun expr _ after after' same => ?_
      obtain ⟨rfl, alike⟩ := same
      refine Pairing.agree_expect alike rfl (.inl (Nest.endsFunction_inside inside))
        (fun _ => .inside inside) fun _ _ _ _ _ alike last =>
        agree_pure ⟨rfl, ?_, transposes_behind last (by decide)⟩
      rwa [Nest.after_close rfl rfl] at alike
    case openBracket => exact list rfl rfl rfl
    case openBrace => exact list rfl rfl rfl
    case endKey =>
      change Agree (if Kind.endKey = .endKey ∧ context.inIndex = true then _ else _)
        (if Kind.endKey = .endKey ∧ context.inIndex = true then _ else _) _ _ _
      split
      · next index =>
          have inside := fits.index index.2
          have alike := (onward (.inside inside) rfl).2
          rw [Nest.after_inside inside rfl] at alike
          exact agree_pure ⟨rfl, alike, fun none => absurd none inside⟩
      · exact agree_failLast _ _
    -- no other kind starts an operand
    all_goals exact agree_failLast _ _
  · cases same
    cases same'
    have outside : context.inIndex = false := Bool.eq_false_iff.mpr fun index =>
      fits.index index (Nest.endsFunction_iff.mp ends).1
    change Agree (if Kind.endKey = .endKey ∧ context.inIndex = true then _ else _)
      (failLast _) _ _ _
    rw [if_neg (by rw [outside]; decide)]
    exact agree_failLast _ _

theorem element_alike (alike : pairing.Alike nest here there)
    (fits : context.Fits nest) (other : here.next? ≠ some .newline) :
    (context.inLiteral && there.apartBefore) = (context.inLiteral && here.apartBefore) := by
  cases literal : context.inLiteral with
  | false => rfl
  | true => rw [pairing.before alike (fits.literal literal) other]

theorem agree_opened {opener : Kind} {index : List ParsedExpr → Suffix}
    (opens : opener.opensBracket = true) (closes : close.closesBracket = true)
    (next : here.next? = some opener) (inner : NestedInStep pairing nested)
    (alike : pairing.Alike nest here there) : Agree (do
      let _ ← take
      return some (index (← arguments nested close))) (do
      let _ ← take
      return some (index (← arguments nested close))) here there
      (Round Eq (BehindOperand pairing nest) (BehindOperand pairing nest)) := by
  have marks : (opener ≠ .endKey ∧ opener ≠ .comma) ∧ opener.asks = false := by
    cases opener <;> first | decide | cases opens
  have inside : (nest.after opener).brackets ≠ [] := by
    rw [Nest.after_bracket opens]
    exact List.cons_ne_nil _ _
  refine Pairing.agree_take alike next (Kind.sign_bracket (by rw [opens, Bool.true_or]))
    (.inr marks.1) (.plain marks.2) fun _ _ _ _ _ alike _ => ?_
  refine (agree_arguments inner (Kind.sign_bracket (by rw [closes, Bool.or_true])) inside
    alike).bind fun args _ _ _ same => agree_pure ⟨by rw [same.1], ?_⟩
  have alike := same.2.alike
  rw [Nest.after_close opens closes] at alike
  refine ⟨alike, transposes_behind same.2.last ?_⟩
  rintro rfl
  cases closes

theorem agree_suffix (inner : NestedInStep pairing nested)
    (fits : context.Fits nest) (behind : BehindOperand pairing nest here there) :
    Agree (suffix nested context) (suffix nested context) here there
      (Round Eq (BehindOperand pairing nest) (BehindOperand pairing nest)) := by
  have alike := behind.alike
  apply agree_get
  -- Either the same kind comes next on both sides, or both sides come to a kind that no suffix
  -- begins with.
  rcases pairing.next alike with same | strays
  · rw [same]
    cases next : here.next? with
    | none => exact agree_pure behind
    | some kind =>
        cases kind <;> try exact agree_pure behind
        case dot =>
          refine Pairing.agree_takeSimple rfl alike next fun _ _ _ _ _ alike _ => ?_
          refine Pairing.agree_expectSimple rfl alike
            fun _ _ _ _ fellows alike last => agree_pure ?_
          exact ⟨by rw [name_eq fellows], alike, transposes_behind last (by decide)⟩
        case quote =>
          have allows : nest.Allows (here.last.map Token.kind) .quote :=
            ⟨fun closes => absurd closes (by decide), fun same =>
              absurd same (by decide), fun _ => behind.quote⟩
          refine Pairing.agree_take alike next rfl
            (.inr (by decide)) allows fun _ _ _ _ fellows alike last => agree_pure ?_
          rw [Nest.after_still rfl] at alike
          exact ⟨rfl, alike,
            transposes_behind (by rw [last, Option.map_some, fellows.here]) (by decide)⟩
        case dotQuote =>
          exact Pairing.agree_takeSimple rfl alike next fun _ _ _ _ _ alike last =>
            agree_pure ⟨rfl, alike, transposes_behind last (by decide)⟩
        case openParen =>
          rw [element_alike alike fits (by rw [next]; decide)]
          change Agree (if _ then _ else _) (if _ then _ else _) _ _ _
          split
          · exact agree_pure behind
          · exact agree_opened rfl rfl next inner alike
        case openBrace =>
          rw [element_alike alike fits (by rw [next]; decide)]
          change Agree (if _ then _ else _) (if _ then _ else _) _ _ _
          split
          · exact agree_pure behind
          · exact agree_opened rfl rfl next inner alike
  · rw [strays.here, strays.there]
    exact agree_pure behind

theorem inStep_suffixed (inner : NestedInStep pairing nested) (fits : context.Fits nest) :
    pairing.InStep nest (suffixed nested context) := by
  intro here there alike
  rw [suffixed_eq]
  refine (agree_gather (fun _ _ behind => pairing.length behind.alike) (agree_primary inner fits
      alike) fun _ _ behind => agree_suffix inner fits behind).imp fun a b after after' same => ?_
  exact ⟨same.1, same.2.alike⟩

theorem inStep_levels (inner : NestedInStep pairing operand)
    (refuses : Refuses .newline (operand context)) (fits : context.Fits nest) :
    ∀ level ∈ levels operand context, pairing.InStep nest level.2 ∧ Refuses .newline level.2 := by
  have chained {tighter : TokenReader ParsedExpr}
      (both : pairing.InStep nest tighter ∧ Refuses .newline tighter)
      (level : Nat) : pairing.InStep nest (chain context level tighter tighter) ∧
      Refuses .newline (chain context level tighter tighter) :=
    ⟨inStep_chain both.1 both.1 both.2 fits level, refuses_chain both.2 tighter⟩
  have operands : pairing.InStep nest (operand context) ∧ Refuses .newline (operand context) :=
    ⟨inner context nest fits, refuses⟩
  have products := chained operands Level.product
  have sums := chained products Level.sum
  have ranges : pairing.InStep nest _ ∧ Refuses .newline _ :=
    ⟨inStep_rangeOver sums.1, refuses_rangeOver sums.2⟩
  have comparisons := chained ranges Level.comparison
  have elAnds := chained comparisons Level.elAnd
  have elOrs := chained elAnds Level.elOr
  have shortAnds := chained elOrs Level.shortAnd
  simp only [levels, List.forall_mem_cons]
  exact ⟨operands, products, ranges, comparisons, elAnds, elOrs, shortAnds, List.forall_mem_nil _⟩

theorem inStep_whole (inner : NestedInStep pairing operand)
    (refuses : ∀ context, Refuses .newline (operand context)) :
    NestedInStep pairing (whole operand) := by
  intro context nest fits
  obtain ⟨loosest, last, same⟩ := whole_eq operand context
  have both := inStep_levels inner (refuses context) fits loosest (List.mem_of_getLast? last)
  rw [same]
  exact inStep_chain both.1 both.1 both.2 fits _

theorem signAt_alike (alike : pairing.Alike nest here there) : signAt there = signAt here := by
  rcases pairing.next alike with same | strays
  · rw [signAt, signAt, same]
  · rw [signAt, signAt, strays.here, strays.there]
    rfl

section
variable (inner : NestedInStep pairing operand)
  (refuses : ∀ context, Refuses .newline (operand context)) (fits : context.Fits nest)
include inner refuses fits

theorem inStep_exponent : pairing.InStep nest (exponent operand context) := by
  intro here there alike
  apply agree_get
  rw [signAt_alike alike]
  cases signAt here with
  | some op => exact inner context nest fits here there alike
  | none => exact inStep_suffixed (inStep_whole inner refuses) fits here there alike

theorem inStep_power : pairing.InStep nest (power operand context) :=
  inStep_chain (inStep_suffixed (inStep_whole inner refuses) fits)
    (inStep_exponent inner refuses fits) (refuses_exponent rfl) fits _

end

theorem inStep_operandWithin (allowance : Nat) :
    NestedInStep pairing (operandWithin allowance) := by
  induction allowance with
  | zero => exact fun _ _ _ _ _ _ => agree_failNext _ _
  | succ allowance inner =>
      intro context nest fits here there alike
      have refuses (context : Context) : Refuses .newline (operandWithin allowance context) :=
        refuses_operandWithin rfl allowance
      apply agree_get
      rw [signAt_alike alike]
      cases found : signAt here with
      | none => exact inStep_power inner refuses fits here there alike
      | some op =>
          refine Pairing.agree_takeOperator alike (signAt_next found)
            (plain_unary op) (fun _ => (refuses context).bind _)
            (fun _ => (refuses context).bind _) fun _ _ after after' alike => ?_
          refine (inner context nest fits after after' alike).bind fun a b _ _ same => agree_pure ?_
          exact ⟨by rw [same.1], same.2⟩

theorem inStep_reader : pairing.InStep nest reader := by
  intro here there alike
  apply agree_get
  rw [pairing.length alike]
  exact inStep_whole (inStep_operandWithin _) (fun _ => refuses_operandWithin rfl _)
    ⟨false, false⟩ nest ⟨nofun, nofun⟩ here there alike

end Expr
end ScriptFlow
