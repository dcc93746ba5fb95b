import ScriptFlow.Proofs.Expr.Layer
import ScriptFlow.Proofs.Rounds
import ScriptFlow.Proofs.Token.Reading
import ScriptFlow.Proofs.Token.Taking

/-!
Reading expressions loses nothing. Going through the expression that was read from left to right
gives the tokens that were taken, apart from those that only group and separate.
-/

namespace ScriptFlow

open Token TokenReader

inductive Symbol where
  | number (text : String)
  | text (text : String) (quoting : Quoting)
  | word (name : String)
  | mark (kind : Kind)
  deriving DecidableEq, Repr

def Token.Kind.groups : Kind → Bool
  | .openParen | .closeParen | .openBracket | .closeBracket | .openBrace | .closeBrace => true
  | .comma | .semicolon | .newline | .dot => true
  | _ => false

/-- The kinds that stand for themselves. -/
def Token.Kind.speaks : Kind → Bool
  | .number | .singleQuoted | .doubleQuoted | .word => false
  | kind => !kind.groups

/-- The token says the symbol. A literal is written as the quoted form of what it says; one that is
no quoted form, of which no text has any, is decoded as it is. -/
inductive Symbol.IsOf : Symbol → Token → Prop where
  | number {token : Token} (kind : token.kind = .number) :
      IsOf (.number (String.ofList token.text)) token
  | text {token : Token} {text : String} {quoting : Quoting} (kind : token.kind = quoting.kind)
      (written : token.text = Quoted.encode quoting text.toList ∨
        ¬ IsQuoted quoting token.text ∧ text.toList = Quoted.decode quoting token.text) :
      IsOf (.text text quoting) token
  | word {token : Token} (kind : token.kind = .word) : IsOf (.word (String.ofList token.text)) token
  | mark {token : Token} (speaks : token.kind.speaks = true) : IsOf (.mark token.kind) token

def Token.symbols (token : Token) : List Symbol :=
  match token.kind with
  | .number => [.number token.name]
  | .singleQuoted => [.text (String.ofList (Quoted.decode .single token.text)) .single]
  | .doubleQuoted => [.text (String.ofList (Quoted.decode .double token.text)) .double]
  | .word => [.word token.name]
  | kind => if kind.groups then [] else [.mark kind]

theorem Symbol.IsOf.literal {token : Token} {quoting : Quoting} (kind : token.kind = quoting.kind) :
    IsOf (.text (String.ofList (Quoted.decode quoting token.text)) quoting) token := by
  refine .text kind ?_
  rw [String.toList_ofList]
  by_cases quoted : IsQuoted quoting token.text
  · obtain ⟨inner, _, same⟩ := quoted
    rw [same, decode_encode]
    exact .inl rfl
  · exact .inr ⟨quoted, rfl⟩

theorem symbols_isOf (tokens : List Token) : List.Forall₂ Symbol.IsOf (tokens.flatMap Token.symbols)
    (tokens.filter fun token => !token.kind.groups) := by
  induction tokens with
  | nil => exact .nil
  | cons token rest ih =>
      rw [List.flatMap_cons, Token.symbols]
      cases sort : token.kind
      case number =>
        rw [List.filter_cons_of_pos (by rw [sort]; rfl)]
        exact .cons (.number sort) ih
      case singleQuoted | doubleQuoted =>
        rw [List.filter_cons_of_pos (by rw [sort]; rfl)]
        exact .cons (.literal sort) ih
      case word =>
        rw [List.filter_cons_of_pos (by rw [sort]; rfl)]
        exact .cons (.word sort) ih
      case openParen | closeParen | openBracket | closeBracket | openBrace | closeBrace | comma |
          semicolon | newline | dot =>
        rw [List.filter_cons_of_neg (by simp [sort, Kind.groups])]
        exact ih
      all_goals
        rw [List.filter_cons_of_pos (by rw [sort]; rfl)]
        refine .cons ?_ ih
        rw [← sort]
        exact .mark (by rw [sort]; rfl)

/-- The names among the tokens that stand right behind no dot; `before` is the kind in front of
them. -/
def freeWords (before : Option Kind) : List Token → List String
  | [] => []
  | token :: rest =>
      let more := freeWords (some token.kind) rest
      if token.kind = .word ∧ before ≠ some .dot then String.ofList token.text :: more else more

namespace Expr

variable {Label : Type}

/-- The leaves and operators of the expression from left to right. -/
def inorder : Expr Label → List Symbol :=
  fold fun _ shape => match shape with
    | .num text => [.number text]
    | .str text quoting => [.text text quoting]
    | .name name => [.word name]
    | .colon => [.mark .colon]
    | .last => [.mark .endKey]
    | .param head args | .cellIndex head args => head ++ args.flatten
    | .field base name => base ++ [.word name]
    | .matrix rows | .cell rows => rows.flatten.flatten
    | .unary op operand => .mark op.kind :: operand
    | .transpose op operand => operand ++ [.mark op.kind]
    | .binary left op right => left ++ .mark op.kind :: right
    | .range start none stop => start ++ .mark .colon :: stop
    | .range start (some step) stop => start ++ .mark .colon :: (step ++ .mark .colon :: stop)

section
variable (label : Label) (head left right start step stop : Expr Label) (args : List (Expr Label))
  (rows : List (List (Expr Label)))

theorem inorder_param :
    (node label (.param head args)).inorder = head.inorder ++ args.flatMap inorder := by
  rw [inorder, fold_node, ← inorder]
  exact congrArg (_ ++ ·) List.flatMap_def.symm

theorem inorder_cellIndex :
    (node label (.cellIndex head args)).inorder = head.inorder ++ args.flatMap inorder := by
  rw [inorder, fold_node, ← inorder]
  exact congrArg (_ ++ ·) List.flatMap_def.symm

theorem inorder_field (key : String) :
    (node label (.field head key)).inorder = head.inorder ++ [.word key] := by
  rw [inorder, fold_node, ← inorder]
  rfl

theorem inorder_matrix : (node label (.matrix rows)).inorder = rows.flatten.flatMap inorder := by
  rw [inorder, fold_node, ← inorder, List.flatMap_def, List.map_flatten]
  rfl

theorem inorder_cell : (node label (.cell rows)).inorder = rows.flatten.flatMap inorder := by
  rw [inorder, fold_node, ← inorder, List.flatMap_def, List.map_flatten]
  rfl

theorem inorder_unary (op : UnaryOp) :
    (node label (.unary op head)).inorder = .mark op.kind :: head.inorder := by
  rw [inorder, fold_node, ← inorder]
  rfl

theorem inorder_transpose (op : TransposeOp) :
    (node label (.transpose op head)).inorder = head.inorder ++ [.mark op.kind] := by
  rw [inorder, fold_node, ← inorder]
  rfl

theorem inorder_binary (op : BinaryOp) : (node label (.binary left op right)).inorder =
      left.inorder ++ .mark op.kind :: right.inorder := by
  rw [inorder, fold_node, ← inorder]
  rfl

theorem inorder_range : (node label (.range start none stop)).inorder = start.inorder ++
      .mark .colon :: stop.inorder := by
  rw [inorder, fold_node, ← inorder]
  rfl

theorem inorder_stepped : (node label (.range start (some step) stop)).inorder =
    start.inorder ++ .mark .colon :: (step.inorder ++ .mark .colon :: stop.inorder) := by
  rw [inorder, fold_node, ← inorder]
  rfl

end
end Expr

def kindBehind (before : Option Kind) (tokens : List Token) : Option Kind :=
  tokens.foldl (fun _ token => some token.kind) before

theorem freeWords_append (before : Option Kind) (front back : List Token) :
    freeWords before (front ++ back) = freeWords before front ++
      freeWords (kindBehind before front) back := by
  induction front generalizing before with
  | nil => rfl
  | cons token rest ih =>
      rw [List.cons_append, freeWords, freeWords, ih]
      split
      · rfl
      · rfl

theorem kindBehind_append (before : Option Kind) (front back : List Token) :
    kindBehind before (front ++ back) = kindBehind (kindBehind before front) back :=
  List.foldl_append

/-- The tokens say the symbols, and those names are free as long as no dot stands in front. -/
structure Says (used : List Token) (symbols : List Symbol) (names : List String) : Prop where
  symbols : used.flatMap Token.symbols = symbols
  names : ∀ before, before ≠ some .dot → freeWords before used = names
  behind : ∀ before, before ≠ some .dot → kindBehind before used ≠ some .dot

namespace Says

variable {used later : List Token} {symbols more : List Symbol}
  {names others : List String} {token : Token}

theorem nil : Says [] [] [] := ⟨rfl, fun _ _ => rfl, fun _ start => start⟩

theorem append (front : Says used symbols names) (back : Says later more others) :
    Says (used ++ later) (symbols ++ more) (names ++ others) := by
  constructor
  · rw [List.flatMap_append, front.symbols, back.symbols]
  · intro before start
    rw [freeWords_append, front.names before start, back.names _ (front.behind before start)]
  · intro before start
    rw [kindBehind_append]
    exact back.behind _ (front.behind before start)

theorem single (plain : token.kind ≠ .dot) (other : token.kind ≠ .word) :
    Says [token] token.symbols [] := by
  constructor
  · exact List.flatMap_singleton ..
  · intro before _
    rw [freeWords, if_neg fun both => other both.1]
    rfl
  · exact fun _ _ dot => plain (Option.some.inj dot)

theorem silent {kind : Kind} (sort : token.kind = kind) (plain : kind ≠ .dot)
    (none : kind.groups = true) : Says [token] [] [] := by
  have quiet : token.symbols = [] := by
    rw [Token.symbols, sort]
    cases kind <;> first | rfl | cases none
  rw [← quiet]
  apply single
  · rwa [sort]
  · rw [sort]
    rintro rfl
    cases none

theorem mark {kind : Kind} (sort : token.kind = kind) (speaks : kind.speaks = true) :
    Says [token] [.mark kind] [] := by
  have own : token.symbols = [.mark kind] := by
    rw [Token.symbols, sort]
    cases kind <;> first | rfl | cases speaks
  rw [← own]
  apply single
  · rw [sort]
    rintro rfl
    cases speaks
  · rw [sort]
    rintro rfl
    cases speaks

theorem word (sort : token.kind = .word) : Says [token] [.word token.name] [token.name] := by
  constructor
  · rw [List.flatMap_singleton, Token.symbols, sort]
  · intro before start
    rw [freeWords, if_pos ⟨sort, start⟩]
    rfl
  · intro _ _ dot
    rw [kindBehind, List.foldl_cons, List.foldl_nil, sort] at dot
    cases dot

theorem field {dot : Token} (separates : dot.kind = .dot) (sort : token.kind = .word) :
    Says [dot, token] [.word token.name] [] := by
  constructor
  · rw [List.flatMap_cons, List.flatMap_singleton, Token.symbols, Token.symbols, separates, sort]
    rfl
  · intro before _
    have silent : ¬ (dot.kind = .word ∧ before ≠ some .dot) := by
      rw [separates]
      exact fun both => nomatch both.1
    have bound : ¬ (token.kind = .word ∧ some dot.kind ≠ some .dot) :=
      fun both => both.2 (congrArg some separates)
    rw [freeWords, if_neg silent, freeWords, if_neg bound]
    rfl
  · intro _ _ behind
    rw [kindBehind, List.foldl_cons, List.foldl_cons, List.foldl_nil, sort] at behind
    cases behind

end Says

namespace Expr

/-- The tokens are those of the expression, in its order. -/
structure Spells (expr : ParsedExpr) (used : List Token) : Prop where
  some : used ≠ []
  account : Says used expr.inorder expr.names

theorem kind_of_binary {kind : Kind} {op : BinaryOp} (found : BinaryOp.ofKind? kind = some op) :
    kind = op.kind := by
  cases kind <;> first | (cases found; rfl) | cases found

theorem kind_of_unary {kind : Kind} {op : UnaryOp} (found : UnaryOp.ofKind? kind = some op) :
    kind = op.kind := by
  cases kind <;> first | (cases found; rfl) | cases found

variable {ground : Ground} {room : Nat} {context : Context}
  {first next bound : TokenReader ParsedExpr} {cursor : Cursor}

/-- With fewer tokens ahead than that, the reader takes the tokens of what it gives. -/
def Spelling (ground : Ground) (room : Nat) (reader : TokenReader ParsedExpr) : Prop :=
  ∀ cursor, cursor.ahead.length < room → Takes ground cursor reader Spells

theorem operatorAt_next {level : Nat} {op : BinaryOp}
    (found : operatorAt context level cursor = some op) : cursor.next? = some op.kind := by
  rw [operatorAt] at found
  cases here : cursor.next? with
  | none =>
      rw [here] at found
      cases found
  | some kind =>
      rw [here, Option.bind_some] at found
      cases sort : BinaryOp.ofKind? kind with
      | none =>
          rw [sort] at found
          cases found
      | some other =>
          rw [sort] at found
          simp only at found
          split at found
          · cases found
            rw [kind_of_binary sort]
          · cases found

def SpellsLink (link : BinaryOp × ParsedExpr) (used : List Token) : Prop :=
  Says used (.mark link.1.kind :: link.2.inorder) link.2.names

theorem takes_link {level : Nat} (nexts : Spelling ground room next)
    (inside : cursor.ahead.length ≤ room) :
    Takes ground cursor (link context level next) (PartOf SpellsLink (· = [])) := by
  apply takes_get
  cases found : operatorAt context level cursor with
  | none => exact takes_pure rfl
  | some op =>
      refine takes_skip (operatorAt_next found) fun token after sort passes => ?_
      have shorter := passes.shorter (List.cons_ne_nil _ _)
      refine (nexts after (by omega)).bind fun right used _ _ spells => takes_pure ?_
      rw [List.append_nil]
      have sign : Says [token] [.mark op.kind] [] := .mark sort (by cases op <;> rfl)
      exact ⟨List.cons_ne_nil _ _, sign.append spells.account⟩

theorem Spells.join {head : ParsedExpr} {used : List Token}
    (spells : Spells head used) {links : List (BinaryOp × ParsedExpr)}
    {lists : List (List Token)} (others : List.Forall₂ SpellsLink links lists) :
    Spells (links.foldl joinLeft head) (used ++ lists.flatten) := by
  induction others generalizing head used with
  | nil => rwa [List.flatten_nil, List.append_nil]
  | @cons link later _ _ right _ ih =>
      have joined : Spells (joinLeft head link) (used ++ later) := by
        refine ⟨fun none => spells.some (List.append_eq_nil_iff.mp none).1, ?_⟩
        rw [joinLeft, bare, inorder_binary, names_node (by nofun)]
        simp only [ExprShape.operands, List.flatMap_cons, List.flatMap_nil, List.append_nil]
        exact spells.account.append right
      rw [List.flatten_cons, ← List.append_assoc]
      exact ih joined

theorem Spelling.mono {less : Nat} {reader : TokenReader ParsedExpr}
    (spells : Spelling ground room reader) (fewer : less ≤ room) : Spelling ground less reader :=
  fun cursor inside => spells cursor (Nat.lt_of_lt_of_le inside fewer)

theorem spelling_chain {level : Nat} (firsts : Spelling ground room first)
    (nexts : Spelling ground (room - 1) next) :
    Spelling ground room (chain context level first next) := by
  intro cursor inside
  rw [chain_eq]
  refine (firsts cursor inside).bind fun head used after passes spells => ?_
  have shorter := passes.shorter spells.some
  refine (takes_collect fun here within => takes_link nexts (by omega)).bind
    fun links others _ _ given => takes_pure ?_
  obtain ⟨lists, last, all, rfl, rfl⟩ := given
  rw [List.append_nil, List.append_nil]
  exact spells.join all

theorem says_colon {token : Token} (sort : token.kind = .colon) :
    Says [token] [.mark .colon] [] := .mark sort rfl

theorem spelling_rangeOver (bounds : Spelling ground room bound) :
    Spelling ground room (rangeOver bound) := by
  intro cursor inside
  refine (bounds cursor inside).bind fun start front after passes starts => ?_
  -- Each bound is read with what the one before it left over, which is less.
  have shorter := passes.shorter starts.some
  refine takes_eat (fun token behind sort passes' => ?_) fun _ => ?_
  · have shorter' := passes'.shorter (List.cons_ne_nil _ _)
    refine (bounds behind (by omega)).bind fun second middle after' passes'' seconds => ?_
    have shorter'' := passes''.shorter seconds.some
    refine takes_eat (fun token' behind' sort' passes₃ => ?_) fun _ => ?_
    · have shorter₃ := passes₃.shorter (List.cons_ne_nil _ _)
      refine (bounds behind' (by omega)).bind fun third back _ _ thirds => takes_pure ?_
      rw [List.append_nil]
      refine ⟨fun none => starts.some (List.append_eq_nil_iff.mp none).1, ?_⟩
      rw [bare, inorder_stepped, names_node fun _ same => by cases same]
      simp only [ExprShape.operands, Option.toList_some, List.cons_append, List.nil_append,
        List.flatMap_cons, List.flatMap_nil, List.append_nil]
      exact starts.account.append ((says_colon sort).append
        (seconds.account.append ((says_colon sort').append thirds.account)))
    · refine takes_pure ?_
      rw [List.append_nil]
      refine ⟨fun none => starts.some (List.append_eq_nil_iff.mp none).1, ?_⟩
      rw [bare, inorder_range, names_node fun _ same => by cases same]
      simp only [ExprShape.operands, Option.toList_none, List.nil_append, List.flatMap_cons,
        List.flatMap_nil, List.append_nil]
      exact starts.account.append ((says_colon sort).append seconds.account)
  · refine takes_pure ?_
    rwa [List.append_nil]

def SpellsPart (expr : ParsedExpr) (used : List Token) : Prop := Says used expr.inorder expr.names

theorem says_parts {exprs : List ParsedExpr} {lists : List (List Token)}
    (all : List.Forall₂ SpellsPart exprs lists) :
    Says lists.flatten (exprs.flatMap inorder) (exprs.flatMap names) := by
  induction all with
  | nil => exact .nil
  | cons head _ ih =>
      rw [List.flatten_cons, List.flatMap_cons, List.flatMap_cons]
      exact head.append ih

variable {nested operand : Nested} {close : Kind}

theorem takes_behind {E : List Token → Prop} {arg : ParsedExpr} {used : List Token}
    (some : used ≠ []) (spells : SpellsPart arg used) : Takes ground cursor (do
      unless ← nextIs close do
        let _ ← expect .comma
      return Option.some arg) fun found later => PartOf SpellsPart E found (used ++ later) := by
  apply takes_nextIs
  split
  · refine takes_pure ?_
    rw [List.append_nil]
    exact ⟨some, spells⟩
  · refine takes_expect fun token after sort _ =>
      takes_pure ⟨fun none => some (List.append_eq_nil_iff.mp none).1, ?_⟩
    have separates : Says [token] [] [] := .silent sort nofun rfl
    have whole := spells.append separates
    rwa [List.append_nil, List.append_nil] at whole

theorem takes_argument (groups : close.groups = true) (plain : close ≠ .dot)
    (inner : ∀ context, Spelling ground room (nested context))
    (inside : cursor.ahead.length < room) : Takes ground cursor (argument nested close)
      (PartOf SpellsPart fun used => Says used [] []) := by
  refine takes_eat (fun token after sort _ => takes_pure (.silent sort plain groups))
    fun _ => takes_get ?_
  cases lone : loneColon cursor with
  | true =>
      refine takes_skip (loneColon_next lone) fun token after sort _ => ?_
      have spells : SpellsPart (bare .colon) [token] := says_colon sort
      exact takes_behind (List.cons_ne_nil token []) spells
  | false =>
    exact (inner ⟨false, true⟩ cursor inside).bind fun arg used _ _ spells =>
      takes_behind spells.some spells.account

theorem takes_arguments (groups : close.groups = true) (plain : close ≠ .dot)
    (inner : ∀ context, Spelling ground room (nested context))
    (inside : cursor.ahead.length < room) :
    Takes ground cursor (arguments nested close) fun args used =>
      Says used (args.flatMap inorder) (args.flatMap names) := by
  rw [arguments_eq]
  refine Takes.imp
    (takes_collect fun here within => takes_argument groups plain inner (by omega)) ?_
  rintro args _ ⟨lists, last, all, ends, rfl⟩
  have whole := (says_parts all).append ends
  rwa [List.append_nil, List.append_nil] at whole

def RowPart.exprs : RowPart → List ParsedExpr
  | element expr => [expr]
  | comma | rowEnd => []

theorem rowsOf_flatten (row : List ParsedExpr) (parts : List RowPart) :
    (rowsOf row parts).flatten = row ++ parts.flatMap RowPart.exprs := by
  induction parts generalizing row with
  | nil =>
      rw [rowsOf]
      cases row <;> simp
  | cons part rest ih =>
      cases part with
      | element expr => rw [rowsOf, ih, List.flatMap_cons, List.append_assoc]; rfl
      | comma => rw [rowsOf, ih, List.flatMap_cons]; rfl
      | rowEnd =>
          rw [rowsOf, List.flatMap_cons]
          cases row with
          | nil => exact ih []
          | cons first more =>
              change _ ++ (rowsOf [] rest).flatten = _
              rw [ih]
              rfl

def SpellsRowPart (part : RowPart) (used : List Token) : Prop :=
  Says used (part.exprs.flatMap inorder) (part.exprs.flatMap names)

theorem says_rowParts {parts : List RowPart} {lists : List (List Token)}
    (all : List.Forall₂ SpellsRowPart parts lists) :
    Says lists.flatten ((parts.flatMap RowPart.exprs).flatMap inorder)
      ((parts.flatMap RowPart.exprs).flatMap names) := by
  induction all with
  | nil => exact .nil
  | cons head _ ih =>
      rw [List.flatten_cons, List.flatMap_cons, List.flatMap_append, List.flatMap_append]
      exact Says.append head ih

theorem takes_rowPart (groups : close.groups = true) (plain : close ≠ .dot)
    (inner : ∀ context, Spelling ground room (nested context))
    (inside : cursor.ahead.length < room) : Takes ground cursor (rowPart nested context close)
      (PartOf SpellsRowPart fun used => Says used [] []) := by
  apply takes_peek
  cases next : cursor.next? with
  | none => exact takes_failNext rfl
  | some kind =>
      have element :
          Takes ground cursor (do return some (.element (← nested ⟨true, context.inIndex⟩)))
          (PartOf SpellsRowPart fun used => Says used [] []) := by
        refine (inner ⟨true, context.inIndex⟩ cursor inside).bind
          fun expr used _ _ spells => takes_pure ?_
        have account := spells.account.append .nil
        exact ⟨fun none => spells.some (List.append_eq_nil_iff.mp none).1, account⟩
      have separator (part : RowPart) (none : part.exprs = []) (sort : kind.groups = true)
          (other : kind ≠ .dot) : Takes ground cursor (do
            let _ ← take
            return some part) (PartOf SpellsRowPart fun used => Says used [] []) := by
        refine takes_skip next fun token after same _ => takes_pure ⟨List.cons_ne_nil _ _, ?_⟩
        rw [SpellsRowPart, none]
        exact .silent same other sort
      by_cases ends : kind = close
      · have same : (kind = close) = True := eq_true ends
        simp only [same, if_true]
        exact takes_skip next fun token after sort _ =>
          takes_pure (.silent (sort.trans ends) plain groups)
      · have same : (kind = close) = False := eq_false ends
        simp only [same, if_false]
        cases kind with
        | semicolon | newline => exact separator .rowEnd rfl rfl nofun
        | comma => exact separator .comma rfl rfl nofun
        | _ => exact element

theorem takes_rows (groups : close.groups = true) (plain : close ≠ .dot)
    (inner : ∀ context, Spelling ground room (nested context))
    (inside : cursor.ahead.length < room) :
    Takes ground cursor (rows nested context close) fun rows used =>
      Says used (rows.flatten.flatMap inorder) (rows.flatten.flatMap names) := by
  refine (takes_collect fun here within => takes_rowPart groups plain inner (by omega)).bind
    fun parts used _ _ given => takes_pure ?_
  obtain ⟨lists, last, all, ends, rfl⟩ := given
  rw [rowsOf_flatten, List.nil_append, List.append_nil]
  have whole := (says_rowParts all).append ends
  rwa [List.append_nil, List.append_nil] at whole

theorem spells_inside {expr : ParsedExpr} {used : List Token}
    {opening closing : Token} {close : Kind} (opens : Says [opening] [] [])
    (closes : closing.kind = close) (groups : close.groups = true)
    (plain : close ≠ .dot) (account : Says used expr.inorder expr.names) :
    Spells expr (opening :: (used ++ [closing])) := by
  have whole := opens.append (account.append (.silent closes plain groups))
  rw [List.nil_append, List.nil_append, List.append_nil, List.append_nil] at whole
  exact ⟨List.cons_ne_nil _ _, whole⟩

theorem spelling_primary (inner : ∀ context, Spelling ground room (nested context)) :
    Spelling ground (room + 1) (primary nested context) := by
  intro cursor inside
  refine takes_take (fun ended => takes_failLast (.inl ended) rfl) fun token after _ passes => ?_
  have shorter := passes.shorter (List.cons_ne_nil _ _)
  obtain ⟨kind, text, start, position⟩ := token
  have opening (sort : kind.groups = true) (plain : kind ≠ .dot) :
      Says [⟨kind, text, start, position⟩] [] [] :=
    .silent rfl plain sort
  cases kind
  case number => exact takes_pure ⟨List.cons_ne_nil _ _, .single nofun nofun⟩
  case singleQuoted => exact takes_pure ⟨List.cons_ne_nil _ _, .single nofun nofun⟩
  case doubleQuoted => exact takes_pure ⟨List.cons_ne_nil _ _, .single nofun nofun⟩
  case word => exact takes_pure ⟨List.cons_ne_nil _ _, .word rfl⟩
  case openParen =>
    refine (inner ⟨false, context.inIndex⟩ after (by omega)).bind fun expr used _ _ spells => ?_
    refine takes_expect fun closing _ closes _ => takes_pure ?_
    exact spells_inside (opening rfl nofun) closes rfl nofun spells.account
  case openBracket =>
    refine (takes_rows (by decide) (by decide) inner (by omega)).bind
      fun rows used _ _ account => takes_pure ?_
    refine ⟨List.cons_ne_nil _ _, ?_⟩
    rw [List.append_nil, bare, inorder_matrix, names_node (by nofun)]
    exact (opening rfl nofun).append account
  case openBrace =>
    refine (takes_rows (by decide) (by decide) inner (by omega)).bind
      fun rows used _ _ account => takes_pure ?_
    refine ⟨List.cons_ne_nil _ _, ?_⟩
    rw [List.append_nil, bare, inorder_cell, names_node (by nofun)]
    exact (opening rfl nofun).append account
  case endKey =>
    change Takes ground after (if Kind.endKey = .endKey ∧ context.inIndex = true then _ else _) _
    split
    · exact takes_pure ⟨List.cons_ne_nil _ _, .single nofun nofun⟩
    · exact takes_failLast (.inr passes.behind) rfl
  -- no other kind starts an operand
  all_goals
    exact takes_failLast (.inr passes.behind) rfl

def Suffix.Spells (suffix : Suffix) (used : List Token) : Prop :=
  ∀ {base front}, Expr.Spells base front → Expr.Spells (suffix.apply base) (front ++ used)

theorem spells_arguments {opening : Token} {used : List Token} {args : List ParsedExpr}
    {suffix : Suffix} (opens : opening.kind.groups = true) (plain : opening.kind ≠ .dot)
    (inorder_eq : ∀ base, (suffix.apply base).inorder = base.inorder ++ args.flatMap inorder)
    (names_eq : ∀ base, (suffix.apply base).names = base.names ++ args.flatMap names)
    (account : Says used (args.flatMap inorder) (args.flatMap names)) :
    suffix.Spells (opening :: used) := by
  intro base front spells
  refine ⟨fun none => spells.some (List.append_eq_nil_iff.mp none).1, ?_⟩
  have opens : Says [opening] [] [] := .silent rfl plain opens
  rw [inorder_eq, names_eq]
  exact spells.account.append (opens.append account)

theorem takes_opened {opener close : Kind} {index : List ParsedExpr → Suffix}
    (brackets : (opener, close) ∈ [(Kind.openParen, Kind.closeParen), (.openBrace, .closeBrace)])
    (next : cursor.next? = some opener) (inner : ∀ context, Spelling ground room (nested context))
    (inside : cursor.ahead.length ≤ room)
    (inorder_eq : ∀ base args,
      ((index args).apply base).inorder = base.inorder ++ args.flatMap inorder)
    (names_eq : ∀ base args, ((index args).apply base).names = base.names ++ args.flatMap names) :
    Takes ground cursor (do
      let _ ← take
      return some (index (← arguments nested close))) (PartOf Suffix.Spells (· = [])) := by
  have marks : (opener.groups = true ∧ opener ≠ .dot) ∧ close.groups = true ∧ close ≠ .dot := by
    simp only [List.mem_cons, Prod.mk.injEq, List.not_mem_nil, or_false] at brackets
    rcases brackets with ⟨rfl, rfl⟩ | ⟨rfl, rfl⟩ <;> decide
  obtain ⟨⟨opens, plain⟩, closes, plain'⟩ := marks
  refine takes_skip next fun opening after same passes => ?_
  have shorter := passes.shorter (List.cons_ne_nil _ _)
  refine (takes_arguments closes plain' inner (by omega)).bind
    fun args used _ _ account => takes_pure ?_
  rw [List.append_nil]
  rw [← same] at opens plain
  exact ⟨List.cons_ne_nil _ _,
    spells_arguments opens plain (inorder_eq · args) (names_eq · args) account⟩

theorem spells_field {dot token : Token} (separates : dot.kind = .dot) (sort : token.kind = .word) :
    (Suffix.field token.name).Spells [dot, token] := by
  intro base front spells
  refine ⟨fun none => spells.some (List.append_eq_nil_iff.mp none).1, ?_⟩
  rw [Suffix.apply, bare, inorder_field, names_node (by nofun), ExprShape.operands,
    List.flatMap_singleton]
  have whole := spells.account.append (.field separates sort)
  rwa [List.append_nil] at whole

theorem spells_transpose {token : Token} {op : TransposeOp} (sort : token.kind = op.kind) :
    (Suffix.transpose op).Spells [token] := by
  intro base front spells
  refine ⟨fun none => spells.some (List.append_eq_nil_iff.mp none).1, ?_⟩
  rw [Suffix.apply, bare, inorder_transpose, names_node (by nofun), ExprShape.operands,
    List.flatMap_singleton]
  have whole := spells.account.append (.mark sort (by cases op <;> rfl))
  rwa [List.append_nil] at whole

theorem takes_suffix (inner : ∀ context, Spelling ground room (nested context))
    (inside : cursor.ahead.length ≤ room) :
    Takes ground cursor (suffix nested context) (PartOf Suffix.Spells (· = [])) := by
  apply takes_get
  cases next : cursor.next? with
  | none => exact takes_pure rfl
  | some kind =>
      cases kind <;> try exact takes_pure rfl
      case dot =>
        refine takes_skip next fun dot after separates _ =>
          takes_expect fun token _ sort _ => takes_pure ?_
        exact ⟨List.cons_ne_nil _ _, spells_field separates sort⟩
      case quote =>
        exact takes_skip next fun token _ sort _ =>
          takes_pure ⟨List.cons_ne_nil _ _, spells_transpose sort⟩
      case dotQuote =>
        exact takes_skip next fun token _ sort _ =>
          takes_pure ⟨List.cons_ne_nil _ _, spells_transpose sort⟩
      case openParen =>
        change Takes ground cursor (if _ then _ else _) _
        split
        · exact takes_pure rfl
        · exact takes_opened (by decide) next inner inside
            (fun base args => inorder_param () base args) fun _ _ => names_node (by nofun)
      case openBrace =>
        change Takes ground cursor (if _ then _ else _) _
        split
        · exact takes_pure rfl
        · exact takes_opened (by decide) next inner inside
            (fun base args => inorder_cellIndex () base args) fun _ _ => names_node (by nofun)

theorem Spells.suffixes {base : ParsedExpr} {front : List Token}
    (spells : Spells base front) {suffixes : List Suffix} {lists : List (List Token)}
    (others : List.Forall₂ Suffix.Spells suffixes lists) :
    Spells (suffixes.foldl Suffix.apply base) (front ++ lists.flatten) := by
  induction others generalizing base front with
  | nil => rwa [List.flatten_nil, List.append_nil]
  | cons behind _ ih =>
      rw [List.flatten_cons, ← List.append_assoc]
      exact ih (behind spells)

theorem spelling_suffixed (inner : ∀ context, Spelling ground room (nested context)) :
    Spelling ground (room + 1) (suffixed nested context) := by
  intro cursor inside
  rw [suffixed_eq]
  refine (spelling_primary inner cursor inside).bind fun base front after passes spells => ?_
  have shorter := passes.shorter spells.some
  refine (takes_collect fun here within => takes_suffix inner (by omega)).bind
    fun suffixes used _ _ given => takes_pure ?_
  obtain ⟨lists, last, all, rfl, rfl⟩ := given
  rw [List.append_nil, List.append_nil]
  exact spells.suffixes all

theorem spelling_levels (inner : ∀ context, Spelling ground room (operand context)) :
    ∀ level ∈ levels operand context, Spelling ground room level.2 := by
  have chained {tighter : TokenReader ParsedExpr} (spells : Spelling ground room tighter)
      (level : Nat) : Spelling ground room (chain context level tighter tighter) :=
    spelling_chain spells (spells.mono (Nat.sub_le _ _))
  have products := chained (inner context) Level.product
  have ranges := spelling_rangeOver (chained products Level.sum)
  have comparisons := chained ranges Level.comparison
  have elAnds := chained comparisons Level.elAnd
  have elOrs := chained elAnds Level.elOr
  have shortAnds := chained elOrs Level.shortAnd
  simp only [levels, List.forall_mem_cons]
  exact ⟨inner context, products, ranges, comparisons, elAnds, elOrs, shortAnds, nofun⟩

theorem spelling_whole (inner : ∀ context, Spelling ground room (operand context))
    (context : Context) : Spelling ground room (whole operand context) := by
  obtain ⟨loosest, last, same⟩ := whole_eq operand context
  have spells := spelling_levels inner loosest (List.mem_of_getLast? last)
  rw [same]
  exact spelling_chain spells (spells.mono (Nat.sub_le _ _))

theorem spelling_exponent (inner : ∀ context, Spelling ground room (operand context)) :
    Spelling ground room (exponent operand context) := by
  intro cursor inside
  apply takes_get
  cases signAt cursor with
  | some op => exact inner context cursor inside
  | none =>
    exact spelling_suffixed (fun context => spelling_whole inner context) cursor
      (Nat.lt_succ_of_lt inside)

theorem spelling_power (inner : ∀ context, Spelling ground room (operand context)) :
    Spelling ground (room + 1) (power operand context) :=
  spelling_chain (spelling_suffixed fun context => spelling_whole inner context)
    (spelling_exponent inner)

theorem signAt_next {op : UnaryOp} (found : signAt cursor = some op) :
    cursor.next? = some op.kind := by
  rw [signAt] at found
  cases here : cursor.next? with
  | none =>
      rw [here] at found
      cases found
  | some kind =>
      rw [here] at found
      rw [kind_of_unary found]

theorem spelling_operand {allowance : Nat}
    (inner : ∀ context, Spelling ground room (operandWithin allowance context))
    (context : Context) : Spelling ground (room + 1) (operandWithin (allowance + 1) context) := by
  intro cursor inside
  apply takes_get
  cases found : signAt cursor with
  | none => exact spelling_power inner cursor inside
  | some op =>
      refine takes_skip (signAt_next found) fun token after sort passes => ?_
      have shorter := passes.shorter (List.cons_ne_nil _ _)
      refine (inner context after (by omega)).bind fun expr used _ _ spells =>
        takes_pure ⟨List.cons_ne_nil _ _, ?_⟩
      have sign : Says [token] [.mark op.kind] [] := .mark sort (by cases op <;> rfl)
      rw [List.append_nil, bare, inorder_unary, names_node (by nofun), ExprShape.operands,
        List.flatMap_singleton]
      exact sign.append spells.account

theorem spelling_operandWithin (allowance : Nat) (context : Context) :
    Spelling ground allowance (operandWithin allowance context) := by
  induction allowance generalizing context with
  | zero => exact fun _ inside => absurd inside (Nat.not_lt_zero _)
  | succ allowance ih => exact spelling_operand ih context

theorem spelling_reader : ∀ cursor, Takes ground cursor reader Spells := by
  intro cursor
  apply takes_get
  exact spelling_whole (fun context => spelling_operandWithin _ context) _ cursor
    (Nat.lt_succ_self _)

theorem spelling_any (deep : ∀ {cursor}, ground.stands cursor →
      ground.fine ⟨cursor.ahead.head?, .exhausted⟩) (allowance : Nat) (context : Context) :
    Spelling ground room (operandWithin allowance context) := by
  induction allowance generalizing context with
  | zero => exact fun _ _ stands => deep stands
  | succ allowance ih => exact (spelling_operand ih context).mono (Nat.le_succ _)

def anywhere : Ground where
  stands _ := True
  fine _ := True
  moves _ _ := trivial
  next _ _ := trivial
  last _ _ _ := trivial

/-- Reading an expression loses, invents and reorders nothing: whatever the tokens in front of it,
the context and the allowance for nesting are, the tokens that were taken are those of the
expression that was read, from left to right, and its names are the words among them that stand
behind no dot. -/
theorem read_inorder {allowance : Nat} {context : Context}
    {cursor after : Cursor} {expr : ParsedExpr}
    (read : (whole (operandWithin allowance) context).run cursor = .ok (expr, after)) :
    ∃ used, cursor.ahead = used ++ after.ahead ∧
      List.Forall₂ Symbol.IsOf expr.inorder (used.filter fun token => !token.kind.groups) ∧
      expr.names = freeWords none used := by
  have spells (context : Context) :
      Spelling anywhere (cursor.ahead.length + 1) (operandWithin allowance context) :=
    spelling_any (fun _ => trivial) allowance context
  obtain ⟨used, passes, spelled⟩ :=
    (spelling_whole spells context cursor (Nat.lt_succ_self _)).taken trivial read
  refine ⟨used, passes.ahead, ?_, (spelled.account.names none nofun).symm⟩
  rw [← spelled.account.symbols]
  exact symbols_isOf used

/-- The rows of a literal, with a field, the last element of it, a sign, a text and a transposed
column. -/
theorem literal_inorder : ∃ cursor expr after used,
      cursor = Cursor.ofTokens (Token.ofSource "[s.x(end), -y\n'it''s' t(:)'] = z".toList) ∧
      (whole (operandWithin 9) ⟨false, false⟩).run cursor = .ok (expr, after) ∧
      after.next? = some .gets ∧ cursor.ahead = used ++ after.ahead ∧
      List.Forall₂ Symbol.IsOf expr.inorder (used.filter fun token => !token.kind.groups) ∧
      expr.names = freeWords none used := by
  let cursor := Cursor.ofTokens (Token.ofSource "[s.x(end), -y\n'it''s' t(:)'] = z".toList)
  have succeeds :
      (((whole (operandWithin 9) ⟨false, false⟩).run cursor).toOption.filter fun result =>
      decide (result.2.next? = some .gets)).isSome = true := by
    decide +kernel
  obtain ⟨⟨expr, after⟩, found⟩ := Option.isSome_iff_exists.mp succeeds
  obtain ⟨read, gets⟩ := Option.filter_eq_some_iff.mp found
  have read := ok_of_toOption read
  obtain ⟨used, ahead, symbols, names⟩ := read_inorder read
  exact ⟨cursor, expr, after, used, rfl, read, of_decide_eq_true gets, ahead, symbols, names⟩

end Expr
end ScriptFlow
