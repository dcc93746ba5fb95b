import ScriptFlow.Proofs.File.Spelled
import ScriptFlow.Proofs.Stmt.Reread

/-!
Reading back files. A readable file is found again in its written form, apart from places: its
statements stand before the functions there, and every function is closed.
-/

namespace ScriptFlow

open Token TokenReader Token.Lexeme Written

variable {Label : Type}

namespace Function

theorem finds_name (known : String) : Finds (fun _ => True) name [word known] (known = ·) :=
  finds_expect fun _ _ same => finds_pure (name_of_text same).symm

theorem finds_output (known : String) {ahead : Option Kind → Prop}
    {tail : List Lexeme} (behind : Behind .closeBracket ahead tail) :
    Finds ahead output ([word known] ++ tail) (some known = ·) := by
  refine finds_eat_other (fun _ _ => nofun)
    ((finds_name known).bind (fun _ same => ?_) fun _ _ => trivial)
  subst same
  rcases behind with rfl | ⟨rfl, closes⟩
  · exact finds_eat (finds_gap (finds_pure rfl))
  · refine finds_eat_other (fun kind allowed => ?_) (finds_pure rfl)
    rw [nextOf_nil, closes kind allowed]
    nofun

theorem finds_outputs (outputs : List String) : Finds (fun _ => True) (collect output)
    (separated .comma (outputs.map ([word ·])) ++ [mark .closeBracket]) (outputs = ·) := by
  refine (findsParts_listed (fun _ _ => ?_) fun name _ _ _ => finds_output name).collect
    (finds_eat (finds_pure rfl)) fun _ _ => rfl
  exact List.cons_ne_nil _ _

theorem finds_outputsAndName (outputs : List String) (known : String) :
    Finds (· = some .openParen) outputsAndName (Header.results outputs ++ [word known])
      ((outputs, known) = ·) := by
  have own : Finds (fun _ => True) (do return (outputs, ← name)) [word known]
      ((outputs, known) = ·) :=
    (finds_name known).result fun _ same => congrArg (outputs, ·) same
  cases outputs with
  | nil =>
      refine finds_eat_other (fun _ _ => nofun)
        ((finds_name known).bind (fun _ same => ?_) fun _ _ => trivial)
      subst same
      refine finds_eat_other ?_ (finds_pure rfl)
      rintro _ rfl
      nofun
  | cons first rest =>
      cases rest with
      | nil =>
          refine finds_eat_other (fun _ _ => nofun) ?_
          refine (finds_name first).bind (fun _ same => ?_) fun _ _ => trivial
          subst same
          exact finds_gap (finds_eat (finds_gap (own.imp (fun _ _ => trivial) fun _ => id)))
      | cons next rest =>
          have split : Header.results (first :: next :: rest) ++ [word known] = mark .openBracket ::
              ((separated .comma ((first :: next :: rest).map ([word ·])) ++
              [mark .closeBracket]) ++ [blank, mark .gets, blank, word known]) := by
            simp [Header.results]
          rw [split]
          refine finds_eat ((finds_outputs _).bind (fun _ same => ?_) fun _ _ => trivial)
          subst same
          exact finds_gap
            (finds_expect fun _ _ _ => finds_gap (own.imp (fun _ _ => trivial) fun _ => id))

theorem finds_parameter (known : String) :
    Finds (fun _ => True) input [Header.parameter known] (known = ·) := by
  rw [Header.parameter]
  split
  · next unused =>
      refine finds_take fun token sort _ => ?_
      obtain ⟨kind, _, _, _⟩ := token
      subst sort
      exact finds_pure unused
  · refine finds_take fun token sort same => ?_
    obtain ⟨kind, _, _, _⟩ := token
    subst sort
    exact finds_pure (name_of_text same).symm

theorem finds_inputs (known : List String) : Finds (fun _ => True) inputs ([mark .openParen] ++
      separated .comma (known.map ([Header.parameter ·])) ++ [mark .closeParen]) (known = ·) := by
  have plain (name : String) : ∃ kind text, Header.parameter name = token kind text ∧
      kind ≠ .closeParen := by
    rw [Header.parameter]
    split
    · exact ⟨.tilde, _, rfl, by decide⟩
    · exact ⟨.word, _, rfl, by decide⟩
  rw [List.append_assoc]
  refine finds_eat ((findsParts_listed (fun name _ => ?_) fun name _ ahead tail behind =>
      ?_).collect (finds_eat (finds_pure rfl)) fun _ _ => rfl)
  · obtain ⟨kind, text, same, _⟩ := plain name
    rw [same]
    exact List.cons_ne_nil _ _
  · refine finds_eat_other (fun _ _ => ?_)
      ((finds_parameter name).bind (fun _ same => ?_) fun _ _ => trivial)
    · obtain ⟨kind, text, same, other⟩ := plain name
      rw [same]
      exact fun closes => other (Option.some.inj closes)
    · subst same
      exact finds_behind (by decide) behind

end Function

def Header.unplaced (header : Header) : Header := { header with position := .unplaced }

abbrev unplacedItems : List (Item Label ParsedExpr) → List (Item Unit ParsedExpr) :=
  mapItems Header.unplaced Stmt.unplaced

namespace Item

def written : Item Label ParsedExpr → Written
  | .stmt inner => inner.written
  | .function inner => inner.written

def arranged : Item Label ParsedExpr → Item Label ParsedExpr
  | .stmt inner => .stmt inner
  | .function inner => .function inner.arranged

end Item

/-- What is read is the items arranged anew, apart from places. -/
def SameItems (items : List (Item Label ParsedExpr)) (found : List ParsedItem) : Prop :=
  unplacedItems found = unplacedItems (items.map Item.arranged)

def SameFunction (function : Function Label ParsedExpr) (found : ParsedFunction) : Prop :=
  found.map Header.unplaced Stmt.unplaced = function.arranged.map Header.unplaced Stmt.unplaced

/-- The function's lexemes without the indentation and without the end of the last line. -/
def Function.CutTo (function : Function Label ParsedExpr) (depth : Nat)
    (core : List Lexeme) : Prop :=
  ∃ rest, core = mark .functionKey :: rest ∧
    function.written depth = indentation depth ++ (core ++ [newline])

structure Function.Heard (function : Function Label ParsedExpr) (depth : Nat) : Prop where
  heard : ∃ core, function.CutTo depth core ∧ ∀ allowance, (kinds core).length < allowance →
    Finds (fun _ => True) (readerWithin true allowance) core (SameFunction function)

def Item.Heard (nested : TokenReader ParsedFunction) (depth : Nat) : Item Label ParsedExpr → Prop
  | .stmt inner => inner.Heard depth
  | .function inner =>
    ∃ core, inner.CutTo depth core ∧ Finds (fun _ => True) nested core (SameFunction inner)

theorem SameItems.cons {item : Item Label ParsedExpr} {inner : ParsedItem}
    {items : List (Item Label ParsedExpr)} {found : List ParsedItem}
    (first : SameItems [item] [inner]) (more : SameItems items found) :
    SameItems (item :: items) (inner :: found) := by
  have split := mapItems_append Header.unplaced (Stmt.unplaced : ParsedStmt → _) [inner] found
  have split' := mapItems_append Header.unplaced (Stmt.unplaced : Stmt Label ParsedExpr → _)
      [item.arranged] (items.map Item.arranged)
  exact split.trans ((congrArg₂ (· ++ ·) first more).trans split'.symm)

section
variable {A : Type} {P : A → Prop} {ahead inner : Option Kind → Prop}
  {lexemes core rest seps : List Lexeme} {kind : Kind} {text : List Char} {depth : Nat}

theorem finds_allowed {within : Nat → TokenReader A}
    (finds : ∀ allowance,
      (kinds lexemes).length < allowance → Finds ahead (within allowance) lexemes P) :
    Finds ahead (do within ((← get).ahead.length + 1)) lexemes P := by
  refine finds_get fun cursor stands => finds _ ?_
  obtain ⟨last, offset, here, rest, rfl, _⟩ := stands
  change _ < (place offset here lexemes ++ rest).length + 1
  rw [List.length_append, length_place]
  omega

theorem finds_dispatch {next : Option Kind → TokenReader A}
    (separating : Separating seps) (begins : core = token kind text :: rest)
    (plain : kind.separates = false) (finds : Finds inner (next (some kind)) core P) :
    Finds inner (separators >>= fun _ => peek >>= next)
      (seps ++ (indentation depth ++ core)) P := by
  have behind (last : Option Kind) : nextOf (indentation depth ++ core) last = some kind := by
    rw [nextOf_append, Stmt.nextOf_indented, begins, nextOf_token]
  refine finds_separators separating (fun last _ => ?_) (finds_peek fun last allowed => ?_)
  · rw [behind]
    rintro _ ⟨⟩
    exact plain
  · rw [behind]
    exact Stmt.finds_indented (finds.at allowed)

/-- Readers of items differ in what ends the items; a statement and a function they read alike. -/
structure ReadsItems (next : Option Kind → TokenReader (Option ParsedItem))
    (nested : TokenReader ParsedFunction) (ahead : Option Kind → Prop)
    (ending : List Lexeme) : Prop where
  stmt :
    ∀ kind, Stmt.starts kind = true → next (some kind) = (do return some (.stmt (← Stmt.reader)))
  function : next (some .functionKey) = (do return some (.function (← nested)))
  ends : ∀ seps, Separating seps →
      Finds ahead (separators >>= fun _ => peek >>= next) (seps ++ ending) (· = none)

variable {next : Option Kind → TokenReader (Option ParsedItem)}
  {nested : TokenReader ParsedFunction} {ending : List Lexeme}
  {items : List (Item Label ParsedExpr)}

theorem separating_tail {tail : List Lexeme} (left : tail = [] ∨ tail = [newline]) :
    Separating tail := by
  rcases left with rfl | rfl
  · exact fun _ member => absurd member List.not_mem_nil
  · exact fun kind member => by rw [List.mem_singleton.mp member]; rfl

theorem Item.Heard.finds {item : Item Label ParsedExpr} (heard : item.Heard nested depth)
    (reads : ReadsItems next nested ahead ending)
    (separating : Separating seps) : ∃ core tail, item.written depth = core ++ tail ∧
      (tail = [] ∨ tail = [newline]) ∧ kinds core ≠ [] ∧
      Finds (fun behind => tail = [] ∨ behind = some .newline)
        (separators >>= fun _ => peek >>= next) (seps ++ core)
        fun found => ∃ inner, found = some inner ∧ SameItems [item] [inner] := by
  cases item with
  | stmt stmt =>
      obtain ⟨core, tail, kind, text, rest, split, left, begins, start, own⟩ :=
        Stmt.Heard.heard heard
      refine ⟨indentation depth ++ core, tail, split.trans (List.append_assoc ..).symm,
        left, by simp [begins], ?_⟩
      refine finds_dispatch separating begins (Stmt.starts_facts start).2 ?_
      rw [reads.stmt kind start]
      refine (finds_allowed fun _ enough => own _ (Nat.le_of_lt enough)).result
        fun found same => ⟨_, rfl, ?_⟩
      exact congrArg (fun stmt => [Item.stmt stmt]) same
  | function inner =>
      obtain ⟨_, ⟨rest, rfl, split⟩, own⟩ := heard
      refine ⟨indentation depth ++ mark .functionKey :: rest, [newline],
        split.trans (List.append_assoc ..).symm, .inr rfl, by simp, ?_⟩
      refine finds_dispatch separating rfl rfl ?_
      have here : next (some .functionKey) = _ := reads.function
      rw [here]
      refine (own.imp (fun _ _ => trivial) fun _ => id).result fun found same => ⟨_, rfl, ?_⟩
      exact congrArg (fun function => [Item.function function]) same

theorem findsAll_items (heard : ∀ item ∈ items, item.Heard nested depth)
    (reads : ReadsItems next nested ahead ending) (separating : Separating seps) :
    FindsAll ahead (separators >>= fun _ => peek >>= next)
      (seps ++ (items.flatMap (·.written depth) ++ ending)) (SameItems items) := by
  induction items generalizing seps with
  | nil => exact findsAll_end (reads.ends seps separating) rfl
  | cons item rest ih =>
      obtain ⟨core, tail, split, left, filled, own⟩ :=
        (heard item List.mem_cons_self).finds reads separating
      have others := ih (fun item member => heard item (List.mem_cons_of_mem _ member))
          (separating_tail left)
      have parts : seps ++ ((item :: rest).flatMap (·.written depth) ++ ending) =
          (seps ++ core) ++ (tail ++ (rest.flatMap (·.written depth) ++ ending)) := by
        simp [split]
      rw [parts]
      refine FindsAll.cons (by simp [filled]) own others
        (fun behind _ => ?_) fun inner found same rest => ?_
      · rcases left with rfl | rfl
        · exact .inl rfl
        · exact .inr rfl
      · exact same.cons rest

end

theorem nested_itemsOf (stmts : List (Stmt Label ParsedExpr))
    (functions : List (Function Label ParsedExpr)) : (itemsOf stmts functions).map Item.arranged =
      itemsOf stmts (functions.map Function.arranged) := by
  rw [itemsOf, List.map_append, List.map_map, List.map_map, itemsOf, List.map_map]
  rfl

theorem arrangedFunctions_eq (items : List (Item Label ParsedExpr)) :
    arrangedFunctions items = (items.filterMap Item.nested?).map Function.arranged := by
  induction items with
  | nil => rfl
  | cons item rest ih =>
      cases item with
      | stmt inner => exact ih
      | function inner => exact congrArg (inner.arranged :: ·) ih

theorem written_items (items : List (Item Label ParsedExpr)) (depth : Nat) :
    writtenStatements items depth ++ writtenFunctions items depth =
      (itemsOf (items.filterMap Item.statement?) (items.filterMap Item.nested?)).flatMap
      (·.written depth) := by
  have functions : writtenFunctions items depth = (items.filterMap Item.nested?).flatMap
      (·.written depth) := by
    induction items with
    | nil => rfl
    | cons item rest ih =>
        cases item with
        | stmt inner => exact ih
        | function inner =>
            have both : writtenFunctions (.function inner :: rest) depth =
                inner.written depth ++ (writtenFunctions rest depth ++ []) := rfl
            rw [both, ih, List.append_nil]
            rfl
  rw [functions, writtenStatements, block, itemsOf, List.flatMap_append, List.flatMap_map,
    List.flatMap_map, List.flatMap_map]
  rfl

namespace Function

def itemAt (nested : TokenReader ParsedFunction) : Option Kind → TokenReader (Option ParsedItem)
  | none => return none
  | some .endKey => do
      let _ ← take
      return none
  | some .functionKey => return some (.function (← nested))
  | some _ => return some (.stmt (← Stmt.reader))

theorem item_closed (nested : TokenReader ParsedFunction) :
    item true nested = (separators >>= fun _ => peek >>= itemAt nested) := by
  refine congrArg (separators >>= ·)
    (funext fun _ => congrArg (peek >>= ·) (funext fun found => ?_))
  cases found with
  | none => rfl
  | some kind => cases kind <;> rfl

theorem readsItems (nested : TokenReader ParsedFunction) (depth : Nat) :
    ReadsItems (itemAt nested) nested (fun _ => True) (indentation depth ++ [mark .endKey]) where
  stmt kind start := by cases kind <;> first | rfl | cases start
  function := rfl
  ends _ separating := finds_dispatch separating rfl rfl (finds_take fun _ _ _ => finds_pure rfl)

theorem written_eq (header : Header) (items : List (Item Label ParsedExpr)) (depth : Nat) :
    (Function.mk header items).written depth = indentation depth ++ (mark .functionKey :: (blank ::
      (Header.results header.outputs ++ header.signature ++ ([newline] ++
        ((itemsOf (items.filterMap Item.statement?) (items.filterMap Item.nested?)).flatMap
          (·.written (depth + 1)) ++
          (indentation depth ++ [mark .endKey]))))) ++ [newline]) := by
  have parts : (Function.mk header items).written depth = header.written depth ++
      ((writtenStatements items (depth + 1) ++ (writtenFunctions items (depth + 1) ++ [])) ++
      (keyword .endKey depth ++ [])) := rfl
  rw [parts, ← written_items, Header.written_eq]
  simp [headed, keyword, line]

end Function

theorem length_written_le {items : List (Item Label ParsedExpr)}
    {item : Item Label ParsedExpr} (member : item ∈ items) (depth : Nat) :
    (kinds (item.written depth)).length ≤ (kinds (items.flatMap (·.written depth))).length := by
  have part : (item.written depth).Sublist (items.flatMap (·.written depth)) :=
    List.sublist_flatten_of_mem (List.mem_map_of_mem member)
  exact (part.filterMap Lexeme.kind?).length_le

theorem Function.CutTo.length {function : Function Label ParsedExpr}
    {depth : Nat} {core : List Lexeme} (cut : function.CutTo depth core) :
    (kinds (function.written depth)).length = (kinds core).length + 1 := by
  obtain ⟨_, _, split⟩ := cut
  rw [split]
  simp

theorem heard_function {header : Header} {items : List (Item Label ParsedExpr)}
    {depth : Nat} (stmts : ∀ stmt ∈ items.filterMap Item.statement?, stmt.Heard (depth + 1))
    (functions : ∀ inner ∈ items.filterMap Item.nested?, inner.Heard (depth + 1)) :
    (Function.mk header items).Heard depth := by
  refine ⟨_, ⟨_, rfl, Function.written_eq header items depth⟩, fun allowance enough => ?_⟩
  obtain ⟨allowance, rfl⟩ := Nat.exists_eq_succ_of_ne_zero (Nat.ne_zero_of_lt enough)
  simp only [kinds_append, kinds_mark, kinds_blank, List.length_append, List.length_cons] at enough
  -- The functions are read by the same reader with one nesting less, which their text still fits
  -- into.
  have heard : ∀ item ∈ itemsOf (items.filterMap Item.statement?) (items.filterMap Item.nested?),
      item.Heard (Function.readerWithin true allowance) (depth + 1) := by
    intro item member
    have few := length_written_le member (depth + 1)
    rcases List.mem_append.mp member with member | member
    · obtain ⟨stmt, inside, rfl⟩ := List.mem_map.mp member
      exact stmts stmt inside
    · obtain ⟨inner, inside, rfl⟩ := List.mem_map.mp member
      obtain ⟨core, cut, reads⟩ := functions inner inside
      have count := cut.length
      change (kinds (inner.written (depth + 1))).length ≤ _ at few
      exact ⟨core, cut, reads allowance (by omega)⟩
  refine finds_expect fun _ _ _ => finds_gap ?_
  rw [Header.signature, ← List.append_assoc (Header.results _),
    List.append_assoc (Header.results _ ++ _)]
  refine (Function.finds_outputsAndName header.outputs header.name).bind
    (fun _ same => ?_) fun _ _ => rfl
  subst same
  refine (Function.finds_inputs header.inputs).bind (fun _ same => ?_) fun _ _ => trivial
  subst same
  rw [Function.item_closed]
  have apart : Separating [newline] := separating_tail (.inr rfl)
  refine (findsAll_items heard (Function.readsItems _ depth) apart).collect.result
    fun found same => ?_
  rw [SameItems, nested_itemsOf, ← arrangedFunctions_eq] at same
  rw [SameFunction, Function.map, Function.arranged, Function.map]
  exact congrArg (Function.mk _) same

mutual
/-- A readable function is read back from what is written for it. -/
theorem Function.Readable.heard :
    (function : Function Label ParsedExpr) → function.Readable → ∀ depth, function.Heard depth
  | .mk _ items, readable, depth =>
    heard_function (fun stmt member => (readable.2.statements stmt member).heard (depth + 1))
      fun inner member => heardFunctions items readable.2 inner member (depth + 1)

theorem heardFunctions : (items : List (Item Label ParsedExpr)) → ReadableItems items →
    ∀ inner ∈ items.filterMap Item.nested?, ∀ depth, inner.Heard depth
  | [], _ => fun _ none => absurd none List.not_mem_nil
  | .stmt _ :: rest, readable => heardFunctions rest readable.2
  | .function inner :: rest, readable =>
      List.forall_mem_cons.mpr ⟨Function.Readable.heard inner readable.1,
        heardFunctions rest readable.2⟩
end

namespace File

def itemAt : Option Kind → TokenReader (Option ParsedItem)
  | none => return none
  | some .functionKey => return some (.function (← Function.reader true))
  | some _ => return some (.stmt (← Stmt.reader))

theorem item_closed : item true = (separators >>= fun _ => peek >>= itemAt) := by
  refine congrArg (separators >>= ·)
    (funext fun _ => congrArg (peek >>= ·) (funext fun found => ?_))
  cases found with
  | none => rfl
  | some kind => cases kind <;> rfl

theorem readsItems : ReadsItems itemAt (Function.reader true) (· = none) [] where
  stmt kind start := by cases kind <;> first | rfl | cases start
  function := rfl
  ends seps separating := by
    refine finds_separators separating ?_ (finds_peek ?_)
    · rintro _ rfl _ ⟨⟩
    · rintro _ rfl
      exact finds_pure rfl

theorem finds_reader {file : File Label ParsedExpr} (readable : ReadableItems file.items) :
    Finds (· = none) (reader true) (file.written 0) fun found =>
      found.map Header.unplaced Stmt.unplaced =
        file.arranged.map Header.unplaced Stmt.unplaced := by
  have heard : ∀ item ∈ itemsOf (file.items.filterMap Item.statement?)
      (file.items.filterMap Item.nested?), item.Heard (Function.reader true) 0 := by
    intro item member
    rcases List.mem_append.mp member with member | member
    · obtain ⟨stmt, inside, rfl⟩ := List.mem_map.mp member
      exact (readable.statements stmt inside).heard 0
    · obtain ⟨inner, inside, rfl⟩ := List.mem_map.mp member
      obtain ⟨core, cut, reads⟩ := heardFunctions file.items readable inner inside 0
      exact ⟨core, cut, finds_allowed reads⟩
  have split : file.written 0 = [] ++ ((itemsOf (file.items.filterMap Item.statement?)
      (file.items.filterMap Item.nested?)).flatMap (·.written 0) ++ []) := by
    rw [← written_items]
    simp [written, block]
  have apart : Separating [] := separating_tail (.inl rfl)
  have found := (findsAll_items heard readsItems apart).collect
  rw [split, reader, item_closed]
  refine found.result fun items same => ?_
  rw [SameItems, nested_itemsOf, ← arrangedFunctions_eq] at same
  exact congrArg File.mk same

end File

end ScriptFlow
