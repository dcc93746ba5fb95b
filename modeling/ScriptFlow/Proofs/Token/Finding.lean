import ScriptFlow.Proofs.Token.Segment
import ScriptFlow.Proofs.Token.Steps

/-!
Finding again what is written. A reader finds lexemes when it takes just their tokens wherever they
are placed, in front of whatever it may stop at; readers in a row find what they find one after
another.
-/

namespace ScriptFlow

namespace Token

def kinds (lexemes : List Lexeme) : List Kind := lexemes.filterMap Lexeme.kind?

section
variable (kind : Kind) (rest : List Lexeme)

@[simp] theorem kinds_nil : kinds [] = [] := rfl

@[simp] theorem kinds_token (text : List Char) :
    kinds (.token kind text :: rest) = kind :: kinds rest := rfl

@[simp] theorem kinds_gap (sort : Gap) (text : List Char) :
    kinds (.gap sort text :: rest) = kinds rest := rfl

@[simp] theorem kinds_mark : kinds (.mark kind :: rest) = kind :: kinds rest := rfl

@[simp] theorem kinds_word (name : String) : kinds (.word name :: rest) = .word :: kinds rest := rfl

@[simp] theorem kinds_blank : kinds (.blank :: rest) = kinds rest := rfl

@[simp] theorem kinds_newline : kinds (.newline :: rest) = .newline :: kinds rest := rfl

end

@[simp] theorem kinds_append (front back : List Lexeme) :
    kinds (front ++ back) = kinds front ++ kinds back :=
  List.filterMap_append

theorem kinds_place (offset : Nat) (here : Position) (lexemes : List Lexeme) :
    (place offset here lexemes).map kind = kinds lexemes := by
  induction lexemes generalizing offset here with
  | nil => rfl
  | cons first rest ih =>
      cases first with
      | token kind text => exact congrArg (kind :: ·) (ih _ _)
      | gap kind text => exact ih _ _

theorem length_place (offset : Nat) (here : Position) (lexemes : List Lexeme) :
    (place offset here lexemes).length = (kinds lexemes).length := by
  rw [← kinds_place offset here, List.length_map]

theorem place_append (offset : Nat) (here : Position) (front back : List Lexeme) :
    place offset here (front ++ back) = place offset here front ++ place
      (offset + byteLength (Lexeme.concat front)) (here.after (Lexeme.concat front)) back := by
  induction front generalizing offset here with
  | nil => rfl
  | cons first rest ih =>
      have behind := ih (offset + byteLength first.text) (here.after first.text)
      rw [Nat.add_assoc, ← byteLength_append, ← Position.after_append] at behind
      cases first with
      | token kind text => exact congrArg (_ :: ·) behind
      | gap kind text => exact behind

def nextOf (lexemes : List Lexeme) (behind : Option Kind) : Option Kind :=
  (kinds lexemes).head?.or behind

variable {behind : Option Kind} {front back lexemes : List Lexeme}

@[simp] theorem nextOf_nil : nextOf [] behind = behind := rfl

@[simp] theorem nextOf_token (kind : Kind) (text : List Char) :
    nextOf (.token kind text :: lexemes) behind = some kind := rfl

@[simp] theorem nextOf_gap (kind : Gap) (text : List Char) :
    nextOf (.gap kind text :: lexemes) behind = nextOf lexemes behind :=
  rfl

@[simp] theorem nextOf_mark (kind : Kind) : nextOf (.mark kind :: lexemes) behind = some kind := rfl

@[simp] theorem nextOf_word (name : String) :
    nextOf (.word name :: lexemes) behind = some .word := rfl

@[simp] theorem nextOf_blank : nextOf (.blank :: lexemes) behind = nextOf lexemes behind := rfl

@[simp] theorem nextOf_newline : nextOf (.newline :: lexemes) behind = some .newline := rfl

@[simp] theorem nextOf_append :
    nextOf (front ++ back) behind = nextOf front (nextOf back behind) := by
  rw [nextOf, kinds_append, List.head?_append, Option.or_assoc]
  rfl

def nextKind (tokens : List Token) : Option Kind := tokens.head?.map kind

theorem nextKind_place (offset : Nat) (here : Position) (rest : List Token) :
    nextKind (place offset here lexemes ++ rest) = nextOf lexemes (nextKind rest) := by
  rw [nextKind, List.head?_append, Option.map_or, ← List.head?_map, kinds_place]
  rfl

theorem name_of_text {token : Token} {name : String} (same : token.text = name.toList) :
    token.name = name := by
  rw [Token.name, same, String.ofList_toList]

theorem place_ne_nil (some : kinds lexemes ≠ []) (offset : Nat) (here : Position) :
    place offset here lexemes ≠ [] := by
  rintro none
  rw [← kinds_place offset here, none] at some
  exact some rfl

end Token

namespace TokenReader

open Token

variable {A B : Type} {P : A → Prop} {Q : B → Prop} {ahead inner : Option Kind → Prop}
  {front back lexemes : List Lexeme}

/-- Wherever the lexemes are placed in front of what allows it, the reader takes just them and gives
what has the property. -/
def Finds (ahead : Option Kind → Prop) (reader : TokenReader A) (lexemes : List Lexeme)
    (P : A → Prop) : Prop :=
  ∀ last offset here rest, ahead (nextKind rest) → ∃ a, P a ∧
    Reads reader last (place offset here lexemes) rest a

theorem allows_place {rest : List Token} (allows : ∀ kind, ahead kind → inner (nextOf back kind))
    (allowed : ahead (nextKind rest)) (offset : Nat) (here : Position) :
    inner (nextKind (place offset here back ++ rest)) := by
  rw [nextKind_place]
  exact allows _ allowed

theorem Finds.imp {reader : TokenReader A} {P' : A → Prop} {ahead' : Option Kind → Prop}
    (finds : Finds ahead reader lexemes P) (stricter : ∀ kind, ahead' kind → ahead kind)
    (weaker : ∀ a, P a → P' a) : Finds ahead' reader lexemes P' := by
  intro last offset here rest allowed
  obtain ⟨a, holds, reads⟩ := finds last offset here rest (stricter _ allowed)
  exact ⟨a, weaker a holds, reads⟩

theorem Finds.at {reader : TokenReader A} (finds : Finds ahead reader lexemes P)
    {kind : Option Kind} (allowed : ahead kind) : Finds (· = kind) reader lexemes P :=
  finds.imp (fun _ same => same ▸ allowed) fun _ => id

theorem finds_pure {a : A} (holds : P a) : Finds ahead (pure a) [] P :=
  fun _ _ _ _ _ => ⟨a, holds, reads_pure a⟩

theorem Finds.bind {reader : TokenReader A} {next : A → TokenReader B}
    (first : Finds inner reader front P) (second : ∀ a, P a → Finds ahead (next a) back Q)
    (allows : ∀ kind, ahead kind → inner (nextOf back kind)) :
    Finds ahead (reader >>= next) (front ++ back) Q := by
  intro last offset here rest allowed
  rw [place_append]
  obtain ⟨a, holds, reads⟩ := first last offset here _ (allows_place allows allowed
      (offset + byteLength (Lexeme.concat front)) (here.after (Lexeme.concat front)))
  obtain ⟨b, holds', reads'⟩ := second a holds _ _ _ rest allowed
  exact ⟨b, holds', reads.bind reads'⟩

theorem finds_gap {reader : TokenReader A} {kind : Gap} {text : List Char}
    (finds : Finds ahead reader lexemes P) : Finds ahead reader (.gap kind text :: lexemes) P :=
  fun last _ _ rest allowed => finds last _ _ rest allowed

theorem finds_take {next : Option Token → TokenReader B}
    {kind : Kind} {text : List Char}
    (finds : ∀ token : Token,
      token.kind = kind → token.text = text → Finds ahead (next (some token)) lexemes Q) :
    Finds ahead (take >>= next) (.token kind text :: lexemes) Q := by
  intro last offset here rest allowed
  obtain ⟨b, holds, reads⟩ := finds ⟨kind, text, offset, here⟩ rfl rfl _ _ _ rest allowed
  exact ⟨b, holds, (reads_take _).bind reads⟩

theorem finds_expect {next : Token → TokenReader B}
    {kind : Kind} {text : List Char}
    (finds : ∀ token : Token,
      token.kind = kind → token.text = text → Finds ahead (next token) lexemes Q) :
    Finds ahead (expect kind >>= next) (.token kind text :: lexemes) Q := by
  intro last offset here rest allowed
  obtain ⟨b, holds, reads⟩ := finds ⟨kind, text, offset, here⟩ rfl rfl _ _ _ rest allowed
  exact ⟨b, holds, (reads_expect rfl).bind reads⟩

theorem finds_eat {next : Bool → TokenReader B} {kind : Kind}
    {text : List Char} (finds : Finds ahead (next true) lexemes Q) :
    Finds ahead (eat kind >>= next) (.token kind text :: lexemes) Q := by
  intro last offset here rest allowed
  obtain ⟨b, holds, reads⟩ := finds _ _ _ rest allowed
  exact ⟨b, holds, (reads_eat rfl).bind reads⟩

def Stands (ahead : Option Kind → Prop) (lexemes : List Lexeme) (cursor : Cursor) : Prop :=
  ∃ last offset here rest, cursor = ⟨last, place offset here lexemes ++ rest⟩ ∧
    ahead (nextKind rest)

theorem Stands.next {cursor : Cursor} (stands : Stands ahead lexemes cursor) :
    ∃ behind, ahead behind ∧ cursor.next? = nextOf lexemes behind := by
  obtain ⟨_, offset, here, rest, rfl, allowed⟩ := stands
  exact ⟨_, allowed, nextKind_place offset here rest⟩

theorem finds_get {next : Cursor → TokenReader B}
    (finds : ∀ cursor, Stands ahead lexemes cursor → Finds ahead (next cursor) lexemes Q) :
    Finds ahead (get >>= next) lexemes Q :=
  fun last offset here rest allowed =>
    finds _ ⟨last, offset, here, rest, rfl, allowed⟩ last offset here rest allowed

theorem finds_first {reader : TokenReader A} {next : A → TokenReader B}
    (found : ∀ kind, ahead kind → ∃ a, (∀ cursor, cursor.next? = nextOf lexemes kind →
      reader.run cursor = .ok (a, cursor)) ∧ Finds (· = kind) (next a) lexemes Q) :
    Finds ahead (reader >>= next) lexemes Q := by
  intro last offset here rest allowed
  obtain ⟨a, ran, finds⟩ := found _ allowed
  obtain ⟨b, holds, reads⟩ := finds last offset here rest rfl
  refine ⟨b, holds, (run_bind_eq (ran _ ?_)).trans reads⟩
  exact nextKind_place offset here rest

theorem finds_eat_other {next : Bool → TokenReader B} {kind : Kind}
    (other : ∀ behind, ahead behind → nextOf lexemes behind ≠ some kind)
    (finds : Finds ahead (next false) lexemes Q) : Finds ahead (eat kind >>= next) lexemes Q := by
  refine finds_first fun behind allowed =>
    ⟨false, fun cursor here => run_eat_other ?_, finds.imp ?_ fun _ => id⟩
  · rw [here]
    exact other behind allowed
  · rintro _ rfl
    exact allowed

theorem finds_peek {next : Option Kind → TokenReader B}
    (finds : ∀ kind, ahead kind → Finds (· = kind) (next (nextOf lexemes kind)) lexemes Q) :
    Finds ahead (peek >>= next) lexemes Q := by
  refine finds_first fun kind allowed =>
    ⟨nextOf lexemes kind, fun cursor here => ?_, finds kind allowed⟩
  rw [← here]
  rfl

theorem finds_nextIs {kind : Kind} {next : Bool → TokenReader B}
    (finds : ∀ behind,
      ahead behind → Finds (· = behind) (next (nextOf lexemes behind == some kind)) lexemes Q) :
    Finds ahead (nextIs kind >>= next) lexemes Q := by
  refine finds_first fun behind allowed =>
    ⟨nextOf lexemes behind == some kind, fun cursor here => ?_, finds behind allowed⟩
  rw [← here]
  rfl

theorem Finds.result {reader : TokenReader A} {f : A → B} (finds : Finds ahead reader lexemes P)
    (weaker : ∀ a, P a → Q (f a)) : Finds ahead (reader >>= fun a => pure (f a)) lexemes Q := by
  rw [← List.append_nil lexemes]
  exact finds.bind (fun a holds => finds_pure (weaker a holds)) fun _ => id

theorem Finds.map {reader : TokenReader A} {f : A → B} (finds : Finds ahead reader lexemes P)
    (weaker : ∀ a, P a → Q (f a)) : Finds ahead (f <$> reader) lexemes Q := by
  intro last offset here rest allowed
  obtain ⟨a, holds, reads⟩ := finds last offset here rest allowed
  exact ⟨f a, weaker a holds, reads.map f⟩

def FindsParts (ahead : Option Kind → Prop) (part : TokenReader (Option A)) (lexemes : List Lexeme)
    (P : List A → Prop) : Prop :=
  ∀ last offset here rest, ahead (nextKind rest) → ∃ as, P as ∧
    Parts part rest last (place offset here lexemes) as

theorem findsParts_nil {part : TokenReader (Option A)} {P : List A → Prop} (holds : P []) :
    FindsParts ahead part [] P :=
  fun _ _ _ _ _ => ⟨[], holds, .nil⟩

theorem FindsParts.cons {part : TokenReader (Option A)}
    {P' P'' : List A → Prop} (some : kinds front ≠ [])
    (first : Finds inner part front fun found => ∃ a, found = .some a ∧ P a)
    (more : FindsParts ahead part back P') (allows : ∀ kind, ahead kind → inner (nextOf back kind))
    (both : ∀ a as, P a → P' as → P'' (a :: as)) : FindsParts ahead part (front ++ back) P'' := by
  intro last offset here rest allowed
  rw [place_append]
  obtain ⟨_, ⟨a, rfl, holds⟩, reads⟩ := first last offset here _ (allows_place allows allowed
      (offset + byteLength (Lexeme.concat front)) (here.after (Lexeme.concat front)))
  obtain ⟨as, others, parts⟩ := more (lastOf last (place offset here front)) _ _ rest allowed
  exact ⟨a :: as, both a as holds others, .cons (place_ne_nil some _ _) reads parts⟩

theorem FindsParts.append {part : TokenReader (Option A)} {P P' P'' : List A → Prop}
    (first : FindsParts inner part front P) (more : FindsParts ahead part back P')
    (allows : ∀ kind, ahead kind → inner (nextOf back kind))
    (both : ∀ as bs, P as → P' bs → P'' (as ++ bs)) :
    FindsParts ahead part (front ++ back) P'' := by
  intro last offset here rest allowed
  rw [place_append]
  obtain ⟨as, holds, parts⟩ := first last offset here _ (allows_place allows allowed
      (offset + byteLength (Lexeme.concat front)) (here.after (Lexeme.concat front)))
  obtain ⟨bs, others, parts'⟩ := more (lastOf last (place offset here front)) _ _ rest allowed
  exact ⟨as ++ bs, both as bs holds others, parts.append parts'⟩

theorem FindsParts.single {part : TokenReader (Option A)}
    {P' : List A → Prop} (some : kinds lexemes ≠ [])
    (finds : Finds ahead part lexemes fun found => ∃ a, found = .some a ∧ P a)
    (weaker : ∀ a, P a → P' [a]) : FindsParts ahead part lexemes P' := by
  intro last offset here rest allowed
  obtain ⟨_, ⟨a, rfl, holds⟩, reads⟩ := finds last offset here rest allowed
  exact ⟨[a], weaker a holds, .single (place_ne_nil some _ _) reads⟩

theorem FindsParts.push {part : TokenReader (Option A)} {a : A} {as : List A}
    (filled : kinds front ≠ []) (first : Finds inner part front (some a = ·))
    (more : FindsParts ahead part back (as = ·))
    (allows : ∀ kind, ahead kind → inner (nextOf back kind)) :
    FindsParts ahead part (front ++ back) (a :: as = ·) :=
  .cons (P := (a = ·)) filled (first.imp (fun _ => id) fun _ same => ⟨a, same.symm, rfl⟩) more
    allows fun _ _ same others => by
    rw [same, others]

theorem FindsParts.one {part : TokenReader (Option A)} {a : A} (filled : kinds lexemes ≠ [])
    (finds : Finds ahead part lexemes (some a = ·)) : FindsParts ahead part lexemes ([a] = ·) :=
  .single (P := (a = ·)) filled
    (finds.imp (fun _ => id) fun _ same => ⟨a, same.symm, rfl⟩) fun _ same => by
    rw [same]

theorem findsParts_gap {part : TokenReader (Option A)} {P : List A → Prop}
    {kind : Gap} {text : List Char} (finds : FindsParts ahead part lexemes P) :
    FindsParts ahead part (.gap kind text :: lexemes) P :=
  fun last _ _ rest allowed => finds last _ _ rest allowed

theorem FindsParts.collect {part : TokenReader (Option A)} {P : List A → Prop}
    (parts : FindsParts inner part front P) (ends : Finds ahead part back fun found => found = none)
    (allows : ∀ kind, ahead kind → inner (nextOf back kind)) :
    Finds ahead (collect part) (front ++ back) P := by
  intro last offset here rest allowed
  rw [place_append]
  obtain ⟨as, holds, parts⟩ := parts last offset here _ (allows_place allows allowed
      (offset + byteLength (Lexeme.concat front)) (here.after (Lexeme.concat front)))
  obtain ⟨_, rfl, reads⟩ := ends (lastOf last (place offset here front)) _ _ rest allowed
  exact ⟨as, holds, reads_collect parts reads⟩

section
variable {part : TokenReader (Option A)} {written : A → List Lexeme} {items : List A} {close : Kind}
  {tail : List Lexeme}

/-- What stands behind an item of a list: a comma and others, or nothing but what closes the
list. -/
def Behind (close : Kind) (ahead : Option Kind → Prop) (lexemes : List Lexeme) : Prop :=
  lexemes = [.mark .comma, .blank] ∨ lexemes = [] ∧ ∀ kind, ahead kind → kind = some close

theorem finds_behind {a : A} (other : close ≠ .comma)
    (behind : Behind close ahead tail) : Finds ahead (do
      unless ← nextIs close do
        let _ ← expect .comma
      return some a) tail (some a = ·) := by
  rcases behind with rfl | ⟨rfl, closes⟩
  · refine finds_nextIs fun kind _ => ?_
    have differs : (nextOf [Lexeme.mark .comma, .blank] kind == some close) = false :=
      beq_eq_false_iff_ne.mpr fun same => other (Option.some.inj same).symm
    rw [differs]
    exact finds_expect fun _ _ _ => finds_gap (finds_pure rfl)
  · refine finds_nextIs fun kind allowed => ?_
    have same : (nextOf [] kind == some close) = true := beq_iff_eq.mpr (closes kind allowed)
    rw [same]
    exact finds_pure rfl

theorem findsParts_listed (filled : ∀ item ∈ items, kinds (written item) ≠ [])
    (each : ∀ item ∈ items, ∀ ahead tail, Behind close ahead tail →
      Finds ahead part (written item ++ tail) (some item = ·)) :
    FindsParts (· = some close) part (Lexeme.separated .comma (items.map written)) (items = ·) := by
  induction items with
  | nil => exact findsParts_nil rfl
  | cons item rest ih =>
      have own := each item List.mem_cons_self
      have present := filled item List.mem_cons_self
      cases rest with
      | nil =>
          rw [List.map_singleton, separated_single]
          have last := own (· = some close) [] (.inr ⟨rfl, fun _ same => same⟩)
          rw [List.append_nil] at last
          exact .one present last
      | cons next rest =>
          have others := ih (fun item member => filled item (List.mem_cons_of_mem _ member))
            fun item member => each item (List.mem_cons_of_mem _ member)
          have here := own (fun _ => True) [.mark .comma, .blank] (.inl rfl)
          have split : Lexeme.separated .comma ((item :: next :: rest).map written) =
              (written item ++ [.mark .comma, .blank]) ++
              Lexeme.separated .comma ((next :: rest).map written) := by
            rw [List.map_cons, List.map_cons, separated_cons, List.append_assoc]
            rfl
          rw [split]
          exact .push (by simp [present]) here others fun _ _ => trivial

end

def FindsAll (ahead : Option Kind → Prop) (part : TokenReader (Option A)) (lexemes : List Lexeme)
    (P : List A → Prop) : Prop :=
  ∀ allowance, (kinds lexemes).length < allowance →
    Finds ahead (collectWithin part allowance) lexemes P

theorem findsAll_end {part : TokenReader (Option A)} {P : List A → Prop}
    (ends : Finds ahead part lexemes (· = none)) (holds : P []) :
    FindsAll ahead part lexemes P := by
  intro allowance enough
  obtain ⟨allowance, rfl⟩ := Nat.exists_eq_succ_of_ne_zero (Nat.ne_of_gt (Nat.zero_lt_of_lt enough))
  rw [collectWithin, ← List.append_nil lexemes]
  refine ends.bind (fun found none => ?_) fun _ => id
  subst none
  exact finds_pure holds

theorem FindsAll.cons {part : TokenReader (Option A)}
    {P' P'' : List A → Prop} (filled : kinds front ≠ [])
    (first : Finds inner part front fun found => ∃ a, found = some a ∧ P a)
    (more : FindsAll ahead part back P') (allows : ∀ kind, ahead kind → inner (nextOf back kind))
    (both : ∀ a as, P a → P' as → P'' (a :: as)) : FindsAll ahead part (front ++ back) P'' := by
  intro allowance enough
  obtain ⟨allowance, rfl⟩ := Nat.exists_eq_succ_of_ne_zero (Nat.ne_of_gt (Nat.zero_lt_of_lt enough))
  have positive := List.length_pos_iff.mpr filled
  rw [kinds_append, List.length_append] at enough
  rw [collectWithin]
  refine first.bind (fun found one => ?_) allows
  obtain ⟨a, rfl, holds⟩ := one
  exact (more allowance (by omega)).result fun as others => both a as holds others

theorem findsAll_gap {part : TokenReader (Option A)} {P : List A → Prop}
    {kind : Gap} {text : List Char} (all : FindsAll ahead part lexemes P) :
    FindsAll ahead part (.gap kind text :: lexemes) P :=
  fun allowance enough => finds_gap (all allowance enough)

theorem FindsAll.collect {part : TokenReader (Option A)} {P : List A → Prop}
    (all : FindsAll ahead part lexemes P) : Finds ahead (collect part) lexemes P := by
  intro last offset here rest allowed
  have enough : (kinds lexemes).length < (place offset here lexemes ++ rest).length + 1 := by
    rw [List.length_append, length_place]
    omega
  obtain ⟨as, holds, reads⟩ := all _ enough last offset here rest allowed
  exact ⟨as, holds, reads_get reads⟩

def Separating (lexemes : List Lexeme) : Prop := ∀ kind ∈ kinds lexemes, kind.separates = true

theorem finds_separators {next : Unit → TokenReader B} (separating : Separating front)
    (stops : ∀ kind, ahead kind → ∀ next ∈ nextOf back kind, next.separates = false)
    (finds : Finds ahead (next ()) back Q) :
    Finds ahead (separators >>= next) (front ++ back) Q := by
  intro last offset here rest allowed
  rw [place_append]
  obtain ⟨b, holds, reads⟩ :=
    finds (lastOf last (place offset here front)) (offset + byteLength (Lexeme.concat front))
      (here.after (Lexeme.concat front)) rest allowed
  refine ⟨b, holds, (reads_separators (fun token member =>
      separating token.kind ?_) fun token head => ?_).bind reads⟩
  · rw [← kinds_place offset here]
    exact List.mem_map_of_mem member
  · refine stops _ allowed token.kind ?_
    rw [← nextKind_place]
    exact Option.mem_map_of_mem Token.kind head

end TokenReader
end ScriptFlow
