import ScriptFlow.Token.Cursor

/-!
Steps of readers. A reader reads the tokens at the front of a cursor when it succeeds there and
leaves what is behind them; readers in a row read what they read one after another.
-/

namespace ScriptFlow.TokenReader

open Token (Kind)

variable {A B : Type} {last : Option Token} {used later rest : List Token}

def lastOf (last : Option Token) (used : List Token) : Option Token :=
  used.foldl (fun _ token => some token) last

theorem lastOf_append (last : Option Token) (front back : List Token) :
    lastOf last (front ++ back) = lastOf (lastOf last front) back := List.foldl_append

/-- The reader takes just these tokens, in front of those, and gives the result. -/
def Reads (reader : TokenReader A) (last : Option Token) (used rest : List Token) (a : A) : Prop :=
  reader.run ⟨last, used ++ rest⟩ = .ok (a, ⟨lastOf last used, rest⟩)

theorem reads_pure (a : A) : Reads (pure a) last [] rest a := rfl

theorem run_bind_eq {reader : TokenReader A} {next : A → TokenReader B} {a : A}
    {cursor after : Cursor} (ran : reader.run cursor = .ok (a, after)) :
    (reader >>= next).run cursor = (next a).run after := by
  rw [StateT.run_bind, ran]
  rfl

theorem run_bind_ok {reader : TokenReader A} {next : A → TokenReader B} {b : B}
    {cursor after : Cursor} (ran : (reader >>= next).run cursor = .ok (b, after)) :
    ∃ a between, reader.run cursor = .ok (a, between) ∧ (next a).run between = .ok (b, after) := by
  rw [StateT.run_bind] at ran
  cases first : reader.run cursor with
  | error failure =>
      rw [first] at ran
      cases ran
  | ok result =>
      rw [first] at ran
      exact ⟨result.1, result.2, rfl, ran⟩

theorem Reads.bind {reader : TokenReader A} {next : A → TokenReader B}
    {a : A} {b : B} (first : Reads reader last used (later ++ rest) a)
    (second : Reads (next a) (lastOf last used) later rest b) :
    Reads (reader >>= next) last (used ++ later) rest b := by
  rw [Reads, List.append_assoc, run_bind_eq first, lastOf_append]
  exact second

theorem Reads.map {reader : TokenReader A} {a : A} (f : A → B)
    (reads : Reads reader last used rest a) : Reads (f <$> reader) last used rest (f a) := by
  rw [Reads, StateT.run_map, reads]
  rfl

theorem reads_get {next : Cursor → TokenReader A} {a : A}
    (reads : Reads (next ⟨last, used ++ rest⟩) last used rest a) :
    Reads (get >>= next) last used rest a := reads

theorem get_run (next : Cursor → TokenReader A) (cursor : Cursor) :
    (get >>= next).run cursor = (next cursor).run cursor := rfl

/-- The reader fails wherever that kind comes next. -/
def Refuses (kind : Kind) (reader : TokenReader A) : Prop :=
  ∀ cursor, cursor.next? = some kind → ∃ failure, reader.run cursor = .error failure

theorem Refuses.bind {kind : Kind} {first : TokenReader A} (refuses : Refuses kind first)
    (next : A → TokenReader B) : Refuses kind (first >>= next) := by
  intro cursor here
  obtain ⟨failure, ran⟩ := refuses cursor here
  refine ⟨failure, ?_⟩
  rw [StateT.run_bind, ran]
  rfl

theorem refuses_get {kind : Kind} {next : Cursor → TokenReader A}
    (refuses : ∀ cursor,
      cursor.next? = some kind → ∃ failure, (next cursor).run cursor = .error failure) :
    Refuses kind (get >>= next) := refuses

theorem reads_take (token : Token) : Reads take last [token] rest (some token) := rfl

theorem reads_expect {kind : Kind} {token : Token} (same : token.kind = kind) :
    Reads (expect kind) last [token] rest token := by
  change (if token.kind = kind then _ else _ : TokenReader Token).run _ = _
  rw [if_pos same]
  rfl

theorem run_nextIs (kind : Kind) (cursor : Cursor) :
    (nextIs kind).run cursor = .ok (cursor.next? == some kind, cursor) := rfl

theorem reads_eat {kind : Kind} {token : Token} (same : token.kind = kind) :
    Reads (eat kind) last [token] rest true := by
  have here : (Cursor.next? ⟨last, token :: rest⟩ == some kind) = true :=
    beq_iff_eq.mpr (congrArg some same)
  rw [Reads, List.singleton_append, eat, run_bind_eq (run_nextIs kind _), here]
  rfl

theorem run_eat_other {kind : Kind} {cursor : Cursor} (other : cursor.next? ≠ some kind) :
    (eat kind).run cursor = .ok (false, cursor) := by
  rw [eat, run_bind_eq (run_nextIs kind cursor), beq_eq_false_iff_ne.mpr other]
  rfl

theorem skipSeparators_eq (last : Option Token) (tokens : List Token) :
    ∃ used rest, tokens = used ++ rest ∧ (∀ token ∈ used, token.kind.separates = true) ∧
      Cursor.skipSeparators last tokens = ⟨lastOf last used, rest⟩ := by
  induction tokens generalizing last with
  | nil => exact ⟨[], [], rfl, nofun, rfl⟩
  | cons first more ih =>
      rw [Cursor.skipSeparators]
      split
      · next separates =>
          obtain ⟨used, rest, rfl, all, same⟩ := ih (some first)
          exact ⟨first :: used, rest, rfl, List.forall_mem_cons.mpr ⟨separates, all⟩, same⟩
      · exact ⟨[], first :: more, rfl, nofun, rfl⟩

theorem reads_separators (all : ∀ token ∈ used, token.kind.separates = true)
    (stops : ∀ token ∈ rest.head?, token.kind.separates = false) :
    Reads separators last used rest () := by
  have skipped : Cursor.skipSeparators last (used ++ rest) = ⟨lastOf last used, rest⟩ := by
    induction used generalizing last with
    | nil =>
        cases rest with
        | nil => rfl
        | cons token more =>
            rw [List.nil_append, Cursor.skipSeparators, stops token rfl]
            rfl
    | cons first more ih =>
        rw [List.cons_append, Cursor.skipSeparators, if_pos (all first List.mem_cons_self)]
        exact ih fun token member => all token (List.mem_cons_of_mem _ member)
  exact congrArg (fun cursor => Except.ok ((), cursor)) skipped

/-- The parts that a reader finds one after another, in front of the rest. -/
inductive Parts (part : TokenReader (Option A)) (rest : List Token) :
    Option Token → List Token → List A → Prop where
  | nil {before : Option Token} : Parts part rest before [] []
  | cons {before : Option Token} {front back : List Token} {a : A} {as : List A}
      (taken : front ≠ []) (first : Reads part before front (back ++ rest) (some a))
      (more : Parts part rest (lastOf before front) back as) :
      Parts part rest before (front ++ back) (a :: as)

theorem Parts.single {part : TokenReader (Option A)} {a : A} (taken : used ≠ [])
    (reads : Reads part last used rest (some a)) : Parts part rest last used [a] := by
  have both : Parts part rest last (used ++ []) [a] := .cons taken (by rwa [List.nil_append]) .nil
  rwa [List.append_nil] at both

theorem Parts.append {part : TokenReader (Option A)} {as bs : List A}
    (front : Parts part (later ++ rest) last used as)
    (back : Parts part rest (lastOf last used) later bs) :
    Parts part rest last (used ++ later) (as ++ bs) := by
  induction front with
  | nil => exact back
  | cons taken first _ ih =>
      rw [lastOf_append] at back
      rw [List.append_assoc]
      exact .cons taken (by rwa [List.append_assoc]) (ih back)

theorem reads_collectWithin {part : TokenReader (Option A)} {as : List A}
    {allowance : Nat} (parts : Parts part (later ++ rest) last used as)
    (ends : Reads part (lastOf last used) later rest none) (enough : used.length < allowance) :
    Reads (collectWithin part allowance) last (used ++ later) rest as := by
  induction parts generalizing allowance with
  | nil =>
      obtain ⟨allowance, rfl⟩ := Nat.exists_eq_succ_of_ne_zero (Nat.ne_of_gt enough)
      rw [collectWithin]
      exact run_bind_eq ends
  | cons taken first _ ih =>
      obtain ⟨allowance, rfl⟩ :=
        Nat.exists_eq_succ_of_ne_zero (Nat.ne_of_gt (Nat.zero_lt_of_lt enough))
      have positive := List.length_pos_iff.mpr taken
      rw [List.length_append] at enough
      rw [lastOf_append] at ends
      have more := @ih allowance ends (by omega)
      rw [List.append_assoc, collectWithin]
      refine Reads.bind (by rwa [List.append_assoc]) ?_
      exact more.map _

theorem collect_run (part : TokenReader (Option A)) (cursor : Cursor) :
    (collect part).run cursor = (collectWithin part (cursor.ahead.length + 1)).run cursor :=
  get_run _ cursor

theorem reads_collect {part : TokenReader (Option A)}
    {as : List A} (parts : Parts part (later ++ rest) last used as)
    (ends : Reads part (lastOf last used) later rest none) :
    Reads (collect part) last (used ++ later) rest as := by
  refine reads_collectWithin parts ends ?_
  simp only [List.length_append]
  omega

end ScriptFlow.TokenReader
