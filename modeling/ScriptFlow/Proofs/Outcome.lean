import Mathlib.Data.List.Forall2

/-!
Computations that may fail, one after another and over lists. A run over a list succeeds when every
step does, and its results stand beside the items; otherwise it fails as the first item does that
fails.
-/

namespace ScriptFlow

theorem ok_bind {E A B : Type} (a : A) (next : A → Except E B) :
    (Except.ok a >>= next) = next a := rfl

theorem bind_eq_ok {E A B : Type} {first : Except E A} {next : A → Except E B} {b : B}
    (ran : (first >>= next) = .ok b) : ∃ a, first = .ok a ∧ next a = .ok b := by
  cases first with
  | error error => cases ran
  | ok a => exact ⟨a, rfl, ran⟩

theorem ok_of_toOption {E A : Type} {result : Except E A} {a : A}
    (present : result.toOption = some a) : result = .ok a := by
  cases result with
  | error error => cases present
  | ok other =>
      cases present
      rfl

theorem exists_ok {E A : Type} {result : Except E A} (succeeds : result.toOption.isSome = true) :
    ∃ a, result = .ok a := by
  cases result with
  | error _ => cases succeeds
  | ok a => exact ⟨a, rfl⟩

section
variable {A B C E : Type}

theorem mapM_map_ok {f : A → B} {g : A → C} {action : B → Except E C} {items : List A}
    (succeeds : ∀ a ∈ items, action (f a) = .ok (g a)) :
    (items.map f).mapM action = .ok (items.map g) := by
  induction items with
  | nil => rfl
  | cons first rest ih =>
      have head := succeeds first List.mem_cons_self
      have tail := ih fun a member => succeeds a (List.mem_cons_of_mem _ member)
      simp only [List.map_cons, List.mapM_cons, head, tail]
      rfl

theorem mapM_option_map_ok {f : A → B} {g : A → C} {action : B → Except E C} {item : Option A}
    (succeeds : ∀ a ∈ item, action (f a) = .ok (g a)) :
    (item.map f).mapM action = .ok (item.map g) := by
  cases item with
  | none => rfl
  | some a =>
      have head := succeeds a rfl
      simp only [Option.map_some, Option.mapM_some, head]
      rfl

end

theorem mapM_congr_mem {E A B : Type} {f g : A → Except E B} {items : List A}
    (same : ∀ a ∈ items, f a = g a) : items.mapM f = items.mapM g := by
  induction items with
  | nil => rfl
  | cons first rest ih =>
      rw [List.mapM_cons, List.mapM_cons, same first List.mem_cons_self,
        ih fun a member => same a (List.mem_cons_of_mem _ member)]

theorem forall₂_of_mapM_ok {E A B : Type} {action : A → Except E B}
    {items : List A} {results : List B} (ran : items.mapM action = .ok results) :
    List.Forall₂ (fun a b => action a = .ok b) items results := by
  induction items generalizing results with
  | nil =>
      cases ran
      exact .nil
  | cons first rest ih =>
      rw [List.mapM_cons] at ran
      obtain ⟨head, here, ran⟩ := bind_eq_ok ran
      obtain ⟨tail, later, ran⟩ := bind_eq_ok ran
      cases ran
      exact .cons here (ih later)

theorem mapM_of_forall₂ {E A B : Type} {action : A → Except E B} {items : List A}
    {results : List B} (each : List.Forall₂ (fun a b => action a = .ok b) items results) :
    items.mapM action = .ok results := by
  induction each with
  | nil => rfl
  | cons here _ ih =>
      rw [List.mapM_cons, here, ih]
      rfl

theorem exists_forall₂ {A B : Type} {R : A → B → Prop} {items : List A}
    (each : ∀ a ∈ items, ∃ b, R a b) : ∃ others, List.Forall₂ R items others := by
  induction items with
  | nil => exact ⟨[], .nil⟩
  | cons first rest ih =>
      obtain ⟨head, here⟩ := each first List.mem_cons_self
      obtain ⟨tail, later⟩ := ih fun a member => each a (List.mem_cons_of_mem _ member)
      exact ⟨head :: tail, .cons here later⟩

theorem exists_mapM_ok {E A B : Type} {action : A → Except E B} {items : List A}
    (each : ∀ a ∈ items, ∃ b, action a = .ok b) : ∃ results, items.mapM action = .ok results := by
  obtain ⟨results, each⟩ := exists_forall₂ each
  exact ⟨results, mapM_of_forall₂ each⟩

theorem exists_right_of_forall₂ {A B : Type} {R : A → B → Prop} {left : List A} {right : List B}
    {a : A} (related : List.Forall₂ R left right) (member : a ∈ left) : ∃ b ∈ right, R a b := by
  induction related with
  | nil => cases member
  | cons head _ ih =>
      rcases List.mem_cons.mp member with rfl | later
      · exact ⟨_, List.mem_cons_self, head⟩
      · obtain ⟨b, inside, holds⟩ := ih later
        exact ⟨b, List.mem_cons_of_mem _ inside, holds⟩

theorem exists_left_of_forall₂ {A B : Type} {R : A → B → Prop} {left : List A} {right : List B}
    {b : B} (related : List.Forall₂ R left right) (member : b ∈ right) : ∃ a ∈ left, R a b :=
  exists_right_of_forall₂ (List.Forall₂.flip related : List.Forall₂ (flip R) right left) member

theorem forall₂_mem {A B : Type} {R : A → B → Prop} {left : List A}
    {right : List B} (related : List.Forall₂ R left right) :
    List.Forall₂ (fun a b => a ∈ left ∧ b ∈ right ∧ R a b) left right := by
  induction related with
  | nil => exact .nil
  | cons head _ ih =>
      refine .cons ⟨List.mem_cons_self, List.mem_cons_self, head⟩ (ih.imp fun a b later => ?_)
      exact ⟨List.mem_cons_of_mem _ later.1, List.mem_cons_of_mem _ later.2.1, later.2.2⟩

section
variable {A B E : Type}

/-- A success of the first is also the outcome of the second. -/
def Persists (first second : Except E A) : Prop := ∀ a, first = .ok a → second = .ok a

theorem Persists.rfl {outcome : Except E A} : Persists outcome outcome := fun _ ran => ran

theorem Persists.bind {first second : Except E A} {next next' : A → Except E B}
    (head : Persists first second) (tail : ∀ a, Persists (next a) (next' a)) :
    Persists (first >>= next) (second >>= next') := by
  intro b ran
  obtain ⟨a, here, later⟩ := bind_eq_ok ran
  rw [head a here, ok_bind]
  exact tail a b later

theorem Persists.mapM {action action' : A → Except E B}
    (each : ∀ a, Persists (action a) (action' a)) (items : List A) :
    Persists (items.mapM action) (items.mapM action') :=
  fun _ ran => mapM_of_forall₂ ((forall₂_of_mapM_ok ran).imp fun a b => each a b)

end

section
variable {A B E : Type}

def error? : Except E A → Option E
  | .ok _ => none
  | .error error => some error

theorem error?_eq_some {result : Except E A} {error : E} :
    error? result = some error ↔ result = .error error := by
  cases result <;> simp [error?]

theorem error?_eq_none {result : Except E A} : error? result = none ↔ ∃ a, result = .ok a := by
  cases result <;> simp [error?]

theorem error?_bind {first : Except E A} {next : A → Except E B}
    {later : Option E} (goes : ∀ a, first = .ok a → error? (next a) = later) :
    error? (first >>= next) = (error? first).or later := by
  cases first with
  | error error => rfl
  | ok a => exact goes a rfl

theorem error?_map (f : A → B) (result : Except E A) :
    error? (result >>= fun a => .ok (f a)) = error? result := by
  cases result <;> rfl

theorem error?_mapError {F : Type} (f : E → F) (result : Except E A) :
    error? (result.mapError f) = (error? result).map f := by
  cases result <;> rfl

theorem error?_mapM (action : A → Except E B) (items : List A) :
    error? (items.mapM action) = items.findSome? fun a => error? (action a) := by
  induction items with
  | nil => rfl
  | cons first rest ih =>
      have tail (b : B) : error? (do
          let behind ← rest.mapM action
          return b :: behind) = rest.findSome? fun a => error? (action a) := by
        rw [← ih]
        cases rest.mapM action <;> rfl
      rw [List.mapM_cons, error?_bind fun b _ => tail b, List.findSome?_cons]
      cases error? (action first) <;> rfl

theorem mapM_eq_error_iff {action : A → Except E B} {items : List A} {error : E} :
    items.mapM action = .error error ↔ ∃ good bad more, items = good ++ bad :: more ∧
      (∀ a ∈ good, ∃ b, action a = .ok b) ∧ action bad = .error error := by
  rw [← error?_eq_some, error?_mapM, List.findSome?_eq_some_iff]
  simp only [error?_eq_some, error?_eq_none]
  constructor
  · rintro ⟨good, bad, more, parts, fails, each⟩
    exact ⟨good, bad, more, parts, each, fails⟩
  · rintro ⟨good, bad, more, parts, each, fails⟩
    exact ⟨good, bad, more, parts, fails, each⟩

end

end ScriptFlow
