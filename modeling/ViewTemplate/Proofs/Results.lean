/-!
# Steps that may fail

When a chain of steps that may fail gives a result: every step of it does.  Inversion goes through these
statements, one for each way in which steps are put together.
-/

namespace ViewTemplate

/-- A step after another succeeds when both do. -/
theorem bind_eq_ok {ε α β : Type} {x : Except ε α} {f : α → Except ε β} {b : β} :
    x >>= f = .ok b ↔ ∃ a, x = .ok a ∧ f a = .ok b := by
  cases x with
  | error e =>
    constructor
    · intro h
      cases h
    · rintro ⟨a, h, _⟩
      cases h
  | ok a =>
    constructor
    · intro h
      exact ⟨a, rfl, h⟩
    · rintro ⟨a, h, hb⟩
      cases h
      exact hb

/-- A result that is only returned. -/
theorem pure_eq_ok {ε α : Type} {a b : α} : (pure a : Except ε α) = .ok b ↔ a = b :=
  ⟨fun h => by cases h; rfl, fun h => by rw [h]; rfl⟩

/-- A result is changed where there is one. -/
theorem map_eq_ok {ε α β : Type} {f : α → β} {x : Except ε α} {b : β} :
    x.map f = .ok b ↔ ∃ a, x = .ok a ∧ f a = b := by
  cases x <;> simp [Except.map]

/-- Another error changes no result. -/
theorem mapError_eq_ok {ε ε' α : Type} {f : ε → ε'} {x : Except ε α} {a : α} :
    x.mapError f = .ok a ↔ x = .ok a := by
  constructor
  · intro h
    cases x with
    | error e => cases h
    | ok b =>
      cases h
      rfl
  · rintro rfl
    rfl

/-- Two results that look the same are there together, or fail with one error. -/
theorem map_eq_map_iff {ε α β γ : Type} {f : α → γ} {g : β → γ} {x : Except ε α} {y : Except ε β} :
    x.map f = y.map g ↔ (∃ e, x = .error e ∧ y = .error e) ∨ ∃ a b, x = .ok a ∧ y = .ok b ∧ f a = g b := by
  cases x <;> cases y <;> simp [Except.map, eq_comm]

/-- Steps that look the same after steps that look the same. -/
theorem map_bind_eq_map_bind {ε α β α' β' γ δ : Type} {f : α → γ} {g : β → γ} {f' : α' → δ} {g' : β' → δ}
    {x : Except ε α} {y : Except ε β} {k : α → Except ε α'} {l : β → Except ε β'} (h : x.map f = y.map g)
    (hsteps : ∀ a b, f a = g b → (k a).map f' = (l b).map g') : (x >>= k).map f' = (y >>= l).map g' := by
  rcases map_eq_map_iff.1 h with ⟨e, rfl, rfl⟩ | ⟨a, b, rfl, rfl, hab⟩
  · rfl
  · exact hsteps a b hab

/-- Steps that agree under two maps do so behind the same computation. -/
theorem map_bind_congr {ε α α' β' δ : Type} {f' : α' → δ} {g' : β' → δ} {x : Except ε α} {k : α → Except ε α'}
    {l : α → Except ε β'} (hsteps : ∀ a, (k a).map f' = (l a).map g') : (x >>= k).map f' = (x >>= l).map g' := by
  cases x with
  | error e => rfl
  | ok a => exact hsteps a

/-- A result is there exactly if the computation succeeded. -/
theorem toOption_eq_some {ε α : Type} {x : Except ε α} {a : α} : x.toOption = some a ↔ x = .ok a := by
  cases x <;> simp [Except.toOption]

/-- Another error changes nothing of what is there. -/
theorem toOption_mapError {ε ε' α : Type} (f : ε → ε') (x : Except ε α) : (x.mapError f).toOption = x.toOption := by
  cases x <;> rfl

/-- A result that can be looked at is one. -/
theorem exists_eq_ok {ε α β : Type} {x : Except ε α} {f : α → β} {b : β}
    (h : x.toOption.map f = some b) : ∃ a, x = .ok a ∧ f a = b := by
  cases x with
  | error e => cases h
  | ok a => exact ⟨a, rfl, Option.some.inj h⟩

end ViewTemplate
