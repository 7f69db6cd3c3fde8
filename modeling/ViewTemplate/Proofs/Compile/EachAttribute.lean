import Mathlib.Data.List.Forall2
import ViewTemplate.Proofs.Compile.Controllers

/-!
# Attributes one by one

The attributes of an element or of a root are compiled in order, each on its own, up to the first that fails.  So
there is a result exactly if there is one for each of them, and what the attributes give stands in their order.

* `surrogatesOf_eq_ok_iff` — the attributes of a root, one instruction each.
* `letBindings_eq_ok_iff` — the attributes of a `let` element, one binding each.
* `placeAttributes_eq_ok_iff` — the attributes of any other element, some instructions each.
* `controllers_eq_ok_iff` — the template controllers that attributes call for.
-/

namespace ViewTemplate

open ViewTemplate.Text ViewTemplate.Markup

/-- Two steps whose results are put together succeed when both do. -/
theorem bind_bind_eq_ok {ε α β γ : Type} {x : Except ε α} {y : Except ε β} {g : α → β → γ} {z : γ} :
    (do let a ← x; let b ← y; return g a b) = .ok z ↔ ∃ a b, x = .ok a ∧ y = .ok b ∧ z = g a b := by
  constructor
  · intro h
    obtain ⟨a, ha, h⟩ := bind_eq_ok.1 h
    obtain ⟨b, hb, h⟩ := bind_eq_ok.1 h
    exact ⟨a, b, ha, hb, (pure_eq_ok.1 h).symm⟩
  · rintro ⟨a, b, ha, hb, rfl⟩
    exact bind_eq_ok.2 ⟨a, ha, bind_eq_ok.2 ⟨b, hb, rfl⟩⟩

/-- The same where the second step goes through the rest of a list, and gives a result for each of its members. -/
theorem cons_eq_ok_iff {ε α β : Type} {R : α → β → Prop} {a : α} {as : List α} {x : Except ε β}
    {rest : Except ε (List β)} {bs : List β} (hx : ∀ b, x = .ok b ↔ R a b)
    (hrest : ∀ bs, rest = .ok bs ↔ List.Forall₂ R as bs) :
    (do let b ← x; let bs ← rest; return b :: bs) = .ok bs ↔ List.Forall₂ R (a :: as) bs := by
  rw [bind_bind_eq_ok, List.forall₂_cons_left_iff]
  simp only [hx, hrest]

/-- Every member of the first list has a partner in the second. -/
theorem exists_mem_of_forall₂ {α β : Type} {R : α → β → Prop} {as : List α} {bs : List β}
    (h : List.Forall₂ R as bs) : ∀ a ∈ as, ∃ b ∈ bs, R a b := by
  induction h with
  | nil => exact nofun
  | cons hab _ ih =>
    refine List.forall_mem_cons.2 ⟨⟨_, List.mem_cons_self, hab⟩, fun a ha => ?_⟩
    obtain ⟨b, hb, h⟩ := ih a ha
    exact ⟨b, List.mem_cons_of_mem _ hb, h⟩

namespace Compiler

variable {c : Compiler}

/-- The attributes of a root contribute one instruction each. -/
theorem surrogatesOf_eq_ok_iff {root : Tag} {as : List Attribute} {is : List Instruction} :
    c.surrogatesOf root as = .ok is ↔ List.Forall₂ (fun a i => c.surrogate root a = .ok i) as is := by
  induction as generalizing is with
  | nil =>
    rw [surrogatesOf, Except.ok.injEq, List.forall₂_nil_left_iff]
    exact eq_comm
  | cons a as ih => exact cons_eq_ok_iff (fun _ => Iff.rfl) fun _ => ih

/-- The attributes of a `let` element that are bound. -/
def boundAttributes (as : List Attribute) : List Attribute :=
  as.filter (·.name ≠ toViewModelName)

/-- The bound attributes of a `let` contribute one binding each. -/
theorem letBindings_eq_ok_iff {as : List Attribute} {is : List Instruction} :
    c.letBindings as = .ok is ↔ List.Forall₂ (fun a i => c.letBinding a = .ok i) (boundAttributes as) is := by
  induction as generalizing is with
  | nil =>
    rw [letBindings, Except.ok.injEq, boundAttributes, List.filter_nil, List.forall₂_nil_left_iff]
    exact eq_comm
  | cons a as ih =>
    unfold boundAttributes at ih ⊢
    by_cases hname : a.name = toViewModelName
    · rw [letBindings, if_pos hname, List.filter_cons_of_neg (by simpa using hname)]
      exact ih
    · rw [letBindings, if_neg hname, List.filter_cons_of_pos (by simpa using hname)]
      exact cons_eq_ok_iff (fun _ => Iff.rfl) fun _ => ih

/-- The instructions of several attributes, put together. -/
def Placed.joined (ps : List Placed) : Placed :=
  ⟨ps.flatMap Placed.inside, ps.flatMap Placed.beside⟩

/-- What attributes contribute is what each of them does, joined. -/
theorem placeAttributes_eq_ok_iff {tag : Tag} {custom : Option Resource} {as : List Attribute} {placed : Placed} :
    c.placeAttributes tag custom as = .ok placed ↔
      ∃ ps, List.Forall₂ (fun a p => c.placeAttribute tag custom a = .ok p) as ps ∧ placed = Placed.joined ps := by
  induction as generalizing placed with
  | nil =>
    rw [placeAttributes, Except.ok.injEq]
    constructor
    · rintro rfl
      exact ⟨[], .nil, rfl⟩
    · rintro ⟨_, ⟨⟩, rfl⟩
      rfl
  | cons a as ih =>
    rw [placeAttributes, bind_bind_eq_ok]
    constructor
    · rintro ⟨first, others, hfirst, hothers, rfl⟩
      obtain ⟨ps, hps, rfl⟩ := ih.1 hothers
      exact ⟨first :: ps, .cons hfirst hps, rfl⟩
    · rintro ⟨_, hps, rfl⟩
      obtain ⟨first, others, hfirst, hothers, rfl⟩ := List.forall₂_cons_left_iff.1 hps
      exact ⟨first, Placed.joined others, hfirst, ih.2 ⟨others, hothers, rfl⟩, rfl⟩

/-- That none of the attributes calls for a controller can be run. -/
theorem controller?_eq_none_of_all {as : List Attribute} (h : as.all (fun a => (c.controller? a).isNone) = true) :
    ∀ a ∈ as, c.controller? a = none :=
  fun a ha => Option.isNone_iff_eq_none.1 (List.all_eq_true.1 h a ha)

/-- The template controller of an attribute that calls for it. -/
def IsControllerOf (c : Compiler) (ar : Attribute × Resource) (k : Controller) : Prop :=
  k.resource = ar.2 ∧ c.customAttribute ar.2 ar.1.name ar.1.value = .ok k.instructions

/-- The attributes that are controllers give one each. -/
theorem controllers_eq_ok_iff {as : List Attribute} {ks : List Controller} :
    c.controllers as = .ok ks ↔ List.Forall₂ c.IsControllerOf (c.controllerAttributes as) ks := by
  induction as generalizing ks with
  | nil =>
    rw [controllers, Except.ok.injEq, controllerAttributes, List.filterMap_nil, List.forall₂_nil_left_iff]
    exact eq_comm
  | cons a as ih =>
    unfold controllerAttributes at ih ⊢
    rcases hr : c.controller? a with _ | r
    · rw [controllers, List.filterMap_cons_none (by rw [hr]; rfl)]
      simp only [hr]
      exact ih
    · rw [controllers, List.filterMap_cons_some (by rw [hr]; rfl)]
      simp only [hr]
      rw [bind_bind_eq_ok, List.forall₂_cons_left_iff]
      constructor
      · rintro ⟨is, others, his, hothers, rfl⟩
        exact ⟨⟨r, is⟩, others, ⟨rfl, his⟩, ih.1 hothers, rfl⟩
      · rintro ⟨⟨_, is⟩, others, ⟨rfl, his⟩, hothers, rfl⟩
        exact ⟨is, others, his, ih.2 hothers, rfl⟩

end Compiler

end ViewTemplate
