import ViewTemplate.Proofs.Compile.Rules

/-!
# What groups are made of

The instructions that attributes give are of few kinds, and none of them holds a definition.  Definitions
come into a group by template controllers and by the parts of custom elements alone.

* `Instruction.isBinding`, `Instruction.isBeside` — the instructions of a property, and of an attribute of
  an element.
* `elementGroup_eq_ok` — the shape of an element's group.
* `Instruction.Holds`, `Definition.Within` — which definitions an instruction holds, and which are nested in
  a definition at any depth.
-/

namespace ViewTemplate

open ViewTemplate.Text ViewTemplate.Markup

namespace Instruction

/-- Whether the instruction binds or sets one property. -/
def isBinding : Instruction → Bool
  | .setProperty .. | .propertyBinding .. | .interpolation .. | .listenerBinding .. | .callBinding ..
  | .iteratorBinding .. => true
  | _ => false

/-- Whether the instruction is one that an attribute gives for its element: a binding, a reference, or a
custom attribute with bindings. -/
def isBeside : Instruction → Bool
  | .hydrateAttribute _ is => is.all isBinding
  | .refBinding .. => true
  | i => i.isBinding

/-- A binding may stand beside other instructions. -/
theorem isBeside_of_isBinding {i : Instruction} (h : i.isBinding = true) : i.isBeside = true := by
  cases i <;> simp_all [isBinding, isBeside]

end Instruction

/-! ### The instructions of attributes -/

/-- What a command gives is a binding. -/
theorem Command.isBinding_instruction {command : Command} {reader : ExpressionReader}
    {property value : String} {mode : BindingMode} {i : Instruction}
    (h : command.instruction reader property mode value = .ok i) : i.isBinding = true := by
  cases command <;>
  · simp only [Command.instruction] at h
    obtain ⟨e, _, h⟩ := bind_eq_ok.1 h
    cases pure_eq_ok.1 h
    rfl

/-- What an attribute is classified as is a binding. -/
theorem isBinding_classify {reader : ExpressionReader} {name value : String} {target : Option BindTarget}
    {isOption : Bool} {i : Instruction} (h : classify reader name value target isOption = .ok (some i)) :
    i.isBinding = true := by
  simp only [classify] at h
  split at h
  · obtain ⟨j, hj, h⟩ := bind_eq_ok.1 h
    cases pure_eq_ok.1 h
    exact Command.isBinding_instruction hj
  · obtain ⟨e, _, h⟩ := bind_eq_ok.1 h
    cases e with
    | some e =>
      cases pure_eq_ok.1 h
      rfl
    | none =>
      have h := pure_eq_ok.1 h
      split at h
      · cases h
        rfl
      · cases h

namespace Compiler

variable {c : Compiler}

/-- What options give are bindings. -/
theorem isBinding_options {r : Resource} : (options : List (String × String)) →
    ∀ {is : List Instruction}, c.options r options = .ok is → ∀ i ∈ is, i.isBinding = true
  | [], is, h, i, hi => by
    cases h
    exact absurd hi List.not_mem_nil
  | (name, value) :: rest, is, h, i, hi => by
    simp only [options] at h
    split at h
    · cases h
    · obtain ⟨first, hfirst, h⟩ := bind_eq_ok.1 h
      obtain ⟨others, hothers, h⟩ := bind_eq_ok.1 h
      cases pure_eq_ok.1 h
      rcases List.mem_append.1 hi with hi | hi
      · rw [Option.mem_toList] at hi
        exact isBinding_classify (hi ▸ hfirst)
      · exact isBinding_options rest hothers i hi

/-- A custom attribute gives bindings only. -/
theorem isBinding_customAttribute {r : Resource} {name value : String} {is : List Instruction}
    (h : c.customAttribute r name value = .ok is) : ∀ i ∈ is, i.isBinding = true := by
  unfold customAttribute at h
  split at h
  · obtain ⟨options, _, h⟩ := bind_eq_ok.1 h
    exact isBinding_options options h
  · obtain ⟨first, hfirst, h⟩ := bind_eq_ok.1 h
    cases pure_eq_ok.1 h
    intro i hi
    rw [Option.mem_toList] at hi
    exact isBinding_classify (hi ▸ hfirst)

/-- A reference gives a reference to something. -/
theorem ref_eq_ok {attributes : List Attribute} {custom : Option Resource} {name value : String}
    {i : Instruction} (h : c.ref attributes custom name value = .ok i) :
    ∃ e target, i = .refBinding e target := by
  obtain ⟨target, _, h⟩ := bind_eq_ok.1 h
  obtain ⟨e, _, h⟩ := bind_eq_ok.1 h
  exact ⟨e, target, (pure_eq_ok.1 h).symm⟩

/-- The instructions of one attribute, inside and beside the one that creates a custom element. -/
theorem placeAttribute_eq_ok {tag : Tag} {custom : Option Resource} {a : Attribute} {placed : Placed}
    (h : c.placeAttribute tag custom a = .ok placed) :
    (∀ i ∈ placed.inside, i.isBinding = true) ∧ (∀ i ∈ placed.beside, i.isBeside = true) := by
  unfold placeAttribute at h
  split at h
  · cases h
    simp
  · split at h
    · obtain ⟨i, hi, h⟩ := bind_eq_ok.1 h
      cases pure_eq_ok.1 h
      obtain ⟨e, target, rfl⟩ := ref_eq_ok hi
      simp [Instruction.isBeside]
    · split at h
      · obtain ⟨is, his, h⟩ := bind_eq_ok.1 h
        cases pure_eq_ok.1 h
        have hall := isBinding_customAttribute his
        simpa [Instruction.isBeside] using hall
      · split at h
        · obtain ⟨i, hi, h⟩ := bind_eq_ok.1 h
          cases pure_eq_ok.1 h
          refine ⟨fun j hj => ?_, by simp⟩
          exact isBinding_classify (Option.mem_toList.1 hj ▸ hi)
        · obtain ⟨i, hi, h⟩ := bind_eq_ok.1 h
          cases pure_eq_ok.1 h
          refine ⟨by simp, fun j hj => ?_⟩
          exact Instruction.isBeside_of_isBinding (isBinding_classify (Option.mem_toList.1 hj ▸ hi))

/-- What attributes contribute inside is bindings, and beside nothing that holds a definition. -/
theorem placeAttributes_eq_ok {tag : Tag} {custom : Option Resource} : (as : List Attribute) →
    ∀ {placed : Placed}, c.placeAttributes tag custom as = .ok placed →
    (∀ i ∈ placed.inside, i.isBinding = true) ∧ (∀ i ∈ placed.beside, i.isBeside = true)
  | [], placed, h => by
    cases h
    simp
  | a :: as, placed, h => by
    obtain ⟨first, hfirst, h⟩ := bind_eq_ok.1 h
    obtain ⟨others, hothers, h⟩ := bind_eq_ok.1 h
    cases pure_eq_ok.1 h
    have h₁ := placeAttribute_eq_ok hfirst
    have h₂ := placeAttributes_eq_ok as hothers
    refine ⟨fun i hi => ?_, fun i hi => ?_⟩
    · exact (List.mem_append.1 hi).elim (h₁.1 i) (h₂.1 i)
    · exact (List.mem_append.1 hi).elim (h₁.2 i) (h₂.2 i)

/-- The group of an element: on a custom element first the instruction that creates it, with bindings
inside, and then the instructions of attributes. -/
theorem elementGroup_eq_ok {tag : Tag} {custom : Option Resource} {parts : List (String × Definition)}
    {group : List Instruction} (h : c.elementGroup tag custom parts = .ok group) :
    ∃ inside beside, (∀ i ∈ inside, i.isBinding = true) ∧ (∀ i ∈ beside, i.isBeside = true) ∧
      group = (custom.map fun r => .hydrateElement r.name inside parts).toList ++ beside := by
  obtain ⟨placed, hplaced, h⟩ := bind_eq_ok.1 h
  obtain ⟨hinside, hbeside⟩ := placeAttributes_eq_ok _ hplaced
  refine ⟨placed.inside, placed.beside, hinside, hbeside, ?_⟩
  rw [← pure_eq_ok.1 h]
  cases custom <;> rfl

/-- An attribute of a `let` gives a binding of a `let`. -/
theorem letBinding_eq_ok {a : Attribute} {i : Instruction} (h : c.letBinding a = .ok i) :
    ∃ property e, i = .letBinding property e := by
  unfold letBinding at h
  generalize splitCommand a.name = cut at h
  obtain ⟨target, _ | suffix⟩ := cut
  · obtain ⟨e, _, h⟩ := bind_eq_ok.1 h
    exact ⟨_, _, (pure_eq_ok.1 h).symm⟩
  · obtain ⟨e, _, h⟩ := bind_eq_ok.1 h
    exact ⟨_, _, (pure_eq_ok.1 h).symm⟩

/-- The attributes of a `let` give nothing but bindings of a `let`. -/
theorem letBindings_eq_ok : (as : List Attribute) → ∀ {is : List Instruction},
    c.letBindings as = .ok is → ∀ i ∈ is, ∃ property e, i = .letBinding property e
  | [], is, h, i, hi => by
    cases h
    exact absurd hi List.not_mem_nil
  | a :: as, is, h, i, hi => by
    simp only [letBindings] at h
    split at h
    · exact letBindings_eq_ok as h i hi
    · obtain ⟨first, hfirst, h⟩ := bind_eq_ok.1 h
      obtain ⟨others, hothers, h⟩ := bind_eq_ok.1 h
      cases pure_eq_ok.1 h
      rcases List.mem_cons.1 hi with rfl | hi
      · exact letBinding_eq_ok hfirst
      · exact letBindings_eq_ok as hothers i hi

/-- The group of a `let` element is one instruction with the bindings inside. -/
theorem letGroup_eq_ok {tag : Tag} {group : List Instruction} (h : c.letGroup tag = .ok group) :
    ∃ is toViewModel, group = [.hydrateLetElement is toViewModel] ∧
      ∀ i ∈ is, ∃ property e, i = .letBinding property e := by
  obtain ⟨is, his, h⟩ := bind_eq_ok.1 h
  exact ⟨is, _, (pure_eq_ok.1 h).symm, letBindings_eq_ok _ his⟩

/-- What an attribute of the root contributes holds no definition. -/
theorem isBeside_surrogate {root : Tag} {a : Attribute} {i : Instruction}
    (h : c.surrogate root a = .ok i) : i.isBeside = true := by
  unfold surrogate at h
  split at h
  · cases h
  · split at h
    · obtain ⟨e, target, rfl⟩ := ref_eq_ok h
      rfl
    · split at h
      · split at h
        · cases h
        · obtain ⟨is, his, h⟩ := bind_eq_ok.1 h
          cases pure_eq_ok.1 h
          simpa [Instruction.isBeside] using isBinding_customAttribute his
      · obtain ⟨j, hj, h⟩ := bind_eq_ok.1 h
        cases pure_eq_ok.1 h
        cases j with
        | none => rfl
        | some j => exact Instruction.isBeside_of_isBinding (isBinding_classify hj)

/-- The surrogates are instructions of attributes. -/
theorem isBeside_surrogates {root : Tag} : (as : List Attribute) → ∀ {is : List Instruction},
    c.surrogatesOf root as = .ok is → ∀ i ∈ is, i.isBeside = true
  | [], is, h, i, hi => by
    cases h
    exact absurd hi List.not_mem_nil
  | a :: as, is, h, i, hi => by
    obtain ⟨first, hfirst, h⟩ := bind_eq_ok.1 h
    obtain ⟨others, hothers, h⟩ := bind_eq_ok.1 h
    cases pure_eq_ok.1 h
    rcases List.mem_cons.1 hi with rfl | hi
    · exact isBeside_surrogate hfirst
    · exact isBeside_surrogates as hothers i hi

end Compiler

/-! ### Nested definitions -/

/-- The instruction, or one inside it, holds the definition. -/
inductive Instruction.Holds : Instruction → Definition → Prop where
  | controller {res : String} {d : Definition} {is : List Instruction} {link : Bool} :
      Holds (.hydrateTemplateController res d is link) d
  | part {res name : String} {d : Definition} {is : List Instruction}
      {parts : List (String × Definition)} : (name, d) ∈ parts → Holds (.hydrateElement res is parts) d
  | inner {i j : Instruction} {d : Definition} : j ∈ i.inner → Holds j d → Holds i d

namespace Instruction

/-- A binding holds no definition. -/
theorem not_holds_of_isBinding {i : Instruction} {d : Definition} (h : i.isBinding = true) :
    ¬ i.Holds d := by
  intro hd
  cases hd with
  | controller => cases h
  | part => cases h
  | inner hj => cases i <;> simp_all [isBinding, Instruction.inner]

/-- No instruction of an attribute holds a definition. -/
theorem not_holds_of_isBeside {i : Instruction} {d : Definition} (h : i.isBeside = true) :
    ¬ i.Holds d := by
  intro hd
  cases hd with
  | controller => cases h
  | part => cases h
  | inner hj hd =>
    cases i with
    | hydrateAttribute res is =>
      simp only [isBeside, List.all_eq_true] at h
      exact not_holds_of_isBinding (h _ hj) hd
    | _ => simp_all [isBeside, isBinding, Instruction.inner]

/-- A controller with bindings holds its own definition only. -/
theorem holds_controller_iff {res : String} {d d' : Definition} {is : List Instruction} {link : Bool}
    (h : ∀ i ∈ is, i.isBinding = true) :
    (hydrateTemplateController res d is link).Holds d' ↔ d' = d := by
  constructor
  · intro hd
    cases hd with
    | controller => rfl
    | inner hj hd => exact absurd hd (not_holds_of_isBinding (h _ hj))
  · rintro rfl
    exact .controller

/-- A custom element with bindings holds its parts only. -/
theorem holds_element_iff {res : String} {d : Definition} {is : List Instruction}
    {parts : List (String × Definition)} (h : ∀ i ∈ is, i.isBinding = true) :
    (hydrateElement res is parts).Holds d ↔ ∃ name, (name, d) ∈ parts := by
  constructor
  · intro hd
    cases hd with
    | part hmem => exact ⟨_, hmem⟩
    | inner hj hd => exact absurd hd (not_holds_of_isBinding (h _ hj))
  · rintro ⟨name, hmem⟩
    exact .part hmem

end Instruction

/-- The definition is the other one, or is nested in it at some depth. -/
inductive Definition.Within : Definition → Definition → Prop where
  | refl {d : Definition} : Within d d
  | group {d d' d'' : Definition} {group : List Instruction} {i : Instruction} : group ∈ d.groups →
      i ∈ group → i.Holds d' → Within d'' d' → Within d'' d
  | surrogate {d d' d'' : Definition} {i : Instruction} : i ∈ d.surrogates → i.Holds d' →
      Within d'' d' → Within d'' d

/-- The definition, and every one that is nested in it, is of the given kind. -/
def Definition.Everywhere (P : Definition → Prop) (d : Definition) : Prop :=
  ∀ d' : Definition, d'.Within d → P d'

/-- What holds of a definition and of all that its instructions hold, holds everywhere in it. -/
theorem Definition.everywhere_of_held {P : Definition → Prop} {d : Definition} (hself : P d)
    (hgroups : ∀ group ∈ d.groups, ∀ i ∈ group, ∀ d', i.Holds d' → d'.Everywhere P)
    (hsurrogates : ∀ i ∈ d.surrogates, i.isBeside = true) : d.Everywhere P := by
  intro d' hwithin
  cases hwithin with
  | refl => exact hself
  | group hgroup hi hholds hrest => exact hgroups _ hgroup _ hi _ hholds _ hrest
  | surrogate hi hholds =>
    exact absurd hholds (Instruction.not_holds_of_isBeside (hsurrogates _ hi))

namespace Compiler

variable {c : Compiler}

/-- The definitions that the group of an element holds are its parts. -/
theorem holds_elementGroup {tag : Tag} {custom : Option Resource} {parts : List (String × Definition)}
    {group : List Instruction} (h : c.elementGroup tag custom parts = .ok group) {i : Instruction}
    (hi : i ∈ group) {d : Definition} (hd : i.Holds d) : ∃ name, (name, d) ∈ parts := by
  obtain ⟨inside, beside, hinside, hbeside, rfl⟩ := elementGroup_eq_ok h
  rcases List.mem_append.1 hi with hi | hi
  · cases custom with
    | none => simp at hi
    | some r =>
      simp only [Option.map_some, Option.toList_some, List.mem_singleton] at hi
      subst hi
      exact (Instruction.holds_element_iff hinside).1 hd
  · exact absurd hd (Instruction.not_holds_of_isBeside (hbeside i hi))

/-- The group of a `let` element holds no definition. -/
theorem not_holds_letGroup {tag : Tag} {group : List Instruction} (h : c.letGroup tag = .ok group)
    {i : Instruction} (hi : i ∈ group) {d : Definition} : ¬ i.Holds d := by
  obtain ⟨is, toViewModel, rfl, his⟩ := letGroup_eq_ok h
  rw [List.mem_singleton] at hi
  subst hi
  intro hd
  cases hd with
  | inner hj hd =>
    obtain ⟨property, e, rfl⟩ := his _ hj
    cases hd with
    | inner hk => exact absurd hk List.not_mem_nil

/-- The group of a controller holds the definition that the controller was given. -/
theorem held_control {P : Definition → Prop} {k : Controller} {d : Definition}
    (hk : ∀ i ∈ k.instructions, i.isBinding = true) (hd : d.Everywhere P) :
    ∀ group ∈ (c.control k d).groups, ∀ i ∈ group, ∀ d', i.Holds d' → d'.Everywhere P := by
  intro group hgroup i hi d' hd'
  simp only [control, List.mem_singleton] at hgroup
  rw [hgroup, List.mem_singleton] at hi
  rw [hi, Controller.instruction, Instruction.holds_controller_iff hk] at hd'
  exact hd' ▸ hd

/-- What holds of the definition of every controller, and everywhere in a definition, holds everywhere once the
definition is nested in controllers. -/
theorem everywhere_nest {P : Definition → Prop}
    (hcontrol : ∀ k d, P ((c.control k d).definition templateTag)) {d : Definition} (hd : d.Everywhere P) :
    (ks : List Controller) → (∀ k ∈ ks, ∀ i ∈ k.instructions, i.isBinding = true) →
      (c.nest ks d).Everywhere P
  | [], _ => hd
  | k :: ks, hks => by
    obtain ⟨hk, hks⟩ := List.forall_mem_cons.1 hks
    have ih := everywhere_nest hcontrol hd ks hks
    exact Definition.everywhere_of_held (hcontrol k _) (held_control (c := c) hk ih) nofun

end Compiler

end ViewTemplate
