import Mathlib.Data.List.Perm.Basic
import ViewTemplate.Proofs.Compile.EachAttribute
import ViewTemplate.Proofs.Compile.Nesting
import ViewTemplate.Resource.Registry

/-!
# Attributes in another order

An element may be written with its attributes in any order.  Whether it is compiled does not depend on it: a
reference finds its target among all attributes, and controllers are taken off until none is left.  Without
controllers the group of the element is the same but for the order of the instructions, and so is all else that the
element gives.  An element that names itself twice, by two `as-element`, is the one that it names first.

* `Tag.Reordered` — two tags that differ in the order of their attributes alone.
* `SameInAnyOrder` — two groups that differ in the order of their instructions alone.
* `own_reordered`, `node_reordered` — what is made of an element without controllers, and of any element.
* `nodes_reordered_attributes` — the order of attributes decides the order of instructions and nothing else.
-/

namespace ViewTemplate

open ViewTemplate.Text ViewTemplate.Markup

/-- Where one member at most is looked for, the order of the list does not decide what is found. -/
theorem find?_eq_of_perm {α : Type} {p : α → Bool} {as bs : List α} (h : as.Perm bs) (hone : as.countP p ≤ 1) :
    as.find? p = bs.find? p := by
  have hfound := h.filter p
  rw [List.countP_eq_length_filter] at hone
  rw [← List.head?_filter, ← List.head?_filter]
  rcases hfirst : as.filter p with _ | ⟨a, _ | ⟨b, rest⟩⟩
  · rw [hfirst] at hfound
    rw [hfound.symm.eq_nil]
  · rw [hfirst] at hfound
    rw [hfound.symm.eq_singleton]
  · rw [hfirst] at hone
    simp at hone

/-! ### Tags -/

namespace Markup.Tag

/-- The tags are the same but for the order of their attributes. -/
structure Reordered (t u : Tag) : Prop where
  same : u = { t with attributes := u.attributes }
  attributes : t.attributes.Perm u.attributes

namespace Reordered

variable {t u : Tag}

/-- Tags that are reorderings of each other are so both ways. -/
theorem symm (h : t.Reordered u) : u.Reordered t := by
  obtain ⟨hsame, hattributes⟩ := h
  rw [hsame]
  exact ⟨rfl, hattributes.symm⟩

/-- A reordering has the same name. -/
theorem name_eq (h : t.Reordered u) : u.name = t.name := by
  rw [h.same]

/-- A reordering of a `template` is one. -/
theorem isTemplate_eq (h : t.Reordered u) : u.isTemplate = t.isTemplate := by
  rw [isTemplate, isTemplate, h.name_eq]

/-- To leave attributes out is to do so in the reordering. -/
theorem filter (h : t.Reordered u) (p : Attribute → Bool) :
    ({ t with attributes := t.attributes.filter p } : Tag).Reordered
      { u with attributes := u.attributes.filter p } := by
  obtain ⟨hsame, hattributes⟩ := h
  rw [hsame]
  exact ⟨rfl, hattributes.filter p⟩

end Reordered

end Markup.Tag

/-- The element names itself at most once. -/
def NamedOnce (tag : Tag) : Prop :=
  tag.attributes.countP (·.name = asElementName) ≤ 1

instance (tag : Tag) : Decidable (NamedOnce tag) :=
  inferInstanceAs (Decidable (_ ≤ _))

/-- Names that occur once do so in another order. -/
theorem NamedOnce.reordered {t u : Tag} (h : NamedOnce t) (htu : t.Reordered u) : NamedOnce u := by
  unfold NamedOnce
  rw [← htu.attributes.countP_eq]
  exact h

/-! ### Groups -/

/-- The groups are the same but for the order of their instructions: on a custom element of those inside the one
that creates it and of those beside it, and on a `let` element of the bindings. -/
inductive SameInAnyOrder : List Instruction → List Instruction → Prop where
  | plain {is is' : List Instruction} : (∀ i ∈ is, i.isBeside = true) → is.Perm is' → SameInAnyOrder is is'
  | custom {resource : String} {inside inside' beside beside' : List Instruction}
      {parts : List (String × Definition)} : inside.Perm inside' → beside.Perm beside' →
      SameInAnyOrder (.hydrateElement resource inside parts :: beside)
        (.hydrateElement resource inside' parts :: beside')
  | letElement {is is' : List Instruction} {toViewModel : Bool} : is.Perm is' →
      SameInAnyOrder [.hydrateLetElement is toViewModel] [.hydrateLetElement is' toViewModel]

namespace Compiler

variable {c : Compiler} {tag tag' : Tag}

/-- Which custom element a tag is does not depend on the order, as `as-element` occurs once. -/
theorem customElement?_reordered (h : tag.Reordered tag') (hone : NamedOnce tag) :
    c.customElement? tag' = c.customElement? tag := by
  have hattribute : tag'.attribute? asElementName = tag.attribute? asElementName :=
    (find?_eq_of_perm h.attributes hone).symm
  rw [customElement?, customElement?, Tag.value?, Tag.value?, hattribute, h.name_eq]

/-- A reference looks at all attributes of its element. -/
theorem ref_reordered {as bs : List Attribute} (h : as.Perm bs) (custom : Option Resource) (name value : String) :
    c.ref bs custom name value = c.ref as custom name value := by
  have htarget : hasTarget bs = hasTarget as := by
    funext target
    exact h.symm.any_eq
  simp only [ref, refTarget, htarget]

/-- What an attribute contributes does not depend on the order of the others. -/
theorem placeAttribute_reordered (h : tag.Reordered tag') (custom : Option Resource) (a : Attribute) :
    c.placeAttribute tag' custom a = c.placeAttribute tag custom a := by
  simp only [placeAttribute, ref_reordered h.attributes]

/-- Reordered attributes contribute the same, in another order. -/
theorem placeAttributes_reordered (h : tag.Reordered tag') {custom : Option Resource} {placed : Placed}
    (hplaced : c.placeAttributes tag custom tag.attributes = .ok placed) :
    ∃ placed', c.placeAttributes tag' custom tag'.attributes = .ok placed' ∧
      placed.inside.Perm placed'.inside ∧ placed.beside.Perm placed'.beside := by
  obtain ⟨ps, hps, rfl⟩ := placeAttributes_eq_ok_iff.1 hplaced
  obtain ⟨ps', hps', hperm⟩ := List.perm_comp_forall₂ h.attributes.symm hps
  refine ⟨Placed.joined ps', placeAttributes_eq_ok_iff.2 ⟨ps', ?_, rfl⟩, ?_, ?_⟩
  · simpa only [placeAttribute_reordered h] using hps'
  · exact hperm.symm.flatMap_right _
  · exact hperm.symm.flatMap_right _

/-- Reordered attributes give the same group, in another order. -/
theorem elementGroup_reordered (h : tag.Reordered tag') {custom : Option Resource}
    {parts : List (String × Definition)} {group : List Instruction}
    (hgroup : c.elementGroup tag custom parts = .ok group) :
    ∃ group', c.elementGroup tag' custom parts = .ok group' ∧ SameInAnyOrder group group' := by
  obtain ⟨placed, hplaced, hgroup⟩ := bind_eq_ok.1 hgroup
  obtain ⟨placed', hplaced', hinside, hbeside⟩ := placeAttributes_reordered h hplaced
  refine ⟨_, bind_eq_ok.2 ⟨placed', hplaced', rfl⟩, ?_⟩
  rw [← pure_eq_ok.1 hgroup]
  cases custom with
  | none => exact .plain (placeAttributes_eq_ok _ hplaced).2 hbeside
  | some r => exact .custom hinside hbeside

/-- Reordered attributes of a `let` give the same group, in another order. -/
theorem letGroup_reordered (h : tag.Reordered tag') {group : List Instruction} (hgroup : c.letGroup tag = .ok group) :
    ∃ group', c.letGroup tag' = .ok group' ∧ SameInAnyOrder group group' := by
  obtain ⟨is, his, hgroup⟩ := bind_eq_ok.1 hgroup
  have hbound : (boundAttributes tag'.attributes).Perm (boundAttributes tag.attributes) :=
    h.attributes.symm.filter _
  obtain ⟨is', his', hperm⟩ := List.perm_comp_forall₂ hbound (letBindings_eq_ok_iff.1 his)
  refine ⟨_, bind_eq_ok.2 ⟨is', letBindings_eq_ok_iff.2 his', rfl⟩, ?_⟩
  rw [← pure_eq_ok.1 hgroup, h.attributes.symm.any_eq]
  exact .letElement hperm.symm

/-! ### Elements -/

/-- An element without controllers gives the same in another order of its attributes, but for its group. -/
theorem own_reordered (h : tag.Reordered tag') (hone : NamedOnce tag) {children : List Node} {o : Output}
    (ho : c.own tag children = .ok o) :
    ∃ group group' content, SameInAnyOrder group group' ∧ o = c.hosting tag group content ∧
      c.own tag' children = .ok (c.hosting tag' group' content) := by
  have hcustom' := customElement?_reordered (c := c) h hone
  cases own_eq_ok_iff.1 ho with
  | letElement hlet hgroup =>
    obtain ⟨group', hgroup', hsame⟩ := letGroup_reordered h hgroup
    refine ⟨_, group', _, hsame, rfl, own_eq_ok_iff.2 (.letElement ?_ hgroup')⟩
    rw [h.name_eq, hlet]
  | plain hlet hcustom hgroup hcontent =>
    obtain ⟨group', hgroup', hsame⟩ := elementGroup_reordered h hgroup
    refine ⟨_, group', _, hsame, rfl, own_eq_ok_iff.2 (.plain ?_ ?_ hgroup' hcontent)⟩
    · rwa [h.name_eq]
    · rw [hcustom', hcustom]
  | custom hlet hcustom hparts hgroup hcontent =>
    obtain ⟨group', hgroup', hsame⟩ := elementGroup_reordered h hgroup
    refine ⟨_, group', _, hsame, rfl, own_eq_ok_iff.2 (.custom ?_ ?_ hparts hgroup' hcontent)⟩
    · rwa [h.name_eq]
    · rw [hcustom', hcustom]

/-- To take off controllers is to do so in the reordering. -/
theorem hostTag_reordered (h : tag.Reordered tag') : (c.hostTag tag).Reordered (c.hostTag tag') :=
  h.filter _

/-- Names that occur once do so when controllers have been taken off. -/
theorem namedOnce_hostTag (h : NamedOnce tag) : NamedOnce (c.hostTag tag) :=
  Nat.le_trans List.filter_sublist.countP_le h

/-- Controllers are taken off in the order of the attributes, and all of them are. -/
theorem controllers_reordered (h : tag.Reordered tag') {ks : List Controller}
    (hks : c.controllers tag.attributes = .ok ks) :
    ∃ ks', c.controllers tag'.attributes = .ok ks' ∧ ks.Perm ks' := by
  have hcontrollers : (c.controllerAttributes tag'.attributes).Perm (c.controllerAttributes tag.attributes) :=
    h.attributes.symm.filterMap _
  obtain ⟨ks', hks', hperm⟩ := List.perm_comp_forall₂ hcontrollers (controllers_eq_ok_iff.1 hks)
  exact ⟨ks', controllers_eq_ok_iff.2 hks', hperm.symm⟩

/-- Whether a `template` is bare does not depend on the order. -/
theorem isBare_reordered (h : tag.Reordered tag') {ks ks' : List Controller} (hks : ks.Perm ks') :
    c.IsBare tag' ks' ↔ c.IsBare tag ks := by
  have hhost := hostTag_reordered (c := c) h
  have hne : ks' = [] ↔ ks = [] := by rw [← List.length_eq_zero_iff, ← hks.length_eq, List.length_eq_zero_iff]
  have hempty : (c.hostTag tag').attributes = [] ↔ (c.hostTag tag).attributes = [] := by
    rw [← List.length_eq_zero_iff, ← hhost.attributes.length_eq, List.length_eq_zero_iff]
  rw [IsBare, IsBare, hhost.isTemplate_eq, hempty, ne_eq, hne]

/-- An element that is compiled is compiled in any other order of its attributes. -/
theorem node_reordered (h : tag.Reordered tag') (hone : NamedOnce tag) {children : List Node} {o : Output}
    (ho : c.node (.element tag children) = .ok o) : ∃ o', c.node (.element tag' children) = .ok o' := by
  cases node_element_eq_ok_iff.1 ho with
  | bare hks hbare hcontent =>
    obtain ⟨ks', hks', hperm⟩ := controllers_reordered h hks
    exact ⟨_, node_element_eq_ok_iff.2 (.bare hks' ((isBare_reordered h hperm).2 hbare) hcontent)⟩
  | wrapped hks hbare hown =>
    obtain ⟨ks', hks', hperm⟩ := controllers_reordered h hks
    obtain ⟨_, _, _, -, -, hown'⟩ := own_reordered (hostTag_reordered h) (namedOnce_hostTag hone)
      (own_eq_ok_iff.2 hown)
    have hbare' : ¬ c.IsBare tag' ks' := mt (isBare_reordered h hperm).1 hbare
    exact ⟨_, node_element_eq_ok_iff.2 (.wrapped hks' hbare' (own_eq_ok_iff.1 hown'))⟩

/-- The order of the attributes of an element does not decide whether it is compiled.  Without controllers it
decides nothing but the order of the instructions in the group of the element. -/
theorem nodes_reordered_attributes (h : tag.Reordered tag') (hone : NamedOnce tag) (children : List Node) :
    ((∃ o, c.nodes [.element tag children] = .ok o) ↔ ∃ o, c.nodes [.element tag' children] = .ok o) ∧
    ((∀ a ∈ tag.attributes, c.controller? a = none) → ∀ o o', c.nodes [.element tag children] = .ok o →
      c.nodes [.element tag' children] = .ok o' →
      ∃ group group' content, SameInAnyOrder group group' ∧ o = c.hosting tag group content ∧
        o' = c.hosting tag' group' content) := by
  simp only [nodes_singleton]
  refine ⟨⟨?_, ?_⟩, fun hnone o o' ho ho' => ?_⟩
  · rintro ⟨o, ho⟩
    exact node_reordered h hone ho
  · rintro ⟨o, ho⟩
    exact node_reordered h.symm (hone.reordered h) ho
  · have hnone' : ∀ a ∈ tag'.attributes, c.controller? a = none :=
      fun a ha => hnone a (h.attributes.mem_iff.2 ha)
    rw [node_eq_own hnone] at ho
    rw [node_eq_own hnone'] at ho'
    obtain ⟨group, group', content, hsame, heq, hown'⟩ := own_reordered h hone ho
    exact ⟨group, group', content, hsame, heq, Except.ok.inj (ho'.symm.trans hown')⟩

/-- A custom element with a property, and a custom attribute. -/
def inputResources : List Resource :=
  [(Resource.customElement "field").withBindable (.ofProperty "text"), .customAttribute "focus"]

/-- An element that is a custom element by another name, with a property of it, a custom attribute, and a reference to
either, one before and one after what it refers to. -/
def inputTag : Tag :=
  { name := "input",
    attributes := [⟨"focus.ref", "f", {}, none⟩, ⟨"title", "$\x7bt\x7d", {}, none⟩, ⟨"focus", "y", {}, none⟩,
      ⟨"text.bind", "z", {}, none⟩, ⟨"as-element", "field", {}, none⟩, ⟨"view-model.ref", "vm", {}, none⟩] }

/-- The same element with its attributes the other way round. -/
def reversedInputTag : Tag :=
  { inputTag with attributes := inputTag.attributes.reverse }

/-- The theorem at a custom element by another name with two references, and at its attributes the other way round. -/
theorem nodes_reordered_attributes_inputTag :
    inputTag.Reordered reversedInputTag ∧ NamedOnce inputTag ∧
    ∃ o o', ({ resources := (Registry.empty.registerAll inputResources).resolver } : Compiler).nodes
        [.element inputTag []] = .ok o ∧
      ({ resources := (Registry.empty.registerAll inputResources).resolver } : Compiler).nodes
        [.element reversedInputTag []] = .ok o' ∧
      o.groups.map List.length = [5] ∧
      ∃ group group' content, SameInAnyOrder group group' ∧
        o = hosting { resources := (Registry.empty.registerAll inputResources).resolver } inputTag group content ∧
        o' = hosting { resources := (Registry.empty.registerAll inputResources).resolver } reversedInputTag group'
          content := by
  have hreordered : inputTag.Reordered reversedInputTag := ⟨rfl, (List.reverse_perm _).symm⟩
  have hone : NamedOnce inputTag := by decide
  have hnone : ∀ a ∈ inputTag.attributes,
      controller? { resources := (Registry.empty.registerAll inputResources).resolver } a = none :=
    controller?_eq_none_of_all (by decide +kernel)
  obtain ⟨o, ho, hlength⟩ := exists_eq_ok (f := fun o : Output => o.groups.map List.length) (b := [5])
    (x := ({ resources := (Registry.empty.registerAll inputResources).resolver } : Compiler).nodes
      [.element inputTag []]) (by decide +kernel)
  obtain ⟨hiff, hsame⟩ := nodes_reordered_attributes
    (c := { resources := (Registry.empty.registerAll inputResources).resolver }) hreordered hone []
  obtain ⟨o', ho'⟩ := hiff.1 ⟨o, ho⟩
  exact ⟨hreordered, hone, o, o', ho, ho', hlength, hsame hnone o o' ho ho'⟩

end Compiler

end ViewTemplate
