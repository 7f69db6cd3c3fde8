import ViewTemplate.Proofs.Compile.Nesting

/-!
# Where instructions come from

Every instruction in a compiled template was made at one of few places: for a text, for an attribute of an
element or of the root, for a `let` element, or for a template controller.  The rules of this module say which,
and with what at hand; whatever is proved about all instructions of a template goes through them.

* `Compiler.IsBound`, `Compiler.AttributeRule` — the instructions of a property, and of an attribute.
* `Compiler.GroupRule` — the groups of a definition.
* `Compiler.rootRule_compileRoot` — every group of a compiled template, and of the definitions nested in it, comes
  about by these rules, and only the template itself leaves instructions for its host.
* `Definition.Emits`, `Compiler.RootRule.emits` — the same for every single instruction, at any depth.
-/

namespace ViewTemplate

open ViewTemplate.Text ViewTemplate.Markup

namespace Compiler

variable {c : Compiler}

/-! ### Attributes -/

/-- The instruction binds or sets a property, by a name and a value.  Where it is the property of a bindable, the
mode is the one that its resource gives it. -/
def IsBound (c : Compiler) (i : Instruction) : Prop :=
  ∃ name value target isOption, (∀ t ∈ target, ∃ r b, t = BindTarget.ofBindable r b) ∧
    classify c.reader name value target isOption = .ok (some i)

/-- What options give is bound. -/
theorem isBound_options {r : Resource} : (options : List (String × String)) →
    ∀ {is : List Instruction}, c.options r options = .ok is → ∀ i ∈ is, c.IsBound i
  | [], is, h, i, hi => by
    cases h
    exact absurd hi List.not_mem_nil
  | (name, value) :: rest, is, h, i, hi => by
    simp only [options] at h
    split at h
    · cases h
    · obtain ⟨first, hfirst, h⟩ := bind_eq_ok.1 h
      obtain ⟨others, hothers, h⟩ := bind_eq_ok.1 h
      cases pure_eq_ok.1 h
      rcases List.mem_append.1 hi with hi | hi
      · refine ⟨name, value, _, true, fun t ht => ?_, Option.mem_toList.1 hi ▸ hfirst⟩
        obtain ⟨b, -, rfl⟩ := Option.map_eq_some_iff.1 ht
        exact ⟨r, b, rfl⟩
      · exact isBound_options rest hothers i hi

/-- What a custom attribute gives is bound. -/
theorem isBound_customAttribute {r : Resource} {name value : String} {is : List Instruction}
    (h : c.customAttribute r name value = .ok is) : ∀ i ∈ is, c.IsBound i := by
  unfold customAttribute at h
  split at h
  · obtain ⟨options, _, h⟩ := bind_eq_ok.1 h
    exact isBound_options options h
  · obtain ⟨first, hfirst, h⟩ := bind_eq_ok.1 h
    cases pure_eq_ok.1 h
    intro i hi
    refine ⟨name, value, _, false, fun t ht => ?_, Option.mem_toList.1 hi ▸ hfirst⟩
    cases ht
    exact ⟨r, _, rfl⟩

/-- How an instruction comes about that an attribute gives for its element. -/
inductive AttributeRule (c : Compiler) (attributes : List Attribute) (custom : Option Resource) :
    Instruction → Prop where
  | reference {name value : String} {i : Instruction} : c.ref attributes custom name value = .ok i →
      AttributeRule c attributes custom i
  | hydrate {r : Resource} {name value : String} {is : List Instruction} :
      c.resources.attribute? (targetName name) = some r → r.isTemplateController = false →
      c.customAttribute r name value = .ok is → AttributeRule c attributes custom (.hydrateAttribute r.name is)
  | plain {name value : String} {i : Instruction} : classify c.reader name value none false = .ok (some i) →
      AttributeRule c attributes custom i

/-- Every custom attribute that the attributes name is among the instructions. -/
def Hydrates (c : Compiler) (as : List Attribute) (is : List Instruction) : Prop :=
  ∀ a ∈ as, a.name ≠ asElementName → isRefName a.name = false → ∀ r,
    c.resources.attribute? (targetName a.name) = some r → ∃ inner, .hydrateAttribute r.name inner ∈ is

/-- One more attribute with its instructions. -/
theorem Hydrates.cons {a : Attribute} {as : List Attribute} {is js : List Instruction} (ha : c.Hydrates [a] is)
    (has : c.Hydrates as js) : c.Hydrates (a :: as) (is ++ js) := by
  intro b hb hname href r hr
  rcases List.mem_cons.1 hb with rfl | hb
  · obtain ⟨inner, hmem⟩ := ha b List.mem_cons_self hname href r hr
    exact ⟨inner, List.mem_append_left js hmem⟩
  · obtain ⟨inner, hmem⟩ := has b hb hname href r hr
    exact ⟨inner, List.mem_append_right is hmem⟩

/-- A single attribute, if the custom attribute that it names is among its instructions. -/
theorem hydrates_singleton {a : Attribute} {is : List Instruction}
    (h : a.name ≠ asElementName → isRefName a.name = false → ∀ r,
      c.resources.attribute? (targetName a.name) = some r → ∃ inner, .hydrateAttribute r.name inner ∈ is) :
    c.Hydrates [a] is := by
  intro b hb
  cases List.mem_singleton.1 hb
  exact h

/-- What the instructions of attributes of an element are made of. -/
structure PlacedRule (c : Compiler) (tag : Tag) (custom : Option Resource) (as : List Attribute)
    (placed : Placed) : Prop where
  inside : ∀ i ∈ placed.inside, c.IsBound i
  beside : ∀ i ∈ placed.beside, c.AttributeRule tag.attributes custom i
  hydrates : c.Hydrates as placed.beside

/-- What an attribute contributes keeps to the rules. -/
theorem placedRule_placeAttribute {tag : Tag} {custom : Option Resource} {a : Attribute} {placed : Placed}
    (ha : c.controller? a = none) (h : c.placeAttribute tag custom a = .ok placed) :
    c.PlacedRule tag custom [a] placed := by
  unfold placeAttribute at h
  split at h
  · next hname =>
    cases h
    exact ⟨nofun, nofun, hydrates_singleton fun hne => absurd hname hne⟩
  · next hname =>
    split at h
    · next href =>
      obtain ⟨i, hi, h⟩ := bind_eq_ok.1 h
      cases pure_eq_ok.1 h
      refine ⟨nofun, List.forall_mem_singleton.2 (.reference hi), hydrates_singleton fun _ hno => ?_⟩
      rw [href] at hno
      cases hno
    · next href =>
      split at h
      · next r hr =>
        obtain ⟨is, his, h⟩ := bind_eq_ok.1 h
        cases pure_eq_ok.1 h
        have hcontroller : r.isTemplateController = false := by
          simpa [controller?, hname, href, hr, Option.filter] using ha
        refine ⟨nofun, List.forall_mem_singleton.2 (.hydrate hr hcontroller his),
          hydrates_singleton fun _ _ r' hr' => ?_⟩
        cases hr.symm.trans hr'
        exact ⟨is, List.mem_singleton_self _⟩
      · next hr =>
        have hnone : ∀ is, c.Hydrates [a] is := fun is => hydrates_singleton fun _ _ r' hr' => by
          cases hr.symm.trans hr'
        split at h
        · next target htarget =>
          obtain ⟨i, hi, h⟩ := bind_eq_ok.1 h
          cases pure_eq_ok.1 h
          refine ⟨fun j hj => ⟨a.name, a.value, some target, false, fun t ht => ?_, ?_⟩, nofun, hnone _⟩
          · cases ht
            obtain ⟨r, -, hbindable⟩ := Option.bind_eq_some_iff.1 htarget
            obtain ⟨b, -, rfl⟩ := Option.map_eq_some_iff.1 hbindable
            exact ⟨r, b, rfl⟩
          · exact Option.mem_toList.1 hj ▸ hi
        · obtain ⟨i, hi, h⟩ := bind_eq_ok.1 h
          cases pure_eq_ok.1 h
          exact ⟨nofun, fun j hj => .plain (Option.mem_toList.1 hj ▸ hi), hnone _⟩

/-- What attributes contribute keeps to the rules. -/
theorem placedRule_placeAttributes {tag : Tag} {custom : Option Resource} : (as : List Attribute) →
    ∀ {placed : Placed}, (∀ a ∈ as, c.controller? a = none) → c.placeAttributes tag custom as = .ok placed →
    c.PlacedRule tag custom as placed
  | [], placed, _, h => by
    cases h
    exact ⟨nofun, nofun, nofun⟩
  | a :: as, placed, hnone, h => by
    obtain ⟨ha, has⟩ := List.forall_mem_cons.1 hnone
    obtain ⟨first, hfirst, h⟩ := bind_eq_ok.1 h
    obtain ⟨others, hothers, h⟩ := bind_eq_ok.1 h
    cases pure_eq_ok.1 h
    have h₁ := placedRule_placeAttribute ha hfirst
    have h₂ := placedRule_placeAttributes as has hothers
    exact ⟨List.forall_mem_append.2 ⟨h₁.inside, h₂.inside⟩, List.forall_mem_append.2 ⟨h₁.beside, h₂.beside⟩,
      h₁.hydrates.cons h₂.hydrates⟩

/-- What the instructions for the host of a component are made of.  Unlike on an element, a value is set as it
stands. -/
structure SurrogateRule (c : Compiler) (root : Tag) (as : List Attribute) (is : List Instruction) : Prop where
  rule : ∀ i ∈ is, c.AttributeRule root.attributes none i ∨ ∃ property value, i = .setProperty property value
  hydrates : c.Hydrates as is

/-- What an attribute of the root contributes keeps to the rules. -/
theorem surrogateRule_surrogate {root : Tag} {a : Attribute} {i : Instruction} (h : c.surrogate root a = .ok i) :
    c.SurrogateRule root [a] [i] := by
  unfold surrogate at h
  split at h
  · cases h
  · split at h
    · next href =>
      refine ⟨List.forall_mem_singleton.2 (.inl (.reference h)), hydrates_singleton fun _ hno => ?_⟩
      rw [href] at hno
      cases hno
    · split at h
      · next r hr =>
        split at h
        · cases h
        · next hcontroller =>
          obtain ⟨is, his, h⟩ := bind_eq_ok.1 h
          cases pure_eq_ok.1 h
          refine ⟨List.forall_mem_singleton.2 (.inl (.hydrate hr (Bool.not_eq_true _ ▸ hcontroller) his)),
            hydrates_singleton fun _ _ r' hr' => ?_⟩
          cases hr.symm.trans hr'
          exact ⟨is, List.mem_singleton_self _⟩
      · next hr =>
        obtain ⟨j, hj, h⟩ := bind_eq_ok.1 h
        cases pure_eq_ok.1 h
        refine ⟨List.forall_mem_singleton.2 ?_, hydrates_singleton fun _ _ r' hr' => by cases hr.symm.trans hr'⟩
        cases j with
        | none => exact .inr ⟨_, _, rfl⟩
        | some j => exact .inl (.plain hj)

/-- What the attributes of the root contribute keeps to the rules. -/
theorem surrogateRule_surrogatesOf {root : Tag} : (as : List Attribute) → ∀ {is : List Instruction},
    c.surrogatesOf root as = .ok is → c.SurrogateRule root as is
  | [], is, h => by
    cases h
    exact ⟨nofun, nofun⟩
  | a :: as, is, h => by
    obtain ⟨first, hfirst, h⟩ := bind_eq_ok.1 h
    obtain ⟨others, hothers, h⟩ := bind_eq_ok.1 h
    cases pure_eq_ok.1 h
    have h₁ := surrogateRule_surrogate hfirst
    have h₂ := surrogateRule_surrogatesOf as hothers
    exact ⟨List.forall_mem_append.2 ⟨h₁.rule, h₂.rule⟩, h₁.hydrates.cons h₂.hydrates⟩

/-! ### Groups -/

/-- How a group of instructions comes about. -/
inductive GroupRule (c : Compiler) : List Instruction → Prop where
  | text {value : String} {e : Expression} : c.reader.interpolation? value = .ok (some e) →
      GroupRule c [.textBinding e]
  | controller {a : Attribute} {k : Controller} {d : Definition} : c.controller? a = some k.resource →
      c.customAttribute k.resource a.name a.value = .ok k.instructions → GroupRule c [Controller.instruction k d]
  | letElement {as : List Attribute} {is : List Instruction} {toViewModel : Bool} : c.letBindings as = .ok is →
      GroupRule c [.hydrateLetElement is toViewModel]
  /-- The group of an element whose attributes call for no controllers, or no longer. -/
  | element {tag : Tag} {placed : Placed} {parts : List (String × Definition)} :
      c.PlacedRule tag (c.customElement? tag) tag.attributes placed →
      GroupRule c (((c.customElement? tag).map fun r => .hydrateElement r.name placed.inside parts).toList ++
        placed.beside)

/-- The group of a `let` keeps to the rules. -/
theorem groupRule_letGroup {tag : Tag} {group : List Instruction} (h : c.letGroup tag = .ok group) :
    c.GroupRule group := by
  obtain ⟨is, his, h⟩ := bind_eq_ok.1 h
  cases pure_eq_ok.1 h
  exact .letElement his

/-- The group of an element keeps to the rules, if no attribute of it is a controller. -/
theorem groupRule_elementGroup {tag : Tag} {parts : List (String × Definition)} {group : List Instruction}
    (hnone : ∀ a ∈ tag.attributes, c.controller? a = none)
    (h : c.elementGroup tag (c.customElement? tag) parts = .ok group) : c.GroupRule group := by
  obtain ⟨placed, hplaced, h⟩ := bind_eq_ok.1 h
  have hrule := @GroupRule.element c tag placed parts (placedRule_placeAttributes _ hnone hplaced)
  rw [← pure_eq_ok.1 h]
  cases hcustom : c.customElement? tag with
  | none => rwa [hcustom] at hrule
  | some r => rwa [hcustom] at hrule

/-! ### The walk -/

/-- Every group that the walk gives keeps to the rules. -/
theorem groupRule_nodes {ns : List Node} {o : Output} (h : c.nodes ns = .ok o) :
    ∀ group ∈ o.groups, c.GroupRule group := by
  refine step_induction (motive := fun _ o => ∀ group ∈ o.groups, c.GroupRule group) ?_ ?_ ?_ ?_ ?_ h
  · exact nofun
  · intro n ns first others hfirst hothers
    exact List.forall_mem_append.2 ⟨hfirst, hothers⟩
  · intro value span o h
    rcases text_eq_ok h with ⟨e, he, rfl⟩ | rfl | rfl
    · exact List.forall_mem_singleton.2 (.text he)
    · exact nofun
    · exact nofun
  · intro value span
    exact nofun
  · intro tag kids o hrule ih
    have hlt := workOf_children_lt tag kids
    cases hrule with
    | controlled _ ha his _ => exact List.forall_mem_singleton.2 (.controller ha his)
    | own hnone hown =>
      cases hown with
      | letElement _ hgroup => exact forall_mem_hosting (groupRule_letGroup hgroup) nofun
      | plain _ hcustom hgroup hcontent =>
        exact forall_mem_hosting (groupRule_elementGroup hnone (hcustom ▸ hgroup)) (ih kids _ hlt hcontent)
      | custom _ hcustom _ hgroup hcontent =>
        have hkept := ih _ _ (Nat.lt_of_le_of_lt (workOf_filter_le _ kids) hlt) hcontent
        exact forall_mem_hosting (groupRule_elementGroup hnone (hcustom ▸ hgroup)) hkept

/-- A definition that is nested in another one: its groups keep to the rules, and it leaves nothing for a host. -/
structure InnerRule (c : Compiler) (d : Definition) : Prop where
  groups : ∀ group ∈ d.groups, c.GroupRule group
  surrogates : d.surrogates = []

/-- A compiled template: its groups, what is left for its host, and what is nested in it. -/
structure RootRule (c : Compiler) (d : Definition) : Prop where
  groups : ∀ group ∈ d.groups, c.GroupRule group
  surrogates : ∃ root : Tag, c.SurrogateRule root root.attributes d.surrogates
  nested : ∀ d' : Definition, d'.NestedIn d → c.InnerRule d'

/-- Every compiled template keeps to the rules. -/
theorem rootRule_compileRoot {root : Element} {d : Definition} (h : c.compileRoot root = .ok d) :
    c.RootRule d := by
  have hnested : ∀ d' : Definition, d'.NestedIn d → c.InnerRule d' := by
    intro d' hd'
    obtain ⟨ms, content, root', -, hcontent, rfl⟩ := walkedIn_of_nestedIn h hd'
    exact ⟨groupRule_nodes hcontent, rfl⟩
  obtain ⟨surrogates, content, hsurrogates, hcontent, rfl⟩ := compileRoot_eq_ok_iff.1 h
  exact ⟨groupRule_nodes hcontent, ⟨root.toTag, surrogateRule_surrogatesOf _ hsurrogates⟩, hnested⟩

end Compiler

/-! ### Single instructions -/

namespace Definition

/-- The instruction is in the definition: in a group or for the host, of the definition or of a nested one, or
inside another instruction. -/
inductive Emits (d : Definition) : Instruction → Prop where
  | group {d' : Definition} {group : List Instruction} {i : Instruction} : d'.Within d → group ∈ d'.groups →
      i ∈ group → Emits d i
  | surrogate {d' : Definition} {i : Instruction} : d'.Within d → i ∈ d'.surrogates → Emits d i
  | inner {i j : Instruction} : Emits d i → j ∈ i.inner → Emits d j

end Definition

namespace Compiler

variable {c : Compiler}

/-- How a single instruction comes about. -/
inductive InstructionRule (c : Compiler) : Instruction → Prop where
  | text {value : String} {e : Expression} : c.reader.interpolation? value = .ok (some e) →
      InstructionRule c (.textBinding e)
  | controller {a : Attribute} {k : Controller} {d : Definition} : c.controller? a = some k.resource →
      c.customAttribute k.resource a.name a.value = .ok k.instructions →
      InstructionRule c (Controller.instruction k d)
  | letElement {as : List Attribute} {is : List Instruction} {toViewModel : Bool} : c.letBindings as = .ok is →
      InstructionRule c (.hydrateLetElement is toViewModel)
  | letBinding {a : Attribute} {i : Instruction} : c.letBinding a = .ok i → InstructionRule c i
  | element {tag : Tag} {r : Resource} {inside : List Instruction} {parts : List (String × Definition)} :
      c.customElement? tag = some r → (∀ i ∈ inside, c.IsBound i) →
      InstructionRule c (.hydrateElement r.name inside parts)
  | ofAttribute {attributes : List Attribute} {custom : Option Resource} {i : Instruction} :
      c.AttributeRule attributes custom i → InstructionRule c i
  | bound {i : Instruction} : c.IsBound i → InstructionRule c i
  | setProperty (property value : String) : InstructionRule c (.setProperty property value)

/-- Every instruction of a group comes about by the rules. -/
theorem GroupRule.instruction {group : List Instruction} (h : c.GroupRule group) :
    ∀ i ∈ group, c.InstructionRule i := by
  cases h with
  | text h => exact List.forall_mem_singleton.2 (.text h)
  | controller hr his => exact List.forall_mem_singleton.2 (.controller hr his)
  | letElement his => exact List.forall_mem_singleton.2 (.letElement his)
  | @element tag placed parts hplaced =>
    refine List.forall_mem_append.2 ⟨fun i hi => ?_, fun i hi => .ofAttribute (hplaced.beside i hi)⟩
    obtain ⟨r, hcustom, rfl⟩ := Option.map_eq_some_iff.1 (Option.mem_toList.1 hi)
    exact .element hcustom hplaced.inside

/-- Every instruction for the host of a component comes about by the rules. -/
theorem SurrogateRule.instruction {root : Tag} {as : List Attribute} {is : List Instruction}
    (h : c.SurrogateRule root as is) : ∀ i ∈ is, c.InstructionRule i := by
  intro i hi
  rcases h.rule i hi with hrule | ⟨property, value, rfl⟩
  · exact .ofAttribute hrule
  · exact .setProperty property value

/-- Every binding of a `let` is that of one of its attributes. -/
theorem letBinding_of_mem : (as : List Attribute) → ∀ {is : List Instruction}, c.letBindings as = .ok is →
    ∀ i ∈ is, ∃ a, c.letBinding a = .ok i
  | [], is, h, i, hi => by
    cases h
    exact absurd hi List.not_mem_nil
  | a :: as, is, h, i, hi => by
    simp only [letBindings] at h
    split at h
    · exact letBinding_of_mem as h i hi
    · obtain ⟨first, hfirst, h⟩ := bind_eq_ok.1 h
      obtain ⟨others, hothers, h⟩ := bind_eq_ok.1 h
      cases pure_eq_ok.1 h
      rcases List.mem_cons.1 hi with rfl | hi
      · exact ⟨a, hfirst⟩
      · exact letBinding_of_mem as hothers i hi

/-- A binding has nothing inside. -/
theorem inner_eq_nil_of_isBinding {i : Instruction} (h : i.isBinding = true) : i.inner = [] := by
  cases i <;> first | rfl | cases h

/-- What is bound is a binding. -/
theorem IsBound.isBinding {i : Instruction} (h : c.IsBound i) : i.isBinding = true := by
  obtain ⟨name, value, target, isOption, -, hclassify⟩ := h
  exact isBinding_classify hclassify

/-- What is inside an instruction comes about by the rules as well. -/
theorem InstructionRule.inner {i : Instruction} (h : c.InstructionRule i) : ∀ j ∈ i.inner, c.InstructionRule j := by
  cases h with
  | text _ => exact nofun
  | controller _ his => exact fun j hj => .bound (isBound_customAttribute his j hj)
  | letElement his =>
    intro j hj
    obtain ⟨a, ha⟩ := letBinding_of_mem _ his j hj
    exact .letBinding ha
  | letBinding h =>
    obtain ⟨property, e, rfl⟩ := letBinding_eq_ok h
    exact nofun
  | element _ hinside => exact fun j hj => .bound (hinside j hj)
  | ofAttribute h =>
    cases h with
    | reference h =>
      obtain ⟨e, target, rfl⟩ := ref_eq_ok h
      exact nofun
    | hydrate _ _ his => exact fun j hj => .bound (isBound_customAttribute his j hj)
    | plain h =>
      rw [inner_eq_nil_of_isBinding (isBinding_classify h)]
      exact nofun
  | bound h =>
    rw [inner_eq_nil_of_isBinding h.isBinding]
    exact nofun
  | setProperty => exact nofun

namespace RootRule

variable {d : Definition}

/-- The groups of a compiled template, at every depth, keep to the rules. -/
theorem groupRule (h : c.RootRule d) {d' : Definition} (hd' : d'.Within d) :
    ∀ group ∈ d'.groups, c.GroupRule group := by
  rcases Definition.within_iff.1 hd' with rfl | hnested
  · exact h.groups
  · exact (h.nested d' hnested).groups

/-- Every instruction in a template, at any depth, comes about by the rules. -/
theorem emits (h : c.RootRule d) {i : Instruction} (hi : d.Emits i) : c.InstructionRule i := by
  induction hi with
  | group hwithin hgroup hi => exact (h.groupRule hwithin _ hgroup).instruction _ hi
  | surrogate hwithin hi =>
    rcases Definition.within_iff.1 hwithin with rfl | hnested
    · obtain ⟨root, hsurrogates⟩ := h.surrogates
      exact hsurrogates.instruction _ hi
    · rw [(h.nested _ hnested).surrogates] at hi
      exact absurd hi List.not_mem_nil
  | inner _ hj ih => exact ih.inner _ hj

end RootRule

end Compiler

end ViewTemplate
