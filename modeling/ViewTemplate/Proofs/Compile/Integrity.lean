import ViewTemplate.Proofs.Compile.Emission
import ViewTemplate.Resource.Registry

/-!
# Groups that can be carried out

A group is carried out from left to right: a custom element is created before anything beside it, every resource
that is named must be there, and a reference must find what it refers to in the same group.  Whether the target
of a reference is present is asked of the names of the attributes, while the instructions that create it come from
another pass over them with rules of its own; the two agree unless a custom attribute is called `as-element`.

* `Registry.IsNamed` — every resource is registered under its own name, which registering keeps.
* `Instruction.isRegistered` — the resource that an instruction names is registered, and of the right kind.
* `hasGroupShape`, `refsResolve` — the shape of a group, and that its references find what they refer to.
* `Compiler.compileNodes_integrity` — all of that in a compiled template, at every depth.
-/

namespace ViewTemplate

open ViewTemplate.Text ViewTemplate.Markup

/-! ### Registries -/

namespace Registry

/-- Every resource is found under its own name. -/
structure IsNamed (g : Registry) : Prop where
  elements : ∀ key r, g.elements.get? key = some r → r.name = key
  attributes : ∀ key r, g.attributes.get? key = some r → r.name = key

/-- With nothing registered nothing stands under a wrong name. -/
theorem isNamed_empty : empty.IsNamed :=
  ⟨nofun, nofun⟩

/-- In a table where all stand under their names, one more under its name does. -/
theorem name_eq_of_get?_insert {t : Table Resource} {r : Resource}
    (ht : ∀ key s, t.get? key = some s → s.name = key) :
    ∀ key s, (t.insert r.name r).get? key = some s → s.name = key := by
  intro key s hs
  rw [Table.get?_insert] at hs
  split at hs
  · next hkey =>
    cases hs
    exact hkey
  · exact ht key s hs

/-- One more resource is registered under its name. -/
theorem IsNamed.register {g : Registry} (h : g.IsNamed) (r : Resource) : (g.register r).IsNamed := by
  simp only [Registry.register]
  split
  · exact ⟨name_eq_of_get?_insert h.elements, h.attributes⟩
  · exact ⟨h.elements, name_eq_of_get?_insert h.attributes⟩

/-- Several more resources are registered under their names. -/
theorem IsNamed.registerAll (rs : List Resource) : ∀ {g : Registry}, g.IsNamed → (g.registerAll rs).IsNamed := by
  induction rs with
  | nil => exact fun h => h
  | cons r rs ih => exact fun h => ih (h.register r)

/-- An element that is found is found by its name. -/
theorem IsNamed.get?_element {g : Registry} (h : g.IsNamed) {key : String} {r : Resource}
    (hr : g.elements.get? key = some r) : g.elements.get? r.name = some r := by
  rwa [h.elements key r hr]

/-- An attribute that is found is found by its name. -/
theorem IsNamed.get?_attribute {g : Registry} (h : g.IsNamed) {key : String} {r : Resource}
    (hr : g.attributes.get? key = some r) : g.attributes.get? r.name = some r := by
  rwa [h.attributes key r hr]

end Registry

/-! ### Instructions and groups -/

namespace Instruction

/-- Whether the resource that the instruction names is registered: as an element, as an attribute that is no
template controller, or as a template controller. -/
def isRegistered (g : Registry) : Instruction → Bool
  | .hydrateElement res _ _ => (g.elements.get? res).isSome
  | .hydrateAttribute res _ => (g.attributes.get? res).any (!·.isTemplateController)
  | .hydrateTemplateController res _ _ _ => (g.attributes.get? res).any (·.isTemplateController)
  | _ => true

/-- Whether the instruction may stand beside the one that creates a custom element. -/
def isSibling : Instruction → Bool
  | .hydrateAttribute .. | .refBinding .. | .propertyBinding .. | .interpolation .. | .listenerBinding ..
  | .callBinding .. | .iteratorBinding .. => true
  | _ => false

/-- Whether the instruction creates a custom element. -/
def isElement : Instruction → Bool
  | .hydrateElement .. => true
  | _ => false

/-- Whether the instruction creates the custom attribute of the given name. -/
def isAttribute (name : String) : Instruction → Bool
  | .hydrateAttribute res _ => res = name
  | _ => false

/-- Whether the instruction, if it is a reference, finds what it refers to among the others. -/
def resolvesIn (is : List Instruction) : Instruction → Bool
  | .refBinding _ (.customAttribute name) => is.any (isAttribute name)
  | .refBinding _ .viewModel => is.any isElement
  | _ => true

/-- A binding refers to nothing beside it. -/
theorem resolvesIn_of_isBinding {i : Instruction} (h : i.isBinding = true) (is : List Instruction) :
    i.resolvesIn is = true := by
  cases i <;> first | rfl | cases h

/-- A binding names no resource. -/
theorem isRegistered_of_isBinding {i : Instruction} (h : i.isBinding = true) (g : Registry) :
    i.isRegistered g = true := by
  cases i <;> first | rfl | cases h

end Instruction

/-- Whether the references in a list find what they refer to in the same list. -/
def refsResolve (is : List Instruction) : Bool :=
  is.all (Instruction.resolvesIn is)

/-- Whether a group is one that there can be: a text, a template controller or a `let` element alone, or an element
with what stands beside it. -/
def hasGroupShape : List Instruction → Bool
  | [.textBinding _] | [.hydrateTemplateController ..] | [.hydrateLetElement ..] => true
  | .hydrateElement .. :: siblings => siblings.all Instruction.isSibling
  | siblings => siblings.all Instruction.isSibling

/-- Instructions that may stand beside an element make a group without one. -/
theorem hasGroupShape_of_isSibling {is : List Instruction} (h : ∀ i ∈ is, i.isSibling = true) :
    hasGroupShape is = true := by
  unfold hasGroupShape
  split
  · rfl
  · rfl
  · rfl
  · exact List.all_eq_true.2 fun i hi => h i (List.mem_cons_of_mem _ hi)
  · exact List.all_eq_true.2 h

/-- What a command gives may stand beside an element. -/
theorem Command.isSibling_instruction {command : Command} {reader : ExpressionReader} {property value : String}
    {mode : BindingMode} {i : Instruction} (h : command.instruction reader property mode value = .ok i) :
    i.isSibling = true := by
  cases command <;>
  · obtain ⟨e, _, h⟩ := bind_eq_ok.1 h
    cases pure_eq_ok.1 h
    rfl

/-- Beside an element no value is set as it stands. -/
theorem isSibling_classify {reader : ExpressionReader} {name value : String} {i : Instruction}
    (h : classify reader name value none false = .ok (some i)) : i.isSibling = true := by
  simp only [classify] at h
  split at h
  · obtain ⟨j, hj, h⟩ := bind_eq_ok.1 h
    cases pure_eq_ok.1 h
    exact Command.isSibling_instruction hj
  · obtain ⟨e, _, h⟩ := bind_eq_ok.1 h
    cases e with
    | some e =>
      cases pure_eq_ok.1 h
      rfl
    | none => cases pure_eq_ok.1 h

namespace Compiler

variable {c : Compiler}

/-! ### Shapes -/

/-- What an attribute of an element gives may stand beside it. -/
theorem AttributeRule.isSibling {attributes : List Attribute} {custom : Option Resource} {i : Instruction}
    (h : c.AttributeRule attributes custom i) : i.isSibling = true := by
  cases h with
  | reference h =>
    obtain ⟨e, target, rfl⟩ := ref_eq_ok h
    rfl
  | hydrate => rfl
  | plain h => exact isSibling_classify h

/-- Every group has the shape of one. -/
theorem GroupRule.hasGroupShape {group : List Instruction} (h : c.GroupRule group) :
    hasGroupShape group = true := by
  cases h with
  | text | controller | letElement => rfl
  | @element tag placed parts hplaced =>
    have hbeside := fun i hi => (hplaced.beside i hi).isSibling
    cases c.customElement? tag with
    | none => exact hasGroupShape_of_isSibling hbeside
    | some r => exact List.all_eq_true.2 hbeside

/-! ### References -/

/-- A reference to a custom attribute is to one that the element has. -/
theorem refTarget_customAttribute {attributes : List Attribute} {custom : Option Resource} {name res : String}
    (h : c.refTarget attributes custom name = .ok (.customAttribute res)) :
    ∃ a ∈ attributes, isRefName a.name = false ∧
      ∃ r, c.resources.attribute? (targetName a.name) = some r ∧ r.name = res := by
  simp only [refTarget] at h
  split at h
  · cases h
  · split at h
    · split at h
      · cases h
      · cases h
    · split at h
      · cases h
      · next r hr =>
        split at h
        · cases h
        · split at h
          · next hpresent =>
            cases h
            obtain ⟨a, ha, hname⟩ := List.any_eq_true.1 hpresent
            simp only [Bool.and_eq_true, Bool.not_eq_true', decide_eq_true_eq] at hname
            exact ⟨a, ha, hname.1, r, hname.2 ▸ hr, rfl⟩
          · cases h

/-- A reference to a view-model stands on a custom element. -/
theorem refTarget_viewModel {attributes : List Attribute} {custom : Option Resource} {name : String}
    (h : c.refTarget attributes custom name = .ok .viewModel) : custom.isSome = true := by
  simp only [refTarget] at h
  split at h
  · cases h
  · split at h
    · split at h
      · assumption
      · cases h
    · split at h
      · cases h
      · split at h
        · cases h
        · split at h
          · cases h
          · cases h

/-- The instructions of attributes find what they refer to, where custom attributes are all among them and the
custom element is. -/
theorem AttributeRule.resolvesIn {attributes : List Attribute} {custom : Option Resource} {is : List Instruction}
    (hname : c.resources.attribute? asElementName = none) (hhydrates : c.Hydrates attributes is)
    (hcustom : custom.isSome = true → is.any Instruction.isElement = true) {i : Instruction}
    (h : c.AttributeRule attributes custom i) : i.resolvesIn is = true := by
  cases h with
  | reference h =>
    obtain ⟨target, htarget, h⟩ := bind_eq_ok.1 h
    obtain ⟨e, -, h⟩ := bind_eq_ok.1 h
    cases pure_eq_ok.1 h
    cases target with
    | element => rfl
    | viewModel => exact hcustom (refTarget_viewModel htarget)
    | customAttribute res =>
      obtain ⟨a, ha, href, r, hr, rfl⟩ := refTarget_customAttribute htarget
      -- `as-element` is passed over when instructions are made, but it would do as the target of a reference.
      have hne : a.name ≠ asElementName := by
        intro heq
        rw [heq, show targetName asElementName = asElementName by decide, hname] at hr
        cases hr
      obtain ⟨inner, hmem⟩ := hhydrates a ha hne href r hr
      exact List.any_eq_true.2 ⟨_, hmem, decide_eq_true rfl⟩
  | hydrate => rfl
  | plain h => exact Instruction.resolvesIn_of_isBinding (isBinding_classify h) is

/-- The references in a group find what they refer to. -/
theorem GroupRule.refsResolve (hname : c.resources.attribute? asElementName = none) {group : List Instruction}
    (h : c.GroupRule group) : refsResolve group = true := by
  cases h with
  | text | controller | letElement => rfl
  | @element tag placed parts hplaced =>
    have hhydrates : c.Hydrates tag.attributes
        (((c.customElement? tag).map fun r => .hydrateElement r.name placed.inside parts).toList ++
          placed.beside) := by
      intro a ha hne href r hr
      obtain ⟨inner, hmem⟩ := hplaced.hydrates a ha hne href r hr
      exact ⟨inner, List.mem_append_right _ hmem⟩
    refine List.all_eq_true.2 fun i hi => ?_
    rcases List.mem_append.1 hi with hi | hi
    · obtain ⟨r, -, rfl⟩ := Option.map_eq_some_iff.1 (Option.mem_toList.1 hi)
      rfl
    · refine (hplaced.beside i hi).resolvesIn hname hhydrates fun hcustom => ?_
      obtain ⟨r, hr⟩ := Option.isSome_iff_exists.1 hcustom
      simp [hr, Instruction.isElement]

/-- The references among the surrogates find what they refer to. -/
theorem SurrogateRule.refsResolve (hname : c.resources.attribute? asElementName = none) {root : Tag}
    {is : List Instruction} (h : c.SurrogateRule root root.attributes is) : refsResolve is = true := by
  refine List.all_eq_true.2 fun i hi => ?_
  rcases h.rule i hi with hrule | ⟨property, value, rfl⟩
  · exact hrule.resolvesIn hname h.hydrates (by simp)
  · rfl

/-! ### Resources -/

/-- Whatever resource an instruction names is registered. -/
theorem InstructionRule.isRegistered {g : Registry} (hg : g.IsNamed) (hresources : c.resources = g.resolver)
    {i : Instruction} (h : c.InstructionRule i) : i.isRegistered g = true := by
  have hattribute : ∀ {key r}, c.resources.attribute? key = some r → g.attributes.get? r.name = some r := by
    intro key r hr
    rw [hresources] at hr
    exact hg.get?_attribute hr
  have helement : ∀ {key r}, c.resources.element? key = some r → g.elements.get? r.name = some r := by
    intro key r hr
    rw [hresources] at hr
    exact hg.get?_element hr
  cases h with
  | text | letElement | setProperty => rfl
  | @controller a k d hcontroller =>
    unfold controller? at hcontroller
    split at hcontroller
    · cases hcontroller
    · obtain ⟨hr, hisController⟩ := Option.filter_eq_some_iff.1 hcontroller
      simp [Controller.instruction, Instruction.isRegistered, hattribute hr, hisController]
  | letBinding h =>
    obtain ⟨property, e, rfl⟩ := letBinding_eq_ok h
    rfl
  | element hcustom => simp [Instruction.isRegistered, helement hcustom]
  | ofAttribute h =>
    cases h with
    | reference h =>
      obtain ⟨e, target, rfl⟩ := ref_eq_ok h
      rfl
    | hydrate hr hcontroller => simp [Instruction.isRegistered, hattribute hr, hcontroller]
    | plain h => exact Instruction.isRegistered_of_isBinding (isBinding_classify h) g
  | bound h => exact Instruction.isRegistered_of_isBinding h.isBinding g

/-- In a compiled template, and in every definition nested in it, each group has one of the shapes that there are, and
references find what they refer to in the same group, or for the host; every resource that an instruction names is
registered as what it is used for; and only the template itself leaves instructions for a host.  The registry is any
that comes about by registering, as long as no custom attribute in it is called `as-element`. -/
theorem compileNodes_integrity {rs : List Resource} {reader : ExpressionReader} {config : Config} {ns : List Node}
    {d : Definition} (hname : (Registry.empty.registerAll rs).attributes.get? asElementName = none)
    (h : ({ resources := (Registry.empty.registerAll rs).resolver, reader, config } : Compiler).compileNodes ns =
      .ok d) :
    (∀ d' : Definition, d'.Within d →
      (∀ group ∈ d'.groups, hasGroupShape group = true ∧ refsResolve group = true) ∧
      refsResolve d'.surrogates = true) ∧
    (∀ i, d.Emits i → i.isRegistered (Registry.empty.registerAll rs) = true) ∧
    (∀ d' : Definition, d'.NestedIn d → d'.surrogates = []) := by
  have hrule := rootRule_compileRoot h
  refine ⟨fun d' hd' => ⟨fun group hgroup => ?_, ?_⟩, fun i hi => ?_, fun d' hd' => (hrule.nested d' hd').surrogates⟩
  · have hgroup' := hrule.groupRule hd' group hgroup
    exact ⟨hgroup'.hasGroupShape, hgroup'.refsResolve hname⟩
  · rcases Definition.within_iff.1 hd' with rfl | hnested
    · obtain ⟨root, hsurrogates⟩ := hrule.surrogates
      exact hsurrogates.refsResolve hname
    · rw [(hrule.nested d' hnested).surrogates]
      rfl
  · exact (hrule.emits hi).isRegistered (Registry.isNamed_empty.registerAll rs) rfl

/-- A custom element, a custom attribute and a template controller. -/
def fieldResources : List Resource :=
  [.customElement "field", .customAttribute "Focus", .templateController "if"]

/-- A custom element under a controller, with a custom attribute and with references to both. -/
def fieldNodes : List Node :=
  [.element { name := "field",
              attributes := [⟨"focus.ref", "f", {}, none⟩, ⟨"if.bind", "x", {}, none⟩, ⟨"focus", "y", {}, none⟩,
                ⟨"view-model.ref", "vm", {}, none⟩] } []]

/-- The theorem at a custom element under a controller, with a custom attribute and references to both. -/
theorem compileNodes_fieldNodes_integrity :
    (Registry.empty.registerAll fieldResources).attributes.get? asElementName = none ∧
    ∃ d, ({ resources := (Registry.empty.registerAll fieldResources).resolver } : Compiler).compileNodes fieldNodes =
        .ok d ∧
      d.groups.length = 1 ∧
      (∀ d' : Definition, d'.Within d →
        (∀ group ∈ d'.groups, hasGroupShape group = true ∧ refsResolve group = true) ∧
        refsResolve d'.surrogates = true) ∧
      (∀ i, d.Emits i → i.isRegistered (Registry.empty.registerAll fieldResources) = true) ∧
      (∀ d' : Definition, d'.NestedIn d → d'.surrogates = []) := by
  have hname : (Registry.empty.registerAll fieldResources).attributes.get? asElementName = none :=
    Option.isNone_iff_eq_none.1 (by decide +kernel)
  obtain ⟨d, hd, hlength⟩ := exists_eq_ok (f := fun d : Definition => d.groups.length) (b := 1)
    (x := ({ resources := (Registry.empty.registerAll fieldResources).resolver } : Compiler).compileNodes fieldNodes)
    (by decide +kernel)
  exact ⟨hname, d, hd, hlength, compileNodes_integrity hname hd⟩

end Compiler

end ViewTemplate
