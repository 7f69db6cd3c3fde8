import ViewTemplate.Proofs.Compile.Targets
import ViewTemplate.Resource.Registry

/-!
# The names that a template looks up

Resources come in by their names alone.  Compiling looks up the names that stand in the template, and none besides:
what the walk puts together itself, a host without its controllers, the root around it, a part without its mark, has
only names that stood in the source.  So two resolvers that know the same resources under these names give the same
result, the error included.

* `elementNames`, `attributeNames` — the names of a template under which elements and attributes are looked up.
* `Resolver.AgreesAt` — two resolvers know the same resources under the names of one element.
* `Compiler.withResources` — the compiler with other resources.
* `Compiler.nodes_withResources` — the walk looks up no other names.
* `Compiler.compileNodes_namedResources` — nor does compiling; a resource of any other name may be registered.
-/

namespace ViewTemplate

open ViewTemplate.Text ViewTemplate.Markup

/-! ### Names -/

/-- The names by which an element may be a custom element: its own, and those that it gives itself. -/
def elementNamesOf (tag : Tag) : List String :=
  tag.name :: (tag.attributes.filter (·.name = asElementName)).map (·.value)

/-- The names under which an attribute may be looked up: its target, and what it refers to. -/
def attributeNamesOf (a : Attribute) : List String :=
  targetName a.name :: if isRefName a.name then [refTargetName a.name] else []

/-- The names of a template that may be custom elements: tag names and values of `as-element`. -/
def elementNames (ns : List Node) : List String :=
  (tagsOf ns).flatMap elementNamesOf

/-- The names of a template that may be custom attributes: the targets of attributes and of references. -/
def attributeNames (ns : List Node) : List String :=
  (tagsOf ns).flatMap fun tag => tag.attributes.flatMap attributeNamesOf

/-- The two resolvers know the same custom attributes under the names of the attributes. -/
def Resolver.AgreesOn (r s : Resolver) (as : List Attribute) : Prop :=
  ∀ a ∈ as, ∀ name ∈ attributeNamesOf a, r.attribute? name = s.attribute? name

/-- Resolvers that agree on attributes agree on the first and on the others. -/
theorem Resolver.AgreesOn.cons {r s : Resolver} {a : Attribute} {as : List Attribute}
    (h : r.AgreesOn s (a :: as)) : r.AgreesOn s [a] ∧ r.AgreesOn s as := by
  obtain ⟨ha, has⟩ := List.forall_mem_cons.1 h
  exact ⟨List.forall_mem_singleton.2 ha, has⟩

/-- The two resolvers know the same resources under the names of an element and of its attributes. -/
structure Resolver.AgreesAt (r s : Resolver) (tag : Tag) : Prop where
  elements : ∀ name ∈ elementNamesOf tag, r.element? name = s.element? name
  attributes : r.AgreesOn s tag.attributes

/-- Resolvers that agree at the names of the nodes agree at every element of them. -/
theorem Resolver.agreesAt_of_mem {r s : Resolver} {ns : List Node}
    (helement : ∀ name ∈ elementNames ns, r.element? name = s.element? name)
    (hattribute : ∀ name ∈ attributeNames ns, r.attribute? name = s.attribute? name) :
    ∀ tag ∈ tagsOf ns, r.AgreesAt s tag := by
  intro tag htag
  constructor
  · intro name hname
    exact helement name (List.mem_flatMap.2 ⟨tag, htag, hname⟩)
  · intro a ha name hname
    apply hattribute
    exact List.mem_flatMap.2 ⟨tag, htag, List.mem_flatMap.2 ⟨a, ha, hname⟩⟩

/-- Fewer attributes bring no new names. -/
theorem Resolver.AgreesAt.filter {r s : Resolver} {tag : Tag} (h : r.AgreesAt s tag) (p : Attribute → Bool) :
    r.AgreesAt s { tag with attributes := tag.attributes.filter p } := by
  constructor
  · intro name hname
    apply h.elements
    rcases List.mem_cons.1 hname with rfl | hname
    · exact List.mem_cons_self
    · obtain ⟨a, ha, rfl⟩ := List.mem_map.1 hname
      obtain ⟨ha, has⟩ := List.mem_filter.1 ha
      refine List.mem_cons_of_mem _ (List.mem_map.2 ⟨a, List.mem_filter.2 ⟨?_, has⟩, rfl⟩)
      exact (List.mem_filter.1 ha).1
  · intro a ha
    exact h.attributes a (List.mem_filter.1 ha).1

namespace Compiler

/-- The compiler with other resources. -/
def withResources (c : Compiler) (s : Resolver) : Compiler :=
  { c with resources := s }

variable {c : Compiler} {s : Resolver}

/-! ### Custom attributes and references -/

/-- Options are compiled without a look at the resources. -/
theorem options_withResources (r : Resource) : (options : List (String × String)) →
    (c.withResources s).options r options = c.options r options
  | [] => rfl
  | (name, value) :: rest => by
    have hreader : (c.withResources s).reader = c.reader := rfl
    simp only [options, options_withResources r rest, hreader]

/-- A custom attribute that was found needs no other resource. -/
theorem customAttribute_withResources (r : Resource) (name value : String) :
    (c.withResources s).customAttribute r name value = c.customAttribute r name value := by
  have hreader : (c.withResources s).reader = c.reader := rfl
  simp only [customAttribute, options_withResources, hreader]

/-- The target of an attribute is looked up with the same result. -/
theorem attribute?_withResources {a : Attribute} (h : c.resources.AgreesOn s [a]) :
    (c.withResources s).resources.attribute? (targetName a.name) = c.resources.attribute? (targetName a.name) :=
  (h a List.mem_cons_self _ List.mem_cons_self).symm

/-- Whether an attribute is a controller is decided by its own names. -/
theorem controller?_withResources {a : Attribute} (h : c.resources.AgreesOn s [a]) :
    (c.withResources s).controller? a = c.controller? a := by
  simp only [controller?, attribute?_withResources h]

/-- What a reference stands for is decided by its own names. -/
theorem ref_withResources {a : Attribute} (h : c.resources.AgreesOn s [a]) (href : isRefName a.name = true)
    (as : List Attribute) (custom : Option Resource) :
    (c.withResources s).ref as custom a.name a.value = c.ref as custom a.name a.value := by
  have hmem : refTargetName a.name ∈ attributeNamesOf a := by simp [attributeNamesOf, href]
  have hlookup : (c.withResources s).resources.attribute? (refTargetName a.name) =
      c.resources.attribute? (refTargetName a.name) := (h a List.mem_cons_self _ hmem).symm
  have hreader : (c.withResources s).reader = c.reader := rfl
  simp only [ref, refTarget, hlookup, hreader]

/-- The controllers among attributes on which the resolvers agree. -/
theorem controllers_withResources : (as : List Attribute) → c.resources.AgreesOn s as →
    (c.withResources s).controllers as = c.controllers as
  | [], _ => rfl
  | a :: as, h => by
    obtain ⟨ha, has⟩ := h.cons
    simp only [controllers, controller?_withResources ha, controllers_withResources as has,
      customAttribute_withResources]

/-- The host that is left when controllers are taken off. -/
theorem hostTag_withResources {tag : Tag} (h : c.resources.AgreesOn s tag.attributes) :
    (c.withResources s).hostTag tag = c.hostTag tag := by
  have hfilter : tag.attributes.filter (fun a => ((c.withResources s).controller? a).isNone) =
      tag.attributes.filter fun a => (c.controller? a).isNone := by
    apply List.filter_congr
    intro a ha
    rw [controller?_withResources (List.forall_mem_singleton.2 (h a ha))]
  simp only [hostTag, hfilter]

/-- Which custom element a tag is, where the resolvers agree at it. -/
theorem customElement?_withResources {tag : Tag} (h : c.resources.AgreesAt s tag) :
    (c.withResources s).customElement? tag = c.customElement? tag := by
  refine (h.elements _ ?_).symm
  cases hvalue : tag.value? asElementName with
  | none => exact List.mem_cons_self
  | some value =>
    obtain ⟨a, ha, rfl⟩ := Option.map_eq_some_iff.1 hvalue
    unfold Tag.attribute? at ha
    refine List.mem_cons_of_mem _ (List.mem_map.2 ⟨a, ?_, rfl⟩)
    exact List.mem_filter.2
      ⟨List.mem_of_find?_eq_some ha, List.find?_some (p := fun b : Attribute => b.name = asElementName) ha⟩

/-! ### Groups -/

/-- What an attribute contributes, where the resolvers agree on it. -/
theorem placeAttribute_withResources {a : Attribute} (h : c.resources.AgreesOn s [a]) (tag : Tag)
    (custom : Option Resource) :
    (c.withResources s).placeAttribute tag custom a = c.placeAttribute tag custom a := by
  have hreader : (c.withResources s).reader = c.reader := rfl
  by_cases href : isRefName a.name = true
  · simp only [placeAttribute, href, ref_withResources h href, if_true]
  · simp only [placeAttribute, href, attribute?_withResources h, customAttribute_withResources, hreader,
      Bool.false_eq_true, if_false]

/-- What attributes contribute, where the resolvers agree on them. -/
theorem placeAttributes_withResources (tag : Tag) (custom : Option Resource) : (as : List Attribute) →
    c.resources.AgreesOn s as →
    (c.withResources s).placeAttributes tag custom as = c.placeAttributes tag custom as
  | [], _ => rfl
  | a :: as, h => by
    obtain ⟨ha, has⟩ := h.cons
    simp only [placeAttributes, placeAttribute_withResources ha, placeAttributes_withResources tag custom as has]

/-- The group of an element, where the resolvers agree on its attributes. -/
theorem elementGroup_withResources {tag : Tag} (h : c.resources.AgreesOn s tag.attributes)
    (custom : Option Resource) (parts : List (String × Definition)) :
    (c.withResources s).elementGroup tag custom parts = c.elementGroup tag custom parts := by
  simp only [elementGroup, placeAttributes_withResources tag custom _ h]

/-- The bindings of a `let` look up no resources. -/
theorem letBindings_withResources : (as : List Attribute) →
    (c.withResources s).letBindings as = c.letBindings as
  | [] => rfl
  | a :: as => by
    have hbinding : (c.withResources s).letBinding a = c.letBinding a := rfl
    simp only [letBindings, hbinding, letBindings_withResources as]

/-- The group of a `let` looks up no resources. -/
theorem letGroup_withResources (tag : Tag) : (c.withResources s).letGroup tag = c.letGroup tag := by
  simp only [letGroup, letBindings_withResources]

/-! ### The root -/

/-- What an attribute of the root contributes, where the resolvers agree on it. -/
theorem surrogate_withResources {a : Attribute} (h : c.resources.AgreesOn s [a]) (root : Tag) :
    (c.withResources s).surrogate root a = c.surrogate root a := by
  have hreader : (c.withResources s).reader = c.reader := rfl
  by_cases href : isRefName a.name = true
  · simp only [surrogate, href, ref_withResources h href, if_true]
  · simp only [surrogate, href, attribute?_withResources h, customAttribute_withResources, hreader,
      Bool.false_eq_true, if_false]

/-- What the attributes of the root contribute, where the resolvers agree on them. -/
theorem surrogatesOf_withResources (root : Tag) : (as : List Attribute) → c.resources.AgreesOn s as →
    (c.withResources s).surrogatesOf root as = c.surrogatesOf root as
  | [], _ => rfl
  | a :: as, h => by
    obtain ⟨ha, has⟩ := h.cons
    simp only [surrogatesOf, surrogate_withResources ha, surrogatesOf_withResources root as has]

/-! ### Trees -/

/-- The parts of a custom element are compiled from its children. -/
theorem parts_withResources : (ns : List Node) →
    (∀ tag kids, .element tag kids ∈ ns → (c.withResources s).nodes kids = c.nodes kids) →
    ∀ soFar, (c.withResources s).parts soFar ns = c.parts soFar ns
  | [], _, soFar => by rw [parts, parts]
  | .text value span :: ns, ih, soFar => by
    rw [parts_cons_of_tag?_eq_none rfl, parts_cons_of_tag?_eq_none rfl]
    exact parts_withResources ns (fun tag kids hmem => ih tag kids (List.mem_cons_of_mem _ hmem)) soFar
  | .comment value span :: ns, ih, soFar => by
    rw [parts_cons_of_tag?_eq_none rfl, parts_cons_of_tag?_eq_none rfl]
    exact parts_withResources ns (fun tag kids hmem => ih tag kids (List.mem_cons_of_mem _ hmem)) soFar
  | .element tag kids :: ns, ih, soFar => by
    have ih' := parts_withResources ns fun tag kids hmem => ih tag kids (List.mem_cons_of_mem _ hmem)
    simp only [parts, ih tag kids List.mem_cons_self, ih']

/-- An element by its own rules, where the resolvers agree at it and the walk below agrees. -/
theorem own_withResources {host : Tag} {kids : List Node} (h : c.resources.AgreesAt s host)
    (ih : ∀ ns, workOf ns ≤ workOf kids → tagsOf ns ⊆ tagsOf kids → (c.withResources s).nodes ns = c.nodes ns) :
    (c.withResources s).own host kids = c.own host kids := by
  have hkids := ih kids (Nat.le_refl _) (List.Subset.refl _)
  have hkept := ih (keptChildren kids) (workOf_keptChildren_le kids)
    (tagsOf_subset_of_subset (List.filter_subset_self kids))
  have hparts : ∀ soFar, (c.withResources s).parts soFar kids = c.parts soFar kids := by
    apply parts_withResources
    intro tag inner hmem
    apply ih inner (Nat.le_of_lt (workOf_lt_of_mem hmem))
    intro t ht
    exact mem_tagsOf hmem (by simp [ht])
  have hhosting : (c.withResources s).hosting = c.hosting := rfl
  simp only [own, letGroup_withResources, customElement?_withResources h, elementGroup_withResources h.attributes,
    hkids, hkept, hparts, hhosting]

/-- An element with its controllers, where the resolvers agree at it and the walk below agrees. -/
theorem node_element_withResources {tag : Tag} {kids : List Node} (h : c.resources.AgreesAt s tag)
    (ih : ∀ ns, workOf ns ≤ workOf kids → tagsOf ns ⊆ tagsOf kids → (c.withResources s).nodes ns = c.nodes ns) :
    (c.withResources s).node (.element tag kids) = c.node (.element tag kids) := by
  have hhost := hostTag_withResources h.attributes
  have hown : (c.withResources s).own (c.hostTag tag) kids = c.own (c.hostTag tag) kids :=
    own_withResources (h.filter _) ih
  have hbare : ∀ ks, (c.withResources s).IsBare tag ks ↔ c.IsBare tag ks := by
    intro ks
    rw [IsBare, IsBare, hhost]
  have hwrap : (c.withResources s).wrap = c.wrap := rfl
  have hwrapContent : (c.withResources s).wrapContent = c.wrapContent := rfl
  simp only [node_element, controllers_withResources _ h.attributes, hbare, hhost, hown,
    ih kids (Nat.le_refl _) (List.Subset.refl _), hwrap, hwrapContent]

/-- The walk looks up no names but those of its elements. -/
theorem nodes_withResources : (ns : List Node) → (∀ tag ∈ tagsOf ns, c.resources.AgreesAt s tag) →
    (c.withResources s).nodes ns = c.nodes ns
  | [], _ => by rw [nodes, nodes]
  | .text value span :: ns, h => by
    have htext : (c.withResources s).text = c.text := rfl
    rw [nodes, nodes, nodes_withResources ns h, node, node, htext]
  | .comment value span :: ns, h => by
    rw [nodes, nodes, nodes_withResources ns h, node, node]
  | .element tag kids :: ns, h => by
    rw [tagsOf_element] at h
    obtain ⟨htag, h⟩ := List.forall_mem_cons.1 h
    obtain ⟨hkids, hns⟩ := List.forall_mem_append.1 h
    rw [nodes, nodes, nodes_withResources ns hns]
    rw [node_element_withResources htag fun ms _ hsub => nodes_withResources ms fun t ht => hkids t (hsub ht)]
termination_by ns => workOf ns
decreasing_by
  all_goals simp only [workOf, Node.work] at *
  all_goals omega

/-! ### Templates -/

/-- A whole template, where the resolvers agree on the root and at every element below. -/
theorem compileRoot_withResources {root : Element} (hroot : c.resources.AgreesOn s root.attributes)
    (h : ∀ tag ∈ tagsOf root.children, c.resources.AgreesAt s tag) :
    (c.withResources s).compileRoot root = c.compileRoot root := by
  simp only [compileRoot, surrogates, surrogatesOf_withResources root.toTag _ hroot, definition,
    nodes_withResources _ h]

/-- The root of a template is one of its elements, or has no attributes. -/
theorem compileNodes_withResources {ns : List Node} (h : ∀ tag ∈ tagsOf ns, c.resources.AgreesAt s tag) :
    (c.withResources s).compileNodes ns = c.compileNodes ns := by
  unfold compileNodes
  cases hsole : soleTemplate? ns with
  | none => exact compileRoot_withResources nofun h
  | some root =>
    have hmem := (soleTemplate?_eq_some hsole).1
    apply compileRoot_withResources
    · exact (h root.toTag (mem_tagsOf hmem (by simp))).attributes
    · intro tag (htag : tag ∈ tagsOf root.children)
      exact h tag (mem_tagsOf hmem (by simp [htag]))

end Compiler

/-- A resource is found under its own name alone, as an element or as an attribute. -/
theorem Registry.resolver_register (g : Registry) (r : Resource) :
    (∀ name, (r.kind = .customElement → lowerCase r.name ≠ name) →
      (g.register r).resolver.element? name = g.resolver.element? name) ∧
    ∀ name, (r.kind = .customAttribute → lowerCase r.name ≠ name) →
      (g.register r).resolver.attribute? name = g.resolver.attribute? name := by
  have hname : r.normalize.name = lowerCase r.name := rfl
  have hkind : r.normalize.kind = r.kind := rfl
  simp only [register, hkind, hname]
  cases hkind : r.kind with
  | customElement =>
    refine ⟨fun name h => ?_, fun name _ => rfl⟩
    exact (Table.get?_insert ..).trans (if_neg (h rfl))
  | customAttribute =>
    refine ⟨fun name _ => rfl, fun name h => ?_⟩
    exact (Table.get?_insert ..).trans (if_neg (h rfl))

namespace Compiler

/-- Only named resources matter.  Two resolvers that know the same elements under the tag names and the values of
`as-element` in a template, and the same attributes under its targets, give one result, a definition or an error.  So
registering a resource changes nothing, if its name is none of these. -/
theorem compileNodes_namedResources (reader : ExpressionReader) (config : Config) (ns : List Node) :
    (∀ r s : Resolver, (∀ name ∈ elementNames ns, r.element? name = s.element? name) →
      (∀ name ∈ attributeNames ns, r.attribute? name = s.attribute? name) →
      ({ resources := r, reader, config } : Compiler).compileNodes ns =
        ({ resources := s, reader, config } : Compiler).compileNodes ns) ∧
    ∀ (g : Registry) (r : Resource), (r.kind = .customElement → lowerCase r.name ∉ elementNames ns) →
      (r.kind = .customAttribute → lowerCase r.name ∉ attributeNames ns) →
      ({ resources := (g.register r).resolver, reader, config } : Compiler).compileNodes ns =
        ({ resources := g.resolver, reader, config } : Compiler).compileNodes ns := by
  have hagree : ∀ r s : Resolver, (∀ name ∈ elementNames ns, r.element? name = s.element? name) →
      (∀ name ∈ attributeNames ns, r.attribute? name = s.attribute? name) →
      ({ resources := r, reader, config } : Compiler).compileNodes ns =
        ({ resources := s, reader, config } : Compiler).compileNodes ns := by
    intro r s helement hattribute
    let c : Compiler := { resources := r, reader, config }
    exact (compileNodes_withResources (c := c) (Resolver.agreesAt_of_mem helement hattribute)).symm
  refine ⟨hagree, ?_⟩
  intro g r helement hattribute
  obtain ⟨helement', hattribute'⟩ := g.resolver_register r
  apply hagree
  · intro name hname
    apply helement'
    rintro hkind rfl
    exact helement hkind hname
  · intro name hname
    apply hattribute'
    rintro hkind rfl
    exact hattribute hkind hname

/-- An element under a controller that is made another element, with a reference, around a text to render into. -/
def listedNodes : List Node :=
  [.element { name := "li", attributes := [⟨"if.bind", "a", {}, none⟩, ⟨"as-element", "item", {}, none⟩,
    ⟨"element.ref", "b", {}, none⟩] } [.text "$\x7bc\x7d"]]

/-- The controllers that are always there, and an element of every name that `listedNodes` does not have. -/
def crowdedResolver : Resolver where
  element? name := if name ∈ elementNames listedNodes then none else some (.customElement name)
  attribute? := Registry.builtin.resolver.attribute?

/-- An item in a list, among other elements and with a card registered that it does not name. -/
theorem compileNodes_listedNodes_namedResources :
    elementNames listedNodes = ["li", "item"] ∧ attributeNames listedNodes = ["if", "as-element", "element", "element"] ∧
    ({ resources := crowdedResolver } : Compiler).compileNodes listedNodes =
      ({ resources := Registry.builtin.resolver } : Compiler).compileNodes listedNodes ∧
    ({ resources := (Registry.builtin.register (.customElement "Card")).resolver } : Compiler).compileNodes listedNodes =
      ({ resources := Registry.builtin.resolver } : Compiler).compileNodes listedNodes ∧
    ∃ d, ({ resources := Registry.builtin.resolver } : Compiler).compileNodes listedNodes = .ok d ∧
      d.groups.length = 1 := by
  obtain ⟨hagree, hregister⟩ := compileNodes_namedResources .standard {} listedNodes
  refine ⟨by decide +kernel, by decide +kernel, hagree _ _ ?_ fun _ _ => rfl, ?_, ?_⟩
  · intro name hname
    exact if_pos hname
  · exact hregister _ _ (fun _ => by decide +kernel) nofun
  · exact exists_eq_ok (by decide +kernel)

end Compiler

end ViewTemplate
