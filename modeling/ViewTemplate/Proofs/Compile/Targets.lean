import Mathlib.Data.List.Forall2
import ViewTemplate.Proofs.Compile.Groups
import ViewTemplate.Proofs.Markup.Classes

/-!
# Targets and groups

The elements that carry the target class, in document order, own the groups of their definition one by one.
Groups and marks are made at different places of the walk; what keeps them together is that every result of
the walk is `Aligned`, and that results put one after the other stay so.

* `tagsOf`, `targets` — the elements below a root in document order, and those that carry the target class.
* `Compiler.Owns` — an element owns a group: the marker of a text or of a template controller, a `let`
  element, or the element whose attributes gave the group.
* `Compiler.compileRoot_targets_own_groups` — in a compiled template, and in every definition nested in it,
  the targets own the groups in order.
-/

namespace ViewTemplate

open ViewTemplate.Text ViewTemplate.Markup

namespace Markup

mutual

/-- The elements of a tree, in document order. -/
def Node.tags : Node → List Tag
  | .element tag children => tag :: tagsOf children
  | .text .. => []
  | .comment .. => []

/-- The elements of several trees, in document order. -/
def tagsOf : List Node → List Tag
  | [] => []
  | n :: ns => n.tags ++ tagsOf ns

end

/-- There are no elements in no nodes. -/
@[simp] theorem tagsOf_nil : tagsOf [] = [] := rfl

/-- A text adds no elements. -/
@[simp] theorem tagsOf_text (value : String) (span : Source.Span) (ns : List Node) :
    tagsOf (.text value span :: ns) = tagsOf ns := rfl

/-- A comment adds no elements. -/
@[simp] theorem tagsOf_comment (value : String) (span : Source.Span) (ns : List Node) :
    tagsOf (.comment value span :: ns) = tagsOf ns := rfl

/-- An element comes first, then those in its content, and then those of its siblings. -/
@[simp] theorem tagsOf_element (tag : Tag) (children ns : List Node) :
    tagsOf (.element tag children :: ns) = tag :: (tagsOf children ++ tagsOf ns) := rfl

/-- The elements of nodes that are put together. -/
@[simp] theorem tagsOf_append : (ms ns : List Node) → tagsOf (ms ++ ns) = tagsOf ms ++ tagsOf ns
  | [], ns => rfl
  | m :: ms, ns => by rw [List.cons_append, tagsOf, tagsOf, tagsOf_append ms ns, List.append_assoc]

/-- The elements of one of the nodes are among those of all. -/
theorem mem_tagsOf {n : Node} {ns : List Node} (hn : n ∈ ns) {tag : Tag} (h : tag ∈ tagsOf [n]) :
    tag ∈ tagsOf ns := by
  obtain ⟨before, after, rfl⟩ := List.append_of_mem hn
  rw [tagsOf_append, tagsOf, List.mem_append, List.mem_append]
  rw [tagsOf, tagsOf_nil, List.append_nil] at h
  exact Or.inr (Or.inl h)

/-- Fewer nodes have fewer elements. -/
theorem tagsOf_subset_of_subset {ms ns : List Node} (h : ms ⊆ ns) : tagsOf ms ⊆ tagsOf ns := by
  intro tag htag
  induction ms with
  | nil => exact absurd htag List.not_mem_nil
  | cons m ms ih =>
    rw [tagsOf, List.mem_append] at htag
    rcases htag with htag | htag
    · exact mem_tagsOf (h List.mem_cons_self) (by simpa [tagsOf] using htag)
    · exact ih (fun x hx => h (List.mem_cons_of_mem m hx)) htag

/-- The elements that carry the class, in document order. -/
def targets (cls : String) (ns : List Node) : List Tag :=
  (tagsOf ns).filter (·.hasClass cls)

/-- The targets of nodes that are put together. -/
@[simp] theorem targets_append (cls : String) (ms ns : List Node) :
    targets cls (ms ++ ns) = targets cls ms ++ targets cls ns := by
  simp [targets]

/-- No `class` attribute of any element has the class among its words. -/
def ClassFree (cls : String) (ns : List Node) : Prop :=
  ∀ tag ∈ tagsOf ns, ∀ a ∈ tag.attributes, a.name = "class" → cls ∉ words a.value

instance (cls : String) (ns : List Node) : Decidable (ClassFree cls ns) :=
  inferInstanceAs (Decidable (∀ tag ∈ tagsOf ns, _))

namespace ClassFree

variable {cls : String}

/-- Nodes with fewer elements are free of the class too. -/
theorem mono {ms ns : List Node} (h : ClassFree cls ns) (hsub : tagsOf ms ⊆ tagsOf ns) :
    ClassFree cls ms :=
  fun tag htag => h tag (hsub htag)

/-- The first of the nodes is free of the class. -/
theorem head {n : Node} {ns : List Node} (h : ClassFree cls (n :: ns)) : ClassFree cls [n] :=
  h.mono fun _ htag => mem_tagsOf List.mem_cons_self htag

/-- The nodes behind the first are free of the class. -/
theorem tail {n : Node} {ns : List Node} (h : ClassFree cls (n :: ns)) : ClassFree cls ns :=
  h.mono (tagsOf_subset_of_subset (List.subset_cons_self n ns))

/-- The content of an element is free of the class. -/
theorem children {tag : Tag} {kids : List Node} (h : ClassFree cls [.element tag kids]) :
    ClassFree cls kids := by
  apply h.mono
  intro t ht
  simp [ht]

/-- The nodes that are left of some are free of the class. -/
theorem filter {ns : List Node} (h : ClassFree cls ns) (p : Node → Bool) : ClassFree cls (ns.filter p) :=
  h.mono (tagsOf_subset_of_subset (List.filter_subset_self ns))

/-- Nodes that are free of the class have no targets. -/
theorem targets_eq_nil {ns : List Node} (h : ClassFree cls ns) : targets cls ns = [] := by
  unfold targets
  rw [List.filter_eq_nil_iff]
  intro tag htag
  simp [Tag.hasClass_eq_false (h tag htag)]

end ClassFree

end Markup

namespace Compiler

variable {c : Compiler}

/-! ### Owners -/

/-- The tag of a marker. -/
def markerTag (c : Compiler) : Tag :=
  { name := c.config.markerTag, attributes := [{ name := "class", value := c.config.targetClass }] }

/-- A marker is an empty element with the tag of markers. -/
theorem marker_eq (c : Compiler) : c.marker = .element c.markerTag [] := rfl

/-- The element owns the group: it is the marker that stands for a text or for the host of a template
controller, a `let` element with its own bindings, or the element that the group was made for, marked
afterwards. -/
def Owns (c : Compiler) (tag : Tag) (group : List Instruction) : Prop :=
  match group with
  | [.textBinding _] | [.hydrateTemplateController ..] => tag = c.markerTag
  | [.hydrateLetElement ..] => tag.name = "let" ∧
      ∃ host : Tag, host.hasClass c.config.targetClass = false ∧
        tag = host.addClass c.config.targetClass ∧ c.letGroup host = .ok group
  | _ => ∃ (host : Tag) (parts : List (String × Definition)),
      host.hasClass c.config.targetClass = false ∧ tag = host.addClass c.config.targetClass ∧
        c.elementGroup host (c.customElement? host) parts = .ok group

/-- A marker owns the group of a template controller. -/
theorem owns_controller (k : Controller) (d : Definition) :
    c.Owns c.markerTag [Controller.instruction k d] := rfl

/-- A `let` element with the class added owns the group that its attributes gave. -/
theorem owns_letGroup {host : Tag} {group : List Instruction} (hname : host.name = "let")
    (hclass : host.hasClass c.config.targetClass = false) (h : c.letGroup host = .ok group) :
    c.Owns (host.addClass c.config.targetClass) group := by
  obtain ⟨is, toViewModel, rfl, _⟩ := letGroup_eq_ok h
  exact ⟨hname, host, hclass, rfl, h⟩

/-- A group that attributes gave is none of the three special ones. -/
theorem owns_elementGroup {host : Tag} {parts : List (String × Definition)} {group : List Instruction}
    (hclass : host.hasClass c.config.targetClass = false)
    (h : c.elementGroup host (c.customElement? host) parts = .ok group) :
    c.Owns (host.addClass c.config.targetClass) group := by
  have hgroup : ∃ (host' : Tag) (parts : List (String × Definition)),
      host'.hasClass c.config.targetClass = false ∧
      host.addClass c.config.targetClass = host'.addClass c.config.targetClass ∧
      c.elementGroup host' (c.customElement? host') parts = .ok group := ⟨host, parts, hclass, rfl, h⟩
  obtain ⟨inside, beside, _, hbeside, heq⟩ := elementGroup_eq_ok h
  have hhead : ∀ i, group = [i] → i.isBeside = true ∨ ∃ res is ps, i = .hydrateElement res is ps := by
    intro i hi
    rw [hi] at heq
    cases hcustom : c.customElement? host with
    | none =>
      rw [hcustom] at heq
      have hb : beside = [i] := by simpa using heq.symm
      exact Or.inl (hbeside i (by rw [hb]; exact List.mem_singleton_self i))
    | some r =>
      rw [hcustom] at heq
      simp only [Option.map_some, Option.toList_some, List.singleton_append, List.cons.injEq] at heq
      exact Or.inr ⟨_, _, _, heq.1⟩
  unfold Owns
  split
  · rcases hhead _ rfl with hi | ⟨_, _, _, hi⟩ <;> cases hi
  · rcases hhead _ rfl with hi | ⟨_, _, _, hi⟩ <;> cases hi
  · rcases hhead _ rfl with hi | ⟨_, _, _, hi⟩ <;> cases hi
  · exact hgroup

/-! ### Aligned results -/

/-- The targets of the nodes own the groups in order, and no group is empty. -/
structure Aligned (c : Compiler) (ns : List Node) (groups : List (List Instruction)) : Prop where
  owns : List.Forall₂ c.Owns (targets c.config.targetClass ns) groups
  ne_nil : ∀ group ∈ groups, group ≠ []

/-- A definition whose targets own its groups. -/
def AlignedDefinition (c : Compiler) (d : Definition) : Prop :=
  c.Aligned d.template.children d.groups

/-- A result of the walk that is aligned, and whose groups hold definitions that are aligned everywhere. -/
structure AlignedOutput (c : Compiler) (o : Output) : Prop extends c.Aligned o.nodes o.groups where
  held : ∀ group ∈ o.groups, ∀ i ∈ group, ∀ d, i.Holds d → d.Everywhere c.AlignedDefinition

/-- Nodes that are left as they are have neither targets nor groups. -/
theorem alignedOutput_of_classFree {ns : List Node} (h : ClassFree c.config.targetClass ns) :
    c.AlignedOutput { nodes := ns } := by
  refine ⟨⟨?_, by simp⟩, by simp⟩
  rw [h.targets_eq_nil]
  exact .nil

/-- Aligned results stay so one after the other. -/
theorem AlignedOutput.append {a b : Output} (ha : c.AlignedOutput a) (hb : c.AlignedOutput b) :
    c.AlignedOutput (a.append b) := by
  refine ⟨⟨?_, fun group hgroup => ?_⟩, fun group hgroup => ?_⟩
  · simp only [Output.append, targets_append]
    exact List.rel_append ha.owns hb.owns
  · exact (List.mem_append.1 hgroup).elim (ha.ne_nil group) (hb.ne_nil group)
  · exact (List.mem_append.1 hgroup).elim (ha.held group) (hb.held group)

/-- The definition of an aligned result is aligned everywhere. -/
theorem AlignedOutput.definition {o : Output} (h : c.AlignedOutput o) (root : Tag) :
    (o.definition root).Everywhere c.AlignedDefinition :=
  Definition.everywhere_of_held h.toAligned h.held (by simp [Output.definition])

section

variable (hword : IsWord c.config.targetClass)
include hword

/-- A marker is a target. -/
theorem hasClass_markerTag : c.markerTag.hasClass c.config.targetClass = true :=
  Tag.hasClass_eq_true_iff.2 ⟨_, rfl, by simp [hword.words_eq]⟩

/-- A marker is the first target of the nodes that it begins. -/
theorem targets_marker (ns : List Node) :
    targets c.config.targetClass (c.marker :: ns) = c.markerTag :: targets c.config.targetClass ns := by
  simp [targets, marker_eq, hasClass_markerTag hword]

/-- The marker of a controller owns the group of the controller. -/
theorem aligned_control (k : Controller) (d : Definition) :
    c.Aligned (c.control k d).nodes (c.control k d).groups := by
  refine ⟨?_, by simp [Compiler.control]⟩
  show List.Forall₂ c.Owns (targets c.config.targetClass [c.marker]) [[Controller.instruction k d]]
  rw [targets_marker hword]
  exact .cons (owns_controller k d) .nil

/-- A marker with its controller is aligned, if what the controller holds is. -/
theorem AlignedOutput.control {k : Controller} {d : Definition}
    (hk : ∀ i ∈ k.instructions, i.isBinding = true) (hd : d.Everywhere c.AlignedDefinition) :
    c.AlignedOutput (c.control k d) :=
  ⟨aligned_control hword k d, held_control hk hd⟩

/-- An aligned result stays so when controllers are put around it. -/
theorem AlignedOutput.wrap {o : Output} (ho : c.AlignedOutput o) :
    (ks : List Controller) → (∀ k ∈ ks, ∀ i ∈ k.instructions, i.isBinding = true) →
      c.AlignedOutput (c.wrap ks o)
  | [], _ => ho
  | k :: ks, hks => by
    have hnest := everywhere_nest (aligned_control hword) (ho.definition templateTag) ks
      fun k hk => hks k (List.mem_cons_of_mem _ hk)
    exact AlignedOutput.control hword (hks k List.mem_cons_self) hnest

/-- Aligned content stays so when it becomes the content of the innermost controller. -/
theorem AlignedOutput.wrapContent {o : Output} (ho : c.AlignedOutput o) (host : Tag) :
    (ks : List Controller) → (∀ k ∈ ks, ∀ i ∈ k.instructions, i.isBinding = true) →
      c.AlignedOutput (c.wrapContent ks host o)
  | [], _ => ho
  | k :: ks, hks => by
    have hnest := everywhere_nest (aligned_control hword) (ho.definition host) ks
      fun k hk => hks k (List.mem_cons_of_mem _ hk)
    exact AlignedOutput.control hword (hks k List.mem_cons_self) hnest

/-- An element that owns its group, if it has one, is aligned around aligned content. -/
theorem AlignedOutput.hosting {host : Tag} {group : List Instruction} {content : Output}
    (hclass : host.hasClass c.config.targetClass = false)
    (howns : c.Owns (host.addClass c.config.targetClass) group)
    (hheld : ∀ i ∈ group, ∀ d, i.Holds d → d.Everywhere c.AlignedDefinition)
    (hcontent : c.AlignedOutput content) : c.AlignedOutput (c.hosting host group content) := by
  cases group with
  | nil =>
    -- Without a group there is no mark, and the author's tag has no such class.
    refine ⟨⟨?_, hcontent.ne_nil⟩, hcontent.held⟩
    have htargets : targets c.config.targetClass [.element (c.mark host []) content.nodes] =
        targets c.config.targetClass content.nodes := by
      simp [targets, mark, hclass]
    show List.Forall₂ c.Owns (targets c.config.targetClass [.element (c.mark host []) content.nodes]) _
    rw [htargets]
    exact hcontent.owns
  | cons i is =>
    have hmark : c.mark host (i :: is) = host.addClass c.config.targetClass := rfl
    have htargets : targets c.config.targetClass [.element (c.mark host (i :: is)) content.nodes] =
        host.addClass c.config.targetClass :: targets c.config.targetClass content.nodes := by
      simp [targets, hmark, Tag.hasClass_addClass host hword]
    refine ⟨⟨?_, fun group hgroup => ?_⟩, fun group hgroup => ?_⟩
    · show List.Forall₂ c.Owns
        (targets c.config.targetClass [.element (c.mark host (i :: is)) content.nodes])
        ((i :: is) :: content.groups)
      rw [htargets]
      exact .cons howns hcontent.owns
    · rcases List.mem_cons.1 hgroup with rfl | hgroup
      · exact List.cons_ne_nil i is
      · exact hcontent.ne_nil group hgroup
    · rcases List.mem_cons.1 hgroup with rfl | hgroup
      · exact hheld
      · exact hcontent.held group hgroup

end

/-! ### The walk -/

/-- The instructions of controllers are bindings. -/
theorem isBinding_controllers : (as : List Attribute) → ∀ {ks : List Controller},
    c.controllers as = .ok ks → ∀ k ∈ ks, ∀ i ∈ k.instructions, i.isBinding = true
  | [], ks, h, k, hk => by
    cases h
    exact absurd hk List.not_mem_nil
  | a :: as, ks, h, k, hk => by
    simp only [controllers] at h
    split at h
    · exact isBinding_controllers as h k hk
    · obtain ⟨is, his, h⟩ := bind_eq_ok.1 h
      obtain ⟨others, hothers, h⟩ := bind_eq_ok.1 h
      cases pure_eq_ok.1 h
      rcases List.mem_cons.1 hk with rfl | hk
      · exact isBinding_customAttribute his
      · exact isBinding_controllers as hothers k hk

/-- To take off controllers adds no class. -/
theorem hasClass_hostTag {tag : Tag} {children : List Node}
    (h : ClassFree c.config.targetClass [.element tag children]) :
    (c.hostTag tag).hasClass c.config.targetClass = false := by
  apply Tag.hasClass_eq_false
  intro a ha
  exact h tag (by simp) a (List.mem_of_mem_filter ha)

/-- A text that is compiled is aligned: a marker with its group, or neither. -/
theorem AlignedOutput.text (hword : IsWord c.config.targetClass) {value : String} {span : Source.Span}
    {o : Output} (h : c.text value span = .ok o) : c.AlignedOutput o := by
  unfold Compiler.text at h
  split at h
  · cases h
    exact alignedOutput_of_classFree (by simp [ClassFree])
  · obtain ⟨e, _, h⟩ := bind_eq_ok.1 h
    cases e with
    | none =>
      cases pure_eq_ok.1 h
      exact alignedOutput_of_classFree (by simp [ClassFree])
    | some e =>
      cases pure_eq_ok.1 h
      refine ⟨⟨?_, by simp⟩, ?_⟩
      · show List.Forall₂ c.Owns (targets c.config.targetClass [c.marker, .text "" span]) _
        rw [targets_marker hword]
        exact .cons rfl .nil
      · intro group hgroup i hi d hd
        rw [List.mem_singleton.1 hgroup, List.mem_singleton] at hi
        subst hi
        cases hd with
        | inner hj => exact absurd hj List.not_mem_nil

/-- An element without controllers, around content that is aligned. -/
theorem AlignedOutput.own (hword : IsWord c.config.targetClass) {host : Tag} {children : List Node}
    {o : Output} (hclass : host.hasClass c.config.targetClass = false)
    (hfree : ClassFree c.config.targetClass children)
    (ih : ∀ ns content, workOf ns ≤ workOf children → c.nodes ns = .ok content →
      ClassFree c.config.targetClass ns → c.AlignedOutput content)
    (h : OwnRule c host children o) : c.AlignedOutput o := by
  cases h with
  | letElement hname hgroup =>
    exact AlignedOutput.hosting hword hclass (owns_letGroup hname hclass hgroup)
      (fun i hi d hd => absurd hd (not_holds_letGroup hgroup hi)) (alignedOutput_of_classFree hfree)
  | plain hname hcustom hgroup hcontent =>
    refine AlignedOutput.hosting hword hclass (owns_elementGroup hclass (hcustom ▸ hgroup)) ?_
      (ih children _ (Nat.le_refl _) hcontent hfree)
    intro i hi d hd
    obtain ⟨name, hmem⟩ := holds_elementGroup hgroup hi hd
    exact absurd hmem List.not_mem_nil
  | custom hname hcustom hparts hgroup hcontent =>
    have hkept := ih _ _ (workOf_keptChildren_le children) hcontent (hfree.filter _)
    refine AlignedOutput.hosting hword hclass (owns_elementGroup hclass (hcustom ▸ hgroup)) ?_
      ⟨hkept.toAligned, hkept.held⟩
    -- The definitions in the group are those of the parts, and each of them comes from a child.
    intro i hi d hd
    obtain ⟨name, hmem⟩ := holds_elementGroup hgroup hi hd
    rcases parts_eq_ok children hparts (name, d) hmem with hmem | ⟨n, hn, tag, kids, content, rfl, _, hkids, rfl⟩
    · exact absurd hmem List.not_mem_nil
    · have hpart : ClassFree c.config.targetClass [.element tag kids] :=
        hfree.mono fun t ht => mem_tagsOf hn ht
      exact (ih kids content (Nat.le_of_lt (workOf_lt_of_mem hn)) hkids hpart.children).definition (partTag tag)

/-- Every result of the walk is aligned. -/
theorem alignedOutput_nodes (hword : IsWord c.config.targetClass) {ns : List Node} {o : Output}
    (hfree : ClassFree c.config.targetClass ns) (h : c.nodes ns = .ok o) : c.AlignedOutput o := by
  revert hfree
  refine nodes_induction (motive := fun ns o => ClassFree c.config.targetClass ns → c.AlignedOutput o)
    ?_ ?_ ?_ ?_ ?_ h
  · exact alignedOutput_of_classFree
  · intro n ns first others hfirst hothers hfree
    exact (hfirst hfree.head).append (hothers hfree.tail)
  · intro value span o h _
    exact AlignedOutput.text hword h
  · intro value span hfree
    exact alignedOutput_of_classFree hfree
  · intro tag children o hrule ih hfree
    cases hrule with
    | bare hks hbare hcontent =>
      exact AlignedOutput.wrapContent hword (ih children _ (Nat.le_refl _) hcontent hfree.children) _ _
        (isBinding_controllers _ hks)
    | wrapped hks hbare hown =>
      exact AlignedOutput.wrap hword (AlignedOutput.own hword (hasClass_hostTag hfree) hfree.children ih hown)
        _ (isBinding_controllers _ hks)

/-- In a compiled template, and in every definition nested in it at any depth, the elements below the root
that carry the target class are, in document order, as many as the groups, no group is empty, and each
element owns the group in its place. -/
theorem compileRoot_targets_own_groups {c : Compiler} {root : Element} {d : Definition}
    (hword : IsWord c.config.targetClass) (hfree : ClassFree c.config.targetClass root.children)
    (h : c.compileRoot root = .ok d) :
    ∀ d' : Definition, d'.Within d →
      (targets c.config.targetClass d'.template.children).length = d'.groups.length ∧
      (∀ group ∈ d'.groups, group ≠ []) ∧
      List.Forall₂ c.Owns (targets c.config.targetClass d'.template.children) d'.groups := by
  obtain ⟨surrogates, content, hsurrogates, hcontent, rfl⟩ := compileRoot_eq_ok_iff.1 h
  have haligned := alignedOutput_nodes hword hfree hcontent
  intro d' hwithin
  have hd' : c.AlignedDefinition d' :=
    Definition.everywhere_of_held haligned.toAligned haligned.held
      (isBeside_surrogates _ hsurrogates) d' hwithin
  exact ⟨hd'.owns.length_eq, hd'.ne_nil, hd'.owns⟩

/-- A text with an interpolation, and beside it an element with two controllers and a class of its own. -/
def guardedText : Element :=
  { templateTag with
    children := [.text "a$\x7bw\x7d",
      .element { name := "div",
                 attributes := [⟨"if.bind", "x", {}, none⟩, ⟨"class", "k", {}, none⟩,
                   ⟨"repeat.for", "u of us", {}, none⟩, ⟨"id.bind", "y", {}, none⟩] }
        [.text "z$\x7bu\x7d"]] }

/-- The theorem at a text beside an element with two controllers. -/
theorem compileRoot_guardedText_targets_own_groups :
    ∃ d, ({ resources := Registry.builtin.resolver } : Compiler).compileRoot guardedText = .ok d ∧
      d.groups.length = 2 ∧
      ∀ d' : Definition, d'.Within d →
        (targets "au" d'.template.children).length = d'.groups.length ∧
        (∀ group ∈ d'.groups, group ≠ []) ∧
        List.Forall₂ ({ resources := Registry.builtin.resolver } : Compiler).Owns
          (targets "au" d'.template.children) d'.groups := by
  obtain ⟨d, hd, hlength⟩ := exists_eq_ok (f := fun d : Definition => d.groups.length) (b := 2)
    (x := ({ resources := Registry.builtin.resolver } : Compiler).compileRoot guardedText)
    (by decide +kernel)
  exact ⟨d, hd, hlength, compileRoot_targets_own_groups (by decide +kernel) (by decide +kernel) hd⟩

end Compiler

end ViewTemplate
