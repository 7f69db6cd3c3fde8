import ViewTemplate.Proofs.Compile.Nesting

/-!
# Which templates have slots

Whether a definition has slots decides whether content is projected into it.  The flag is found on the way: at a
`slot` itself, in the definition of a controller, or in that of a part, even of one that a later part of the same
name replaces.  Taken together these ways lose nothing: there is a slot just if the source has one outside of all
`let` elements, and a definition has slots if one that is nested in it has.

* `StandsBelow` — where an element stands in a tree: the elements around it.
* `HasSlot` — whether there is a slot among nodes or below them, outside of all `let` elements.
* `Compiler.hasSlots_nodes` — a walk notes slots just where there are some.
* `Compiler.hasSlot_of_reaches` — slots in what a walk reaches are slots of where it started.
* `Compiler.compileRoot_hasSlots` — the slots of a compiled template and of all that is nested in it.
-/

namespace ViewTemplate

open ViewTemplate.Text ViewTemplate.Markup

namespace Markup

/-! ### Elements and what is around them -/

/-- An element with the tag stands among the nodes or below them, inside the given elements, outermost first. -/
inductive StandsBelow : List Node → List Tag → Tag → Prop where
  | here {ns : List Node} {tag : Tag} {kids : List Node} : .element tag kids ∈ ns → StandsBelow ns [] tag
  | inside {ns : List Node} {outer : Tag} {kids : List Node} {around : List Tag} {tag : Tag} :
      .element outer kids ∈ ns → StandsBelow kids around tag → StandsBelow ns (outer :: around) tag

/-- A `slot` stands among the nodes or below them, outside of all `let` elements. -/
def HasSlot (ns : List Node) : Prop :=
  ∃ around tag, StandsBelow ns around tag ∧ tag.name = "slot" ∧ ∀ outer ∈ around, outer.name ≠ "let"

/-- A slot is one of the nodes, or stands in the content of one that is no `let`. -/
theorem hasSlot_iff {ns : List Node} : HasSlot ns ↔
    ∃ tag kids, .element tag kids ∈ ns ∧ (tag.name = "slot" ∨ tag.name ≠ "let" ∧ HasSlot kids) := by
  constructor
  · rintro ⟨around, tag, hstands, hname, haround⟩
    cases hstands with
    | here hmem => exact ⟨_, _, hmem, .inl hname⟩
    | inside hmem hstands =>
      obtain ⟨houter, haround⟩ := List.forall_mem_cons.1 haround
      exact ⟨_, _, hmem, .inr ⟨houter, _, _, hstands, hname, haround⟩⟩
  · rintro ⟨tag, kids, hmem, hname | ⟨houter, around, inner, hstands, hname, haround⟩⟩
    · exact ⟨[], tag, .here hmem, hname, nofun⟩
    · exact ⟨tag :: around, inner, .inside hmem hstands, hname, List.forall_mem_cons.2 ⟨houter, haround⟩⟩

/-- There is no slot in no nodes. -/
theorem not_hasSlot_nil : ¬ HasSlot [] := by
  rw [hasSlot_iff]
  rintro ⟨tag, kids, hmem, -⟩
  exact absurd hmem List.not_mem_nil

/-- A slot among some nodes is one among more. -/
theorem HasSlot.mono {ns ms : List Node} (h : HasSlot ns) (hsub : ns ⊆ ms) : HasSlot ms := by
  obtain ⟨tag, kids, hmem, hslot⟩ := hasSlot_iff.1 h
  exact hasSlot_iff.2 ⟨tag, kids, hsub hmem, hslot⟩

/-- There is a slot among nodes that are put together exactly if there is one in either part. -/
theorem hasSlot_append {ns ms : List Node} : HasSlot (ns ++ ms) ↔ HasSlot ns ∨ HasSlot ms := by
  constructor
  · intro h
    obtain ⟨tag, kids, hmem, hslot⟩ := hasSlot_iff.1 h
    rcases List.mem_append.1 hmem with hmem | hmem
    · exact .inl (hasSlot_iff.2 ⟨tag, kids, hmem, hslot⟩)
    · exact .inr (hasSlot_iff.2 ⟨tag, kids, hmem, hslot⟩)
  · rintro (h | h)
    · exact h.mono (List.subset_append_left ns ms)
    · exact h.mono (List.subset_append_right ns ms)

/-- There is a slot exactly if there is one at the first node or among the others. -/
theorem hasSlot_cons {n : Node} {ns : List Node} : HasSlot (n :: ns) ↔ HasSlot [n] ∨ HasSlot ns := by
  rw [← hasSlot_append, List.singleton_append]

/-- There is a slot at an element exactly if it is one, or holds one and is no `let`. -/
theorem hasSlot_element {tag : Tag} {kids : List Node} :
    HasSlot [.element tag kids] ↔ tag.name = "slot" ∨ tag.name ≠ "let" ∧ HasSlot kids := by
  rw [hasSlot_iff]
  constructor
  · rintro ⟨tag', kids', hmem, hslot⟩
    cases List.mem_singleton.1 hmem
    exact hslot
  · intro hslot
    exact ⟨tag, kids, List.mem_singleton_self _, hslot⟩

/-- Attributes do not matter. -/
theorem hasSlot_withAttributes (tag : Tag) (attributes : List Attribute) (kids : List Node) :
    HasSlot [.element { tag with attributes } kids] ↔ HasSlot [.element tag kids] := by
  rw [hasSlot_element, hasSlot_element]

/-- There is no slot at a node that is no element. -/
theorem not_hasSlot_of_tag?_eq_none {n : Node} (h : n.tag? = none) : ¬ HasSlot [n] := by
  rw [hasSlot_iff]
  rintro ⟨tag, kids, hmem, -⟩
  rw [← List.mem_singleton.1 hmem] at h
  cases h

/-- A `template` is neither a slot nor a `let`: its slots are those of its content. -/
theorem hasSlot_template {tag : Tag} (h : tag.isTemplate = true) {kids : List Node} :
    HasSlot [.element tag kids] ↔ HasSlot kids := by
  have hname : tag.name = "template" := of_decide_eq_true h
  rw [hasSlot_element, hname]
  simp

/-- The slots of nodes of which some are set apart. -/
theorem hasSlot_filter_or (p : Node → Bool) (ns : List Node) :
    HasSlot (ns.filter p) ∨ HasSlot (ns.filter fun n => !p n) ↔ HasSlot ns := by
  rw [← hasSlot_append]
  constructor
  · intro h
    refine h.mono fun n hn => ?_
    rcases List.mem_append.1 hn with hn | hn
    · exact (List.mem_filter.1 hn).1
    · exact (List.mem_filter.1 hn).1
  · intro h
    refine h.mono fun n hn => List.mem_append.2 ?_
    cases hp : p n with
    | true => exact .inl (List.mem_filter.2 ⟨hn, hp⟩)
    | false => exact .inr (List.mem_filter.2 ⟨hn, by simp [hp]⟩)

end Markup

namespace Compiler

variable {c : Compiler}

/-! ### The slots that a walk notes -/

/-- What is left of a host when a controller has been taken off has the slots of the host. -/
theorem hasSlot_bodyRoot (tag : Tag) (rest : List Attribute) (kids : List Node) :
    HasSlot (bodyRoot { tag with attributes := rest } kids).children ↔ HasSlot [.element tag kids] := by
  unfold bodyRoot
  split
  · next hbare =>
    have htemplate : tag.isTemplate = true := (Bool.and_eq_true_iff.1 hbare).1
    exact (hasSlot_template htemplate).symm
  · exact hasSlot_withAttributes tag rest kids

/-- The slots in parts, those that are replaced by later ones among them. -/
theorem hasSlots_parts : (ns : List Node) → ∀ {soFar parts : Parts}, c.parts soFar ns = .ok parts →
    (∀ tag kids content, .element tag kids ∈ ns → c.nodes kids = .ok content →
      (content.hasSlots = true ↔ HasSlot kids)) →
    (parts.hasSlots = true ↔ soFar.hasSlots = true ∨ HasSlot (ns.filter isPartNode))
  | [], soFar, ps, h, _ => by
    rw [parts] at h
    cases h
    simp [not_hasSlot_nil]
  | .text value span :: ns, soFar, ps, h, ih => by
    rw [parts_cons_of_tag?_eq_none rfl] at h
    exact hasSlots_parts ns h fun tag kids content hmem => ih tag kids content (List.mem_cons_of_mem _ hmem)
  | .comment value span :: ns, soFar, ps, h, ih => by
    rw [parts_cons_of_tag?_eq_none rfl] at h
    exact hasSlots_parts ns h fun tag kids content hmem => ih tag kids content (List.mem_cons_of_mem _ hmem)
  | .element tag kids :: ns, soFar, ps, h, ih => by
    have ih' := fun tag kids content hmem => ih tag kids content (List.mem_cons_of_mem _ hmem)
    rw [parts] at h
    split at h
    · next hpart =>
      obtain ⟨content, hcontent, h⟩ := bind_eq_ok.1 h
      have hfilter : (Node.element tag kids :: ns).filter isPartNode =
          .element tag kids :: ns.filter isPartNode :=
        List.filter_cons_of_pos hpart
      have hslot : content.hasSlots = true ↔ HasSlot kids := ih tag kids content List.mem_cons_self hcontent
      -- A part that is replaced later on is gone from the table, but its slots have been noted.
      rw [hasSlots_parts ns h ih', hfilter, hasSlot_cons, hasSlot_template (Bool.and_eq_true_iff.1 hpart).1,
        ← hslot, ← or_assoc]
      simp [Parts.insert, Output.definition]
    · next hpart =>
      have hfilter : (Node.element tag kids :: ns).filter isPartNode = ns.filter isPartNode :=
        List.filter_cons_of_neg hpart
      rw [hasSlots_parts ns h ih', hfilter]

/-- An element without controllers reports a slot exactly if there is one at it. -/
theorem hasSlots_own {tag : Tag} {kids : List Node} {o : Output} (hrule : OwnRule c tag kids o)
    (ih : ∀ ns content, workOf ns < (Node.element tag kids).work → c.nodes ns = .ok content →
      (content.hasSlots = true ↔ HasSlot ns)) : o.hasSlots = true ↔ HasSlot [.element tag kids] := by
  have hlt := workOf_children_lt tag kids
  rw [hasSlot_element]
  cases hrule with
  | letElement hname _ => simp [hosting, hname]
  | @plain group content hname _ _ hcontent =>
    rw [← ih kids content hlt hcontent]
    simp [hosting, hname]
  | @custom r parts group content hname _ hparts _ hcontent =>
    have hkept := ih _ content (Nat.lt_of_le_of_lt (workOf_filter_le _ kids) hlt) hcontent
    have hlifted := hasSlots_parts kids hparts fun part inner content hmem =>
      ih inner content (Nat.lt_trans (Nat.lt_of_lt_of_le (workOf_children_lt part inner) (work_le_workOf hmem)) hlt)
    rw [← hasSlot_filter_or isPartNode kids, ← hkept]
    simp [hosting, hname, hlifted]

/-- A walk notes a slot just if there is one. -/
theorem hasSlots_nodes {ns : List Node} {o : Output} (h : c.nodes ns = .ok o) :
    o.hasSlots = true ↔ HasSlot ns := by
  refine step_induction (motive := fun ns o => o.hasSlots = true ↔ HasSlot ns) ?_ ?_ ?_ ?_ ?_ h
  · simp [not_hasSlot_nil]
  · intro n ns first others hfirst hothers
    rw [hasSlot_cons, ← hfirst, ← hothers]
    simp [Output.append]
  · intro value span o htext
    have hno : ¬ HasSlot [.text value span] := not_hasSlot_of_tag?_eq_none rfl
    rcases text_eq_ok htext with ⟨e, -, rfl⟩ | rfl | rfl
    · simp [hno]
    · simp [hno]
    · simp [hno]
  · intro value span
    simp [not_hasSlot_of_tag?_eq_none (n := .comment value span) rfl]
  · intro tag kids o hrule ih
    cases hrule with
    | own _ hown => exact hasSlots_own hown ih
    | @controlled before after a k d htag ha his hd =>
      obtain ⟨content, hcontent, rfl⟩ := definition_eq_ok_iff.1 hd
      have hless : (before ++ after).length < tag.attributes.length := by
        simp [htag]
      exact (ih _ content (workOf_bodyRoot_lt hless kids) hcontent).trans (hasSlot_bodyRoot tag _ kids)

/-! ### Nested definitions -/

/-- Slots in what a walk reaches are slots of where it started. -/
theorem hasSlot_of_reaches {ns ms : List Node} (h : c.Reaches ns ms) (hslot : HasSlot ms) : HasSlot ns := by
  induction h with
  | refl => exact hslot
  | sub _ hsub ih => exact ih (hslot.mono hsub)
  | content _ hmem hname ih => exact ih (hasSlot_iff.2 ⟨_, _, hmem, .inr ⟨hname, hslot⟩⟩)
  | body _ hmem _ _ ih =>
    have hhost := (hasSlot_withAttributes _ _ _).1 hslot
    exact ih (hhost.mono (List.cons_subset.2 ⟨hmem, List.nil_subset _⟩))

/-- What the groups of a walk hold has slots only if the walk has noted one. -/
theorem hasSlots_of_holds {ns : List Node} {o : Output} (h : c.nodes ns = .ok o) {group : List Instruction}
    (hgroup : group ∈ o.groups) {i : Instruction} (hi : i ∈ group) {held : Definition} (hheld : i.Holds held)
    (hslots : held.hasSlots = true) : o.hasSlots = true := by
  obtain ⟨ms, content, root, hreaches, hcontent, rfl⟩ := held_nodes h group hgroup i hi held hheld held .refl
  exact (hasSlots_nodes h).2 (hasSlot_of_reaches hreaches ((hasSlots_nodes hcontent).1 hslots))

end Compiler

/-- One of the definition's instructions holds the other definition: for a controller, or as a part. -/
def Definition.Holds (d held : Definition) : Prop :=
  ∃ i, ((∃ group ∈ d.groups, i ∈ group) ∨ i ∈ d.surrogates) ∧ i.Holds held

namespace Compiler

variable {c : Compiler}

/-- A compiled template has slots just if a `slot` stands below its root that no `let` between the two is around.  In
it and in every definition that is nested in it, at any depth, no slot of a definition that is held goes unnoted. -/
theorem compileRoot_hasSlots {root : Element} {d : Definition} (h : c.compileRoot root = .ok d) :
    (d.hasSlots = true ↔ ∃ around tag, StandsBelow root.children around tag ∧ tag.name = "slot" ∧
      ∀ outer ∈ around, outer.name ≠ "let") ∧
    ∀ d' : Definition, d'.Within d → ∀ held, d'.Holds held → held.hasSlots = true → d'.hasSlots = true := by
  have hroot := h
  obtain ⟨surrogates, content, hsurrogates, hcontent, rfl⟩ := compileRoot_eq_ok_iff.1 h
  refine ⟨hasSlots_nodes hcontent, ?_⟩
  rintro d' hwithin held ⟨i, hi, hheld⟩ hslots
  rcases Definition.within_iff.1 hwithin with rfl | hnested
  · rcases hi with ⟨group, hgroup, hi⟩ | hi
    · exact hasSlots_of_holds hcontent hgroup hi hheld hslots
    · exact absurd hheld (Instruction.not_holds_of_isBeside (isBeside_surrogates _ hsurrogates i hi))
  · obtain ⟨ms, inner, tag, -, hinner, rfl⟩ := walkedIn_of_nestedIn hroot hnested
    rcases hi with ⟨group, hgroup, hi⟩ | hi
    · exact hasSlots_of_holds hinner hgroup hi hheld hslots
    · exact absurd hi List.not_mem_nil

/-- A slot in a part that a later part replaces, under a controller; and one inside a `let`. -/
def replacedSlot : Element :=
  { templateTag with
    children := [.element { name := "x-y", attributes := [⟨"if.bind", "a", {}, none⟩] }
        [.element { name := "template", attributes := [⟨"replace-part", "b", {}, none⟩] }
          [.element { name := "slot" } []],
        .element { name := "template", attributes := [⟨"replace-part", "b", {}, none⟩] } []],
      .element { name := "let" } [.element { name := "slot" } []]] }

/-- The resources of `replacedSlot`. -/
def replacedSlotResources : Resolver :=
  (Registry.builtin.register (.customElement "x-y")).resolver

/-- The theorem at a slot in a part that a later part replaces. -/
theorem compileRoot_replacedSlot_hasSlots : ∃ d,
    ({ resources := replacedSlotResources } : Compiler).compileRoot replacedSlot = .ok d ∧ d.hasSlots = true ∧
      (∃ around tag, StandsBelow replacedSlot.children around tag ∧ tag.name = "slot" ∧
        ∀ outer ∈ around, outer.name ≠ "let") ∧
      ∀ d' : Definition, d'.Within d → ∀ held, d'.Holds held → held.hasSlots = true → d'.hasSlots = true := by
  obtain ⟨d, hd, hslots⟩ := exists_eq_ok (f := fun d : Definition => d.hasSlots) (b := true)
    (x := ({ resources := replacedSlotResources } : Compiler).compileRoot replacedSlot) (by decide +kernel)
  obtain ⟨hiff, hheld⟩ := compileRoot_hasSlots hd
  exact ⟨d, hd, hslots, hiff.1 hslots, hheld⟩

end Compiler

end ViewTemplate
