import ViewTemplate.Proofs.Compile.Controllers

/-!
# Nested definitions are walks

Every definition that is nested in a compiled template comes from a walk of its own: over the content of a part,
or over what is left of an element when one controller has been taken off.  So what is proved of all walks holds at
every depth, and nothing has to be said about nesting again.

* `Compiler.StepRule` — one step over an element: its first controller is taken off, or it has none.
* `Compiler.step_induction` — induction along a successful walk, by these steps.
* `Compiler.Reaches` — the lists of nodes that a walk goes on to.
* `Compiler.walkedIn_of_nestedIn` — every nested definition is that of nodes which the walk reaches.
-/

namespace ViewTemplate

open ViewTemplate.Text ViewTemplate.Markup

namespace Compiler

variable {c : Compiler}

/-! ### One step over an element -/

/-- An element without controllers is compiled by its own rules alone. -/
theorem node_eq_own {tag : Tag} (h : ∀ a ∈ tag.attributes, c.controller? a = none) (kids : List Node) :
    c.node (.element tag kids) = c.own tag kids := by
  have hnil := controllers_eq_nil_of_forall_none _ h
  have hbare : ¬ c.IsBare tag [] := fun hbare => hbare.1 rfl
  rw [node_element, hnil, hostTag_eq_self hnil]
  simp only [bind, Except.bind, if_neg hbare]
  cases c.own tag kids with
  | error e => rfl
  | ok o => rfl

/-- What takes the place of an element, seen from outside: the marker of its first controller, which holds the
definition of what is left, or the element itself. -/
inductive StepRule (c : Compiler) (tag : Tag) (kids : List Node) : Output → Prop where
  | controlled {before after : List Attribute} {a : Attribute} {k : Controller} {d : Definition} :
      tag.attributes = before ++ a :: after → c.controller? a = some k.resource →
      c.customAttribute k.resource a.name a.value = .ok k.instructions →
      c.definition (bodyRoot { tag with attributes := before ++ after } kids) = .ok d →
      StepRule c tag kids (c.control k d)
  | own {o : Output} : (∀ a ∈ tag.attributes, c.controller? a = none) → OwnRule c tag kids o →
      StepRule c tag kids o

/-- A successful walk over an element is one step. -/
theorem stepRule_node {tag : Tag} {kids : List Node} {o : Output} (h : c.node (.element tag kids) = .ok o) :
    c.StepRule tag kids o := by
  cases hfirst : c.firstController? tag.attributes with
  | none =>
    have hnone := firstController?_eq_none _ hfirst
    rw [node_eq_own hnone] at h
    exact .own hnone (own_eq_ok_iff.1 h)
  | some first =>
    obtain ⟨a, r, rest⟩ := first
    obtain ⟨before, after, hattributes, rfl, hbefore, ha⟩ := firstController?_eq_some _ hfirst
    rw [node_eq_of_firstController hattributes hbefore ha] at h
    obtain ⟨is, his, h⟩ := bind_eq_ok.1 h
    obtain ⟨d, hd, h⟩ := bind_eq_ok.1 h
    cases pure_eq_ok.1 h
    exact .controlled (k := ⟨r, is⟩) hattributes ha his hd

/-- What takes the place of a text: a marker with its binding and an empty text, nothing, or the text itself. -/
theorem text_eq_ok {value : String} {span : Source.Span} {o : Output} (h : c.text value span = .ok o) :
    (∃ e, c.reader.interpolation? value = .ok (some e) ∧
      o = ⟨[c.marker, .text "" span], [[.textBinding e]], false⟩) ∨
    o = {} ∨ o = { nodes := [.text value span] } := by
  unfold text at h
  split at h
  · cases h
    exact .inr (.inl rfl)
  · obtain ⟨e, he, h⟩ := bind_eq_ok.1 h
    cases e with
    | none => exact .inr (.inr (pure_eq_ok.1 h).symm)
    | some e => exact .inl ⟨e, he, (pure_eq_ok.1 h).symm⟩

/-- The groups of an element are its own, if it has one, and those of its content. -/
theorem forall_mem_hosting {P : List Instruction → Prop} {host : Tag} {group : List Instruction} {content : Output}
    (hgroup : P group) (hcontent : ∀ g ∈ content.groups, P g) : ∀ g ∈ (c.hosting host group content).groups, P g := by
  refine List.forall_mem_append.2 ⟨fun g hg => ?_, hcontent⟩
  unfold groupsOf at hg
  split at hg
  · exact absurd hg List.not_mem_nil
  · rwa [List.mem_singleton.1 hg]

/-- Induction along a successful walk, by steps.  For an element the statement is at hand of all nodes that are less
work than the element. -/
theorem step_induction {motive : List Node → Output → Prop}
    (nil : motive [] {})
    (cons : ∀ {n ns first others}, motive [n] first → motive ns others →
      motive (n :: ns) (first.append others))
    (text : ∀ {value span o}, c.text value span = .ok o → motive [.text value span] o)
    (comment : ∀ value span, motive [.comment value span] { nodes := [.comment value span] })
    (element : ∀ {tag kids o}, c.StepRule tag kids o →
      (∀ ns content, workOf ns < (Node.element tag kids).work → c.nodes ns = .ok content → motive ns content) →
      motive [.element tag kids] o)
    {ns : List Node} {o : Output} (h : c.nodes ns = .ok o) : motive ns o :=
  walk_induction nil cons text comment (fun hnode ih => element (stepRule_node hnode) ih) h

/-! ### What a walk reaches -/

/-- The lists of nodes that a walk over `ns` goes on to: nodes among those it has reached, the content of an element,
and what is left of an element when one controller is taken off.  It does not go into `let` elements. -/
inductive Reaches (c : Compiler) (ns : List Node) : List Node → Prop where
  | refl : Reaches c ns ns
  | sub {ms ms' : List Node} : Reaches c ns ms → ms' ⊆ ms → Reaches c ns ms'
  | content {ms : List Node} {tag : Tag} {kids : List Node} : Reaches c ns ms → .element tag kids ∈ ms →
      tag.name ≠ "let" → Reaches c ns kids
  | body {ms : List Node} {tag : Tag} {kids : List Node} {before after : List Attribute} {a : Attribute}
      {r : Resource} : Reaches c ns ms → .element tag kids ∈ ms → tag.attributes = before ++ a :: after →
      c.controller? a = some r → Reaches c ns [.element { tag with attributes := before ++ after } kids]

/-- What is reached from what is reached is reached. -/
theorem Reaches.trans {ns ms ks : List Node} (h : c.Reaches ns ms) (h' : c.Reaches ms ks) : c.Reaches ns ks := by
  induction h' with
  | refl => exact h
  | sub _ hsub ih => exact ih.sub hsub
  | content _ hmem hname ih => exact ih.content hmem hname
  | body _ hmem htag ha ih => exact ih.body hmem htag ha

/-- A `template` is no `let`. -/
theorem ne_let_of_isTemplate {tag : Tag} (h : tag.isTemplate = true) : tag.name ≠ "let" := by
  have hname : tag.name = "template" := of_decide_eq_true h
  rw [hname]
  decide

/-- The walk goes on to what is left of an element when a controller is taken off. -/
theorem reaches_bodyRoot {tag : Tag} {kids : List Node} {before after : List Attribute} {a : Attribute}
    {r : Resource} (htag : tag.attributes = before ++ a :: after) (ha : c.controller? a = some r) :
    c.Reaches [.element tag kids] (bodyRoot { tag with attributes := before ++ after } kids).children := by
  unfold bodyRoot
  split
  · next hbare =>
    have htemplate : tag.isTemplate = true := (Bool.and_eq_true_iff.1 hbare).1
    exact Reaches.refl.content List.mem_cons_self (ne_let_of_isTemplate htemplate)
  · exact Reaches.refl.body List.mem_cons_self htag ha

/-- The definition is that of nodes which the walk over `ns` reaches. -/
def WalkedIn (c : Compiler) (ns : List Node) (d : Definition) : Prop :=
  ∃ ms content root, c.Reaches ns ms ∧ c.nodes ms = .ok content ∧ d = content.definition root

/-- All that the groups hold comes from walks over what has been reached. -/
def Held (c : Compiler) (ns : List Node) (groups : List (List Instruction)) : Prop :=
  ∀ group ∈ groups, ∀ i ∈ group, ∀ d, i.Holds d → d.Everywhere (c.WalkedIn ns)

/-- What comes from nodes that were reached comes from where they were reached from. -/
theorem Held.reach {ns ms : List Node} {groups : List (List Instruction)} (h : c.Held ms groups)
    (hreaches : c.Reaches ns ms) : c.Held ns groups := by
  intro group hgroup i hi d hd d' hd'
  obtain ⟨ks, content, root, hks, hcontent, rfl⟩ := h group hgroup i hi d hd d' hd'
  exact ⟨ks, content, root, hreaches.trans hks, hcontent, rfl⟩

/-- The definition of a walk over nodes that were reached, and everything nested in it. -/
theorem Held.everywhere {ns ms : List Node} {content : Output} (h : c.Held ms content.groups)
    (hreaches : c.Reaches ns ms) (hcontent : c.nodes ms = .ok content) (root : Tag) :
    (content.definition root).Everywhere (c.WalkedIn ns) :=
  Definition.everywhere_of_held ⟨ms, content, root, hreaches, hcontent, rfl⟩ (h.reach hreaches) nofun

/-- The group of a text holds no definition. -/
theorem held_text {ns : List Node} {value : String} {span : Source.Span} {o : Output}
    (h : c.text value span = .ok o) : c.Held ns o.groups := by
  rcases text_eq_ok h with ⟨e, -, rfl⟩ | rfl | rfl
  · refine List.forall_mem_singleton.2 (List.forall_mem_singleton.2 fun d hd => ?_)
    cases hd with
    | inner hj => exact absurd hj List.not_mem_nil
  · exact nofun
  · exact nofun

/-- The groups of an element without controllers hold its parts, and what its content holds. -/
theorem held_own {tag : Tag} {kids : List Node} {o : Output} (hrule : OwnRule c tag kids o)
    (ih : ∀ ns content, workOf ns < (Node.element tag kids).work → c.nodes ns = .ok content →
      c.Held ns content.groups) : c.Held [.element tag kids] o.groups := by
  have hlt := workOf_children_lt tag kids
  cases hrule with
  | letElement hname hgroup =>
    exact forall_mem_hosting (fun i hi d hd => absurd hd (not_holds_letGroup hgroup hi)) nofun
  | plain hname hcustom hgroup hcontent =>
    refine forall_mem_hosting (fun i hi d hd => ?_)
      ((ih kids _ hlt hcontent).reach (Reaches.refl.content List.mem_cons_self hname))
    obtain ⟨name, hmem⟩ := holds_elementGroup hgroup hi hd
    exact absurd hmem List.not_mem_nil
  | @custom r parts group content hname hcustom hparts hgroup hcontent =>
    have hkids : c.Reaches [.element tag kids] kids := Reaches.refl.content List.mem_cons_self hname
    have hkept := ih _ content (Nat.lt_of_le_of_lt (workOf_keptChildren_le kids) hlt) hcontent
    have hcontent' : c.Held [.element tag kids] content.groups :=
      hkept.reach (hkids.sub (List.filter_subset_self kids))
    refine forall_mem_hosting (fun i hi d hd => ?_) hcontent'
    -- The definitions in the group are those of the parts, and each of them comes from a child.
    obtain ⟨name, hmem⟩ := holds_elementGroup hgroup hi hd
    rcases parts_eq_ok kids hparts (name, d) hmem with hmem | ⟨n, hn, part, inner, o, rfl, hpart, hinner, rfl⟩
    · exact absurd hmem List.not_mem_nil
    · have hpartName := ne_let_of_isTemplate (Bool.and_eq_true_iff.1 hpart).1
      exact (ih inner o (Nat.lt_trans (workOf_lt_of_mem hn) hlt) hinner).everywhere (hkids.content hn hpartName) hinner (partTag part)

/-- All that the groups of a walk hold comes from nodes that it reached. -/
theorem held_nodes {ns : List Node} {o : Output} (h : c.nodes ns = .ok o) : c.Held ns o.groups := by
  refine step_induction (motive := fun ns o => c.Held ns o.groups) ?_ ?_ ?_ ?_ ?_ h
  · exact nofun
  · intro n ns first others hfirst hothers
    have hhead : c.Reaches (n :: ns) [n] := Reaches.refl.sub (by simp)
    have htail : c.Reaches (n :: ns) ns := Reaches.refl.sub (List.subset_cons_self n ns)
    exact List.forall_mem_append.2 ⟨hfirst.reach hhead, hothers.reach htail⟩
  · intro value span o h
    exact held_text h
  · intro value span
    exact nofun
  · intro tag kids o hrule ih
    cases hrule with
    | own _ hown => exact held_own hown ih
    | @controlled before after a k d htag ha his hd =>
      obtain ⟨content, hcontent, rfl⟩ := definition_eq_ok_iff.1 hd
      have hless : (before ++ after).length < tag.attributes.length := by
        simp [htag]
      have hbody := ih _ content (workOf_bodyRoot_lt hless kids) hcontent
      exact held_control (isBinding_customAttribute his)
        (hbody.everywhere (reaches_bodyRoot htag ha) hcontent _)

end Compiler

/-! ### Nested definitions -/

/-- The definition is nested in the other one: an instruction of the other one holds it, at some depth. -/
def Definition.NestedIn (d' d : Definition) : Prop :=
  ∃ i held, ((∃ group ∈ d.groups, i ∈ group) ∨ i ∈ d.surrogates) ∧ i.Holds held ∧ d'.Within held

/-- Within a definition are the definition itself and those nested in it. -/
theorem Definition.within_iff {d d' : Definition} : d'.Within d ↔ d' = d ∨ d'.NestedIn d := by
  constructor
  · intro h
    cases h with
    | refl => exact .inl rfl
    | group hgroup hi hholds hrest => exact .inr ⟨_, _, .inl ⟨_, hgroup, hi⟩, hholds, hrest⟩
    | surrogate hi hholds hrest => exact .inr ⟨_, _, .inr hi, hholds, hrest⟩
  · rintro (rfl | ⟨i, held, ⟨group, hgroup, hi⟩ | hi, hholds, hrest⟩)
    · exact .refl
    · exact .group hgroup hi hholds hrest
    · exact .surrogate hi hholds hrest

/-- Every definition that is nested in a compiled template is that of nodes which the walk over the root's children
reaches. -/
theorem Compiler.walkedIn_of_nestedIn {c : Compiler} {root : Element} {d d' : Definition}
    (h : c.compileRoot root = .ok d) (hnested : d'.NestedIn d) : c.WalkedIn root.children d' := by
  obtain ⟨surrogates, content, hsurrogates, hcontent, rfl⟩ := compileRoot_eq_ok_iff.1 h
  obtain ⟨i, held, ⟨group, hgroup, hi⟩ | hi, hholds, hwithin⟩ := hnested
  · exact held_nodes hcontent group hgroup i hi held hholds d' hwithin
  · exact absurd hholds (Instruction.not_holds_of_isBeside (isBeside_surrogates _ hsurrogates i hi))

end ViewTemplate
