import ViewTemplate.Compile.InPlace
import ViewTemplate.Compile.Template
import ViewTemplate.Proofs.Results

/-!
# The rules of the tree walk

What a successful walk over a tree can have done, said once.  Everything that is proved about the results
of the walk goes through the statements of this module and never opens the walk itself.

* `ElementRule` — what takes the place of an element, and from what: the content of a bare `template`
  under controllers, or the element itself without them (`OwnRule`), wrapped in its controllers.
* `node_element_eq_ok_iff` — the walk over an element succeeds exactly by one of these rules.
* `keptNodes_eq_nodes`, `parts_eq_ok` — the two passes over the children of a custom element.
* `walk_induction`, `nodes_induction` — induction along a successful walk, without and with the rules for elements.
* `definition_eq_ok_iff`, `compileRoot_eq_ok_iff` — the same for definitions and roots.
-/

namespace ViewTemplate

open ViewTemplate.Text ViewTemplate.Markup

namespace Compiler

variable {c : Compiler}

/-! ### Controllers and hosts -/

/-- Attributes none of which is a controller have no controllers. -/
theorem controllers_eq_nil_of_forall_none : (as : List Attribute) →
    (∀ a ∈ as, c.controller? a = none) → c.controllers as = .ok []
  | [], _ => rfl
  | a :: as, h => by
    simp only [controllers, h a List.mem_cons_self]
    exact controllers_eq_nil_of_forall_none as fun b hb => h b (List.mem_cons_of_mem a hb)

/-- Without controllers in the result there was none among the attributes. -/
theorem controller?_eq_none_of_controllers_eq_nil : (as : List Attribute) →
    c.controllers as = .ok [] → ∀ a ∈ as, c.controller? a = none
  | [], _ => fun a ha => absurd ha List.not_mem_nil
  | a :: as, h => by
    simp only [controllers] at h
    split at h
    · next hnone =>
      intro b hb
      rcases List.mem_cons.1 hb with rfl | hb
      · exact hnone
      · exact controller?_eq_none_of_controllers_eq_nil as h b hb
    · obtain ⟨is, _, h⟩ := bind_eq_ok.1 h
      obtain ⟨others, _, h⟩ := bind_eq_ok.1 h
      cases pure_eq_ok.1 h

/-- A tag without controllers is its own host. -/
theorem hostTag_eq_self {tag : Tag} (h : c.controllers tag.attributes = .ok []) : c.hostTag tag = tag := by
  have hnone := controller?_eq_none_of_controllers_eq_nil _ h
  have hfilter : tag.attributes.filter (fun a => (c.controller? a).isNone) = tag.attributes :=
    List.filter_eq_self.2 fun a ha => by simp [hnone a ha]
  unfold hostTag
  rw [hfilter]

/-! ### The two passes over the children of a custom element -/

/-- The second pass compiles the children that stay. -/
theorem keptNodes_eq_nodes (ns : List Node) : c.keptNodes ns = c.nodes (keptChildren ns) := by
  induction ns with
  | nil => rfl
  | cons n ns ih =>
    rw [keptNodes, ih]
    by_cases h : n.tag?.any isPart = true
    · rw [if_pos h]
      simp [keptChildren, isPartNode, h]
    · rw [if_neg h]
      have hn : keptChildren (n :: ns) = n :: keptChildren ns := by
        simp [keptChildren, isPartNode, h]
      rw [hn, nodes]

/-- The first pass goes over what is no element. -/
theorem parts_cons_of_tag?_eq_none {n : Node} (h : n.tag? = none) (soFar : Parts) (ns : List Node) :
    c.parts soFar (n :: ns) = c.parts soFar ns := by
  cases n with
  | element tag children => cases h
  | text value span => rw [parts]; exact nofun
  | comment value span => rw [parts]; exact nofun

/-- The definition that a node is compiled to when it is lifted out as a part. -/
def IsPartOf (c : Compiler) (d : Definition) (n : Node) : Prop :=
  ∃ tag children content, n = .element tag children ∧ isPart tag = true ∧
    c.nodes children = .ok content ∧ d = content.definition (partTag tag)

/-- After an insertion there are the new entry and old ones only. -/
theorem mem_insertEntry {α : Type} {key : String} {value : α} {entries : List (String × α)}
    {entry : String × α} (h : entry ∈ Table.insertEntry key value entries) :
    entry = (key, value) ∨ entry ∈ entries := by
  induction entries with
  | nil =>
    simp only [Table.insertEntry, List.mem_singleton] at h
    exact Or.inl h
  | cons e rest ih =>
    obtain ⟨k, v⟩ := e
    simp only [Table.insertEntry] at h
    split at h
    · rcases List.mem_cons.1 h with rfl | h
      · exact Or.inl rfl
      · exact Or.inr (List.mem_cons_of_mem _ h)
    · rcases List.mem_cons.1 h with rfl | h
      · exact Or.inr List.mem_cons_self
      · exact (ih h).imp_right (List.mem_cons_of_mem _)

/-- The first pass adds only definitions of children that are parts. -/
theorem parts_eq_ok : (ns : List Node) → ∀ {soFar parts : Parts}, c.parts soFar ns = .ok parts →
    ∀ entry ∈ parts.table.entries, entry ∈ soFar.table.entries ∨ ∃ n ∈ ns, c.IsPartOf entry.2 n
  | [], _, _, h, entry, hentry => by
    simp only [parts] at h
    cases h
    exact Or.inl hentry
  | .text value span :: ns, soFar, ps, h, entry, hentry => by
    simp only [parts] at h
    exact (parts_eq_ok ns h entry hentry).imp_right fun ⟨n, hn, hp⟩ => ⟨n, List.mem_cons_of_mem _ hn, hp⟩
  | .comment value span :: ns, soFar, ps, h, entry, hentry => by
    simp only [parts] at h
    exact (parts_eq_ok ns h entry hentry).imp_right fun ⟨n, hn, hp⟩ => ⟨n, List.mem_cons_of_mem _ hn, hp⟩
  | .element tag children :: ns, soFar, ps, h, entry, hentry => by
    simp only [parts] at h
    split at h
    · next hpart =>
      obtain ⟨content, hcontent, h⟩ := bind_eq_ok.1 h
      rcases parts_eq_ok ns h entry hentry with hmem | ⟨n, hn, hp⟩
      · rcases mem_insertEntry hmem with rfl | hmem
        · exact Or.inr ⟨_, List.mem_cons_self, tag, children, content, rfl, hpart, hcontent, rfl⟩
        · exact Or.inl hmem
      · exact Or.inr ⟨n, List.mem_cons_of_mem _ hn, hp⟩
    · exact (parts_eq_ok ns h entry hentry).imp_right fun ⟨n, hn, hp⟩ => ⟨n, List.mem_cons_of_mem _ hn, hp⟩

/-! ### The rules -/

/-- The places where the walk puts a `template` itself in the place of its content: it has controllers and
nothing else. -/
def IsBare (c : Compiler) (tag : Tag) (ks : List Controller) : Prop :=
  ks ≠ [] ∧ (c.hostTag tag).isTemplate = true ∧ (c.hostTag tag).attributes = []

/-- The condition of the walk for a bare `template`. -/
theorem isBare_iff {tag : Tag} {ks : List Controller} : c.IsBare tag ks ↔
    (!ks.isEmpty && (c.hostTag tag).isTemplate && (c.hostTag tag).attributes.isEmpty) = true := by
  simp [IsBare, and_assoc]

instance (tag : Tag) (ks : List Controller) : Decidable (c.IsBare tag ks) :=
  decidable_of_iff _ isBare_iff.symm

/-- What takes the place of an element without controllers. -/
inductive OwnRule (c : Compiler) (host : Tag) (children : List Node) : Output → Prop where
  /-- The content of a `let` is left as it is. -/
  | letElement {group : List Instruction} : host.name = "let" → c.letGroup host = .ok group →
      OwnRule c host children (c.hosting host group { nodes := children })
  | plain {group : List Instruction} {content : Output} : host.name ≠ "let" →
      c.customElement? host = none → c.elementGroup host none [] = .ok group →
      c.nodes children = .ok content → OwnRule c host children (c.hosting host group content)
  /-- The parts of a custom element are compiled first, and the rest of its content last. -/
  | custom {r : Resource} {parts : Parts} {group : List Instruction} {content : Output} :
      host.name ≠ "let" → c.customElement? host = some r → c.parts {} children = .ok parts →
      c.elementGroup host (some r) parts.table.entries = .ok group →
      c.nodes (keptChildren children) = .ok content →
      OwnRule c host children
        (c.hosting host group { content with hasSlots := parts.hasSlots || content.hasSlots })

/-- What takes the place of an element. -/
inductive ElementRule (c : Compiler) (tag : Tag) (children : List Node) : Output → Prop where
  | bare {ks : List Controller} {content : Output} : c.controllers tag.attributes = .ok ks →
      c.IsBare tag ks → c.nodes children = .ok content →
      ElementRule c tag children (c.wrapContent ks (c.hostTag tag) content)
  | wrapped {ks : List Controller} {own : Output} : c.controllers tag.attributes = .ok ks →
      ¬ c.IsBare tag ks → OwnRule c (c.hostTag tag) children own →
      ElementRule c tag children (c.wrap ks own)

/-- The walk over an element without controllers, as far as its own instructions and content go. -/
def own (c : Compiler) (host : Tag) (children : List Node) : Except CompileError Output :=
  if host.name = "let" then do
    let group ← c.letGroup host
    return c.hosting host group { nodes := children }
  else match c.customElement? host with
    | none => do
      let group ← c.elementGroup host none []
      let content ← c.nodes children
      return c.hosting host group content
    | some r => do
      let parts ← c.parts {} children
      let group ← c.elementGroup host (some r) parts.table.entries
      let content ← c.nodes (keptChildren children)
      return c.hosting host group { content with hasSlots := parts.hasSlots || content.hasSlots }

/-- The walk over an element: its controllers, and then what they are wrapped around. -/
theorem node_element (tag : Tag) (children : List Node) :
    c.node (.element tag children) = do
      let ks ← c.controllers tag.attributes
      if c.IsBare tag ks then do
        let content ← c.nodes children
        return c.wrapContent ks (c.hostTag tag) content
      else do
        let out ← c.own (c.hostTag tag) children
        return c.wrap ks out := by
  rw [node]
  congr 1
  funext ks
  by_cases hbare : c.IsBare tag ks
  · rw [if_pos hbare, if_pos (isBare_iff.1 hbare)]
  · rw [if_neg hbare, if_neg (fun h => hbare (isBare_iff.2 h))]
    unfold own
    by_cases hlet : (c.hostTag tag).name = "let"
    · rw [if_pos hlet, if_pos hlet]
      simp only [bind_assoc, pure_bind]
    · rw [if_neg hlet, if_neg hlet]
      cases c.customElement? (c.hostTag tag) with
      | none => simp only [bind_assoc, pure_bind]
      | some r => simp only [bind_assoc, pure_bind, keptNodes_eq_nodes]

/-- The walk over an element without controllers succeeds exactly by one of its rules. -/
theorem own_eq_ok_iff {host : Tag} {children : List Node} {o : Output} :
    c.own host children = .ok o ↔ OwnRule c host children o := by
  constructor
  · intro h
    unfold own at h
    split at h
    · next hlet =>
      obtain ⟨group, hgroup, h⟩ := bind_eq_ok.1 h
      cases pure_eq_ok.1 h
      exact .letElement hlet hgroup
    · next hlet =>
      split at h
      · next hcustom =>
        obtain ⟨group, hgroup, h⟩ := bind_eq_ok.1 h
        obtain ⟨content, hcontent, h⟩ := bind_eq_ok.1 h
        cases pure_eq_ok.1 h
        exact .plain hlet hcustom hgroup hcontent
      · next r hcustom =>
        obtain ⟨parts, hparts, h⟩ := bind_eq_ok.1 h
        obtain ⟨group, hgroup, h⟩ := bind_eq_ok.1 h
        obtain ⟨content, hcontent, h⟩ := bind_eq_ok.1 h
        cases pure_eq_ok.1 h
        exact .custom hlet hcustom hparts hgroup hcontent
  · intro h
    unfold own
    cases h with
    | letElement hlet hgroup =>
      rw [if_pos hlet, hgroup]
      rfl
    | plain hlet hcustom hgroup hcontent =>
      rw [if_neg hlet, hcustom]
      simp only [hgroup, hcontent]
      rfl
    | custom hlet hcustom hparts hgroup hcontent =>
      rw [if_neg hlet, hcustom]
      simp only [hparts, hgroup, hcontent, bind, Except.bind]
      rfl

/-- The walk over an element succeeds exactly by one of the rules. -/
theorem node_element_eq_ok_iff {tag : Tag} {children : List Node} {o : Output} :
    c.node (.element tag children) = .ok o ↔ ElementRule c tag children o := by
  rw [node_element]
  constructor
  · intro h
    obtain ⟨ks, hks, h⟩ := bind_eq_ok.1 h
    split at h
    · next hbare =>
      obtain ⟨content, hcontent, h⟩ := bind_eq_ok.1 h
      cases pure_eq_ok.1 h
      exact .bare hks hbare hcontent
    · next hbare =>
      obtain ⟨out, hown, h⟩ := bind_eq_ok.1 h
      cases pure_eq_ok.1 h
      exact .wrapped hks hbare (own_eq_ok_iff.1 hown)
  · intro h
    cases h with
    | bare hks hbare hcontent =>
      refine bind_eq_ok.2 ⟨_, hks, ?_⟩
      rw [if_pos hbare]
      exact bind_eq_ok.2 ⟨_, hcontent, rfl⟩
    | wrapped hks hbare hown =>
      refine bind_eq_ok.2 ⟨_, hks, ?_⟩
      rw [if_neg hbare]
      exact bind_eq_ok.2 ⟨_, own_eq_ok_iff.2 hown, rfl⟩

/-! ### Induction along a walk -/

/-- The walk over nodes succeeds exactly if it does at the first one and over the others. -/
theorem nodes_cons_eq_ok_iff {n : Node} {ns : List Node} {o : Output} :
    c.nodes (n :: ns) = .ok o ↔
      ∃ first others, c.node n = .ok first ∧ c.nodes ns = .ok others ∧ o = first.append others := by
  rw [nodes]
  constructor
  · intro h
    obtain ⟨first, hfirst, h⟩ := bind_eq_ok.1 h
    obtain ⟨others, hothers, h⟩ := bind_eq_ok.1 h
    exact ⟨first, others, hfirst, hothers, (pure_eq_ok.1 h).symm⟩
  · rintro ⟨first, others, hfirst, hothers, rfl⟩
    exact bind_eq_ok.2 ⟨first, hfirst, bind_eq_ok.2 ⟨others, hothers, rfl⟩⟩

/-- The walk over a single node is the walk at it. -/
theorem nodes_singleton (n : Node) : c.nodes [n] = c.node n := by
  rw [nodes, nodes]
  cases c.node n with
  | error e => rfl
  | ok o => simp [bind, Except.bind, pure, Except.pure]

/-- The children that stay are no more work than all of them. -/
theorem workOf_keptChildren_le (ns : List Node) : workOf (keptChildren ns) ≤ workOf ns :=
  workOf_filter_le _ ns

/-- Induction along a successful walk.  For an element the statement is at hand of all nodes that are less work than
the element. -/
theorem walk_induction {motive : List Node → Output → Prop}
    (nil : motive [] {})
    (cons : ∀ {n ns first others}, motive [n] first → motive ns others →
      motive (n :: ns) (first.append others))
    (text : ∀ {value span o}, c.text value span = .ok o → motive [.text value span] o)
    (comment : ∀ value span, motive [.comment value span] { nodes := [.comment value span] })
    (element : ∀ {tag kids o}, c.node (.element tag kids) = .ok o →
      (∀ ns content, workOf ns < (Node.element tag kids).work → c.nodes ns = .ok content → motive ns content) →
      motive [.element tag kids] o) :
    ∀ {ns : List Node} {o : Output}, c.nodes ns = .ok o → motive ns o
  | [], o, h => by
    rw [nodes] at h
    cases h
    exact nil
  | .text value span :: ns, o, h => by
    obtain ⟨first, others, hfirst, hothers, rfl⟩ := nodes_cons_eq_ok_iff.1 h
    rw [node] at hfirst
    exact cons (text hfirst) (walk_induction nil cons text comment element hothers)
  | .comment value span :: ns, o, h => by
    obtain ⟨first, others, hfirst, hothers, rfl⟩ := nodes_cons_eq_ok_iff.1 h
    rw [node] at hfirst
    cases hfirst
    exact cons (comment value span) (walk_induction nil cons text comment element hothers)
  | .element tag kids :: ns, o, h => by
    obtain ⟨first, others, hfirst, hothers, rfl⟩ := nodes_cons_eq_ok_iff.1 h
    refine cons (element hfirst fun ms content hlt hms => ?_)
      (walk_induction nil cons text comment element hothers)
    exact walk_induction nil cons text comment element hms
termination_by ns => workOf ns
decreasing_by
  all_goals simp only [workOf, Node.work] at *
  all_goals omega

/-- Induction along a successful walk, by the rules.  For an element the statement is at hand of all nodes that are no
more work than the element's content: of the content, of what stays of it, and of the content of its parts. -/
theorem nodes_induction {motive : List Node → Output → Prop}
    (nil : motive [] {})
    (cons : ∀ {n ns first others}, motive [n] first → motive ns others →
      motive (n :: ns) (first.append others))
    (text : ∀ {value span o}, c.text value span = .ok o → motive [.text value span] o)
    (comment : ∀ value span, motive [.comment value span] { nodes := [.comment value span] })
    (element : ∀ {tag children o}, ElementRule c tag children o →
      (∀ ns content, workOf ns ≤ workOf children → c.nodes ns = .ok content → motive ns content) →
      motive [.element tag children] o)
    {ns : List Node} {o : Output} (h : c.nodes ns = .ok o) : motive ns o := by
  refine walk_induction nil cons text comment (fun {tag children _} hnode ih => ?_) h
  refine element (node_element_eq_ok_iff.1 hnode) fun ms content hle hms => ?_
  exact ih ms content (Nat.lt_of_le_of_lt hle (workOf_children_lt tag children)) hms

/-! ### Definitions and roots -/

/-- A definition is made exactly if the walk over the content of its root succeeds. -/
theorem definition_eq_ok_iff {root : Element} {d : Definition} : c.definition root = .ok d ↔
    ∃ content, c.nodes root.children = .ok content ∧ d = content.definition root.toTag := by
  constructor
  · intro h
    obtain ⟨content, hcontent, h⟩ := bind_eq_ok.1 h
    exact ⟨content, hcontent, (pure_eq_ok.1 h).symm⟩
  · rintro ⟨content, hcontent, rfl⟩
    exact bind_eq_ok.2 ⟨content, hcontent, rfl⟩

/-- A template is compiled exactly if the attributes of its root and its content are. -/
theorem compileRoot_eq_ok_iff {root : Element} {d : Definition} : c.compileRoot root = .ok d ↔
    ∃ surrogates content, c.surrogatesOf root.toTag root.attributes = .ok surrogates ∧
      c.nodes root.children = .ok content ∧
      d = { content.definition { root.toTag with attributes := [] } with surrogates } := by
  constructor
  · intro h
    obtain ⟨surrogates, hsurrogates, h⟩ := bind_eq_ok.1 h
    obtain ⟨body, hbody, h⟩ := bind_eq_ok.1 h
    obtain ⟨content, hcontent, rfl⟩ := definition_eq_ok_iff.1 hbody
    exact ⟨surrogates, content, hsurrogates, hcontent, (pure_eq_ok.1 h).symm⟩
  · rintro ⟨surrogates, content, hsurrogates, hcontent, rfl⟩
    refine bind_eq_ok.2 ⟨surrogates, hsurrogates, bind_eq_ok.2 ⟨_, definition_eq_ok_iff.2 ?_, rfl⟩⟩
    exact ⟨content, hcontent, rfl⟩

/-- The root of a template that was written is one of the nodes. -/
theorem soleTemplate?_eq_some {ns : List Node} {root : Element} (h : soleTemplate? ns = some root) :
    .element root.toTag root.children ∈ ns ∧ root.name = "template" := by
  unfold soleTemplate? at h
  split at h
  · next tag children hfilter =>
    split at h
    · next htemplate =>
      cases h
      have hmem : .element tag children ∈ ns.filter fun n => !n.isInsignificant := by
        rw [hfilter]
        exact List.mem_cons_self
      exact ⟨(List.mem_filter.1 hmem).1, by simpa [Tag.isTemplate] using htemplate⟩
    · cases h
  · cases h

end Compiler

end ViewTemplate
