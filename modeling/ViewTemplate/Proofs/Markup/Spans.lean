import ViewTemplate.Proofs.Markup.Growth
import ViewTemplate.Proofs.Markup.Writable

/-!
# Where nodes stand

Every span in the tree of a source, and every span of a fault, has ends that can be counted afresh from
their offsets.  The nodes stand in the source in the order of the tree: siblings one after the other, children
behind the start tag of their parent, and before its end tag if it has one.

* `Node.spans` — all spans of a node.
* `Nested`, `growth_nested` — siblings in order, behind the start of their parent.
* `parseWith_spans` — where tokens, faults and nodes of a source stand.
-/

namespace ViewTemplate.Markup

open ViewTemplate.Source ViewTemplate.Text

/-! ### The spans of nodes -/

/-- The spans of an attribute: its own, and that of its value. -/
def Attribute.spans (a : Attribute) : List Span :=
  a.span :: a.valueSpan.toList

/-- The spans of a tag: of the element, of its start and its end, and of its attributes. -/
def Tag.spans (t : Tag) : List Span :=
  t.span :: t.startSpan :: t.endSpan.toList ++ t.attributes.flatMap Attribute.spans

namespace Node

/-- Where the node was read. -/
def span : Node → Span
  | .element tag _ => tag.span
  | .text _ span => span
  | .comment _ span => span

/-- All spans of the node, without those of its children. -/
def spans : Node → List Span
  | .element tag _ => tag.spans
  | .text _ span => [span]
  | .comment _ span => [span]

/-- The spans of the node lie in the text; that of an element starts with its start tag. -/
structure StandsIn (n : Node) (cs : List Char) : Prop where
  spans : ∀ s ∈ n.spans, s.IsIn cs
  starts : ∀ t ∈ n.tag?, t.span.start = t.startSpan.start

/-- The span of a node is one of its spans. -/
theorem span_mem_spans (n : Node) : n.span ∈ n.spans := by
  cases n with
  | element tag children => exact List.mem_cons_self
  | text value span => exact List.mem_cons_self
  | comment value span => exact List.mem_cons_self

/-- A node that stands in the text does not end before it begins. -/
theorem StandsIn.order {n : Node} {cs : List Char} (h : n.StandsIn cs) :
    n.span.start.offset ≤ n.span.stop.offset :=
  (h.spans n.span n.span_mem_spans).order

end Node

/-- An attribute in the text has all of its spans there. -/
theorem Attribute.IsIn.spans {a : Attribute} {cs : List Char} (h : a.IsIn cs) : ∀ s ∈ a.spans, s.IsIn cs :=
  List.forall_mem_cons.2 ⟨h.span, fun s hs => h.value s (Option.mem_toList.1 hs)⟩

/-- The spans of a tag: its own, those of its two ends, and those of its attributes. -/
theorem Tag.forall_mem_spans {t : Tag} {Q : Span → Prop} :
    (∀ s ∈ t.spans, Q s) ↔ Q t.span ∧ Q t.startSpan ∧ (∀ s ∈ t.endSpan, Q s) ∧
      ∀ a ∈ t.attributes, ∀ s ∈ a.spans, Q s := by
  simp only [Tag.spans, List.cons_append, List.forall_mem_cons, List.forall_mem_append, Option.mem_toList,
    Option.mem_def, List.forall_mem_flatMap]

/-! ### Nodes that follow each other -/

/-- Each of the nodes ends before the later ones start. -/
def InSequence (ns : List Node) : Prop :=
  ns.Pairwise fun m n => m.span.stop.offset ≤ n.span.start.offset

/-- The nodes follow each other in the text up to the offset, and stand between the tags of their parent. -/
structure Nested (cs : List Char) (p : Nat) (parent : Option Tag) (ns : List Node) : Prop where
  stand : ∀ n ∈ ns, n.StandsIn cs
  stop : ∀ n ∈ ns, n.span.stop.offset ≤ p
  sequence : InSequence ns
  opened : ∀ t ∈ parent, t.startSpan.stop.offset ≤ p ∧ ∀ n ∈ ns, t.startSpan.stop.offset ≤ n.span.start.offset
  closed : ∀ t ∈ parent, ∀ s ∈ t.endSpan, t.span = ⟨t.startSpan.start, s.stop⟩ ∧
    ∀ n ∈ ns, n.span.stop.offset ≤ s.start.offset

section

variable {cs : List Char} {parent : Option Tag} {ns : List Node}

/-- Nodes that are nested up to an offset are so up to a later one. -/
theorem Nested.later {p q : Nat} (h : Nested cs p parent ns) (hle : p ≤ q) : Nested cs q parent ns :=
  ⟨h.stand, fun n hn => (h.stop n hn).trans hle, h.sequence,
    fun t ht => ⟨(h.opened t ht).1.trans hle, (h.opened t ht).2⟩, h.closed⟩

/-- The last node starts where the others have ended. -/
theorem nested_concat {p : Nat} {n : Node} (hparent : ∀ t ∈ parent, t.endSpan = none) :
    Nested cs p parent (ns ++ [n]) ↔
      Nested cs n.span.start.offset parent ns ∧ n.StandsIn cs ∧ n.span.stop.offset ≤ p := by
  have hnone {Q : Tag → Span → Prop} : ∀ t ∈ parent, ∀ s ∈ t.endSpan, Q t s := by
    intro t ht s hs
    rw [hparent t ht] at hs
    cases hs
  constructor
  · rintro ⟨hstand, hstop, hsequence, hopened, -⟩
    obtain ⟨hsequence, -, hlast⟩ := List.pairwise_append.1 hsequence
    obtain ⟨hstand, hn⟩ := List.forall_mem_append.1 hstand
    have hmem : n ∈ ns ++ [n] := List.mem_append_right _ (List.mem_singleton_self n)
    refine ⟨⟨hstand, fun m hm => hlast m hm n (List.mem_singleton_self n), hsequence, fun t ht => ?_, hnone⟩,
      hn n (List.mem_singleton_self n), hstop n hmem⟩
    exact ⟨(hopened t ht).2 n hmem, (List.forall_mem_append.1 (hopened t ht).2).1⟩
  · rintro ⟨⟨hstand, hstop, hsequence, hopened, -⟩, hn, hle⟩
    have hle' := hn.order.trans hle
    refine ⟨?_, ?_, ?_, fun t ht => ⟨(hopened t ht).1.trans hle', ?_⟩, hnone⟩
    · exact List.forall_mem_append.2 ⟨hstand, List.forall_mem_singleton.2 hn⟩
    · exact List.forall_mem_append.2 ⟨fun m hm => (hstop m hm).trans hle', List.forall_mem_singleton.2 hle⟩
    · exact List.pairwise_append.2 ⟨hsequence, List.pairwise_singleton _ _,
        fun m hm => List.forall_mem_singleton.2 (hstop m hm)⟩
    · exact List.forall_mem_append.2 ⟨(hopened t ht).2, List.forall_mem_singleton.2 (hopened t ht).1⟩

end

/-- The tag of an element as its start tag gives it. -/
theorem Tag.StartedBy.standsIn {cs : List Char} {p : Nat} {tag : Tag} {name : String} {openSpan : Span}
    {attributes : List Attribute} {stop : Location} (h : tag.StartedBy name openSpan attributes stop)
    (hopens : OpensIn cs p openSpan attributes stop) : (Node.element tag []).StandsIn cs := by
  have hstart : tag.startSpan.IsIn cs := h.startSpan ▸ hopens.isIn
  refine ⟨Tag.forall_mem_spans.2 ⟨h.span ▸ hstart, hstart, fun s hs => h.endSpan s hs ▸ hstart, ?_⟩, ?_⟩
  · rw [h.attributes]
    exact fun a ha => (hopens.attributes a ha).spans
  · rintro _ ⟨⟩
    rw [h.span]

/-- Nodes stay nested as the tree grows. -/
theorem growth_nested (rules : String → TagRules) (cs : List Char) : Growth rules cs (Nested cs) where
  later h hle := h.later hle
  text {p parent ns span} value h hparent hspan hle := by
    unfold Builder.appendText
    split
    · next before place hlast =>
      -- A text that follows a text is joined to it and takes over where that one starts.
      obtain ⟨init, rfl⟩ := List.getLast?_eq_some_iff.1 hlast
      obtain ⟨hinit, htext, hstop⟩ := (nested_concat hparent).1 h
      have hplace : place.IsIn cs := htext.spans place (List.mem_singleton_self place)
      have hmerged : (⟨place.start, span.stop⟩ : Span).IsIn cs :=
        ⟨hplace.start, hspan.stop, ((hplace.order.trans hstop).trans hle).trans hspan.order⟩
      rw [List.dropLast_concat]
      exact (nested_concat hparent).2 ⟨hinit, ⟨List.forall_mem_singleton.2 hmerged, nofun⟩, Nat.le_refl _⟩
    · exact (nested_concat hparent).2 ⟨h.later hle, ⟨List.forall_mem_singleton.2 hspan, nofun⟩, Nat.le_refl _⟩
  comment value h hparent hspan hle :=
    (nested_concat hparent).2 ⟨h.later hle, ⟨List.forall_mem_singleton.2 hspan, nofun⟩, Nat.le_refl _⟩
  element {p parent ns openSpan attributes stop name tag} h hparent hopens htag _ := by
    have hspan : tag.span = ⟨openSpan.start, stop⟩ := htag.span.trans htag.startSpan
    refine (nested_concat hparent).2 ⟨h.later ?_, htag.standsIn hopens, ?_⟩
    · show p ≤ tag.span.start.offset
      rw [hspan]
      exact hopens.after
    · show tag.span.stop.offset ≤ stop.offset
      rw [hspan]
  childless {p openSpan attributes stop name tag} hopens htag := by
    refine ⟨nofun, nofun, .nil, ?_, ?_⟩
    · rintro _ ⟨⟩
      exact ⟨by rw [htag.startSpan], nofun⟩
    · rintro _ ⟨⟩ s hs
      rw [htag.endSpan s hs, htag.span]
      exact ⟨rfl, nofun⟩
  ended {p parent ns tag span} h hparent hspan hle _ := by
    -- The last sibling is the element that ends, so only its own spans and its order are to be renewed.
    obtain ⟨hns, htag, hstop⟩ := (nested_concat hparent).1 h
    obtain ⟨hwhole, hstart, -, hattributes⟩ := Tag.forall_mem_spans.1 htag.spans
    have hstarts : tag.span.start = tag.startSpan.start := htag.starts tag rfl
    have hended : (⟨tag.startSpan.start, span.stop⟩ : Span).IsIn cs := by
      refine ⟨hstart.start, hspan.stop, ?_⟩
      rw [← hstarts]
      exact ((htag.order.trans hstop).trans hle).trans hspan.order
    refine (nested_concat hparent).2 ⟨?_, ⟨Tag.forall_mem_spans.2 ⟨hended, hstart, ?_, hattributes⟩, ?_⟩,
      Nat.le_refl _⟩
    · show Nested cs tag.startSpan.start.offset parent ns
      rw [← hstarts]
      exact hns
    · rintro _ ⟨⟩
      exact hspan
    · rintro _ ⟨⟩
      rfl
  complete {p ns tag span} h hspan hle _ := by
    refine ⟨h.stand, fun n hn => ?_, h.sequence, ?_, ?_⟩
    · exact ((h.stop n hn).trans hle).trans hspan.order
    · rintro _ ⟨⟩
      exact ⟨((h.opened tag rfl).1.trans hle).trans hspan.order, (h.opened tag rfl).2⟩
    · rintro _ ⟨⟩ _ ⟨⟩
      exact ⟨rfl, fun n hn => (h.stop n hn).trans hle⟩

/-! ### Faults -/

/-- The faults lie in the text, and so do the start tags that may yet be reported. -/
structure Builder.Locates (cs : List Char) (b : Builder) : Prop where
  faults : ∀ d ∈ b.faults, d.span.IsIn cs
  opened : ∀ t ∈ b.openTags, t.startSpan.IsIn cs

/-- To set siblings leaves the faults in the text. -/
theorem Builder.Locates.setSiblings {cs : List Char} {b : Builder} (h : b.Locates cs) (ns : List Node) :
    (b.setSiblings ns).Locates cs := by
  constructor
  · rw [setSiblings_faults]
    exact h.faults
  · rw [openTags_setSiblings]
    exact h.opened

/-- All faults stay in the text at every step of the builder. -/
theorem invariant_locates (rules : String → TagRules) (cs : List Char) :
    Builder.Invariant rules cs fun _ => Builder.Locates cs where
  later h _ := h
  pending _ h := ⟨h.faults, h.opened⟩
  text {p b span} value h _ _ := by
    unfold Builder.addText
    dsimp only
    split
    · exact h
    · exact h.setSiblings _
  comment _ h _ _ := h.setSiblings _
  startTag {p b openSpan attributes stop} name isSelfClosing h hopens := by
    obtain ⟨tag, b₁, faults, htag, hfaults, hcloses, -, hadded⟩ :=
      Builder.startElement_cases rules b name openSpan attributes stop isSelfClosing
    have hstart : tag.startSpan.IsIn cs := htag.startSpan ▸ hopens.isIn
    have hb₁ : Builder.Locates cs { b₁ with faults := b.faults ++ faults } :=
      ⟨List.forall_mem_append.2 ⟨h.faults, fun d hd => hfaults d hd ▸ hopens.mark⟩,
        fun t ht => h.opened t (hcloses.openTags_suffix.subset ht)⟩
    -- Either the element is void and a sibling at once, or it is opened and may be reported later on.
    obtain ⟨-, heq⟩ | ⟨-, -, heq⟩ := hadded
    · rw [heq]
      exact hb₁.setSiblings _
    · rw [heq]
      exact ⟨hb₁.faults, List.forall_mem_cons.2 ⟨hstart, hb₁.opened⟩⟩
  endTag {p b span} name h hspan _ _ := by
    obtain ⟨fault, -, heq⟩ | ⟨e, rest, faults, hcloses, -, hfaults, heq⟩ :=
      Builder.endElement_cases rules b name span
    · rw [heq]
      exact ⟨List.forall_mem_append.2 ⟨h.faults, List.forall_mem_singleton.2 hspan⟩, h.opened⟩
    · rw [heq]
      refine Builder.Locates.setSiblings (b := { b with stack := rest, faults := b.faults ++ faults })
        ⟨?_, ?_⟩ _
      · refine List.forall_mem_append.2 ⟨h.faults, fun d hd => ?_⟩
        obtain ⟨t, ht, rfl⟩ := hfaults d hd
        exact h.opened t ht
      · exact fun t ht => h.opened t (hcloses.openTags_suffix.subset (List.mem_cons_of_mem _ ht))

/-! ### Whole sources -/

mutual

/-- What holds of a node without its content, and of all children below, holds of all nodes in it. -/
theorem Node.forall_mem_preorder {Q : Node → Prop} : (n : Node) → Q n.shell →
    (∀ e ∈ n.elements, ∀ m ∈ e.children, Q m.shell) → ∀ m ∈ n.preorder, Q m
  | .element tag children, hn, helements => by
    obtain ⟨hchildren, hbelow⟩ := List.forall_mem_cons.1 helements
    exact List.forall_mem_cons.2 ⟨hn, forall_mem_preorder children hchildren hbelow⟩
  | .text _ _, hn, _ => List.forall_mem_singleton.2 hn
  | .comment _ _, hn, _ => List.forall_mem_singleton.2 hn

/-- The nodes of a tree are its roots and the children of its elements. -/
theorem forall_mem_preorder {Q : Node → Prop} : (ns : List Node) → (∀ n ∈ ns, Q n.shell) →
    (∀ e ∈ elementsOf ns, ∀ m ∈ e.children, Q m.shell) → ∀ m ∈ preorder ns, Q m
  | [], _, _ => nofun
  | n :: ns, hns, helements => by
    obtain ⟨hn, hns⟩ := List.forall_mem_cons.1 hns
    obtain ⟨hfirst, hrest⟩ := List.forall_mem_append.1 helements
    exact List.forall_mem_append.2 ⟨n.forall_mem_preorder hn hfirst, forall_mem_preorder ns hns hrest⟩

end

/-- A node without its content has the same span. -/
theorem Node.span_shell (n : Node) : n.shell.span = n.span := by
  cases n <;> rfl

/-- Nodes are in sequence exactly if they are so without their contents. -/
theorem inSequence_map_shell {ns : List Node} : InSequence (ns.map Node.shell) ↔ InSequence ns := by
  unfold InSequence
  simp only [List.pairwise_map, Node.span_shell]

/-- The places of all tokens, faults and nodes of a source are exact.  Siblings follow each other; children
stand behind the start tag of their parent; an element with an end runs from its start tag to it, and its
children stand before it. -/
theorem parseWith_spans (rules : String → TagRules) (source : String) :
    (∀ t ∈ (tokenize rules source).tokens, t.span.IsExact (unified source)) ∧
    (∀ d ∈ (parseWith rules source).faults, d.span.IsExact (unified source)) ∧
    (∀ n ∈ preorder (parseWith rules source).nodes, ∀ s ∈ n.spans, s.IsExact (unified source)) ∧
    InSequence (parseWith rules source).nodes ∧
    ∀ e ∈ elementsOf (parseWith rules source).nodes, InSequence e.children ∧
      (∀ n ∈ e.children, e.startSpan.stop.offset ≤ n.span.start.offset) ∧
      ∀ s ∈ e.endSpan, (∀ n ∈ e.children, n.span.stop.offset ≤ s.start.offset) ∧
        e.span = ⟨e.startSpan.start, s.stop⟩ := by
  obtain ⟨q, htokens⟩ := tokenize_inOrder rules source
  have hlocates := (invariant_locates rules _).build htokens (Builder.ready_empty ⟨nofun, nofun⟩)
  obtain ⟨p, hroots, hbelow⟩ := (growth_nested rules (unifyLines source.toList)).family_parseWith
    ⟨nofun, nofun, .nil, nofun, nofun⟩
  refine ⟨fun t ht => (htokens.mem_isIn t ht).isExact, ?_, ?_, inSequence_map_shell.1 hroots.sequence,
    fun e he => ?_⟩
  · refine List.forall_mem_append.2 ⟨fun d hd => ?_, fun d hd => (hlocates.faults d hd).isExact⟩
    exact (tokenize_faults_isIn rules source d hd).isExact
  · refine forall_mem_preorder _ (fun n hn s hs => ?_) fun e he n hn s hs => ?_
    · exact ((hroots.stand _ (List.mem_map_of_mem hn)).spans s hs).isExact
    · exact (((hbelow e he).stand _ (List.mem_map_of_mem hn)).spans s hs).isExact
  · obtain ⟨-, -, hsequence, hopened, hclosed⟩ := hbelow e he
    simp only [List.forall_mem_map, Node.span_shell] at hopened hclosed
    refine ⟨inSequence_map_shell.1 hsequence, (hopened _ rfl).2, fun s hs => ?_⟩
    obtain ⟨hspan, hbefore⟩ := hclosed _ rfl s hs
    exact ⟨hbefore, hspan⟩

end ViewTemplate.Markup
