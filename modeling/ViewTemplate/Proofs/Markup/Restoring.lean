import Mathlib.Data.List.Chain
import ViewTemplate.Proofs.Markup.RoundTrip
import ViewTemplate.Proofs.Markup.Sources

/-!
# Reading a source, writing its tree and reading it again

The tree of a source without faults is sound: most of what makes a tree legible holds of every tree that was
read, because it is kept by everything that an item can do to the builder.  What is left are the conditions of
`Restorable`.  They fail where reading decodes or repairs what writing does not encode again: references to
characters that are not read as they stand, references and end tags in the content of an element that is
written as it is, a second line feed at the start of a `pre`, and start tags that end only one of the
elements they should.

* `Sound` — what holds of every tree that was read; `sound_parse`.
* `Builder.Sound`, `Builder.SoundInside` — the invariant of the builder; `Builder.SoundInside.runs`.
* `Restorable` — what is left to ask; `parse_renderNodes_parse` — then the tree is read back as it was.
-/

namespace ViewTemplate.Markup

open ViewTemplate.Source ViewTemplate.Text

/-! ### Sound trees -/

mutual

/-- What can be said of a node that was read. -/
def Node.Sound : Node → Prop
  | .text value _ => value ≠ ""
  | .comment value _ => IsCommentText value ∧ IsPlain value.toList
  | .element tag children =>
    let rules := TagRules.html tag.name
    IsTag tag ∧ (rules.isVoid = true → children = []) ∧
      (rules.content ≠ .parsable → (∀ n ∈ children, n.isText = true) ∧
        (rules.content = .rawText → HoldsNoEndTag tag.name (renderAll true children).toList)) ∧
      Sound children

/-- What can be said of nodes that were read: no text follows another one. -/
def Sound : List Node → Prop
  | [] => True
  | n :: ns => n.Sound ∧ (n.isText = true → ∀ m ∈ ns.head?, m.isText = false) ∧ Sound ns

end

/-- Not both nodes are texts. -/
def Apart (m n : Node) : Prop :=
  m.isText = true → n.isText = false

/-- Nodes are sound exactly if each of them is and no texts are side by side. -/
theorem sound_iff : (ns : List Node) → (Sound ns ↔ (∀ n ∈ ns, n.Sound) ∧ ns.IsChain Apart)
  | [] => by simp [Sound]
  | n :: ns => by
    rw [Sound, sound_iff ns, List.forall_mem_cons, List.isChain_cons]
    constructor
    · rintro ⟨hn, hnext, hns, hchain⟩
      exact ⟨⟨hn, hns⟩, fun m hm htext => hnext htext m hm, hchain⟩
    · rintro ⟨⟨hn, hns⟩, hnext, hchain⟩
      exact ⟨hn, fun htext m hm => hnext m hm htext, hns, hchain⟩

/-- One more node: it is sound by itself and no text behind a text. -/
theorem sound_concat_iff {ns : List Node} {n : Node} :
    Sound (ns ++ [n]) ↔ Sound ns ∧ n.Sound ∧ ∀ m ∈ ns.getLast?, Apart m n := by
  rw [sound_iff, sound_iff, List.isChain_append, List.forall_mem_append, List.forall_mem_singleton]
  simp only [List.isChain_singleton, List.head?_cons, Option.mem_some_iff, forall_eq', true_and]
  tauto

/-- An element that is put behind the nodes. -/
theorem Sound.concat {ns : List Node} (h : Sound ns) {n : Node} (hn : n.Sound) (htext : n.isText = false) :
    Sound (ns ++ [n]) :=
  sound_concat_iff.2 ⟨h, hn, fun _ _ _ => htext⟩

/-- A text that is put behind the nodes, or becomes one with the last of them. -/
theorem Sound.appendText {ns : List Node} (h : Sound ns) {value : String} (hvalue : value ≠ "") (span : Span) :
    Sound (Builder.appendText ns value span) := by
  unfold Builder.appendText
  split
  · next before place hlast =>
    obtain ⟨init, rfl⟩ := List.getLast?_eq_some_iff.1 hlast
    obtain ⟨hinit, -, hapart⟩ := sound_concat_iff.1 h
    rw [List.dropLast_concat]
    refine sound_concat_iff.2 ⟨hinit, ?_, fun m hm htext => absurd (hapart m hm htext) nofun⟩
    intro hempty
    exact hvalue (String.append_eq_empty_iff.1 hempty).2
  · next hlast =>
    refine sound_concat_iff.2 ⟨h, hvalue, fun m hm htext => ?_⟩
    cases m with
    | text before place => exact absurd hm (hlast before place)
    | comment _ _ => cases htext
    | element _ _ => cases htext

/-! ### Sound builders -/

/-- An open element that may get children of any kind. -/
structure OpenElement.Sound (e : OpenElement) : Prop where
  tag : IsTag e.tag
  notVoid : (TagRules.html e.tag.name).isVoid = false
  parsable : (TagRules.html e.tag.name).content = .parsable
  children : Markup.Sound e.children

/-- The element when it is closed. -/
theorem OpenElement.Sound.element {e : OpenElement} (h : e.Sound) {tag : Tag} (hname : tag.name = e.tag.name)
    (hattributes : tag.attributes = e.tag.attributes) {children : List Node} (hchildren : Markup.Sound children) :
    (Node.element tag children).Sound := by
  refine ⟨⟨hname ▸ h.tag.name, hattributes ▸ h.tag.attributes⟩, fun hvoid => ?_, fun hcontent => ?_, hchildren⟩
  · rw [hname, h.notVoid] at hvoid
    cases hvoid
  · exact absurd (hname ▸ h.parsable) hcontent

namespace Builder

/-- All that has been read so far is sound, and every open element may get children of any kind. -/
structure Sound (b : Builder) : Prop where
  roots : Markup.Sound b.roots
  elements : ∀ e ∈ b.stack, e.Sound

/-- The same, with the content of an element that holds no markup just read. -/
def SoundInside (b : Builder) : Option String → Prop
  | none => b.Sound
  | some name => ∃ e rest, b.stack = e :: rest ∧ e.tag.name = name ∧ (TagRules.html name).isVoid = false ∧
    (Node.element e.tag e.children).Sound ∧ Sound { b with stack := rest }

/-- The siblings of the next node are sound. -/
theorem Sound.siblings {b : Builder} (h : b.Sound) : Markup.Sound b.siblings := by
  unfold Builder.siblings
  split
  · exact h.roots
  · next hstack => exact (h.elements _ (hstack ▸ List.mem_cons_self)).children

/-- The builder stays sound with other sound siblings. -/
theorem Sound.setSiblings {b : Builder} (h : b.Sound) {ns : List Node} (hns : Markup.Sound ns) :
    (b.setSiblings ns).Sound := by
  unfold Builder.setSiblings
  split
  · exact ⟨hns, h.elements⟩
  · next parent rest hstack =>
    have helements := h.elements
    rw [hstack, List.forall_mem_cons] at helements
    obtain ⟨⟨htag, hvoid, hparsable, -⟩, hrest⟩ := helements
    exact ⟨h.roots, List.forall_mem_cons.2 ⟨⟨htag, hvoid, hparsable, hns⟩, hrest⟩⟩

/-- The builder stays sound when a sound node other than a text is added. -/
theorem Sound.add {b : Builder} (h : b.Sound) {n : Node} (hn : n.Sound) (htext : n.isText = false) :
    (b.add n).Sound :=
  h.setSiblings (h.siblings.concat hn htext)

/-- The builder stays sound when a text is added, since it is joined to one before it. -/
theorem Sound.addText {b : Builder} (h : b.Sound) (value : String) (span : Span) :
    (b.addText TagRules.html value span).Sound := by
  unfold Builder.addText
  dsimp only
  split
  · exact h
  · next hvalue => exact h.setSiblings (h.siblings.appendText (by simpa using hvalue) span)

/-- To report a fault changes nothing in the tree. -/
theorem Sound.report {b : Builder} (h : b.Sound) (fault : NestingFault) (span : Span) :
    (b.report fault span).Sound :=
  ⟨h.roots, h.elements⟩

/-- The builder stays sound when elements are closed before a new one. -/
theorem Sound.closeBefore {b : Builder} (h : b.Sound) (name : String) :
    (b.closeBefore TagRules.html name).Sound := by
  unfold Builder.closeBefore
  split
  · exact h
  · next parent rest hstack =>
    split
    · have helements := h.elements
      rw [hstack, List.forall_mem_cons] at helements
      obtain ⟨hparent, hrest⟩ := helements
      have hbelow : Sound { b with stack := rest } := ⟨h.roots, hrest⟩
      exact hbelow.add (hparent.element rfl rfl hparent.children) rfl
    · exact h

/-- No content holds no end tag. -/
theorem holdsNoEndTag_nil (name : String) : HoldsNoEndTag name [] := by
  intro b hb
  rw [List.suffix_nil.1 hb]
  rfl

/-- An element without children is sound whatever its name. -/
theorem sound_element_nil {tag : Tag} (h : IsTag tag) : (Node.element tag []).Sound := by
  refine ⟨h, fun _ => rfl, fun _ => ⟨nofun, fun _ => ?_⟩, trivial⟩
  rw [renderAll, String.toList_empty]
  exact holdsNoEndTag_nil tag.name

/-- What a start tag does: an element is added, or one more is open above a sound builder. -/
theorem Sound.startElement {b : Builder} (h : b.Sound) {name : String} {attributes : List Attribute}
    (hname : IsTagName name) (hattributes : ∀ a ∈ attributes, IsAttributeName a.name) (span : Span)
    (stop : Location) (isSelfClosing : Bool) :
    (b.startElement TagRules.html name span attributes stop isSelfClosing).Sound ∧
        (isSelfClosing = true ∨ (TagRules.html name).isVoid = true) ∨
      ∃ (b' : Builder) (tag : Tag), b'.Sound ∧ tag.name = name ∧ IsTag tag ∧ isSelfClosing = false ∧
        (TagRules.html name).isVoid = false ∧
        b.startElement TagRules.html name span attributes stop isSelfClosing = b'.push tag := by
  unfold Builder.startElement
  dsimp only
  generalize hreport : (if isSelfClosing &&
    !((TagRules.html name).canSelfClose || (TagRules.html name).isVoid || isCustomElementName name) then
      b.report (.cannotSelfClose name) span else b) = reported
  have hreported : reported.Sound := by
    rw [← hreport]
    split
    · exact h.report _ _
    · exact h
  have hclosed := hreported.closeBefore name
  split
  · next hadds =>
    left
    exact ⟨hclosed.add (sound_element_nil ⟨hname, hattributes⟩) rfl, by simpa using hadds⟩
  · next hopens =>
    right
    simp only [Bool.or_eq_true, not_or, Bool.not_eq_true] at hopens
    exact ⟨_, _, hclosed, rfl, ⟨hname, hattributes⟩, hopens.1, hopens.2, rfl⟩

/-- What has been closed already and goes into the next element: a sound element, if anything. -/
def IsClosed (inside : List Node) : Prop :=
  inside.length ≤ 1 ∧ ∀ n ∈ inside, n.Sound ∧ n.isText = false

/-- Nothing has been closed yet. -/
theorem isClosed_nil : IsClosed [] :=
  ⟨Nat.zero_le 1, nofun⟩

/-- A sound element may have been closed. -/
theorem isClosed_singleton {n : Node} (hn : n.Sound) (htext : n.isText = false) : IsClosed [n] :=
  ⟨Nat.le_refl 1, List.forall_mem_singleton.2 ⟨hn, htext⟩⟩

/-- What has been closed goes behind sound siblings. -/
theorem IsClosed.append {inside : List Node} (hinside : IsClosed inside) {ns : List Node} (h : Markup.Sound ns) :
    Markup.Sound (ns ++ inside) := by
  obtain ⟨hlength, hall⟩ := hinside
  match inside, hlength with
  | [], _ => rwa [List.append_nil]
  | [n], _ =>
    obtain ⟨hn, htext⟩ := hall n List.mem_cons_self
    exact h.concat hn htext

/-- An end tag closes sound elements into a sound one. -/
theorem sound_closeThrough {name : String} {endSpan : Span} : {stack : List OpenElement} →
    (∀ e ∈ stack, e.Sound) → ∀ {inside : List Node}, IsClosed inside →
    ∀ {closed : Node} {faults : List Diagnostic} {rest : List OpenElement},
      closeThrough TagRules.html name endSpan inside stack = some (closed, faults, rest) →
      closed.Sound ∧ closed.isText = false ∧ ∀ e ∈ rest, e.Sound
  | e :: stack, hstack, inside, hinside, closed, faults, rest, h => by
    obtain ⟨he, hstack⟩ := List.forall_mem_cons.1 hstack
    have hchildren := hinside.append he.children
    rw [closeThrough] at h
    split at h
    · cases h
      exact ⟨he.element (by rfl) (by rfl) hchildren, rfl, hstack⟩
    · obtain ⟨⟨closed', faults', rest'⟩, hclose, heq⟩ := Option.map_eq_some_iff.1 h
      cases heq
      exact sound_closeThrough hstack (isClosed_singleton (he.element rfl rfl hchildren) rfl) hclose

/-- The builder stays sound when an end tag closes elements, or none. -/
theorem Sound.endElement {b : Builder} (h : b.Sound) (name : String) (span : Span) :
    (b.endElement TagRules.html name span).Sound := by
  unfold Builder.endElement
  split
  · exact h.report _ _
  · split
    · exact h.report _ _
    · next closed faults rest hclose =>
      obtain ⟨hclosed, htext, hrest⟩ := sound_closeThrough h.elements isClosed_nil hclose
      have hbelow : Sound { b with stack := rest, faults := b.faults ++ faults } := ⟨h.roots, hrest⟩
      exact hbelow.add hclosed htext

/-- The elements still open at the end are closed into a sound one. -/
theorem isClosed_foldl_open : {stack : List OpenElement} → (∀ e ∈ stack, e.Sound) → ∀ {inside : List Node},
    IsClosed inside → IsClosed (stack.foldl (fun inside e => [.element e.tag (e.children ++ inside)]) inside)
  | [], _, _, hinside => hinside
  | e :: stack, hstack, inside, hinside => by
    obtain ⟨he, hstack⟩ := List.forall_mem_cons.1 hstack
    have hchildren := hinside.append he.children
    exact isClosed_foldl_open hstack (isClosed_singleton (he.element rfl rfl hchildren) rfl)

/-- The tree is sound when all elements have been closed, also within content that holds no markup. -/
theorem SoundInside.finish {b : Builder} {inside : Option String} (h : b.SoundInside inside) :
    Markup.Sound b.finish := by
  unfold Builder.finish
  dsimp only
  cases inside with
  | none => exact (isClosed_foldl_open h.elements isClosed_nil).append h.roots
  | some name =>
    obtain ⟨e, rest, hstack, -, -, helement, hrest⟩ := h
    rw [hstack, List.foldl_cons, List.append_nil]
    exact (isClosed_foldl_open hrest.elements (isClosed_singleton helement rfl)).append hrest.roots

/-- What a sound item does to a sound builder. -/
theorem Sound.takes {b b' : Builder} (h : b.Sound) {i : Item} (hi : i.Sound)
    (htakes : Takes TagRules.html b i b') : b'.Sound := by
  cases hi with
  | text value =>
    cases htakes with
    | text _ span => exact h.addText value span
  | comment hvalue hplain =>
    cases htakes with
    | comment _ span => exact h.add ⟨hvalue, hplain⟩ rfl
  | declaration value =>
    cases htakes
    exact h
  | endTag name =>
    cases htakes with
    | endTag _ span => exact h.endElement name span
  | endOfSource =>
    cases htakes
    exact h
  | @startTag name as isSelfClosing hname has hcontent =>
    obtain ⟨attributes, span, stop, rfl, rfl⟩ := htakes.startTag_inv
    rw [List.forall_mem_map] at has
    obtain ⟨hadded, -⟩ | ⟨below, tag, hbelow, rfl, htag, hself, hvoid, heq⟩ :=
      h.startElement hname has span stop isSelfClosing
    · exact hadded
    · rw [heq]
      exact ⟨hbelow.roots, List.forall_mem_cons.2 ⟨⟨htag, hvoid, hcontent hself, trivial⟩, hbelow.elements⟩⟩

/-- What is kept of a text is an end of it. -/
theorem textValue_suffix (b : Builder) (value : String) :
    (b.textValue TagRules.html value).toList <:+ value.toList := by
  unfold textValue
  split
  · next rest hvalue =>
    split
    · rw [String.toList_ofList, hvalue]
      exact List.suffix_cons _ _
    · exact List.suffix_rfl
  · exact List.suffix_rfl

/-- The start tag of an element that holds no markup, and its content. -/
theorem Sound.takes_raw {b b₁ b₂ : Builder} (h : b.Sound) {name : String} {as : List (String × String)}
    {value : String} (hname : IsTagName name) (has : ∀ a ∈ as, IsAttributeName a.1)
    (hcontent : (TagRules.html name).content ≠ .parsable)
    (hvalue : (TagRules.html name).content = .rawText → HoldsNoEndTag name value.toList)
    (hstart : Takes TagRules.html b (.startTag name as false) b₁)
    (htext : Takes TagRules.html b₁ (.rawText value) b₂) : b₂.SoundInside (some name) := by
  obtain ⟨attributes, span, stop, rfl, rfl⟩ := hstart.startTag_inv
  rw [List.forall_mem_map] at has
  have hvoid : (TagRules.html name).isVoid = false := by
    rw [Bool.eq_false_iff]
    intro hvoid
    exact hcontent (by rw [html_isVoid hvoid]; rfl)
  obtain ⟨-, hself | hself⟩ | ⟨below, tag, hbelow, rfl, htag, -, -, heq⟩ :=
    h.startElement hname has span stop false
  · cases hself
  · rw [hvoid] at hself
    cases hself
  · cases htext with
    | rawText _ place =>
    rw [heq]
    have hsuffix := textValue_suffix (below.push tag) value
    unfold Builder.addText
    dsimp only
    generalize (below.push tag).textValue TagRules.html value = read at *
    split
    · exact ⟨{ tag }, below.stack, rfl, rfl, hvoid, sound_element_nil htag, hbelow⟩
    · next hne =>
      refine ⟨{ tag, children := [.text read place] }, below.stack, rfl, rfl, hvoid, ?_, hbelow⟩
      have hread : read ≠ "" := by simpa using hne
      refine ⟨htag, fun hisVoid => ?_, fun _ => ⟨by simp [Node.isText], fun hraw b hb => ?_⟩, hread, nofun,
        trivial⟩
      · rw [hvoid] at hisVoid
        cases hisVoid
      · rw [renderAll, renderAll, Node.render, if_pos rfl, String.append_empty] at hb
        exact hvalue hraw b (hb.trans hsuffix)

/-- Items leave as they find it what has been read in part. -/
theorem Runs.pending {rules : String → TagRules} {is : List Item} {b b' : Builder} (h : Runs rules b is b') :
    b'.pending = b.pending := by
  induction h with
  | nil b => rfl
  | cons htakes _ ih => exact ih.trans htakes.pending

/-- Where nothing has been read in part there is nothing to finish. -/
theorem flush_of_nothing {b : Builder} (h : b.pending = .nothing) : b.flush TagRules.html = b := by
  rw [flush, h]

/-- A run of a sequence of items keeps the builder sound. -/
theorem SoundInside.runs {inside : Option String} {is : List Item} (h : Sequence inside is) :
    ∀ {b b' : Builder}, b.SoundInside inside → Runs TagRules.html b is b' →
      ∃ inside', b'.SoundInside inside' := by
  induction h with
  | nil inside =>
    intro b b' hb hruns
    cases hruns
    exact ⟨inside, hb⟩
  | cons hi _ ih =>
    intro b b' hb hruns
    cases hruns with
    | cons htakes hrest => exact ih (Sound.takes hb hi htakes) hrest
  | raw hname has hcontent hvalue _ ih =>
    intro b b' hb hruns
    cases hruns with
    | cons hstart hrest =>
      cases hrest with
      | cons htext hrest => exact ih (Sound.takes_raw hb hname has hcontent hvalue hstart htext) hrest
  | @close name is _ ih =>
    intro b b' hb hruns
    cases hruns with
    | cons hend hrest =>
      obtain ⟨e, rest, hstack, rfl, hvoid, ⟨htag, hcontent⟩, hbelow⟩ := hb
      refine ih ?_ hrest
      cases hend with
      | endTag _ span =>
      unfold Builder.endElement
      rw [hvoid, if_neg (by decide), hstack]
      simp only [closeThrough, if_true, List.append_nil]
      exact hbelow.add ⟨⟨htag.name, htag.attributes⟩, hcontent⟩ rfl
  | stop name =>
    intro b b' hb hruns
    cases Runs.singleton hruns
    exact ⟨some name, hb⟩

end Builder

/-- The tree of a source without faults is sound. -/
theorem sound_parse {source : String} (h : (parse source).faults = []) : Sound (parse source).nodes := by
  obtain ⟨hscan, -⟩ := List.append_eq_nil_iff.1 h
  obtain ⟨is, ls, hsequence, hls, htokens⟩ := tokenize_clean hscan
  have hruns := Builder.runs_foldl_step TagRules.html hls htokens (b := {}) rfl
  have hempty : Builder.SoundInside {} none := ⟨trivial, nofun⟩
  obtain ⟨inside, hlast⟩ := hempty.runs hsequence hruns
  have hpending := Builder.Runs.pending hruns
  unfold parse parseWith build
  dsimp only
  rw [Builder.flush_of_nothing hpending]
  exact hlast.finish

/-! ### What is restored -/

mutual

/-- A node that was read and is read back as it was: every character of its texts and values is read as it
stands, no element in it ends the one it stands in, no line feed that is dropped starts it, and no reference
and no end tag stands in content that is written as it is. -/
def Node.Restorable : Node → Prop
  | .text value _ => IsPlain value.toList
  | .comment _ _ => True
  | .element tag children =>
    let rules := TagRules.html tag.name
    (∀ a ∈ tag.attributes, IsPlain a.value.toList) ∧ KeepsOpen rules children ∧
      (rules.content = .escapableRawText → ∀ n ∈ children, ∀ value ∈ n.text?,
        decode value.toList = value.toList ∧ HoldsNoEndTag tag.name value.toList) ∧
      (rules.ignoreFirstLineFeed = true →
        ∀ n ∈ children.head?, ∀ value ∈ n.text?, value.toList.head? ≠ some '\n') ∧
      Restorable children

/-- Nodes that were read and are read back as they were. -/
def Restorable : List Node → Prop
  | [] => True
  | n :: ns => n.Restorable ∧ Restorable ns

end

instance (rules : TagRules) (ns : List Node) : Decidable (KeepsOpen rules ns) :=
  inferInstanceAs (Decidable (∀ n ∈ ns, _))

mutual

/-- Whether a node is restorable can be decided. -/
def Node.decidableRestorable : (n : Node) → Decidable n.Restorable
  | .text value _ => inferInstanceAs (Decidable (IsPlain value.toList))
  | .comment _ _ => .isTrue trivial
  | .element _ children =>
    haveI := decidableRestorable children
    inferInstanceAs (Decidable (_ ∧ _ ∧ _ ∧ _ ∧ _))

/-- Whether nodes are restorable can be decided. -/
def decidableRestorable : (ns : List Node) → Decidable (Restorable ns)
  | [] => .isTrue trivial
  | n :: ns =>
    haveI := n.decidableRestorable
    haveI := decidableRestorable ns
    inferInstanceAs (Decidable (_ ∧ _))

end

instance (ns : List Node) : Decidable (Restorable ns) :=
  decidableRestorable ns

/-- The content of an element that holds no markup, as it is written. -/
theorem holdsNoEndTag_renderAll {name : String} {children : List Node}
    (htexts : ∀ n ∈ children, n.isText = true)
    (hnext : ∀ n ∈ children.head?, n.isText = true → ∀ m ∈ children.tail.head?, m.isText = false)
    (h : ∀ n ∈ children, ∀ value ∈ n.text?, HoldsNoEndTag name value.toList) :
    HoldsNoEndTag name (renderAll true children).toList := by
  obtain rfl | ⟨value, span, rfl⟩ := eq_nil_or_singleton_of_isText htexts hnext
  · rw [renderAll, String.toList_empty]
    exact Builder.holdsNoEndTag_nil name
  · rw [renderAll, renderAll, Node.render, if_pos rfl, String.append_empty]
    exact h _ List.mem_cons_self value rfl

/-- A text at the start of sound nodes has no text behind it. -/
theorem Sound.head?_apart {ns : List Node} (h : Sound ns) :
    ∀ n ∈ ns.head?, n.isText = true → ∀ m ∈ ns.tail.head?, m.isText = false := by
  cases ns with
  | nil => exact nofun
  | cons n ns =>
    rintro _ ⟨⟩
    exact h.2.1

mutual

/-- A node that was read is legible and faithful, if it is restorable. -/
theorem Node.Sound.legible_faithful : {n : Node} → n.Sound → n.Restorable → n.Legible ∧ n.Faithful
  | .text _ _, hne, hplain => ⟨⟨hne, hplain⟩, trivial⟩
  | .comment _ _, h, _ => ⟨h, trivial⟩
  | .element tag children, ⟨htag, hvoid, hraw, hchildren⟩, ⟨hvalues, hopen, hescapable, hfeed, hrestorable⟩ => by
    obtain ⟨hlegible, hfaithful⟩ := hchildren.legible_faithful hrestorable
    refine ⟨⟨htag, hvalues, hvoid, hopen, fun hcontent => ?_, hlegible⟩,
      fun hmodel n hn value hvalue => (hescapable hmodel n hn value hvalue).1, hfeed, hfaithful⟩
    obtain ⟨htexts, hholds⟩ := hraw hcontent
    refine ⟨htexts, ?_⟩
    cases hmodel : (TagRules.html tag.name).content with
    | parsable => exact absurd hmodel hcontent
    | rawText => exact hholds hmodel
    | escapableRawText =>
      apply holdsNoEndTag_renderAll htexts hchildren.head?_apart
      intro n hn value hvalue
      exact (hescapable hmodel n hn value hvalue).2

/-- Nodes that were read are legible and faithful, if they are restorable. -/
theorem Sound.legible_faithful : {ns : List Node} → Sound ns → Restorable ns → Legible ns ∧ Faithful ns
  | [], _, _ => ⟨trivial, trivial⟩
  | _ :: _, ⟨hn, hnext, hns⟩, ⟨hn', hns'⟩ =>
    ⟨⟨(hn.legible_faithful hn').1, hnext, (hns.legible_faithful hns').1⟩, (hn.legible_faithful hn').2,
      (hns.legible_faithful hns').2⟩

end

/-- The tree of a source without faults is read back as it was, if it is restorable. -/
theorem parse_renderNodes_parse {source : String} (h : (parse source).faults = [])
    (hrestorable : Restorable (parse source).nodes) :
    (parse (renderNodes (parse source).nodes)).faults = [] ∧
      bareAll (parse (renderNodes (parse source).nodes)).nodes = bareAll (parse source).nodes := by
  obtain ⟨hlegible, hfaithful⟩ := (sound_parse h).legible_faithful hrestorable
  rw [← hlegible.readBackAll_eq_bareAll hfaithful]
  exact hlegible.parse_renderNodes

-- Statements about the tree of a given source are not to be computed while they are elaborated.
attribute [irreducible] Restorable

/-- A source with unquoted values, references, implied end tags and content without markup. -/
def looseSource : String :=
  "<p id=a title='&amp; \"' hidden>1 &lt; 2<br><ul><li>3<li>4</ul><title>a & b</title>"

/-- The theorem at a source that is not written as the printer writes. -/
theorem parse_renderNodes_looseSource :
    ((parse looseSource).faults = [] ∧ Restorable (parse looseSource).nodes) ∧
      (parse (renderNodes (parse looseSource).nodes)).faults = [] ∧
      bareAll (parse (renderNodes (parse looseSource).nodes)).nodes = bareAll (parse looseSource).nodes :=
  have h : (parse looseSource).faults = [] ∧ Restorable (parse looseSource).nodes := by decide +kernel
  ⟨h, parse_renderNodes_parse h.1 h.2⟩

/-- A source whose title refers to an ampersand. -/
def referredAmpersand : String :=
  "<title>&amp;lt;</title>"

/-- Written as it is, the ampersand of the title starts another reference. -/
theorem parse_renderNodes_referredAmpersand : (parse referredAmpersand).faults = [] ∧
    bareAll (parse (renderNodes (parse referredAmpersand).nodes)).nodes ≠
      bareAll (parse referredAmpersand).nodes := by
  refine ⟨by decide +kernel, fun h => ?_⟩
  have hwritten : renderNodes (bareAll (parse (renderNodes (parse referredAmpersand).nodes)).nodes) ≠
      renderNodes (bareAll (parse referredAmpersand).nodes) := by
    decide +kernel
  exact hwritten (congrArg renderNodes h)

end ViewTemplate.Markup
