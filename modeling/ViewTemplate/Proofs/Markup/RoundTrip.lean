import ViewTemplate.Proofs.Markup.ReadBack

/-!
# Writing and reading a tree

A well-formed tree stands for what is written of it: reading that gives the tree back, without a fault.
Every condition comes from a context that ends or changes what stands in it — a name, a value, a text, a
comment, the content of an element that holds no markup, the line feed after some start tags, and the start
tags that end the element they stand in.

* `Faithful` — no text is changed on the way; `Legible.readBackAll_eq_bareAll` — then what is read is what
  was written.
* `WellFormed` — the conditions, one by one; `parse_renderNodes_wellFormed` — the round trip.
-/

namespace ViewTemplate.Markup

open ViewTemplate.Text

/-! ### Faithful trees -/

/-- The value, if the node is a text. -/
def Node.text? : Node → Option String
  | .text value _ => some value
  | _ => none

mutual

/-- A node whose texts are read back as they were: no line feed is dropped at the start of its elements, and
no reference is read in their content where it was written raw. -/
def Node.Faithful : Node → Prop
  | .text _ _ => True
  | .comment _ _ => True
  | .element tag children =>
    let rules := TagRules.html tag.name
    (rules.content = .escapableRawText → ∀ n ∈ children, ∀ value ∈ n.text?, decode value.toList = value.toList) ∧
      (rules.ignoreFirstLineFeed = true →
        ∀ n ∈ children.head?, ∀ value ∈ n.text?, value.toList.head? ≠ some '\n') ∧
      Faithful children

/-- Nodes whose texts are read back as they were. -/
def Faithful : List Node → Prop
  | [] => True
  | n :: ns => n.Faithful ∧ Faithful ns

end

/-- A list of texts that do not touch holds one at most. -/
theorem eq_nil_or_singleton_of_isText {ns : List Node} (htexts : ∀ n ∈ ns, n.isText = true)
    (hnext : ∀ n ∈ ns.head?, n.isText = true → ∀ m ∈ ns.tail.head?, m.isText = false) :
    ns = [] ∨ ∃ value span, ns = [.text value span] := by
  match ns with
  | [] => exact .inl rfl
  | [.text value span] => exact .inr ⟨value, span, rfl⟩
  | [.comment _ _] => cases htexts _ List.mem_cons_self
  | [.element _ _] => cases htexts _ List.mem_cons_self
  | n :: m :: ms =>
    have hm := hnext n rfl (htexts n List.mem_cons_self) m rfl
    rw [htexts m (by simp)] at hm
    cases hm

/-- Legible texts are one text at most, since none follows another. -/
theorem Legible.eq_nil_or_singleton {ns : List Node} (h : Legible ns) (htexts : ∀ n ∈ ns, n.isText = true) :
    ns = [] ∨ ∃ value span, value ≠ "" ∧ ns = [.text value span] := by
  cases ns with
  | nil => exact .inl rfl
  | cons n ns =>
    obtain ⟨hn, hnext, -⟩ := h
    obtain hnil | ⟨value, span, heq⟩ := eq_nil_or_singleton_of_isText htexts fun _ hmem => by
      cases hmem
      exact hnext
    · cases hnil
    · cases heq
      exact .inr ⟨value, span, hn.1, rfl⟩

/-- Nothing is dropped from nodes that do not begin with a line feed. -/
theorem dropFirstLineFeed_of_head? {ns : List Node}
    (h : ∀ n ∈ ns.head?, ∀ value ∈ n.text?, value.toList.head? ≠ some '\n') : dropFirstLineFeed ns = ns := by
  unfold dropFirstLineFeed
  split
  · next value span ns =>
    split
    · next hvalue => exact absurd (by rw [hvalue]; rfl) (h _ rfl value rfl)
    · rfl
  · rfl

/-- What holds of the text at the start of nodes does without its place. -/
theorem head?_bareAll_text? {p : String → Prop} {ns : List Node}
    (h : ∀ n ∈ ns.head?, ∀ value ∈ n.text?, p value) : ∀ n ∈ (bareAll ns).head?, ∀ value ∈ n.text?, p value := by
  cases ns with
  | nil => exact h
  | cons n ns =>
    rintro _ ⟨⟩ value hvalue
    refine h n rfl value ?_
    cases n with
    | text _ _ => exact hvalue
    | comment _ _ => cases hvalue
    | element _ _ => cases hvalue

mutual

/-- A legible and faithful node is read back as it was, without its places. -/
theorem Node.Legible.readBack_eq_bare : {n : Node} → n.Legible → n.Faithful → n.readBack = n.bare
  | .text _ _, _, _ => rfl
  | .comment _ _, _, _ => rfl
  | .element tag children, ⟨_, _, _, _, hraw, hchildren⟩, ⟨hdecode, hfeed, hfaithful⟩ => by
    have hcontent : (if (TagRules.html tag.name).content = .parsable then readBackAll children
        else textNodes (contentText (TagRules.html tag.name) (renderAll true children).toList)) =
          bareAll children := by
      split
      · exact hchildren.readBackAll_eq_bareAll hfaithful
      · next hmodel =>
        obtain rfl | ⟨value, span, hne, rfl⟩ := hchildren.eq_nil_or_singleton (hraw hmodel).1
        · simp [renderAll, contentText, decode, decodeFrom, textNodes, bareAll]
        · have hread : contentText (TagRules.html tag.name) value.toList = value := by
            unfold contentText
            split
            · next hescapable => rw [hdecode hescapable _ List.mem_cons_self value rfl, String.ofList_toList]
            · exact String.ofList_toList
          rw [renderAll, renderAll, Node.render, if_pos rfl, String.append_empty, hread, textNodes, if_neg hne]
          rfl
    rw [Node.readBack, Node.bare, hcontent]
    split
    · next hignore =>
      rw [dropFirstLineFeed_of_head? (head?_bareAll_text? (hfeed hignore))]
    · rfl

/-- Legible and faithful nodes are read back as they were, without their places. -/
theorem Legible.readBackAll_eq_bareAll : {ns : List Node} → Legible ns → Faithful ns →
    readBackAll ns = bareAll ns
  | [], _, _ => rfl
  | n :: ns, ⟨hn, _, hns⟩, ⟨hn', hns'⟩ => by
    rw [readBackAll, bareAll, hn.readBack_eq_bare hn', hns.readBackAll_eq_bareAll hns']

end

/-! ### Well-formed trees -/

/-- Whether the characters contain the given ones, in any ASCII case. -/
def ContainsIgnoringCase (cs ds : List Char) : Prop :=
  ds.map Char.toLower <:+: cs.map Char.toLower

instance (cs ds : List Char) : Decidable (ContainsIgnoringCase cs ds) :=
  inferInstanceAs (Decidable (_ <:+: _))

/-- The content of an element that holds no markup: one text at most, which neither ends the element nor
holds what would be read as a reference. -/
def IsRawContentOf (name : String) (children : List Node) : Prop :=
  children.length ≤ 1 ∧ ∀ n ∈ children, ∃ value ∈ n.text?,
    ¬ ContainsIgnoringCase value.toList ('<' :: '/' :: name.toList) ∧
      (name ∈ escapableNames → '&' ∉ value.toList)

instance (name : String) (children : List Node) : Decidable (IsRawContentOf name children) :=
  inferInstanceAs (Decidable (_ ∧ _))

/-- The content of an element that is read back: none in a void element, no element that ends it, no line feed
at the start where one is dropped, and no markup where none is read. -/
def IsContentOf (name : String) (children : List Node) : Prop :=
  ((TagRules.html name).isVoid = true → children = []) ∧
    (∀ n ∈ children, ∀ t ∈ n.tag?, (TagRules.html name).isClosedByChild t.name = false) ∧
    (name ∈ lineFeedNames → ∀ n ∈ children.head?, ∀ value ∈ n.text?, value.toList.head? ≠ some '\n') ∧
    (name ∈ rawNames → IsRawContentOf name children)

instance (name : String) (children : List Node) : Decidable (IsContentOf name children) :=
  haveI : Decidable (children = []) := decidable_of_iff (children.isEmpty = true) List.isEmpty_iff
  inferInstanceAs (Decidable (_ ∧ _ ∧ _ ∧ _))

mutual

/-- A node that stands for what is written of it. -/
def Node.WellFormed : Node → Prop
  | .text value _ => value ≠ "" ∧ IsPlain value.toList
  | .comment value _ => IsCommentText value ∧ IsPlain value.toList
  | .element tag children => IsTag tag ∧ (∀ a ∈ tag.attributes, IsPlain a.value.toList) ∧
    IsContentOf tag.name children ∧ WellFormed children

/-- Nodes that stand for what is written of them; no text is directly followed by another one. -/
def WellFormed : List Node → Prop
  | [] => True
  | n :: ns => n.WellFormed ∧ (n.isText = true → ∀ m ∈ ns.head?, m.isText = false) ∧ WellFormed ns

end

mutual

/-- Whether a node is well formed can be decided. -/
def Node.decidableWellFormed : (n : Node) → Decidable n.WellFormed
  | .text _ _ => inferInstanceAs (Decidable (_ ∧ _))
  | .comment _ _ => inferInstanceAs (Decidable (_ ∧ _))
  | .element _ children =>
    haveI := decidableWellFormed children
    inferInstanceAs (Decidable (_ ∧ _ ∧ _ ∧ _))

/-- Whether nodes are well formed can be decided. -/
def decidableWellFormed : (ns : List Node) → Decidable (WellFormed ns)
  | [] => .isTrue trivial
  | n :: ns =>
    haveI := n.decidableWellFormed
    haveI := decidableWellFormed ns
    inferInstanceAs (Decidable (_ ∧ _ ∧ _))

end

instance (ns : List Node) : Decidable (WellFormed ns) :=
  decidableWellFormed ns

/-- The end tag of an element is found only where its characters stand. -/
theorem startsWithName_isPrefix : {name cs : List Char} → startsWithName name cs = true →
    name.map Char.toLower <+: cs.map Char.toLower
  | [], _, _ => List.nil_prefix
  | a :: name, c :: cs, h => by
    rw [startsWithName, Bool.and_eq_true, sameIgnoringCase, decide_eq_true_eq] at h
    rw [List.map_cons, List.map_cons, h.1, List.prefix_cons_inj]
    exact startsWithName_isPrefix h.2

/-- Where the name does not stand behind `</`, in any case, there is no end tag. -/
theorem holdsNoEndTag_of_not_containsIgnoringCase {name : String} {cs : List Char}
    (h : ¬ ContainsIgnoringCase cs ('<' :: '/' :: name.toList)) : HoldsNoEndTag name cs := by
  intro b hb
  rw [Bool.eq_false_iff]
  intro hcloses
  unfold closesTag at hcloses
  split at hcloses
  · next rest =>
    apply h
    have hstart : ('<' :: '/' :: name.toList).map Char.toLower <+: ('<' :: '/' :: rest).map Char.toLower := by
      simpa [List.prefix_cons_inj] using startsWithName_isPrefix hcloses
    exact hstart.isInfix.trans (hb.map _).isInfix
  · cases hcloses

/-- Without an ampersand nothing is decoded. -/
theorem decode_eq_self : (cs : List Char) → '&' ∉ cs → decode cs = cs
  | [], _ => rfl
  | c :: cs, h => by
    rw [List.mem_cons, not_or] at h
    have htail := decode_eq_self cs h.2
    unfold decode at htail ⊢
    rw [decodeFrom, if_neg (Ne.symm h.1), htail]

/-- Content that may stand where no markup is read is text, and ends nothing. -/
theorem IsRawContentOf.isText_holdsNoEndTag {name : String} {children : List Node}
    (h : IsRawContentOf name children) : (∀ n ∈ children, n.isText = true) ∧
      HoldsNoEndTag name (renderAll true children).toList := by
  obtain ⟨hlength, hall⟩ := h
  match children, hlength with
  | [], _ =>
    refine ⟨fun n hn => absurd hn List.not_mem_nil, fun b hb => ?_⟩
    rw [renderAll, String.toList_empty, List.suffix_nil] at hb
    rw [hb]
    rfl
  | [n], _ =>
    obtain ⟨value, hvalue, hcontains, -⟩ := hall n List.mem_cons_self
    cases n with
    | comment _ _ => cases hvalue
    | element _ _ => cases hvalue
    | text value span =>
      cases hvalue
      refine ⟨by simp [Node.isText], ?_⟩
      rw [renderAll, renderAll, Node.render, if_pos rfl, String.append_empty]
      exact holdsNoEndTag_of_not_containsIgnoringCase hcontains

mutual

/-- A well-formed node is legible and faithful. -/
theorem Node.WellFormed.legible_faithful : {n : Node} → n.WellFormed → n.Legible ∧ n.Faithful
  | .text _ _, h => ⟨h, trivial⟩
  | .comment _ _, h => ⟨h, trivial⟩
  | .element tag children, ⟨htag, hvalues, ⟨hvoid, hopen, hfeed, hraw⟩, hchildren⟩ => by
    obtain ⟨hlegible, hfaithful⟩ := hchildren.legible_faithful
    obtain ⟨hrawName, hescapableName, hfeedName⟩ := html_of_lowerCase htag.name.lower
    refine ⟨⟨htag, hvalues, hvoid, hopen, fun hcontent => ?_, hlegible⟩, fun hescapable n hn value hvalue => ?_,
      fun hignore => hfeed (hfeedName hignore), hfaithful⟩
    · exact (hraw (hrawName hcontent)).isText_holdsNoEndTag
    · obtain ⟨-, hall⟩ := hraw (hrawName (by rw [hescapable]; decide))
      obtain ⟨_, hvalue', -, hreference⟩ := hall n hn
      obtain rfl := Option.mem_unique hvalue hvalue'
      exact decode_eq_self _ (hreference (hescapableName hescapable))

/-- Well-formed nodes are legible and faithful. -/
theorem WellFormed.legible_faithful : {ns : List Node} → WellFormed ns → Legible ns ∧ Faithful ns
  | [], _ => ⟨trivial, trivial⟩
  | _ :: _, ⟨hn, hnext, hns⟩ =>
    ⟨⟨hn.legible_faithful.1, hnext, hns.legible_faithful.1⟩, hn.legible_faithful.2, hns.legible_faithful.2⟩

end

/-! ### The round trip -/

/-- A well-formed tree that is written is read back without faults and as the same tree: the same names,
attributes, texts, comments and nesting. -/
theorem parse_renderNodes_wellFormed {ns : List Node} (h : WellFormed ns) :
    (parse (renderNodes ns)).faults = [] ∧ bareAll (parse (renderNodes ns)).nodes = bareAll ns := by
  obtain ⟨hlegible, hfaithful⟩ := h.legible_faithful
  rw [← hlegible.readBackAll_eq_bareAll hfaithful]
  exact hlegible.parse_renderNodes

/-- A page on which every rule of writing and reading has something to do. -/
def everyRule : List Node :=
  [.comment "a -- b >",
   .element { name := "p", attributes := [{ name := "title", value := "\"1\" & &lt;" }, { name := "hidden", value := "" }] }
     [.text "1 < 2 &amp; \u00a0", .element { name := "br" } [], .text "\n"],
   .element { name := "pre" } [.element { name := "b" } [], .text "\n"],
   .text "</p>",
   .element { name := "textarea" } [.text "</b></textare"],
   .element { name := "script" } [.text "if (a < b && c) d = '&lt;</p>'"]]

/-- The theorem at a page on which every rule of writing and reading has something to do. -/
theorem parse_renderNodes_everyRule : WellFormed everyRule ∧ (parse (renderNodes everyRule)).faults = [] ∧
    bareAll (parse (renderNodes everyRule)).nodes = bareAll everyRule :=
  have h : WellFormed everyRule := by decide +kernel
  ⟨h, parse_renderNodes_wellFormed h⟩

end ViewTemplate.Markup
