import ViewTemplate.Proofs.Compile.Targets
import ViewTemplate.Proofs.Markup.Writable

/-!
# The elements that are read back

Where a writable tree was written the same elements are read, in the same order and with the same classes:
neither joined texts nor line endings, dropped line feeds or references in texts touch them.

* `Legible.tagsOf_readBackAll` — the elements of a legible tree are read back.
* `Writable.parse_template` — what is read where a writable template was written.
-/

namespace ViewTemplate.Markup

open ViewTemplate.Text

mutual

/-- A tree without its places has the same tags, without theirs. -/
theorem Node.tags_bare : (n : Node) → n.bare.tags = n.tags.map Tag.bare
  | .text _ _ => rfl
  | .comment _ _ => rfl
  | .element tag children => congrArg (tag.bare :: ·) (tagsOf_bareAll children)

/-- Trees without their places have the same tags, without theirs. -/
theorem tagsOf_bareAll : (ns : List Node) → tagsOf (bareAll ns) = (tagsOf ns).map Tag.bare
  | [] => rfl
  | n :: ns => by rw [bareAll, tagsOf, tagsOf, List.map_append, n.tags_bare, tagsOf_bareAll ns]

end

mutual

/-- A tree with its line endings unified has the same tags, with theirs unified. -/
theorem Node.tags_unified : (n : Node) → n.unified.tags = n.tags.map Tag.unified
  | .text _ _ => rfl
  | .comment _ _ => rfl
  | .element tag children => congrArg (tag.unified :: ·) (tagsOf_unifyAll children)

/-- Trees with their line endings unified have the same tags, with theirs unified. -/
theorem tagsOf_unifyAll : (ns : List Node) → tagsOf (unifyAll ns) = (tagsOf ns).map Tag.unified
  | [] => rfl
  | n :: ns => by rw [unifyAll, tagsOf, tagsOf, List.map_append, n.tags_unified, tagsOf_unifyAll ns]

end

/-- To join a text to the one behind it changes no tag. -/
theorem tagsOf_joinTo (n : Node) (ns : List Node) : tagsOf (n.joinTo ns) = n.tags ++ tagsOf ns := by
  cases n with
  | comment value span => rfl
  | element tag children => rfl
  | text value span =>
    rw [Node.joinTo]
    obtain ⟨-, heq⟩ | ⟨-, value', span', rest, rfl, heq⟩ | ⟨-, -, heq⟩ := joinText_cases value span ns
    · rw [heq]
      rfl
    · rw [heq]
      rfl
    · rw [heq]
      rfl

mutual

/-- A tree with its texts joined has the same tags. -/
theorem Node.tags_joined : (n : Node) → n.joined.tags = n.tags
  | .text _ _ => rfl
  | .comment _ _ => rfl
  | .element tag children => congrArg (tag :: ·) (tagsOf_joinAll children)

/-- Trees with their texts joined have the same tags. -/
theorem tagsOf_joinAll : (ns : List Node) → tagsOf (joinAll ns) = tagsOf ns
  | [] => rfl
  | n :: ns => by rw [joinAll, tagsOf_joinTo, n.tags_joined, tagsOf_joinAll ns, tagsOf]

end

/-- A text as a list of nodes has no tags. -/
theorem tagsOf_textNodes (value : String) : tagsOf (textNodes value) = [] := by
  unfold textNodes
  split <;> rfl

/-- A line feed that is dropped is no tag. -/
theorem tagsOf_dropFirstLineFeed (ns : List Node) : tagsOf (dropFirstLineFeed ns) = tagsOf ns := by
  unfold dropFirstLineFeed
  split
  · split
    · rw [tagsOf_append, tagsOf_textNodes]
      rfl
    · rfl
  · rfl

/-- Texts have no tags. -/
theorem tagsOf_of_isText {ns : List Node} (h : ∀ n ∈ ns, n.isText = true) : tagsOf ns = [] := by
  induction ns with
  | nil => rfl
  | cons n ns ih =>
    obtain ⟨hn, hns⟩ := List.forall_mem_cons.1 h
    cases n with
    | text value span => exact ih hns
    | comment value span => cases hn
    | element tag children => cases hn

mutual

/-- What is read where a legible tree was written has its tags, without places. -/
theorem Node.Legible.tags_readBack : {n : Node} → n.Legible → n.readBack.tags = n.tags.map Tag.bare
  | .text _ _, _ => rfl
  | .comment _ _, _ => rfl
  | .element tag children, ⟨_, _, _, _, hraw, hchildren⟩ => by
    have hcontent : tagsOf (if (TagRules.html tag.name).content = .parsable then readBackAll children
        else textNodes (contentText (TagRules.html tag.name) (renderAll true children).toList)) =
          (tagsOf children).map Tag.bare := by
      split
      · exact hchildren.tagsOf_readBackAll
      · next hmodel => rw [tagsOf_textNodes, tagsOf_of_isText (hraw hmodel).1, List.map_nil]
    rw [Node.readBack, Node.tags, Node.tags, List.map_cons]
    split
    · rw [tagsOf_dropFirstLineFeed, hcontent]
    · rw [hcontent]

/-- The elements of a legible tree are read back. -/
theorem Legible.tagsOf_readBackAll : {ns : List Node} → Legible ns →
    tagsOf (readBackAll ns) = (tagsOf ns).map Tag.bare
  | [], _ => rfl
  | n :: ns, ⟨hn, _, hns⟩ => by
    rw [readBackAll, tagsOf, tagsOf, List.map_append, hn.tags_readBack, hns.tagsOf_readBackAll]

end

/-- The classes of a tag do not depend on its places. -/
theorem hasClass_bare (t : Tag) (cls : String) : t.bare.hasClass cls = t.hasClass cls := by
  simp only [Tag.hasClass, Tag.classes, Tag.value?, Tag.attribute?, Tag.bare, List.find?_map, Option.map_map]
  rfl

/-- A line ending stands between words before and after it is unified. -/
theorem words_unified (value : String) : words (unified value) = words value := by
  rw [words, words, unified, String.toList_ofList, wordChars_unifyLines]

/-- The classes of a tag do not depend on its line endings. -/
theorem hasClass_unified (t : Tag) (cls : String) : t.unified.hasClass cls = t.hasClass cls := by
  have hfind : t.unified.attribute? "class" = (t.attribute? "class").map Attribute.unified := by
    rw [Tag.attribute?, Tag.attribute?, Tag.unified, List.find?_map]
    rfl
  unfold Tag.hasClass Tag.classes Tag.value?
  rw [hfind]
  cases t.attribute? "class" with
  | none => rfl
  | some a => exact congrArg (List.contains · cls) (words_unified a.value)

/-- A change that leaves classes alone leaves the same targets. -/
theorem map_targets {f : Tag → Tag} {cls : String} (hf : ∀ t, (f t).hasClass cls = t.hasClass cls)
    (ns : List Node) : (targets cls ns).map f = ((tagsOf ns).map f).filter (·.hasClass cls) := by
  rw [targets, List.filter_map]
  simp only [Function.comp_def, hf]

/-- A `template` has no rules of its own. -/
theorem html_template : TagRules.html "template" = TagRules.standard := by
  decide +kernel

/-- What is an element but for places, self-closing marks and the like is one element. -/
theorem bareAll_eq_element {ns children : List Node} {tag : Tag} (h : bareAll ns = [.element tag children]) :
    ∃ root below, ns = [.element root below] ∧ root.bare = tag ∧ bareAll below = children := by
  cases ns with
  | nil => cases h
  | cons n ns =>
    rw [bareAll, List.cons.injEq] at h
    obtain ⟨hn, hns⟩ := h
    have hnil : ns = [] := by
      cases ns with
      | nil => rfl
      | cons m ms => cases hns
    cases n with
    | text value span => cases hn
    | comment value span => cases hn
    | element root below =>
      rw [Node.bare, Node.element.injEq] at hn
      exact ⟨root, below, by rw [hnil], hn.1, hn.2⟩

/-- What is read where a writable template was written: one template, and below it the same elements. -/
theorem Writable.parse_template {root : Tag} {children : List Node} (h : Writable [.element root children])
    (hname : root.name = "template") : (parse (renderNodes [.element root children])).faults = [] ∧
      ∃ root' children', (parse (renderNodes [.element root children])).nodes = [.element root' children'] ∧
        root'.name = "template" ∧
        (tagsOf children').map Tag.bare = (tagsOf children).map (Tag.bare ∘ Tag.unified) := by
  obtain ⟨hlegible, hfaults, hnodes⟩ := h.parse_renderNodes
  refine ⟨hfaults, ?_⟩
  have hback : readBackAll (unifyAll (Markup.joinAll [.element root children])) =
      [.element root.unified.bare (readBackAll (unifyAll (Markup.joinAll children)))] := by
    have hrules : TagRules.html root.unified.name = TagRules.standard := hname ▸ html_template
    simp only [Markup.joinAll, Node.joined, Node.joinTo, unifyAll, Node.unified, readBackAll, Node.readBack,
      hrules]
    rfl
  rw [hback] at hnodes
  obtain ⟨-, -, -, -, -, hchildren⟩ := hlegible.1
  obtain ⟨root', children', hparsed, hroot, hbelow⟩ := bareAll_eq_element hnodes
  refine ⟨root', children', hparsed, ?_, ?_⟩
  · exact (congrArg Tag.name hroot).trans hname
  · rw [← tagsOf_bareAll, hbelow, hchildren.tagsOf_readBackAll, tagsOf_unifyAll, tagsOf_joinAll,
      List.map_map]

end ViewTemplate.Markup
