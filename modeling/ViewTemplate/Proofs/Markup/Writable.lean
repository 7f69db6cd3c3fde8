import ViewTemplate.Proofs.Markup.Lines
import ViewTemplate.Proofs.Markup.ReadBack

/-!
# Writable trees

A tree that was put together may hold empty texts, texts that touch, and line endings that are read as one.
What is written of it is read as another tree, but the elements are the same: the tree is written like the one
in which texts are joined and line endings are alike, and that one is legible.

* `Writable` — the trees whose elements are read back.
* `joinAll` — texts joined; `unifyAll` — line endings made alike; neither is seen in what is written.
* `Writable.parse_renderNodes` — what is read where a writable tree was written.
-/

namespace ViewTemplate.Markup

open ViewTemplate.Source ViewTemplate.Text

mutual

/-- A node whose elements are read back where it is written. -/
def Node.Writable : Node → Prop
  | .text value _ => '\x00' ∉ value.toList
  | .comment value _ => IsCommentText value ∧ IsPlain value.toList
  | .element tag children =>
    let rules := TagRules.html tag.name
    IsTag tag ∧ (∀ a ∈ tag.attributes, '\x00' ∉ a.value.toList) ∧ (rules.isVoid = true → children = []) ∧
      KeepsOpen rules children ∧
      (rules.content ≠ .parsable → (∀ n ∈ children, n.isText = true) ∧
        HoldsNoEndTag tag.name (renderAll true children).toList) ∧
      Writable children

/-- Nodes whose elements are read back where they are written. -/
def Writable : List Node → Prop
  | [] => True
  | n :: ns => n.Writable ∧ Writable ns

end

/-- Nodes are writable together exactly if they are so apart. -/
theorem writable_append {ms ns : List Node} : Writable (ms ++ ns) ↔ Writable ms ∧ Writable ns := by
  induction ms with
  | nil => simp [Writable]
  | cons m ms ih => rw [List.cons_append, Writable, Writable, ih, and_assoc]

/-! ### Joining texts -/

/-- The text in front of nodes among which no texts touch. -/
def joinText (value : String) (span : Span) (ns : List Node) : List Node :=
  if value = "" then ns
  else match ns with
    | .text value' _ :: rest => .text (value ++ value') span :: rest
    | ns => .text value span :: ns

/-- The node in front of nodes among which no texts touch. -/
def Node.joinTo : Node → List Node → List Node
  | .text value span, ns => joinText value span ns
  | .comment value span, ns => .comment value span :: ns
  | .element tag children, ns => .element tag children :: ns

mutual

/-- The node with the texts in it joined. -/
def Node.joined : Node → Node
  | .text value span => .text value span
  | .comment value span => .comment value span
  | .element tag children => .element tag (joinAll children)

/-- The nodes without empty texts, and with texts that touch as one. -/
def joinAll : List Node → List Node
  | [] => []
  | n :: ns => n.joined.joinTo (joinAll ns)

end

mutual

/-- A node in which no text is empty and none touch. -/
def Node.Separate : Node → Prop
  | .text value _ => value ≠ ""
  | .comment _ _ => True
  | .element _ children => Separate children

/-- Nodes in which no text is empty and none touch. -/
def Separate : List Node → Prop
  | [] => True
  | n :: ns => n.Separate ∧ (n.isText = true → ∀ m ∈ ns.head?, m.isText = false) ∧ Separate ns

end

/-- A text that is empty, that touches another one, or that does not. -/
theorem joinText_cases (value : String) (span : Span) (ns : List Node) :
    (value = "" ∧ joinText value span ns = ns) ∨
    (value ≠ "" ∧ ∃ value' span' rest, ns = .text value' span' :: rest ∧
      joinText value span ns = .text (value ++ value') span :: rest) ∨
    (value ≠ "" ∧ (∀ m ∈ ns.head?, m.isText = false) ∧ joinText value span ns = .text value span :: ns) := by
  unfold joinText
  by_cases hvalue : value = ""
  · exact .inl ⟨hvalue, if_pos hvalue⟩
  · rw [if_neg hvalue]
    refine .inr ?_
    match ns with
    | [] => exact .inr ⟨hvalue, nofun, rfl⟩
    | .text value' span' :: rest => exact .inl ⟨hvalue, value', span', rest, rfl, rfl⟩
    | .comment _ _ :: _ => exact .inr ⟨hvalue, fun m hm => by cases hm; rfl, rfl⟩
    | .element _ _ :: _ => exact .inr ⟨hvalue, fun m hm => by cases hm; rfl, rfl⟩

/-- A text is escaped piece by piece. -/
theorem escapeText_append (s t : String) : escapeText (s ++ t) = escapeText s ++ escapeText t := by
  rw [← String.toList_inj, String.toList_append, toList_escapeText, toList_escapeText, toList_escapeText,
    String.toList_append, List.flatMap_append]

/-- A text of two pieces is written as the pieces one behind the other. -/
theorem render_text_append (raw : Bool) (s t : String) (span : Span) :
    (Node.text (s ++ t) span).render raw = (Node.text s).render raw ++ (Node.text t).render raw := by
  rw [Node.render, Node.render, Node.render]
  cases raw with
  | true => rfl
  | false => exact escapeText_append s t

/-- To join a text to the one behind it changes nothing in what is written. -/
theorem renderAll_joinTo (raw : Bool) (n : Node) (ns : List Node) :
    renderAll raw (n.joinTo ns) = n.render raw ++ renderAll raw ns := by
  cases n with
  | comment value span => rfl
  | element tag children => rfl
  | text value span =>
    rw [Node.joinTo]
    obtain ⟨rfl, heq⟩ | ⟨-, value', span', rest, rfl, heq⟩ | ⟨-, -, heq⟩ := joinText_cases value span ns
    · rw [heq]
      cases raw <;> simp [Node.render, escapeText]
    · rw [heq, renderAll, renderAll, render_text_append, String.append_assoc]
      rfl
    · rw [heq, renderAll]

mutual

/-- A node is written as it is with the texts in it joined. -/
theorem Node.render_joined (raw : Bool) : (n : Node) → n.joined.render raw = n.render raw
  | .text _ _ => rfl
  | .comment _ _ => rfl
  | .element tag children => by
    rw [Node.joined, Node.render, Node.render, renderAll_joinAll _ children]

/-- Joining texts is not seen in what is written. -/
theorem renderAll_joinAll (raw : Bool) : (ns : List Node) → renderAll raw (joinAll ns) = renderAll raw ns
  | [] => rfl
  | n :: ns => by
    rw [joinAll, renderAll_joinTo, renderAll_joinAll raw ns, n.render_joined raw, renderAll]

end

/-- What a joined list is made of: the nodes of the list, or texts. -/
theorem mem_joinTo {n m : Node} {ns : List Node} (h : m ∈ n.joinTo ns) : m = n ∨ m ∈ ns ∨ m.isText = true := by
  cases n with
  | comment value span => exact (List.mem_cons.1 h).imp_right .inl
  | element tag children => exact (List.mem_cons.1 h).imp_right .inl
  | text value span =>
    rw [Node.joinTo] at h
    obtain ⟨-, heq⟩ | ⟨-, value', span', rest, rfl, heq⟩ | ⟨-, -, heq⟩ := joinText_cases value span ns
    · exact .inr (.inl (heq ▸ h))
    · rcases List.mem_cons.1 (heq ▸ h) with rfl | h
      · exact .inr (.inr rfl)
      · exact .inr (.inl (List.mem_cons_of_mem _ h))
    · exact (List.mem_cons.1 (heq ▸ h)).imp_right .inl

/-- Joining texts below a node makes no text of it. -/
theorem isText_joined (n : Node) : n.joined.isText = n.isText := by
  cases n <;> rfl

/-- Joining texts below an element leaves its tag. -/
theorem tag?_joined (n : Node) : n.joined.tag? = n.tag? := by
  cases n <;> rfl

/-- A text has no tag. -/
theorem tag?_of_isText {n : Node} (h : n.isText = true) : n.tag? = none := by
  cases n <;> first | rfl | cases h

/-- No child ends its parent after joining, if none did before. -/
theorem KeepsOpen.joinAll {rules : TagRules} : (ns : List Node) → KeepsOpen rules ns →
    KeepsOpen rules (Markup.joinAll ns)
  | [], _ => nofun
  | n :: ns, h => by
    intro m hm t ht
    rcases mem_joinTo hm with rfl | hm | htext
    · exact h n List.mem_cons_self t (tag?_joined n ▸ ht)
    · exact KeepsOpen.joinAll ns (fun k hk => h k (List.mem_cons_of_mem n hk)) m hm t ht
    · rw [tag?_of_isText htext] at ht
      cases ht

/-- Where all nodes are texts, they are so after joining. -/
theorem isText_joinAll : (ns : List Node) → (∀ n ∈ ns, n.isText = true) → ∀ m ∈ joinAll ns, m.isText = true
  | [], h => h
  | n :: ns, h => by
    obtain ⟨hn, hns⟩ := List.forall_mem_cons.1 h
    intro m hm
    rcases mem_joinTo hm with rfl | hm | htext
    · rwa [isText_joined]
    · exact isText_joinAll ns hns m hm
    · exact htext

/-- Writable texts that are joined make a writable text. -/
theorem writable_joinTo {n : Node} {ns : List Node} (hn : n.Writable) (hns : Writable ns) :
    Writable (n.joinTo ns) := by
  cases n with
  | comment value span => exact ⟨hn, hns⟩
  | element tag children => exact ⟨hn, hns⟩
  | text value span =>
    rw [Node.joinTo]
    obtain ⟨-, heq⟩ | ⟨-, value', span', rest, rfl, heq⟩ | ⟨-, -, heq⟩ := joinText_cases value span ns
    · rwa [heq]
    · rw [heq]
      refine ⟨fun hmem => ?_, hns.2⟩
      rw [String.toList_append, List.mem_append] at hmem
      exact hmem.elim hn hns.1
    · rw [heq]
      exact ⟨hn, hns⟩

/-- A node that is joined to separate nodes leaves no two texts side by side. -/
theorem separate_joinTo {n : Node} {ns : List Node} (hn : n.isText = false → n.Separate) (hns : Separate ns) :
    Separate (n.joinTo ns) := by
  cases n with
  | comment value span => exact ⟨hn rfl, nofun, hns⟩
  | element tag children => exact ⟨hn rfl, nofun, hns⟩
  | text value span =>
    rw [Node.joinTo]
    obtain ⟨-, heq⟩ | ⟨hvalue, value', span', rest, rfl, heq⟩ | ⟨hvalue, hhead, heq⟩ :=
      joinText_cases value span ns
    · rwa [heq]
    · obtain ⟨-, hnext, hrest⟩ := hns
      rw [heq]
      refine ⟨fun hempty => ?_, fun _ => hnext rfl, hrest⟩
      exact hvalue (String.append_eq_empty_iff.1 hempty).1
    · rw [heq]
      exact ⟨hvalue, fun _ => hhead, hns⟩

mutual

/-- A writable node is so after the texts in it have been joined. -/
theorem Node.Writable.joined : {n : Node} → n.Writable → n.joined.Writable
  | .text _ _, h => h
  | .comment _ _, h => h
  | .element tag children, ⟨htag, hvalues, hvoid, hopen, hraw, hchildren⟩ => by
    refine ⟨htag, hvalues, ?_, KeepsOpen.joinAll children hopen, ?_, hchildren.joinAll⟩
    · intro hisVoid
      rw [hvoid hisVoid, Markup.joinAll]
    · intro hcontent
      rw [renderAll_joinAll]
      exact ⟨isText_joinAll children (hraw hcontent).1, (hraw hcontent).2⟩

/-- Writable nodes are so after their texts have been joined. -/
theorem Writable.joinAll : {ns : List Node} → Writable ns → Writable (joinAll ns)
  | [], h => h
  | _ :: _, ⟨hn, hns⟩ => writable_joinTo hn.joined hns.joinAll

end

mutual

/-- Below a node whose texts have been joined no two texts stand side by side. -/
theorem Node.separate_joined : (n : Node) → n.joined.isText = false → n.joined.Separate
  | .comment _ _, _ => trivial
  | .element _ children, _ => separate_joinAll children

/-- Among nodes whose texts have been joined no two texts stand side by side. -/
theorem separate_joinAll : (ns : List Node) → Separate (joinAll ns)
  | [] => trivial
  | n :: ns => separate_joinTo n.separate_joined (separate_joinAll ns)

end

/-! ### Making line endings alike -/

/-- The text with its line endings alike. -/
def unified (value : String) : String :=
  String.ofList (unifyLines value.toList)

/-- The attribute with the line endings of its value alike. -/
def Attribute.unified (a : Attribute) : Attribute :=
  { a with value := Markup.unified a.value }

/-- The tag with the line endings of its values alike. -/
def Tag.unified (t : Tag) : Tag :=
  { t with attributes := t.attributes.map Attribute.unified }

mutual

/-- The node with its line endings alike. -/
def Node.unified : Node → Node
  | .text value span => .text (Markup.unified value) span
  | .comment value span => .comment value span
  | .element tag children => .element tag.unified (unifyAll children)

/-- The nodes with their line endings alike. -/
def unifyAll : List Node → List Node
  | [] => []
  | n :: ns => n.unified :: unifyAll ns

end

/-- Line endings are unified node by node. -/
theorem unifyAll_eq_map (ns : List Node) : unifyAll ns = ns.map Node.unified := by
  induction ns with
  | nil => rfl
  | cons n ns ih => rw [unifyAll, ih, List.map_cons]

/-- There is no carriage return in plain characters. -/
theorem IsPlain.cr_notMem {cs : List Char} (h : IsPlain cs) : '\r' ∉ cs :=
  fun hmem => (h _ hmem).1 rfl

/-- To unify line endings in written attributes is to write them with their line endings unified. -/
theorem unifyLines_renderAttributes (as : List Attribute) (h : ∀ a ∈ as, IsAttributeName a.name)
    (rest : List Char) : unifyLines (renderAttributes as ++ rest) =
      renderAttributes (as.map Attribute.unified) ++ unifyLines rest := by
  induction as with
  | nil => simp
  | cons a as ih =>
    obtain ⟨ha, has⟩ := List.forall_mem_cons.1 h
    rw [List.map_cons, renderAttributes_cons, renderAttributes_cons]
    simp only [List.cons_append, List.append_assoc]
    rw [unifyLines_cons (by decide), unifyLines_append_left ha.isPlain.cr_notMem,
      unifyLines_cons (by decide), unifyLines_cons (by decide), unifyLines_append (by simp),
      unifyLines_escapeValue, unifyLines_cons (by decide), ih has]
    rfl

/-- To unify line endings in a written start tag is to write it with its line endings unified. -/
theorem unifyLines_renderStart {t : Tag} (ht : IsTag t) (rest : List Char) :
    unifyLines (t.renderStart.toList ++ rest) = t.unified.renderStart.toList ++ unifyLines rest := by
  rw [toList_renderStart, toList_renderStart]
  simp only [List.cons_append, List.append_assoc, List.nil_append]
  rw [unifyLines_cons (by decide), unifyLines_append_left ht.name.isPlain.cr_notMem,
    unifyLines_renderAttributes _ ht.attributes, unifyLines_cons (by decide)]
  rfl

/-- A written end tag has no line endings to unify. -/
theorem unifyLines_renderEnd {t : Tag} (ht : IsTag t) (rest : List Char) :
    unifyLines (t.renderEnd.toList ++ rest) = t.unified.renderEnd.toList ++ unifyLines rest := by
  rw [toList_renderEnd, toList_renderEnd]
  simp only [List.cons_append, List.append_assoc, List.nil_append]
  rw [unifyLines_cons (by decide), unifyLines_cons (by decide),
    unifyLines_append_left ht.name.isPlain.cr_notMem, unifyLines_cons (by decide)]
  rfl

/-- What is written for an element or a comment does not begin with a line feed. -/
theorem head?_render_ne_lineFeed {n : Node} (h : n.isText = false) (raw : Bool) (rest : List Char) :
    ((n.render raw).toList ++ rest).head? ≠ some '\n' := by
  cases n with
  | text value span => cases h
  | comment value span =>
    rw [Node.render]
    simp
  | element tag children =>
    rw [Node.render]
    split <;> simp [toList_renderStart]

mutual

/-- Line endings that are made alike after writing are alike before it. -/
theorem unifyLines_render (raw : Bool) (rest : List Char) : (n : Node) → n.Writable → n.Separate →
    (n.isText = true → rest.head? ≠ some '\n') →
    unifyLines ((n.render raw).toList ++ rest) = (n.unified.render raw).toList ++ unifyLines rest
  | .text value span, _, _, hrest => by
    rw [unifyLines_append (hrest rfl), Node.unified, Node.render, Node.render]
    cases raw with
    | true => simp [unified]
    | false => simp [unifyLines_escapeText, unified]
  | .comment value span, ⟨_, hvalue⟩, _, _ => by
    rw [Node.unified, Node.render]
    refine unifyLines_append_left ?_ rest
    simp only [String.toList_append, List.mem_append, not_or]
    exact ⟨⟨by simp, hvalue.cr_notMem⟩, by simp⟩
  | .element tag children, ⟨htag, _, _, _, _, hchildren⟩, hseparate, _ => by
    rw [Node.unified, Node.render, Node.render]
    have hname : tag.unified.name = tag.name := rfl
    rw [hname]
    split
    · exact unifyLines_renderStart htag rest
    · have hend : (tag.renderEnd.toList ++ rest).head? ≠ some '\n' := by simp [toList_renderEnd]
      simp only [String.toList_append, List.append_assoc]
      rw [unifyLines_renderStart htag, unifyLines_renderAll _ _ children hchildren hseparate hend,
        unifyLines_renderEnd htag]

/-- To unify line endings in written nodes is to write them with their line endings unified. -/
theorem unifyLines_renderAll (raw : Bool) (rest : List Char) : (ns : List Node) → Writable ns →
    Separate ns → rest.head? ≠ some '\n' →
    unifyLines ((renderAll raw ns).toList ++ rest) = (renderAll raw (unifyAll ns)).toList ++ unifyLines rest
  | [], _, _, _ => by simp [renderAll, unifyAll]
  | n :: ns, ⟨hn, hns⟩, ⟨hseparate, hnext, hseparates⟩, hrest => by
    have hhead : n.isText = true → ((renderAll raw ns).toList ++ rest).head? ≠ some '\n' := by
      intro htext
      cases ns with
      | nil => simpa [renderAll] using hrest
      | cons m ms =>
        rw [renderAll, String.toList_append, List.append_assoc]
        exact head?_render_ne_lineFeed (hnext htext m rfl) raw _
    rw [renderAll, unifyAll, renderAll, String.toList_append, String.toList_append, List.append_assoc,
      List.append_assoc, unifyLines_render raw _ n hn hseparate hhead,
      unifyLines_renderAll raw rest ns hns hseparates hrest]

end

/-- Unifying line endings makes no text of a node, and leaves a text one. -/
theorem isText_unified (n : Node) : n.unified.isText = n.isText := by
  cases n <;> rfl

/-- The tag of an element whose line endings have been unified. -/
theorem tag?_unified (n : Node) : n.unified.tag? = n.tag?.map Tag.unified := by
  cases n <;> rfl

/-- No child ends its parent after unifying line endings, if none did before. -/
theorem KeepsOpen.unifyAll {rules : TagRules} {ns : List Node} (h : KeepsOpen rules ns) :
    KeepsOpen rules (unifyAll ns) := by
  intro m hm t ht
  rw [unifyAll_eq_map] at hm
  obtain ⟨n, hn, rfl⟩ := List.mem_map.1 hm
  rw [tag?_unified, Option.mem_def, Option.map_eq_some_iff] at ht
  obtain ⟨t, ht, rfl⟩ := ht
  exact h n hn t ht

/-- A tag that can be written can be so with its line endings unified. -/
theorem IsTag.unified {t : Tag} (h : IsTag t) : IsTag t.unified :=
  ⟨h.name, List.forall_mem_map.2 h.attributes⟩

mutual

/-- A writable node is legible with its line endings unified, if no texts are side by side in it. -/
theorem Node.Writable.legible_unified : {n : Node} → n.Writable → n.Separate → n.unified.Legible
  | .text value span, h, hne => by
    rw [Node.unified, Node.Legible, Markup.unified, String.toList_ofList]
    refine ⟨fun hempty => hne ?_, isPlain_unifyLines h⟩
    exact String.toList_eq_nil_iff.1 (unifyLines_eq_nil (String.ofList_eq_empty_iff.1 hempty))
  | .comment _ _, h, _ => h
  | .element tag children, ⟨htag, hvalues, hvoid, hopen, hraw, hchildren⟩, hseparate => by
    refine ⟨htag.unified, List.forall_mem_map.2 fun a ha => ?_, ?_, hopen.unifyAll, ?_,
      hchildren.legible_unifyAll hseparate⟩
    · show IsPlain (Markup.unified a.value).toList
      rw [Markup.unified, String.toList_ofList]
      exact isPlain_unifyLines (hvalues a ha)
    · intro hisVoid
      rw [hvoid hisVoid, unifyAll]
    · intro hcontent
      obtain ⟨htexts, hend⟩ := hraw hcontent
      refine ⟨fun m hm => ?_, ?_⟩
      · rw [unifyAll_eq_map] at hm
        obtain ⟨n, hn, rfl⟩ := List.mem_map.1 hm
        rw [isText_unified]
        exact htexts n hn
      · have hwritten := unifyLines_renderAll true [] children hchildren hseparate nofun
        rw [unifyLines, List.append_nil, List.append_nil] at hwritten
        rw [← hwritten]
        exact hend.unifyLines htag.name.toIsNameText

/-- A writable tree whose texts are joined is legible once its line endings are alike. -/
theorem Writable.legible_unifyAll : {ns : List Node} → Writable ns → Separate ns → Legible (unifyAll ns)
  | [], _, _ => trivial
  | n :: ns, ⟨hn, hns⟩, ⟨hseparate, hnext, hseparates⟩ => by
    refine ⟨hn.legible_unified hseparate, ?_, hns.legible_unifyAll hseparates⟩
    intro htext m hm
    rw [isText_unified] at htext
    rw [unifyAll_eq_map, List.head?_map, Option.mem_def, Option.map_eq_some_iff] at hm
    obtain ⟨k, hk, rfl⟩ := hm
    rw [isText_unified]
    exact hnext htext k hk

end

/-! ### Reading -/

/-- A writable tree is read without faults, as the one in which texts are joined and line endings alike. -/
theorem Writable.parse_renderNodes {ns : List Node} (h : Writable ns) :
    Legible (unifyAll (Markup.joinAll ns)) ∧ (parse (renderNodes ns)).faults = [] ∧
      bareAll (parse (renderNodes ns)).nodes = readBackAll (unifyAll (Markup.joinAll ns)) := by
  have hlegible := h.joinAll.legible_unifyAll (separate_joinAll ns)
  have hwritten := unifyLines_renderAll false [] _ h.joinAll (separate_joinAll ns) nofun
  have hparse : parse (renderNodes ns) = parse (renderNodes (unifyAll (Markup.joinAll ns))) := by
    apply parse_eq_of_unifyLines_eq
    rw [unifyLines, List.append_nil, List.append_nil] at hwritten
    rw [renderNodes, renderNodes, ← renderAll_joinAll, hwritten, ← hwritten, unifyLines_unifyLines]
  rw [hparse]
  exact ⟨hlegible, hlegible.parse_renderNodes⟩

end ViewTemplate.Markup
