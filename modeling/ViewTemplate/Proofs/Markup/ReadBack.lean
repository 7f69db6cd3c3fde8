import ViewTemplate.Proofs.Markup.Legible

/-!
# Reading back

What the builder makes of the items of a legible tree.  No element of such a tree closes the one it stands
in, so every start tag opens an element and its end tag closes it again; only the texts at the start of some
elements lose a line feed, and references in the content of others are read.

* `bareAll` — trees without places; `readBackAll` — what is read where a tree was written.
* `runs_items`, `runs_itemsOf` — the run of the items of a node, and of nodes, by recursion on the tree.
* `Legible.parse_renderNodes` — a legible tree that is written is read back without faults.
-/

namespace ViewTemplate.Markup

open ViewTemplate.Source ViewTemplate.Text

/-! ### Trees without places -/

/-- The attribute without its places. -/
def Attribute.bare (a : Attribute) : Attribute :=
  { name := a.name, value := a.value }

/-- The tag without its places and without how it was written. -/
def Tag.bare (t : Tag) : Tag :=
  { name := t.name, attributes := t.attributes.map Attribute.bare }

mutual

/-- The node without places: what a reader of the tree sees. -/
def Node.bare : Node → Node
  | .element tag children => .element tag.bare (bareAll children)
  | .text value _ => .text value
  | .comment value _ => .comment value

/-- The nodes without places. -/
def bareAll : List Node → List Node
  | [] => []
  | n :: ns => n.bare :: bareAll ns

end

/-- Places are taken off node by node. -/
theorem bareAll_eq_map (ns : List Node) : bareAll ns = ns.map Node.bare := by
  induction ns with
  | nil => rfl
  | cons n ns ih => rw [bareAll, ih, List.map_cons]

/-- Places are taken off nodes that are put together. -/
@[simp] theorem bareAll_append (ms ns : List Node) : bareAll (ms ++ ns) = bareAll ms ++ bareAll ns := by
  simp [bareAll_eq_map]

/-- Attributes with the same names and values differ in their places only. -/
theorem map_bare_of_entry {as bs : List Attribute} (h : as.map Attribute.entry = bs.map Attribute.entry) :
    as.map Attribute.bare = bs.map Attribute.bare := by
  have hattributes := congrArg (List.map fun e => ({ name := e.1, value := e.2 } : Attribute)) h
  rwa [List.map_map, List.map_map] at hattributes

/-! ### What is read back -/

/-- The text as a list of nodes: an empty one is no node. -/
def textNodes (value : String) : List Node :=
  if value = "" then [] else [.text value]

/-- The nodes without the line feed that a text at their start begins with. -/
def dropFirstLineFeed : List Node → List Node
  | .text value span :: ns =>
    match value.toList with
    | '\n' :: rest => textNodes (String.ofList rest) ++ ns
    | _ => .text value span :: ns
  | ns => ns

mutual

/-- What is read where a node was written. -/
def Node.readBack : Node → Node
  | .text value _ => .text value
  | .comment value _ => .comment value
  | .element tag children =>
    let rules := TagRules.html tag.name
    let content := if rules.content = .parsable then readBackAll children
      else textNodes (contentText rules (renderAll true children).toList)
    .element tag.bare (if rules.ignoreFirstLineFeed then dropFirstLineFeed content else content)

/-- What is read where nodes were written. -/
def readBackAll : List Node → List Node
  | [] => []
  | n :: ns => n.readBack :: readBackAll ns

end

/-! ### Building -/

namespace Builder

/-- The siblings that are set are there. -/
@[simp] theorem siblings_setSiblings (b : Builder) (ns : List Node) : (b.setSiblings ns).siblings = ns := by
  unfold setSiblings siblings
  cases b.stack <;> rfl

/-- Of siblings that are set twice the later ones stay. -/
@[simp] theorem setSiblings_setSiblings (b : Builder) (ms ns : List Node) :
    (b.setSiblings ms).setSiblings ns = b.setSiblings ns := by
  unfold setSiblings
  cases hstack : b.stack <;> simp

/-- To set the siblings that are there changes nothing. -/
@[simp] theorem setSiblings_siblings (b : Builder) : b.setSiblings b.siblings = b := by
  unfold setSiblings siblings
  cases hstack : b.stack with
  | nil => simp [← hstack]
  | cons e rest => simp [← hstack]

/-- The names of the open elements, innermost first. -/
def openNames (b : Builder) : List String :=
  b.stack.map (·.tag.name)

/-- To set siblings leaves the same elements open. -/
theorem openNames_setSiblings (b : Builder) (ns : List Node) : (b.setSiblings ns).openNames = b.openNames := by
  unfold setSiblings openNames
  cases hstack : b.stack <;> simp

/-- The builder with one more element open. -/
def push (b : Builder) (tag : Tag) : Builder :=
  { b with stack := { tag } :: b.stack }

/-- An element that has just been opened has no children. -/
@[simp] theorem siblings_push (b : Builder) (tag : Tag) : (b.push tag).siblings = [] := rfl

/-- An element that is opened is the innermost open one. -/
@[simp] theorem openNames_push (b : Builder) (tag : Tag) :
    (b.push tag).openNames = tag.name :: b.openNames := rfl

/-- The innermost open element stays open when the nodes come. -/
def Admits (b : Builder) (ns : List Node) : Prop :=
  ∀ name ∈ b.openNames.head?, KeepsOpen (TagRules.html name) ns

/-- The nodes as they are added: without a line feed that is dropped at the start of an element. -/
def settled (b : Builder) (ns : List Node) : List Node :=
  if b.dropsLineFeed TagRules.html then dropFirstLineFeed ns else ns

/-- A text behind something else is a node of its own. -/
theorem appendText_of_isText {ns : List Node} (h : ∀ n ∈ ns.getLast?, n.isText = false) (value : String)
    (span : Span) : appendText ns value span = ns ++ [.text value span] := by
  unfold appendText
  split
  · next hlast => cases h _ hlast
  · rfl

/-- A text without its place. -/
theorem bareAll_textNode (value : String) (span : Span) : bareAll [.text value span] = [.text value] := rfl

/-- A text is added behind markup. -/
theorem addText_eq {b : Builder} (h : ∀ n ∈ b.siblings.getLast?, n.isText = false) (value : String)
    (span : Span) :
    ∃ ms, bareAll ms = b.settled (textNodes value) ∧
      b.addText TagRules.html value span = b.setSiblings (b.siblings ++ ms) := by
  have htext : b.settled (textNodes value) = textNodes (b.textValue TagRules.html value) := by
    unfold settled textValue
    by_cases hempty : value = ""
    · subst hempty
      simp [textNodes, dropFirstLineFeed]
    · simp only [textNodes, hempty, if_false, dropFirstLineFeed]
      split
      · split <;> simp_all
      · split <;> simp_all
  unfold addText
  dsimp only
  rw [htext]
  generalize b.textValue TagRules.html value = value
  by_cases hempty : value = ""
  · refine ⟨[], ?_⟩
    simp [hempty, textNodes, bareAll]
  · refine ⟨[.text value span], ?_⟩
    simp [hempty, textNodes, appendText_of_isText h, bareAll_textNode]

/-- What two lists of items do is what the first does and then what the second does. -/
theorem Runs.append {rules : String → TagRules} {is js : List Item} : ∀ {b b'' : Builder},
    Runs rules b (is ++ js) b'' → ∃ b', Runs rules b is b' ∧ Runs rules b' js b'' := by
  induction is with
  | nil => exact fun h => ⟨_, .nil _, h⟩
  | cons i is ih =>
    intro b b'' h
    cases h with
    | cons hi his =>
      obtain ⟨b', hb', hjs⟩ := ih his
      exact ⟨b', .cons hi hb', hjs⟩

/-- What one item in a list does is what the item does. -/
theorem Runs.singleton {rules : String → TagRules} {i : Item} {b b' : Builder} (h : Runs rules b [i] b') :
    Takes rules b i b' := by
  cases h with
  | cons hi hnil =>
    cases hnil
    exact hi

/-- Nothing is closed before an element that may stand in its parent. -/
theorem closeBefore_eq_self {b : Builder} {name : String}
    (h : ∀ parent ∈ b.openNames.head?, (TagRules.html parent).isClosedByChild name = false) :
    b.closeBefore TagRules.html name = b := by
  unfold closeBefore
  unfold openNames at h
  split
  · rfl
  · next parent rest hstack =>
    rw [hstack] at h
    rw [h parent.tag.name rfl, if_neg (by decide)]

/-- A start tag that ends no open element opens one, or adds a void one. -/
theorem startElement_eq {b : Builder} {name : String}
    (h : ∀ parent ∈ b.openNames.head?, (TagRules.html parent).isClosedByChild name = false)
    (attributes : List Attribute) (span : Span) (stop : Location) :
    ∃ tag : Tag, tag.name = name ∧ tag.bare = ⟨name, attributes.map Attribute.bare, false, false, {}, {}, none⟩ ∧
      b.startElement TagRules.html name span attributes stop false =
        if (TagRules.html name).isVoid then b.add (.element tag [])
        else b.push tag := by
  let opened : Tag := { name, attributes, isVoid := (TagRules.html name).isVoid,
                        span := ⟨span.start, stop⟩, startSpan := ⟨span.start, stop⟩ }
  by_cases hvoid : (TagRules.html name).isVoid = true
  · refine ⟨{ opened with endSpan := some ⟨span.start, stop⟩ }, rfl, rfl, ?_⟩
    simp [startElement, closeBefore_eq_self h, hvoid, opened]
  · refine ⟨opened, rfl, rfl, ?_⟩
    simp [startElement, closeBefore_eq_self h, hvoid, opened, push]

/-- What a start tag does to the builder: it starts an element with the attributes of the tag. -/
theorem Takes.startTag_inv {rules : String → TagRules} {b b' : Builder} {name : String}
    {as : List (String × String)} {isSelfClosing : Bool}
    (h : Takes rules b (.startTag name as isSelfClosing) b') :
    ∃ (attributes : List Attribute) (span : Span) (stop : Location), attributes.map Attribute.entry = as ∧
      b' = b.startElement rules name span attributes stop isSelfClosing := by
  cases h with
  | startTag _ attributes _ span stop => exact ⟨attributes, span, stop, rfl, rfl⟩

/-- An open element whose content has been added is closed by its end tag. -/
theorem takes_endTag {b b' : Builder} {tag : Tag} {children : List Node}
    (hvoid : (TagRules.html tag.name).isVoid = false)
    (h : Takes TagRules.html ((b.push tag).setSiblings children) (.endTag tag.name) b') :
    ∃ closed : Tag, closed.bare = tag.bare ∧ b' = b.add (.element closed children) := by
  cases h with
  | endTag _ span =>
    refine ⟨{ tag with endSpan := some span, span := ⟨tag.startSpan.start, span.stop⟩ }, rfl, ?_⟩
    simp [endElement, hvoid, closeThrough, push, setSiblings]

/-- A node that is added is the last of the siblings. -/
theorem siblings_add (b : Builder) (n : Node) : (b.add n).siblings = b.siblings ++ [n] :=
  b.siblings_setSiblings _

/-- Behind a node no line feed is dropped. -/
theorem dropsLineFeed_add (rules : String → TagRules) (b : Builder) (n : Node) :
    (b.add n).dropsLineFeed rules = false := by
  unfold add dropsLineFeed setSiblings
  cases b.stack <;> simp

/-- What may come into the innermost open element does not depend on what is in it. -/
theorem Admits.setSiblings {b : Builder} {ns : List Node} (h : b.Admits ns) (ms : List Node) :
    (b.setSiblings ms).Admits ns := by
  unfold Admits at *
  rwa [openNames_setSiblings]

end Builder

/-- What is read where a text was written is a text. -/
theorem readBack_isText (n : Node) : n.readBack.isText = n.isText := by
  cases n <;> rfl

/-- A text without its place is a text. -/
theorem bare_isText (n : Node) : n.bare.isText = n.isText := by
  cases n <;> rfl

/-- Nodes that do not begin with a text have no line feed to drop. -/
theorem dropFirstLineFeed_eq_self {ns : List Node} (h : ∀ n ∈ ns.head?, n.isText = false) :
    dropFirstLineFeed ns = ns := by
  unfold dropFirstLineFeed
  split
  · cases h _ rfl
  · rfl

/-- Nodes that do not begin with a text are added as they are. -/
theorem Builder.settled_eq_self (b : Builder) {ns : List Node} (h : ∀ n ∈ ns.head?, n.isText = false) :
    b.settled ns = ns := by
  unfold settled
  rw [dropFirstLineFeed_eq_self h, ite_self]

/-- Only the text at the start of the nodes may lose a line feed. -/
theorem Builder.settled_textNodes_append (b : Builder) (value : String) {ns : List Node}
    (h : ∀ n ∈ ns.head?, n.isText = false) :
    b.settled (textNodes value ++ ns) = b.settled (textNodes value) ++ ns := by
  unfold settled
  split
  · by_cases hvalue : value = ""
    · have hnil : textNodes value = [] := if_pos hvalue
      rw [hnil, List.nil_append, dropFirstLineFeed_eq_self h]
      rfl
    · simp only [textNodes, hvalue, if_false, List.singleton_append, dropFirstLineFeed]
      split <;> simp
  · rfl

/-- The first of the nodes that are read back is the first one read back. -/
theorem head?_readBackAll (ns : List Node) : (readBackAll ns).head? = ns.head?.map Node.readBack := by
  cases ns <;> rfl

open Builder

mutual

/-- An element or a comment that was written is built again. -/
theorem runs_items : (n : Node) → n.Legible → n.isText = false → ∀ {b b' : Builder}, b.Admits [n] →
    Runs TagRules.html b n.items b' → ∃ m : Node, m.bare = n.readBack ∧ b' = b.add m
  | .comment value _, _, _, b, b', _, h => by
    cases Runs.singleton h with
    | comment _ span => exact ⟨.comment value span, rfl, rfl⟩
  | .element tag children, hn, _, b, b', hadmits, h => by
    obtain ⟨-, -, hvoid, hkeeps, hraw, hchildren⟩ := hn
    have hopen : ∀ parent ∈ b.openNames.head?, (TagRules.html parent).isClosedByChild tag.name = false :=
      fun parent hparent => hadmits parent hparent _ List.mem_cons_self tag rfl
    -- The first item is the start tag; what comes behind it depends on the content model of the name.
    rw [Node.items] at h
    cases h with
    | @cons _ b₁ _ _ _ hstart hrest =>
    obtain ⟨attributes, span, stop, hentries, rfl⟩ := hstart.startTag_inv
    obtain ⟨opened, hname, hbare, hstart⟩ := startElement_eq hopen attributes span stop
    have hopened : opened.bare = tag.bare := by
      rw [hbare, map_bare_of_entry hentries]
      rfl
    rw [hstart] at hrest
    by_cases hisVoid : (TagRules.html tag.name).isVoid = true
    · rw [if_pos hisVoid, if_pos hisVoid] at hrest
      cases hrest
      refine ⟨_, ?_, rfl⟩
      rw [Node.bare, Node.readBack, hopened, hvoid hisVoid, html_isVoid hisVoid]
      rfl
    · rw [if_neg hisVoid, if_neg hisVoid] at hrest
      have hsettled (ns : List Node) : (b.push opened).settled ns =
          if (TagRules.html tag.name).ignoreFirstLineFeed then dropFirstLineFeed ns else ns := by
        simp [settled, dropsLineFeed, push, hname]
      have hvoid : (TagRules.html opened.name).isVoid = false := by
        rw [hname]
        simpa using hisVoid
      -- Content that is parsed is built by the run of the children, and raw content as one text.
      by_cases hcontent : (TagRules.html tag.name).content = .parsable
      · rw [if_pos hcontent] at hrest
        obtain ⟨b₂, hinside, hend⟩ := hrest.append
        have hadmits : (b.push opened).Admits children := by
          intro name hmem
          rw [openNames_push, hname] at hmem
          cases hmem
          exact hkeeps
        obtain ⟨ms, hms, rfl⟩ := runs_itemsOf children hchildren hadmits (by simp) hinside
        rw [← hname] at hend
        obtain ⟨closed, hclosed, rfl⟩ := takes_endTag hvoid hend.singleton
        refine ⟨_, ?_, rfl⟩
        rw [Node.bare, Node.readBack, hclosed, hopened, if_pos hcontent, siblings_push, List.nil_append, hms,
          hsettled]
      · rw [if_neg hcontent] at hrest
        cases hrest with
        | cons htext hend =>
        cases htext with
        | rawText _ span =>
        obtain ⟨ms, hms, haddText⟩ := addText_eq (b := b.push opened) (by simp)
          (contentText (TagRules.html tag.name) (renderAll true children).toList) span
        rw [haddText, ← hname] at hend
        obtain ⟨closed, hclosed, rfl⟩ := takes_endTag hvoid hend.singleton
        refine ⟨_, ?_, rfl⟩
        rw [Node.bare, Node.readBack, hclosed, hopened, if_neg hcontent, siblings_push, List.nil_append, hms,
          hsettled]

/-- Nodes that were written are built again. -/
theorem runs_itemsOf : (ns : List Node) → Legible ns → ∀ {b b' : Builder}, b.Admits ns →
    (∀ n ∈ ns.head?, n.isText = true → ∀ m ∈ b.siblings.getLast?, m.isText = false) →
    Runs TagRules.html b (itemsOf ns) b' →
    ∃ ms, bareAll ms = b.settled (readBackAll ns) ∧ b' = b.setSiblings (b.siblings ++ ms)
  | [], _, b, b', _, _, h => by
    cases h
    refine ⟨[], ?_, by simp⟩
    unfold settled
    split <;> rfl
  | n :: ns, ⟨hn, hnext, hns⟩, b, b', hadmits, hlast, h => by
    obtain ⟨b₁, hfirst, hrest⟩ := Runs.append h
    have hadmits₁ : b.Admits ns := fun name hname m hm => hadmits name hname m (List.mem_cons_of_mem n hm)
    by_cases htext : n.isText = true
    · -- The text may lose a line feed; what follows it is no text.
      have hhead : ∀ m ∈ (readBackAll ns).head?, m.isText = false := by
        intro m hm
        rw [head?_readBackAll, Option.mem_def, Option.map_eq_some_iff] at hm
        obtain ⟨m, hm, rfl⟩ := hm
        rw [readBack_isText]
        exact hnext htext m hm
      cases n with
      | comment value span => cases htext
      | element tag children => cases htext
      | text value span =>
        cases Runs.singleton hfirst with
        | text _ place =>
        obtain ⟨ms, hms, haddText⟩ := addText_eq (hlast _ rfl rfl) value place
        rw [haddText] at hrest
        obtain ⟨ms', hms', rfl⟩ := runs_itemsOf ns hns (hadmits₁.setSiblings _)
          (fun m hm hmtext => absurd hmtext (by rw [hnext htext m hm]; decide)) hrest
        refine ⟨ms ++ ms', ?_, by simp⟩
        have hback : readBackAll (.text value span :: ns) = textNodes value ++ readBackAll ns := by
          rw [textNodes, if_neg hn.1]
          rfl
        rw [bareAll_append, hms, hms', settled_eq_self _ hhead, hback, settled_textNodes_append b value hhead]
    · obtain ⟨m, hm, rfl⟩ := runs_items n hn (by simpa using htext) (fun name hname k hk => by
        obtain rfl := List.mem_singleton.1 hk
        exact hadmits name hname k List.mem_cons_self) hfirst
      have hmtext : m.isText = false := by
        rw [← bare_isText, hm, readBack_isText]
        simpa using htext
      have hadmits₂ : (b.add m).Admits ns := hadmits₁.setSiblings _
      obtain ⟨ms, hms, rfl⟩ := runs_itemsOf ns hns hadmits₂
        (fun k hk hktext => by
          intro l hl
          rw [siblings_add, List.getLast?_concat] at hl
          cases hl
          exact hmtext) hrest
      refine ⟨m :: ms, ?_, by simp [Builder.add]⟩
      have hsettled : (b.add m).settled (readBackAll ns) = readBackAll ns := by
        rw [settled, dropsLineFeed_add, if_neg (by decide)]
      rw [bareAll, hm, hms, hsettled]
      refine (b.settled_eq_self fun k hk => ?_).symm
      cases hk
      rw [readBack_isText]
      simpa using htext

end

/-- Legible nodes that are written are read back without faults. -/
theorem Legible.parse_renderNodes {ns : List Node} (h : Legible ns) :
    (parse (renderNodes ns)).faults = [] ∧ bareAll (parse (renderNodes ns)).nodes = readBackAll ns := by
  obtain ⟨ls, hls, hlexemes, hfaults⟩ := h.tokenize_renderNodes
  have hruns := runs_foldl_step TagRules.html hls hlexemes (b := {}) rfl
  obtain ⟨b, hitems, hend⟩ := hruns.append
  obtain ⟨ms, hms, rfl⟩ :=
    runs_itemsOf ns h (fun _ hname => by cases hname) (fun _ _ _ _ hm => by cases hm) hitems
  unfold parse parseWith build
  dsimp only
  generalize (tokenize TagRules.html (renderNodes ns)).tokens.foldl (step TagRules.html) {} = last at *
  cases Runs.singleton hend with
  | endOfSource =>
    refine ⟨?_, ?_⟩
    · simp [hfaults, setSiblings, flush]
    · have hsettled : Builder.settled {} (readBackAll ns) = readBackAll ns := rfl
      rw [← hsettled, ← hms]
      simp [setSiblings, flush, finish, siblings]

end ViewTemplate.Markup
