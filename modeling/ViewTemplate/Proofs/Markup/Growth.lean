import ViewTemplate.Proofs.Markup.Invariants

/-!
# How a tree grows

Much of what can be said of a tree is said of parents with their children, each by itself.  In the tree so
far, such a property is one of what is around the place where the next node goes, and of what is there.  So a
property is kept if it is kept where the next node goes, and where an element gets its end.

* `elementsOf` — the elements of a tree in document order.
* `Family`, `Builder.holds_iff` — a property of parents with their children, in the tree so far.
* `Growth` — what lists of siblings keep; `Growth.family_parseWith` — then the whole tree has it.
-/

namespace ViewTemplate.Markup

open ViewTemplate.Source ViewTemplate.Text

/-! ### The elements of a tree -/

/-- The node without its children. -/
def Node.shell : Node → Node
  | .element tag _ => .element tag []
  | .text value span => .text value span
  | .comment value span => .comment value span

mutual

/-- The elements in a node, itself included, in document order. -/
def Node.elements : Node → List Element
  | .element tag children => ⟨tag, children⟩ :: elementsOf children
  | .text _ _ => []
  | .comment _ _ => []

/-- The elements of a tree in document order. -/
def elementsOf : List Node → List Element
  | [] => []
  | n :: ns => n.elements ++ elementsOf ns

end

/-- The elements of nodes that are put together. -/
theorem elementsOf_append (ms ns : List Node) : elementsOf (ms ++ ns) = elementsOf ms ++ elementsOf ns := by
  induction ms with
  | nil => rfl
  | cons m ms ih => rw [List.cons_append, elementsOf, elementsOf, ih, List.append_assoc]

/-- An element comes before those in its content. -/
theorem elementsOf_element (tag : Tag) (children : List Node) :
    elementsOf [.element tag children] = ⟨tag, children⟩ :: elementsOf children :=
  List.append_nil _

/-! ### Parents and their children -/

/-- What is asked of parents with their children holds of the nodes with their parent, and of every element
among them and in them.  Of the children only they themselves are looked at, not what is in them. -/
structure Family (P : Option Tag → List Node → Prop) (parent : Option Tag) (ns : List Node) : Prop where
  here : P parent (ns.map Node.shell)
  below : ∀ e ∈ elementsOf ns, P (some e.toTag) (e.children.map Node.shell)

section

variable {P Q : Option Tag → List Node → Prop} {parent : Option Tag}

/-- What follows from what is asked of parents with their children holds of them too. -/
theorem Family.mono {ns : List Node} (h : Family P parent ns) (hPQ : ∀ t ms, P t ms → Q t ms) :
    Family Q parent ns :=
  ⟨hPQ _ _ h.here, fun e he => hPQ _ _ (h.below e he)⟩

/-- One more element among the nodes: it is asked of its parent with it, and of it with its children. -/
theorem family_concat_element {ns : List Node} {tag : Tag} {children : List Node} :
    Family P parent (ns ++ [.element tag children]) ↔
      P parent (ns.map Node.shell ++ [.element tag []]) ∧
        (∀ e ∈ elementsOf ns, P (some e.toTag) (e.children.map Node.shell)) ∧
        Family P (some tag) children := by
  constructor
  · rintro ⟨hhere, hbelow⟩
    rw [elementsOf_append, elementsOf_element, List.forall_mem_append, List.forall_mem_cons] at hbelow
    rw [List.map_append] at hhere
    exact ⟨hhere, hbelow.1, hbelow.2.1, hbelow.2.2⟩
  · rintro ⟨hhere, hbelow, hchildren⟩
    refine ⟨by rwa [List.map_append], ?_⟩
    rw [elementsOf_append, elementsOf_element, List.forall_mem_append, List.forall_mem_cons]
    exact ⟨hbelow, hchildren.here, hchildren.below⟩

end

namespace Builder

/-! ### Families in the tree so far -/

/-- To set siblings leaves their parent. -/
theorem parent_setSiblings (b : Builder) (ns : List Node) : (b.setSiblings ns).parent = b.parent := by
  unfold setSiblings parent
  cases b.stack <;> simp

section

variable {P : Option Tag → List Node → Prop}

/-- What is asked of parents with their children holds of the tree so far. -/
def Holds (P : Option Tag → List Node → Prop) (b : Builder) : Prop :=
  Family P none b.finish

/-- What is asked of parents with their children holds of the open elements, but for the innermost, and of
everything in them. -/
def AroundStack (P : Option Tag → List Node → Prop) (roots : List Node) : List OpenElement → Prop
  | [] => True
  | e :: rest =>
    let outside : Builder := { stack := rest, roots }
    AroundStack P roots rest ∧ P outside.parent (outside.siblings.map Node.shell ++ [.element e.tag []]) ∧
      ∀ x ∈ elementsOf outside.siblings, P (some x.toTag) (x.children.map Node.shell)

/-- The same for the open elements of a builder. -/
def Around (P : Option Tag → List Node → Prop) (b : Builder) : Prop :=
  AroundStack P b.roots b.stack

/-- What is asked around the innermost open element does not depend on its children. -/
theorem around_setSiblings (b : Builder) (ns : List Node) : (b.setSiblings ns).Around P ↔ b.Around P := by
  unfold setSiblings Around
  cases hstack : b.stack with
  | nil => simp [AroundStack]
  | cons e rest => simp [AroundStack]

/-- The tree so far is what is around the place where the next node goes, and what is there. -/
theorem holds_iff (b : Builder) : b.Holds P ↔ b.Around P ∧ Family P b.parent b.siblings := by
  -- By the number of open elements: closing the innermost one does not change the tree so far.
  induction hlength : b.stack.length generalizing b with
  | zero =>
    have hstack : b.stack = [] := List.eq_nil_of_length_eq_zero hlength
    simp [Holds, finish, Around, AroundStack, parent, siblings, hstack]
  | succ n ih =>
    obtain ⟨e, rest, hstack⟩ := List.exists_cons_of_length_eq_add_one hlength
    rw [hstack, List.length_cons, Nat.add_right_cancel_iff] at hlength
    have hclosed := ih b.closeInnermost (by
      rw [closeInnermost_of_stack hstack, add, setSiblings]
      split <;> simp_all)
    have hholds : b.closeInnermost.Holds P ↔ b.Holds P := by
      unfold Holds
      rw [finish_closeInnermost]
    rw [← hholds, hclosed, closeInnermost_of_stack hstack, add, around_setSiblings, parent_setSiblings,
      siblings_setSiblings, family_concat_element]
    simp only [Around, hstack, AroundStack, parent, siblings, List.head?_cons, Option.map_some]
    tauto

/-- What follows from what is asked around the innermost open element holds there too. -/
theorem Around.mono {Q : Option Tag → List Node → Prop} {b : Builder} (h : b.Around P)
    (hPQ : ∀ t ms, P t ms → Q t ms) : b.Around Q := by
  unfold Around at h ⊢
  generalize b.stack = stack at h ⊢
  induction stack with
  | nil => trivial
  | cons e rest ih =>
    obtain ⟨hrest, hhere, hbelow⟩ := h
    exact ⟨ih hrest, hPQ _ _ hhere, fun x hx => hPQ _ _ (hbelow x hx)⟩

/-- With other siblings, all is asked around the innermost open element and of its new children. -/
theorem holds_setSiblings {b : Builder} {ns : List Node} :
    (b.setSiblings ns).Holds P ↔ b.Around P ∧ Family P b.parent ns := by
  rw [holds_iff, around_setSiblings, parent_setSiblings, siblings_setSiblings]

/-- With one node more, all is asked around the innermost open element and of its children with the node. -/
theorem holds_add {b : Builder} {n : Node} :
    (b.add n).Holds P ↔ b.Around P ∧ Family P b.parent (b.siblings ++ [n]) :=
  holds_setSiblings

/-- To close an element changes nothing in the tree, so nothing in what holds of it. -/
theorem holds_closeInnermost {b : Builder} : b.closeInnermost.Holds P ↔ b.Holds P := by
  unfold Holds
  rw [finish_closeInnermost]

/-- To open an element is to add it without children, as far as the tree is concerned. -/
theorem holds_push {b : Builder} {tag : Tag} : (b.push tag).Holds P ↔ (b.add (.element tag [])).Holds P := by
  unfold Holds
  rw [finish_push]

end
/-- Closing the innermost open element puts it behind the nodes around it. -/
theorem siblings_closeInnermost {b : Builder} {t : Tag} (ht : t ∈ b.parent) :
    ∃ ms, b.closeInnermost.siblings.map Node.shell = ms ++ [.element t []] := by
  cases hstack : b.stack with
  | nil => simp [Builder.parent, hstack] at ht
  | cons e rest =>
    obtain rfl : e.tag = t := by simpa [Builder.parent, hstack] using ht
    rw [closeInnermost_of_stack hstack, siblings_add, List.map_append]
    exact ⟨_, rfl⟩

end Builder

/-! ### Properties that are kept as the tree grows -/

/-- What is asked of parents with their children, given the offset up to which the text has been read, and
is kept where the next node goes.  The parent of new nodes has no end yet. -/
structure Growth (rules : String → TagRules) (cs : List Char) (P : Nat → Option Tag → List Node → Prop) :
    Prop where
  later {p q : Nat} {parent : Option Tag} {ns : List Node} : P p parent ns → p ≤ q → P q parent ns
  text {p : Nat} {parent : Option Tag} {ns : List Node} {span : Span} (value : String) : P p parent ns →
    (∀ t ∈ parent, t.endSpan = none) → span.IsIn cs → p ≤ span.start.offset →
    P span.stop.offset parent (Builder.appendText ns value span)
  comment {p : Nat} {parent : Option Tag} {ns : List Node} {span : Span} (value : String) : P p parent ns →
    (∀ t ∈ parent, t.endSpan = none) → span.IsIn cs → p ≤ span.start.offset →
    P span.stop.offset parent (ns ++ [.comment value span])
  /-- An element that may stand in its parent, or that follows one which it ends. -/
  element {p : Nat} {parent : Option Tag} {ns : List Node} {openSpan : Span} {attributes : List Attribute}
    {stop : Location} {name : String} {tag : Tag} : P p parent ns → (∀ t ∈ parent, t.endSpan = none) →
    OpensIn cs p openSpan attributes stop → tag.StartedBy name openSpan attributes stop →
    ((∀ t ∈ parent, (rules t.name).isClosedByChild name = false) ∨
      ∃ t ms, ns = ms ++ [.element t []] ∧ t.endSpan = none ∧ (rules t.name).isVoid = false ∧
        (rules t.name).isClosedByChild name = true) →
    P stop.offset parent (ns ++ [.element tag []])
  childless {p : Nat} {openSpan : Span} {attributes : List Attribute} {stop : Location} {name : String}
    {tag : Tag} : OpensIn cs p openSpan attributes stop → tag.StartedBy name openSpan attributes stop →
    P stop.offset (some tag) []
  ended {p : Nat} {parent : Option Tag} {ns : List Node} {tag : Tag} {span : Span} :
    P p parent (ns ++ [.element tag []]) → (∀ t ∈ parent, t.endSpan = none) → span.IsIn cs →
    p ≤ span.start.offset → span.start.offset < span.stop.offset →
    P span.stop.offset parent (ns ++ [.element (tag.ended span) []])
  complete {p : Nat} {ns : List Node} {tag : Tag} {span : Span} : P p (some tag) ns → span.IsIn cs →
    p ≤ span.start.offset → span.start.offset < span.stop.offset → P span.stop.offset (some (tag.ended span)) ns

/-- To join a text to nodes changes nothing below them. -/
theorem map_shell_appendText (ns : List Node) (value : String) (span : Span) :
    (Builder.appendText ns value span).map Node.shell = Builder.appendText (ns.map Node.shell) value span := by
  unfold Builder.appendText
  rw [List.getLast?_map]
  cases hlast : ns.getLast? with
  | none => simp [Node.shell]
  | some n => cases n <;> simp [Node.shell]

/-- A text that is joined to nodes brings no element. -/
theorem elementsOf_appendText (ns : List Node) (value : String) (span : Span) :
    elementsOf (Builder.appendText ns value span) = elementsOf ns := by
  unfold Builder.appendText
  split
  · next before place hlast =>
    obtain ⟨init, rfl⟩ := List.getLast?_eq_some_iff.1 hlast
    rw [List.dropLast_concat, elementsOf_append, elementsOf_append]
    rfl
  · rw [elementsOf_append]
    exact List.append_nil _

namespace Growth

variable {rules : String → TagRules} {cs : List Char} {P : Nat → Option Tag → List Node → Prop}

open Builder

/-- What is kept where the next node goes is kept in the tree so far. -/
theorem holds_setSiblings (h : Growth rules cs P) {p q : Nat} {b : Builder} {ns : List Node}
    (hb : b.Holds (P p)) (hle : p ≤ q)
    (hhere : P p b.parent (b.siblings.map Node.shell) → P q b.parent (ns.map Node.shell))
    (hbelow : ∀ e ∈ elementsOf ns, e ∈ elementsOf b.siblings ∨ P q (some e.toTag) (e.children.map Node.shell)) :
    (b.setSiblings ns).Holds (P q) := by
  obtain ⟨haround, hfamily⟩ := (holds_iff b).1 hb
  refine Builder.holds_setSiblings.2 ⟨haround.mono fun _ _ hP => h.later hP hle, hhere hfamily.here,
    fun e he => ?_⟩
  obtain hold | hnew := hbelow e he
  · exact h.later (hfamily.below e hold) hle
  · exact hnew

/-- A text that is added keeps what holds of the tree. -/
theorem addText (h : Growth rules cs P) {p : Nat} {b : Builder} {span : Span} (value : String)
    (hb : b.Holds (P p)) (hopen : b.Unended rules) (hspan : span.IsIn cs) (hle : p ≤ span.start.offset) :
    (b.addText rules value span).Holds (P span.stop.offset) := by
  have hle' := hle.trans hspan.order
  unfold Builder.addText
  dsimp only
  split
  · exact hb.mono fun _ _ hP => h.later hP hle'
  · refine h.holds_setSiblings hb hle' (fun hP => ?_) fun e he => ?_
    · rw [map_shell_appendText]
      exact h.text _ hP hopen.parent hspan hle
    · rw [elementsOf_appendText] at he
      exact .inl he

/-- A comment that is added keeps what holds of the tree. -/
theorem addComment (h : Growth rules cs P) {p : Nat} {b : Builder} {span : Span} (value : String)
    (hb : b.Holds (P p)) (hopen : b.Unended rules) (hspan : span.IsIn cs) (hle : p ≤ span.start.offset) :
    (b.add (.comment value span)).Holds (P span.stop.offset) := by
  refine h.holds_setSiblings hb (hle.trans hspan.order) (fun hP => ?_) fun e he => ?_
  · rw [List.map_append]
    exact h.comment value hP hopen.parent hspan hle
  · rw [elementsOf_append, List.mem_append] at he
    exact .inl (he.resolve_right nofun)

/-- A start tag keeps what holds of the tree: it may close one element, and opens or completes another. -/
theorem startElement (h : Growth rules cs P) {p : Nat} {b : Builder} {openSpan : Span}
    {attributes : List Attribute} {stop : Location} (name : String) (isSelfClosing : Bool)
    (hb : b.Holds (P p)) (hopen : b.Unended rules) (hopens : OpensIn cs p openSpan attributes stop) :
    (b.startElement rules name openSpan attributes stop isSelfClosing).Holds (P stop.offset) := by
  obtain ⟨tag, b₁, faults, htag, -, hcloses, hcases, hadded⟩ :=
    startElement_cases rules b name openSpan attributes stop isSelfClosing
  have hb₁ : b₁.Holds (P p) := by
    unfold Holds
    rwa [hcloses.finish_eq]
  have hstands : (∀ t ∈ b₁.parent, (rules t.name).isClosedByChild name = false) ∨
      ∃ t ms, b₁.siblings.map Node.shell = ms ++ [.element t []] ∧ t.endSpan = none ∧
        (rules t.name).isVoid = false ∧ (rules t.name).isClosedByChild name = true := by
    obtain ⟨rfl, hstays⟩ | ⟨rfl, t, ht, hends⟩ := hcases
    · exact .inl hstays
    · obtain ⟨ms, hms⟩ := siblings_closeInnermost ht
      obtain ⟨hend, hvoid⟩ := hopen t (mem_openTags_of_parent ht)
      exact .inr ⟨t, ms, hms, hend, hvoid, hends⟩
  let b₂ : Builder := { b₁ with faults := b.faults ++ faults }
  have hadd : (b₂.add (.element tag [])).Holds (P stop.offset) := by
    refine h.holds_setSiblings (b := b₂) hb₁ (hopens.after.trans hopens.lt.le) (fun hP => ?_) fun e he => ?_
    · rw [List.map_append]
      exact h.element hP (hopen.closes hcloses).parent hopens htag hstands
    · rw [elementsOf_append, List.mem_append, elementsOf_element] at he
      refine he.imp_right fun htag' => ?_
      obtain rfl := List.mem_singleton.1 htag'
      exact h.childless hopens htag
  obtain ⟨-, heq⟩ | ⟨-, -, heq⟩ := hadded
  · rw [heq]
    exact hadd
  · rw [heq]
    exact holds_push.2 hadd

/-- An end tag keeps what holds of the tree: it closes elements up to its own, or none. -/
theorem endElement (h : Growth rules cs P) {p : Nat} {b : Builder} {span : Span} (name : String)
    (hb : b.Holds (P p)) (hopen : b.Unended rules) (hspan : span.IsIn cs) (hle : p ≤ span.start.offset)
    (hfilled : span.start.offset < span.stop.offset) :
    (b.endElement rules name span).Holds (P span.stop.offset) := by
  have hlater : ∀ t ms, P p t ms → P span.stop.offset t ms := fun _ _ hP => h.later hP (hle.trans hspan.order)
  obtain ⟨fault, -, heq⟩ | ⟨e, rest, faults, hcloses, -, -, heq⟩ := endElement_cases rules b name span
  · rw [heq]
    exact hb.mono hlater
  · -- What is in the element that ends is closed first; seen in the tree so far, nothing has changed then.
    have hinside : ({ b with stack := rest }.add (.element e.tag e.children)).Holds (P p) := by
      rw [← closeInnermost_of_stack (b := { b with stack := e :: rest }) rfl, holds_closeInnermost]
      unfold Holds
      rwa [hcloses.finish_eq]
    have hrest : Unended rules { b with stack := rest } :=
      fun t ht => hopen.closes hcloses t (List.mem_cons_of_mem _ ht)
    obtain ⟨haround, hfamily⟩ := holds_add.1 hinside
    obtain ⟨hhere, hbelow, hchildren⟩ := family_concat_element.1 hfamily
    rw [heq]
    refine holds_add.2 ⟨haround.mono hlater, family_concat_element.2 ⟨?_, ?_, ?_⟩⟩
    · exact h.ended hhere hrest.parent hspan hle hfilled
    · exact fun x hx => hlater _ _ (hbelow x hx)
    · exact ⟨h.complete hchildren.here hspan hle hfilled, (hchildren.mono hlater).below⟩

/-- What is kept as the tree grows holds at every step of the builder. -/
theorem invariant (h : Growth rules cs P) :
    Invariant rules cs fun p b => b.Holds (P p) ∧ b.Unended rules where
  later hb hle := ⟨hb.1.mono fun _ _ hP => h.later hP hle, hb.2⟩
  pending _ hb := hb
  text value hb hspan hle := ⟨h.addText value hb.1 hb.2 hspan hle, hb.2.addText value _⟩
  comment value hb hspan hle := ⟨h.addComment value hb.1 hb.2 hspan hle, hb.2.setSiblings _⟩
  startTag name isSelfClosing hb hopens :=
    ⟨h.startElement name isSelfClosing hb.1 hb.2 hopens, hb.2.startElement name _ _ _ isSelfClosing⟩
  endTag name hb hspan hle hfilled :=
    ⟨h.endElement name hb.1 hb.2 hspan hle hfilled, hb.2.endElement name _⟩

end Growth

/-- The tree of a source has what is kept as it grows. -/
theorem Growth.family_parseWith {rules : String → TagRules} {P : Nat → Option Tag → List Node → Prop}
    {source : String} (h : Growth rules (unifyLines source.toList) P) (hempty : P 0 none []) :
    ∃ q, Family (P q) none (parseWith rules source).nodes := by
  obtain ⟨q, htokens⟩ := tokenize_inOrder rules source
  have hroot : Builder.Holds (P 0) {} := ⟨hempty, nofun⟩
  exact ⟨q, (h.invariant.build htokens (Builder.ready_empty ⟨hroot, nofun⟩)).1⟩

end ViewTemplate.Markup
