import ViewTemplate.Proofs.Markup.ReadBack

/-!
# The tree so far

At any time during tree building there is a tree so far: the one that `Builder.finish` gives if no token
follows.  Seen in it, closing an element in which the source goes no further changes nothing, a new node goes
behind all others in document order, and an end tag changes one tag.

* `preorder` — the nodes of a tree in document order.
* `Builder.finish_closeInnermost` — an element that is closed where it stands.
* `Builder.startElement_cases`, `Builder.endElement_cases` — what tags do.
* `Builder.preorder_startElement`, `Builder.preorder_endElement` — the same in document order.
* `Builder.step_eq_receive` — a token that belongs to nothing read in part.
-/

namespace ViewTemplate.Markup

open ViewTemplate.Source ViewTemplate.Text

/-! ### Document order -/

mutual

/-- A node and all nodes in it in document order, each without its children. -/
def Node.preorder : Node → List Node
  | .element tag children => .element tag [] :: Markup.preorder children
  | .text value span => [.text value span]
  | .comment value span => [.comment value span]

/-- All nodes of a tree in document order, each without its children. -/
def preorder : List Node → List Node
  | [] => []
  | n :: ns => n.preorder ++ preorder ns

end

/-- The nodes of trees that are put together. -/
theorem preorder_append (ms ns : List Node) : preorder (ms ++ ns) = preorder ms ++ preorder ns := by
  induction ms with
  | nil => rfl
  | cons m ms ih => rw [List.cons_append, preorder, preorder, ih, List.append_assoc]

/-- The nodes of a single tree. -/
theorem preorder_singleton (n : Node) : preorder [n] = n.preorder :=
  List.append_nil _

namespace Builder

/-! ### Elements that are closed where they stand -/

/-- To set siblings reports nothing. -/
theorem setSiblings_faults (b : Builder) (ns : List Node) : (b.setSiblings ns).faults = b.faults := by
  unfold setSiblings
  cases b.stack <;> rfl

/-- The innermost open element, without its children. -/
def parent (b : Builder) : Option Tag :=
  b.stack.head?.map (·.tag)

/-- The builder with the innermost open element closed where it stands. -/
def closeInnermost (b : Builder) : Builder :=
  match b.stack with
  | [] => b
  | e :: rest => { b with stack := rest }.add (.element e.tag e.children)

/-- To close the innermost open element is to add it to the one around it. -/
theorem closeInnermost_of_stack {b : Builder} {e : OpenElement} {rest : List OpenElement}
    (h : b.stack = e :: rest) :
    b.closeInnermost = { b with stack := rest }.add (.element e.tag e.children) := by
  unfold closeInnermost
  rw [h]

/-- With other siblings it is closed with these as its children. -/
theorem closeInnermost_setSiblings {b : Builder} {e : OpenElement} {rest : List OpenElement}
    (h : b.stack = e :: rest) (ns : List Node) :
    (b.setSiblings ns).closeInnermost = { b with stack := rest }.add (.element e.tag ns) := by
  unfold setSiblings closeInnermost
  rw [h]

/-- The elements that are still open are closed at the end in any case. -/
theorem finish_closeInnermost (b : Builder) : b.closeInnermost.finish = b.finish := by
  unfold closeInnermost
  split
  · rfl
  · next e rest hstack =>
    unfold finish add setSiblings siblings
    rw [hstack]
    cases rest with
    | nil => simp
    | cons f rest => simp

/-- To open an element is to add it without children, as far as the tree is concerned. -/
theorem finish_push (b : Builder) (tag : Tag) : (b.push tag).finish = (b.add (.element tag [])).finish :=
  (finish_closeInnermost (b.push tag)).symm

/-- The open elements without their children, innermost first. -/
def openTags (b : Builder) : List Tag :=
  b.stack.map (·.tag)

/-- To set siblings leaves the same tags open. -/
theorem openTags_setSiblings (b : Builder) (ns : List Node) : (b.setSiblings ns).openTags = b.openTags := by
  unfold setSiblings openTags
  cases b.stack <;> simp

/-- The parent of the next node is open. -/
theorem mem_openTags_of_parent {b : Builder} {t : Tag} (h : t ∈ b.parent) : t ∈ b.openTags := by
  unfold parent at h
  unfold openTags
  cases hstack : b.stack with
  | nil => simp [hstack] at h
  | cons e rest => simp_all

/-- Some of the innermost open elements are closed where they stand. -/
inductive Closes : Builder → Builder → Prop where
  | refl (b : Builder) : Closes b b
  | step {b b' : Builder} (h : Closes b.closeInnermost b') : Closes b b'

/-- To close elements changes nothing in the tree. -/
theorem Closes.finish_eq {b b' : Builder} (h : Closes b b') : b'.finish = b.finish := by
  induction h with
  | refl b => rfl
  | step _ ih => rw [ih, finish_closeInnermost]

/-- To close the innermost open element takes its tag away. -/
theorem openTags_closeInnermost (b : Builder) : b.closeInnermost.openTags = b.openTags.tail := by
  cases hstack : b.stack with
  | nil => simp [closeInnermost, openTags, hstack]
  | cons e rest =>
    rw [closeInnermost_of_stack hstack, add, openTags_setSiblings, openTags, openTags, hstack]
    rfl

/-- The elements that stay open were open. -/
theorem Closes.openTags_suffix {b b' : Builder} (h : Closes b b') : b'.openTags <:+ b.openTags := by
  induction h with
  | refl b => exact List.suffix_rfl
  | @step b b' _ ih =>
    rw [openTags_closeInnermost] at ih
    exact ih.trans (List.tail_suffix _)

end Builder

/-! ### What tags do -/

/-- The tag with the end it has when it is closed by an end tag at the span. -/
def Tag.ended (t : Tag) (endSpan : Span) : Tag :=
  { t with endSpan := some endSpan, span := ⟨t.startSpan.start, endSpan.stop⟩ }

/-- The tag of an element as its start tag gives it: open, or ended by the start tag itself. -/
structure Tag.StartedBy (t : Tag) (name : String) (openSpan : Span) (attributes : List Attribute)
    (stop : Location) : Prop where
  name : t.name = name
  attributes : t.attributes = attributes
  startSpan : t.startSpan = ⟨openSpan.start, stop⟩
  span : t.span = t.startSpan
  endSpan : ∀ s ∈ t.endSpan, s = t.startSpan

namespace Builder

/-- An end tag closes the elements in the one that it ends, and then that one. -/
theorem closes_of_closeThrough {rules : String → TagRules} {name : String} {endSpan : Span} {b : Builder}
    {stack rest : List OpenElement} (hstack : b.stack = stack) {inside : List Node} {closed : Node}
    {faults : List Diagnostic} (h : closeThrough rules name endSpan inside stack = some (closed, faults, rest)) :
    ∃ e, Closes (b.setSiblings (b.siblings ++ inside)) { b with stack := e :: rest } ∧ e.tag.name = name ∧
      closed = .element (e.tag.ended endSpan) e.children ∧
      ∀ d ∈ faults, ∃ t ∈ b.openTags, d = (NestingFault.unclosed t.name).diagnostic t.startSpan := by
  induction stack generalizing b inside closed faults with
  | nil => cases h
  | cons f stack ih =>
    have hsiblings : b.siblings = f.children := by
      unfold siblings
      rw [hstack]
    rw [closeThrough] at h
    split at h
    · next hname =>
      cases h
      refine ⟨{ f with children := f.children ++ inside }, ?_, hname, rfl, List.forall_mem_nil _⟩
      have hsame : b.setSiblings (b.siblings ++ inside) =
          { b with stack := { f with children := f.children ++ inside } :: rest } := by
        unfold setSiblings
        rw [hsiblings, hstack]
      rw [hsame]
      exact .refl _
    · obtain ⟨⟨closed', faults', rest'⟩, hclose, heq⟩ := Option.map_eq_some_iff.1 h
      cases heq
      obtain ⟨e, hcloses, hname, hclosed, hfaults⟩ := ih (b := { b with stack := stack }) rfl hclose
      -- The innermost element is closed on the way, and reported if its end may not be implied.
      refine ⟨e, .step ?_, hname, hclosed, List.forall_mem_append.2 ⟨fun d hd => ?_, fun d hd => ?_⟩⟩
      · rw [closeInnermost_setSiblings hstack, hsiblings]
        exact hcloses
      · split at hd
        · cases hd
        · exact ⟨f.tag, by simp [openTags, hstack], List.mem_singleton.1 hd⟩
      · obtain ⟨t, ht, hd⟩ := hfaults d hd
        exact ⟨t, by rw [openTags, hstack]; exact List.mem_cons_of_mem _ ht, hd⟩

/-- What an end tag does: it is reported, or it ends the innermost open element of its name. -/
theorem endElement_cases (rules : String → TagRules) (b : Builder) (name : String) (span : Span) :
    (∃ fault, (fault = .voidEndTag name ∨ fault = .unexpectedEndTag name) ∧
        b.endElement rules name span = b.report fault span) ∨
      ∃ e rest faults, Closes b { b with stack := e :: rest } ∧ e.tag.name = name ∧
        (∀ d ∈ faults, ∃ t ∈ b.openTags, d = (NestingFault.unclosed t.name).diagnostic t.startSpan) ∧
        b.endElement rules name span =
          { b with stack := rest, faults := b.faults ++ faults }.add
            (.element (e.tag.ended span) e.children) := by
  unfold endElement
  split
  · exact .inl ⟨_, .inl rfl, rfl⟩
  · split
    · exact .inl ⟨_, .inr rfl, rfl⟩
    · next closed faults rest hclose =>
      obtain ⟨e, hcloses, hname, rfl, hfaults⟩ := closes_of_closeThrough (b := b) rfl hclose
      rw [List.append_nil, setSiblings_siblings] at hcloses
      exact .inr ⟨e, rest, faults, hcloses, hname, hfaults, rfl⟩

/-- Before a start tag nothing is closed, or the innermost open element if its rules say so. -/
theorem closeBefore_cases (rules : String → TagRules) (b : Builder) (name : String) :
    b.closeBefore rules name = b ∧ (∀ t ∈ b.parent, (rules t.name).isClosedByChild name = false) ∨
      b.closeBefore rules name = b.closeInnermost ∧
        ∃ t ∈ b.parent, (rules t.name).isClosedByChild name = true := by
  unfold closeBefore closeInnermost parent
  cases b.stack with
  | nil => exact .inl ⟨rfl, nofun⟩
  | cons e rest =>
    dsimp only
    split
    · next hcloses => exact .inr ⟨rfl, e.tag, rfl, hcloses⟩
    · next hstays =>
      refine .inl ⟨rfl, ?_⟩
      rintro _ ⟨⟩
      simpa using hstays

/-- Closing an element does not depend on the faults. -/
theorem closeInnermost_with_faults (b : Builder) (faults : List Diagnostic) :
    { b with faults }.closeInnermost = { b.closeInnermost with faults } := by
  obtain ⟨stack, roots, _, pending⟩ := b
  cases stack with
  | nil => rfl
  | cons e rest => cases rest <;> rfl

/-- A start tag closes the innermost open element if it cannot stand in it; then it adds an element that is
ended, or opens one. -/
theorem startElement_cases (rules : String → TagRules) (b : Builder) (name : String) (openSpan : Span)
    (attributes : List Attribute) (stop : Location) (isSelfClosing : Bool) :
    ∃ (tag : Tag) (b₁ : Builder) (faults : List Diagnostic),
      tag.StartedBy name openSpan attributes stop ∧ (∀ d ∈ faults, d.span = openSpan) ∧ Closes b b₁ ∧
      (b₁ = b ∧ (∀ t ∈ b.parent, (rules t.name).isClosedByChild name = false) ∨
        b₁ = b.closeInnermost ∧ ∃ t ∈ b.parent, (rules t.name).isClosedByChild name = true) ∧
      (tag.endSpan ≠ none ∧ b.startElement rules name openSpan attributes stop isSelfClosing =
          { b₁ with faults := b.faults ++ faults }.add (.element tag []) ∨
        tag.endSpan = none ∧ (rules name).isVoid = false ∧
          b.startElement rules name openSpan attributes stop isSelfClosing =
            { b₁ with faults := b.faults ++ faults }.push tag) := by
  let startSpan : Span := ⟨openSpan.start, stop⟩
  let opened : Tag :=
    { name, attributes, isSelfClosing, isVoid := (rules name).isVoid, span := startSpan, startSpan }
  -- The self-closing mark is judged before anything is closed.
  obtain ⟨faults, hfaults, hreport⟩ : ∃ faults : List Diagnostic, (∀ d ∈ faults, d.span = openSpan) ∧
      (if isSelfClosing && !((rules name).canSelfClose || (rules name).isVoid || isCustomElementName name) then
        b.report (.cannotSelfClose name) openSpan else b) = { b with faults := b.faults ++ faults } := by
    split
    · exact ⟨[_], List.forall_mem_singleton.2 rfl, rfl⟩
    · exact ⟨[], nofun, by rw [List.append_nil]⟩
  obtain ⟨b₁, hcloses, hcases, hclosed⟩ : ∃ b₁ : Builder, Closes b b₁ ∧
      (b₁ = b ∧ (∀ t ∈ b.parent, (rules t.name).isClosedByChild name = false) ∨
        b₁ = b.closeInnermost ∧ ∃ t ∈ b.parent, (rules t.name).isClosedByChild name = true) ∧
      { b with faults := b.faults ++ faults }.closeBefore rules name =
        { b₁ with faults := b.faults ++ faults } := by
    obtain ⟨heq, hstays⟩ | ⟨heq, hcloses⟩ :=
      closeBefore_cases rules { b with faults := b.faults ++ faults } name
    · exact ⟨b, .refl b, .inl ⟨rfl, hstays⟩, heq⟩
    · exact ⟨b.closeInnermost, .step (.refl _), .inr ⟨rfl, hcloses⟩,
        heq.trans (closeInnermost_with_faults b _)⟩
  unfold startElement
  dsimp only
  rw [hreport, hclosed]
  split
  · refine ⟨{ opened with endSpan := some startSpan }, b₁, faults, ⟨rfl, rfl, rfl, rfl, ?_⟩, hfaults, hcloses,
      hcases, .inl ⟨nofun, rfl⟩⟩
    rintro _ ⟨⟩
    rfl
  · next hopens =>
    simp only [Bool.or_eq_true, not_or, Bool.not_eq_true] at hopens
    exact ⟨opened, b₁, faults, ⟨rfl, rfl, rfl, rfl, nofun⟩, hfaults, hcloses, hcases,
      .inr ⟨rfl, hopens.2, rfl⟩⟩

/-! ### Document order in the tree so far -/

/-- The nodes where the next one goes are the last ones of the tree so far. -/
theorem exists_preorder_setSiblings (b : Builder) :
    ∃ before, ∀ ns, preorder (b.setSiblings ns).finish = before ++ preorder ns := by
  -- By the number of open elements: the innermost one is closed first.
  induction hlength : b.stack.length generalizing b with
  | zero =>
    have hstack : b.stack = [] := List.eq_nil_of_length_eq_zero hlength
    exact ⟨[], fun ns => by simp [setSiblings, finish, hstack]⟩
  | succ n ih =>
    obtain ⟨e, rest, hstack⟩ := List.exists_cons_of_length_eq_add_one hlength
    rw [hstack, List.length_cons, Nat.add_right_cancel_iff] at hlength
    obtain ⟨before, hbefore⟩ := ih { b with stack := rest } hlength
    refine ⟨before ++ preorder ({ b with stack := rest } : Builder).siblings ++ [.element e.tag []],
      fun ns => ?_⟩
    rw [← finish_closeInnermost, closeInnermost_setSiblings hstack, add, hbefore, preorder_append,
      preorder_singleton, Node.preorder]
    simp

/-- The nodes before the siblings of the next one stay whatever the siblings are. -/
theorem exists_preorder (b : Builder) : ∃ before, preorder b.finish = before ++ preorder b.siblings ∧
    ∀ ns, preorder (b.setSiblings ns).finish = before ++ preorder ns := by
  obtain ⟨before, hbefore⟩ := b.exists_preorder_setSiblings
  exact ⟨before, by rw [← hbefore, setSiblings_siblings], hbefore⟩

/-- A node that is added comes last, with all that is in it. -/
theorem preorder_add (b : Builder) (n : Node) :
    preorder (b.add n).finish = preorder b.finish ++ n.preorder := by
  obtain ⟨before, hb, hbefore⟩ := b.exists_preorder
  rw [add, hbefore, hb, preorder_append, preorder_singleton, List.append_assoc]

/-- A start tag puts its element behind all others. -/
theorem preorder_startElement (rules : String → TagRules) (b : Builder) (name : String) (openSpan : Span)
    (attributes : List Attribute) (stop : Location) (isSelfClosing : Bool) :
    ∃ tag : Tag, tag.StartedBy name openSpan attributes stop ∧
      preorder (b.startElement rules name openSpan attributes stop isSelfClosing).finish =
        preorder b.finish ++ [.element tag []] := by
  obtain ⟨tag, b₁, faults, htag, -, hcloses, -, hadded⟩ :=
    startElement_cases rules b name openSpan attributes stop isSelfClosing
  have hadd : preorder ({ b₁ with faults := b.faults ++ faults }.add (.element tag [])).finish =
      preorder b.finish ++ [.element tag []] := by
    rw [preorder_add, ← hcloses.finish_eq]
    rfl
  refine ⟨tag, htag, ?_⟩
  obtain ⟨-, heq⟩ | ⟨-, -, heq⟩ := hadded
  · rw [heq, hadd]
  · rw [heq, finish_push, hadd]

/-- An end tag is reported, or it changes the tag of one element that was open. -/
theorem preorder_endElement (rules : String → TagRules) (b : Builder) (name : String) (span : Span) :
    (∃ fault, (fault = .voidEndTag name ∨ fault = .unexpectedEndTag name) ∧
        b.endElement rules name span = b.report fault span) ∨
      ∃ t ∈ b.openTags, t.name = name ∧ ∃ before after,
        preorder b.finish = before ++ .element t [] :: after ∧
          preorder (b.endElement rules name span).finish = before ++ .element (t.ended span) [] :: after := by
  refine (endElement_cases rules b name span).imp_right ?_
  rintro ⟨e, rest, faults, hcloses, hname, -, heq⟩
  refine ⟨e.tag, hcloses.openTags_suffix.subset List.mem_cons_self, hname, ?_⟩
  refine ⟨preorder ({ b with stack := rest } : Builder).finish, preorder e.children, ?_, ?_⟩
  · rw [← hcloses.finish_eq, ← finish_closeInnermost, closeInnermost_of_stack rfl, preorder_add]
    rfl
  · rw [heq, preorder_add]
    rfl

end Builder

/-! ### Tokens -/

/-- Whether the lexeme belongs to what has been read in part. -/
def Pending.takes : Pending → Lexeme → Bool
  | .startTag _ _ _, .attributeName _ => true
  | .startTag _ _ _, .attributeQuote _ => true
  | .startTag _ _ _, .attributeValue _ => true
  | .startTag _ _ _, .tagOpenEnd => true
  | .startTag _ _ _, .tagSelfClose => true
  | .comment _ _, .text _ => true
  | .comment _ _, .commentEnd => true
  | _, _ => false

namespace Builder

/-- What a builder does with a token when nothing is read in part. -/
def receive (rules : String → TagRules) (b : Builder) (t : Token) : Builder :=
  match t.lexeme with
  | .tagOpen name => { b with pending := .startTag name t.span [] }
  | .commentStart => { b with pending := .comment "" t.span }
  | .tagClose name => b.endElement rules name t.span
  | .text value | .rawText value => b.addText rules value t.span
  | _ => b

/-- A token that nothing read in part takes is received once that is finished. -/
theorem step_eq_receive {rules : String → TagRules} {b : Builder} {t : Token}
    (h : b.pending.takes t.lexeme = false) : b.step rules t = (b.flush rules).receive rules t := by
  unfold step
  split
  case h_8 => rfl
  all_goals simp_all [Pending.takes]

/-- What has been read in part is then finished. -/
theorem flush_pending (rules : String → TagRules) (b : Builder) : (b.flush rules).pending = .nothing := by
  unfold flush
  split
  · assumption
  · simp
  · simp

end Builder

end ViewTemplate.Markup
