import Mathlib.Data.List.Chain
import ViewTemplate.Proofs.Markup.EndTags
import ViewTemplate.Proofs.Markup.Growth
import ViewTemplate.Proofs.Markup.Restoring

/-!
# Trees keep their tokens

Whoever goes through the tree of a source meets what the tokens announce, all of it and in their order: an
element for each opening of a tag, with the attributes behind it; a comment for each opening of a comment;
and the characters of all other text, but for a line feed that an element drops at its start.  No text stands
next to another one.  An end tag is reported, or it is the end of one element, which has its name.

* `marksOf`, `announced` — what a reader of a tree meets, and what lexemes announce.
* `Builder.marksOf_step`, `Builder.marksOf_foldl_step` — each token takes from what is announced what it gives
  to the tree, and so do all of them.
* `openEnd`, `arriving` — the element that may drop a line feed, and the lexemes without it.
* `growth_apart` — texts that are apart.
* `parseWith_conserves` — all of it, for any source and any rules.
-/

namespace ViewTemplate.Markup

open ViewTemplate.Source ViewTemplate.Text

/-! ### What a reader of a tree meets -/

/-- An element, a comment or a character, as they are met in document order. -/
inductive Mark where
  | element (name : String) (attributes : List (String × String))
  | comment (value : String)
  | character (c : Char)
  deriving Repr, DecidableEq

/-- What is met at the node itself. -/
def Node.marks : Node → List Mark
  | .element tag _ => [.element tag.name (tag.attributes.map Attribute.entry)]
  | .text value _ => value.toList.map .character
  | .comment value _ => [.comment value]

/-- What is met in a tree. -/
def marksOf (ns : List Node) : List Mark :=
  (preorder ns).flatMap Node.marks

/-! ### What lexemes announce -/

/-- The value of an attribute: the last one before the next attribute or the end of the tag. -/
def valueAhead (value : String) : List Lexeme → String
  | .attributeQuote _ :: ls => valueAhead value ls
  | .attributeValue later :: ls => valueAhead later ls
  | _ => value

/-- The attributes up to the end of a start tag, with their values. -/
def attributesAhead : List Lexeme → List (String × String)
  | .attributeName name :: ls => (name, valueAhead "" ls) :: attributesAhead ls
  | .attributeQuote _ :: ls => attributesAhead ls
  | .attributeValue _ :: ls => attributesAhead ls
  | _ => []

/-- Whether the lexeme is part of an attribute. -/
def Lexeme.isAttribute : Lexeme → Bool
  | .attributeName _ | .attributeQuote _ | .attributeValue _ => true
  | _ => false

/-- The text up to the end of a comment. -/
def commentAhead (value : String) : List Lexeme → String
  | .text later :: ls => commentAhead later ls
  | _ => value

/-- What the lexemes announce.  The text right behind the opening of a comment belongs to the comment. -/
def announced : (inComment : Bool) → List Lexeme → List Mark
  | _, [] => []
  | _, .tagOpen name :: ls => .element name (attributesAhead ls) :: announced false ls
  | _, .commentStart :: ls => .comment (commentAhead "" ls) :: announced true ls
  | true, .text _ :: ls => announced true ls
  | false, .text value :: ls => value.toList.map .character ++ announced false ls
  | _, .rawText value :: ls => value.toList.map .character ++ announced false ls
  | _, _ :: ls => announced false ls

namespace Pending

/-- The attributes so far and those ahead; the last one so far may yet get its value. -/
def completed (attributes : List Attribute) (ls : List Lexeme) : List (String × String) :=
  (Builder.changeLast (fun a => { a with value := valueAhead a.value ls }) attributes).map Attribute.entry ++
    attributesAhead ls

/-- What is announced by what has been read in part and the lexemes ahead. -/
def announced : Pending → List Lexeme → List Mark
  | .nothing, ls => Markup.announced false ls
  | .startTag name _ attributes, ls => .element name (completed attributes ls) :: Markup.announced false ls
  | .comment value _, ls => .comment (commentAhead value ls) :: Markup.announced true ls

end Pending

section

/-- Of attributes that end in one, that one is changed. -/
theorem changeLast_concat (f : Attribute → Attribute) (as : List Attribute) (a : Attribute) :
    Builder.changeLast f (as ++ [a]) = as ++ [f a] := by
  unfold Builder.changeLast
  rw [List.getLast?_concat]
  simp

/-- Changing the last attribute twice. -/
theorem changeLast_changeLast (f g : Attribute → Attribute) (as : List Attribute) :
    Builder.changeLast f (Builder.changeLast g as) = Builder.changeLast (f ∘ g) as := by
  obtain rfl | ⟨init, a, rfl⟩ := List.eq_nil_or_concat as
  · rfl
  · rw [List.concat_eq_append, changeLast_concat, changeLast_concat, changeLast_concat]
    rfl

/-- To change nothing in the last attribute is to change nothing. -/
theorem changeLast_id (as : List Attribute) : Builder.changeLast (fun a => a) as = as := by
  obtain rfl | ⟨init, a, rfl⟩ := List.eq_nil_or_concat as
  · rfl
  · rw [List.concat_eq_append, changeLast_concat]

variable {attributes : List Attribute} {ls : List Lexeme}

/-- With nothing ahead, the attributes are complete as they are. -/
theorem completed_nil (attributes : List Attribute) :
    Pending.completed attributes [] = attributes.map Attribute.entry := by
  unfold Pending.completed
  simp only [valueAhead, attributesAhead, List.append_nil]
  rw [changeLast_id]

/-- A lexeme that is no part of an attribute completes the attributes. -/
theorem completed_cons {l : Lexeme} (h : l.isAttribute = false) :
    Pending.completed attributes (l :: ls) = attributes.map Attribute.entry := by
  cases l <;> first | (cases h; done) | simp [Pending.completed, valueAhead, attributesAhead, changeLast_id]

/-- A name ahead begins another attribute. -/
theorem completed_attributeName (name : String) (span : Span) :
    Pending.completed attributes (.attributeName name :: ls) =
      Pending.completed (attributes ++ [{ name, value := "", span }]) ls := by
  unfold Pending.completed
  simp only [valueAhead, attributesAhead, changeLast_id, changeLast_concat, List.map_append]
  simp [Attribute.entry]

/-- A lexeme that changes the last attribute and no name: the value may be taken from it or be left ahead. -/
theorem completed_changeLast {l : Lexeme} (f : Attribute → Attribute)
    (hahead : attributesAhead (l :: ls) = attributesAhead ls)
    (hentry : ∀ a : Attribute, (f a).name = a.name ∧ valueAhead (f a).value ls = valueAhead a.value (l :: ls)) :
    Pending.completed attributes (l :: ls) = Pending.completed (Builder.changeLast f attributes) ls := by
  unfold Pending.completed
  rw [changeLast_changeLast, hahead]
  obtain rfl | ⟨init, a, rfl⟩ := List.eq_nil_or_concat attributes
  · rfl
  · obtain ⟨hname, hvalue⟩ := hentry a
    simp [changeLast_concat, Attribute.entry, hname, hvalue]

/-- A quote ahead changes nothing but the span of the last attribute. -/
theorem completed_attributeQuote (quote : Char) (f : Span → Span) :
    Pending.completed attributes (.attributeQuote quote :: ls) =
      Pending.completed (Builder.changeLast (fun a => { a with span := f a.span }) attributes) ls :=
  completed_changeLast _ rfl fun _ => ⟨rfl, rfl⟩

/-- A value ahead is that of the last attribute. -/
theorem completed_attributeValue (value : String) (valueSpan : Option Span) (f : Span → Span) :
    Pending.completed attributes (.attributeValue value :: ls) =
      Pending.completed
        (Builder.changeLast (fun a => { a with value, valueSpan, span := f a.span }) attributes) ls :=
  completed_changeLast _ rfl fun _ => ⟨rfl, rfl⟩

/-- A lexeme that belongs to nothing read in part ends it. -/
theorem Pending.announced_cons {pending : Pending} {l : Lexeme} (h : pending.takes l = false)
    (ls : List Lexeme) :
    pending.announced (l :: ls) = pending.announced [] ++ Markup.announced false (l :: ls) := by
  cases pending with
  | nothing => rfl
  | startTag name span attributes =>
    have hend : l.isAttribute = false := by
      cases l <;> first | (cases h; done) | rfl
    rw [announced, announced, completed_nil, completed_cons hend]
    rfl
  | comment value span =>
    cases l <;> first | (cases h; done) | rfl

end

/-! ### What the builder does with what is announced -/

namespace Builder

variable {rules : String → TagRules}

/-- The marks of nodes that are put together. -/
theorem marksOf_append (ms ns : List Node) : marksOf (ms ++ ns) = marksOf ms ++ marksOf ns := by
  unfold marksOf
  rw [preorder_append, List.flatMap_append]

/-- A text that is joined to nodes adds its characters. -/
theorem marksOf_appendText (ns : List Node) (value : String) (span : Span) :
    marksOf (appendText ns value span) = marksOf ns ++ value.toList.map .character := by
  have hsingle (text : String) (place : Span) : marksOf [.text text place] = text.toList.map .character := by
    simp [marksOf, preorder, Node.preorder, Node.marks]
  unfold appendText
  split
  · next before place hlast =>
    obtain ⟨init, rfl⟩ := List.getLast?_eq_some_iff.1 hlast
    rw [List.dropLast_concat, marksOf_append, marksOf_append, hsingle, hsingle, String.toList_append,
      List.map_append, List.append_assoc]
  · rw [marksOf_append, hsingle]

/-- A text that is added to the tree adds the characters that are kept of it. -/
theorem marksOf_addText (b : Builder) (value : String) (span : Span) :
    marksOf (b.addText rules value span).finish =
      marksOf b.finish ++ (b.textValue rules value).toList.map .character := by
  unfold addText
  dsimp only
  split
  · next hempty =>
    rw [String.isEmpty_iff.1 hempty]
    simp
  · obtain ⟨before, hb, hbefore⟩ := b.exists_preorder
    have hmarks (ns : List Node) :
        marksOf (b.setSiblings ns).finish = before.flatMap Node.marks ++ marksOf ns := by
      unfold marksOf
      rw [hbefore, List.flatMap_append]
    rw [hmarks, marksOf_appendText, ← List.append_assoc, ← hmarks, setSiblings_siblings]

/-- A start tag adds the mark of its element. -/
theorem marksOf_startElement (b : Builder) (name : String) (openSpan : Span) (attributes : List Attribute)
    (stop : Location) (isSelfClosing : Bool) :
    marksOf (b.startElement rules name openSpan attributes stop isSelfClosing).finish =
      marksOf b.finish ++ [.element name (attributes.map Attribute.entry)] := by
  obtain ⟨tag, htag, hpreorder⟩ := preorder_startElement rules b name openSpan attributes stop isSelfClosing
  unfold marksOf
  rw [hpreorder, List.flatMap_append, List.flatMap_singleton, Node.marks, htag.name, htag.attributes]

/-- A comment adds its mark. -/
theorem marksOf_addComment (b : Builder) (value : String) (span : Span) :
    marksOf (b.add (.comment value span)).finish = marksOf b.finish ++ [.comment value] := by
  unfold marksOf
  rw [preorder_add, List.flatMap_append]
  rfl

/-- An end tag adds nothing. -/
theorem marksOf_endElement (b : Builder) (name : String) (span : Span) :
    marksOf (b.endElement rules name span).finish = marksOf b.finish := by
  obtain ⟨fault, -, heq⟩ | ⟨t, -, -, before, after, hbefore, hafter⟩ := preorder_endElement rules b name span
  · rw [heq]
    rfl
  · unfold marksOf
    rw [hbefore, hafter, List.flatMap_append, List.flatMap_append]
    rfl

/-- What has been read in part adds what it announces. -/
theorem marksOf_flush (b : Builder) :
    marksOf (b.flush rules).finish = marksOf b.finish ++ b.pending.announced [] := by
  unfold flush
  split
  · next heq =>
    rw [heq]
    exact (List.append_nil _).symm
  · next name span attributes heq =>
    rw [marksOf_startElement, heq, Pending.announced, completed_nil]
    rfl
  · next value span heq =>
    rw [marksOf_addComment, heq]
    rfl

/-- The lexeme as the builder takes it: a text may lose its first line feed. -/
def taken (rules : String → TagRules) (b : Builder) : Lexeme → Lexeme
  | .text value => .text (b.textValue rules value)
  | .rawText value => .rawText (b.textValue rules value)
  | l => l

/-- Whether something read in part takes a lexeme does not depend on what the builder drops of a text. -/
theorem takes_taken (b : Builder) (pending : Pending) (l : Lexeme) :
    pending.takes (b.taken rules l) = pending.takes l := by
  cases pending <;> cases l <;> rfl

/-- A token where nothing has been read in part: the marks that it adds and those that it leads to are what its
lexeme and those ahead announce. -/
theorem marksOf_receive {b : Builder} (hb : b.pending = .nothing) (t : Token) (ls : List Lexeme) :
    marksOf (b.receive rules t).finish ++ (b.receive rules t).pending.announced ls =
      marksOf b.finish ++ Markup.announced false (b.taken rules t.lexeme :: ls) := by
  unfold receive
  cases t.lexeme with
  | tagOpen name => rfl
  | commentStart => rfl
  | tagClose name =>
    dsimp only
    rw [marksOf_endElement, endElement_pending, hb]
    rfl
  | text value =>
    dsimp only
    rw [marksOf_addText, addText_pending, hb, List.append_assoc]
    rfl
  | rawText value =>
    dsimp only
    rw [marksOf_addText, addText_pending, hb, List.append_assoc]
    rfl
  | _ =>
    dsimp only
    rw [hb]
    rfl

/-- The text of a comment loses nothing. -/
theorem taken_eq_self {b : Builder} {l : Lexeme} (h : b.pending.takes l = true) :
    (b.flush rules).taken rules l = l := by
  cases l with
  | text value =>
    cases hpending : b.pending with
    | nothing => simp [hpending, Pending.takes] at h
    | startTag name span attributes => simp [hpending, Pending.takes] at h
    | comment before span =>
      have hflush : b.flush rules = { b with pending := .nothing }.add (.comment before span) := by
        unfold flush
        rw [hpending]
      rw [hflush, taken, textValue, dropsLineFeed_add]
      split <;> rfl
  | rawText value =>
    cases hpending : b.pending <;> simp [hpending, Pending.takes] at h
  | _ => rfl

/-- A token takes from what is announced what it gives to the tree. -/
theorem marksOf_step (b : Builder) (t : Token) (ls : List Lexeme) :
    marksOf (b.step rules t).finish ++ (b.step rules t).pending.announced ls =
      marksOf b.finish ++ b.pending.announced ((b.flush rules).taken rules t.lexeme :: ls) := by
  cases htakes : b.pending.takes t.lexeme with
  | false =>
    rw [step_eq_receive htakes, marksOf_receive (flush_pending rules b), marksOf_flush,
      Pending.announced_cons (by rwa [takes_taken]), List.append_assoc]
  | true =>
    rw [taken_eq_self htakes]
    unfold step
    split
    · -- The builder and the announcement complete the same last attribute.
      next name tag span attributes hlexeme heq =>
      simp only [hlexeme, heq, Pending.announced, completed_attributeName name t.span]
      rfl
    · next quote tag span attributes hlexeme heq =>
      simp only [hlexeme, heq, Pending.announced,
        completed_attributeQuote quote fun s => ⟨s.start, t.span.stop⟩]
      rfl
    · next value tag span attributes hlexeme heq =>
      simp only [hlexeme, heq, Pending.announced,
        completed_attributeValue value (some t.span) fun s => ⟨s.start, t.span.stop⟩]
      rfl
    · next name span attributes hlexeme heq =>
      rw [hlexeme, heq, marksOf_startElement, startElement_pending, List.append_assoc]
      simp only [Pending.announced, completed_cons (l := .tagOpenEnd) rfl]
      rfl
    · next name span attributes hlexeme heq =>
      rw [hlexeme, heq, marksOf_startElement, startElement_pending, List.append_assoc]
      simp only [Pending.announced, completed_cons (l := .tagSelfClose) rfl]
      rfl
    · next value before span hlexeme heq =>
      rw [hlexeme, heq]
      rfl
    · next value span hlexeme heq =>
      rw [hlexeme, heq, marksOf_addComment, add_pending, List.append_assoc]
      rfl
    · unfold Pending.takes at htakes
      split at htakes <;> grind

/-- The lexemes of the tokens as the builder takes them. -/
def received (rules : String → TagRules) : Builder → List Token → List Lexeme
  | _, [] => []
  | b, t :: ts => (b.flush rules).taken rules t.lexeme :: received rules (b.step rules t) ts

/-- All tokens: what they announce is in the tree. -/
theorem marksOf_foldl_step (ts : List Token) : ∀ b : Builder,
    marksOf ((ts.foldl (step rules) b).flush rules).finish =
      marksOf b.finish ++ b.pending.announced (b.received rules ts) := by
  induction ts with
  | nil => exact fun b => b.marksOf_flush
  | cons t ts ih =>
    intro b
    rw [List.foldl_cons, ih, received, marksOf_step]

end Builder

/-! ### Where a line feed is dropped -/

mutual

/-- The element at the end of the node that has no end and no children, if all elements around it have no
end either. -/
def Node.openEnd : Node → Option Tag
  | .element tag [] => if tag.endSpan = none then some tag else none
  | .element tag (n :: ns) => if tag.endSpan = none then Markup.openEnd (n :: ns) else none
  | .text _ _ => none
  | .comment _ _ => none

/-- The element at the end of a tree that is still open and has no children, if there is one. -/
def openEnd : List Node → Option Tag
  | [] => none
  | [n] => n.openEnd
  | _ :: m :: ns => openEnd (m :: ns)

end

/-- The text as it arrives in a tree: without its first line feed if an element drops it there. -/
def arrival (rules : String → TagRules) (tree : List Node) (value : String) : String :=
  match value.toList, openEnd tree with
  | '\n' :: rest, some tag => if (rules tag.name).ignoreFirstLineFeed then String.ofList rest else value
  | _, _ => value

/-- The lexemes of tokens that follow others, each text as it arrives in the tree of the tokens before it. -/
def arriving (rules : String → TagRules) : (before : List Token) → List Token → List Lexeme
  | _, [] => []
  | before, t :: ts =>
    let tree := (build rules before).nodes
    let lexeme := match t.lexeme with
      | .text value => .text (arrival rules tree value)
      | .rawText value => .rawText (arrival rules tree value)
      | l => l
    lexeme :: arriving rules (before ++ [t]) ts

/-- The open end of nodes is that of the last one. -/
theorem openEnd_concat (ns : List Node) (n : Node) : openEnd (ns ++ [n]) = n.openEnd := by
  induction ns with
  | nil => rfl
  | cons m ns ih =>
    cases ns with
    | nil => rfl
    | cons k ns => exact ih

/-- An element with an end tag has no open end. -/
theorem Node.openEnd_of_endSpan {tag : Tag} (h : tag.endSpan ≠ none) (children : List Node) :
    (Node.element tag children).openEnd = none := by
  cases children with
  | nil => exact if_neg h
  | cons n ns => exact if_neg h

/-- The open end of an element without an end tag is that of its content. -/
theorem Node.openEnd_element {tag : Tag} (h : tag.endSpan = none) {children : List Node}
    (hne : children ≠ []) :
    (Node.element tag children).openEnd = Markup.openEnd children := by
  cases children with
  | nil => exact absurd rfl hne
  | cons n ns => exact if_pos h

/-- Behind a text nothing is open. -/
theorem openEnd_appendText (ns : List Node) (value : String) (span : Span) :
    openEnd (Builder.appendText ns value span) = none := by
  unfold Builder.appendText
  split
  · rw [openEnd_concat]
    rfl
  · rw [openEnd_concat]
    rfl

namespace Builder

variable {rules : String → TagRules}

/-- The open elements have no end, and what has been read in the innermost one is complete. -/
structure Settled (rules : String → TagRules) (b : Builder) : Prop where
  unended : b.Unended rules
  complete : openEnd b.siblings = none

/-- Where the innermost open element has children, the tree so far ends with them. -/
theorem openEnd_finish_setSiblings {b : Builder} (h : b.Unended rules) {ns : List Node} (hne : ns ≠ []) :
    openEnd (b.setSiblings ns).finish = openEnd ns := by
  induction hlength : b.stack.length generalizing b ns with
  | zero =>
    have hstack : b.stack = [] := List.eq_nil_of_length_eq_zero hlength
    simp [setSiblings, finish, hstack]
  | succ n ih =>
    obtain ⟨e, rest, hstack⟩ := List.exists_cons_of_length_eq_add_one hlength
    rw [hstack, List.length_cons, Nat.add_right_cancel_iff] at hlength
    obtain ⟨he, hrest⟩ := h.of_stack hstack
    rw [← finish_closeInnermost, closeInnermost_setSiblings hstack, add, ih hrest (by simp) hlength,
      openEnd_concat, Node.openEnd_element he hne]

/-- The innermost open element, if it has no children yet. -/
def childless (b : Builder) : Option Tag :=
  match b.stack with
  | [] => none
  | e :: _ => if e.children.isEmpty then some e.tag else none

/-- The open childless element at the end of the tree so far is the innermost open one. -/
theorem Settled.openEnd_finish {b : Builder} (h : b.Settled rules) : openEnd b.finish = b.childless := by
  unfold childless
  cases hstack : b.stack with
  | nil =>
    have hroots : b.finish = b.siblings := by simp [finish, siblings, hstack]
    rw [hroots, h.complete]
  | cons e rest =>
    dsimp only
    cases hchildren : e.children with
    | nil =>
      obtain ⟨he, hrest⟩ := h.unended.of_stack hstack
      rw [← finish_closeInnermost, closeInnermost_of_stack hstack, add,
        openEnd_finish_setSiblings hrest (by simp), openEnd_concat, hchildren]
      exact if_pos he
    | cons n ns =>
      have hne : b.siblings ≠ [] := by simp [siblings, hstack, hchildren]
      rw [← setSiblings_siblings b, openEnd_finish_setSiblings h.unended hne, h.complete]
      rfl

/-- A line feed is dropped where the innermost open element is still empty and asks for it. -/
theorem dropsLineFeed_eq (rules : String → TagRules) (b : Builder) :
    b.dropsLineFeed rules = b.childless.any fun t => (rules t.name).ignoreFirstLineFeed := by
  unfold dropsLineFeed childless
  cases b.stack with
  | nil => rfl
  | cons e rest =>
    dsimp only
    cases e.children <;> rfl

/-- What is kept of a text depends on the tree as it stands, not on what has been read in part. -/
theorem Settled.textValue_eq {b : Builder} (h : b.Settled rules) (value : String) :
    b.textValue rules value = arrival rules b.finish value := by
  unfold textValue arrival
  rw [h.openEnd_finish, dropsLineFeed_eq]
  cases b.childless with
  | none => split <;> simp
  | some tag => split <;> simp_all

/-- The builder stays settled at every step. -/
theorem invariant_settled (rules : String → TagRules) (cs : List Char) :
    Invariant rules cs fun _ => Settled rules where
  later h _ := h
  pending _ h := ⟨h.unended, h.complete⟩
  text {p b span} value h _ _ := by
    refine ⟨h.unended.addText value span, ?_⟩
    unfold addText
    dsimp only
    split
    · exact h.complete
    · rw [siblings_setSiblings, openEnd_appendText]
  comment {p b span} value h _ _ := by
    refine ⟨h.unended.setSiblings _, ?_⟩
    rw [siblings_add, openEnd_concat]
    rfl
  startTag {p b openSpan attributes stop} name isSelfClosing h _ := by
    refine ⟨h.unended.startElement name openSpan attributes stop isSelfClosing, ?_⟩
    obtain ⟨tag, b₁, faults, -, -, -, -, hadded⟩ :=
      startElement_cases rules b name openSpan attributes stop isSelfClosing
    obtain ⟨hended, heq⟩ | ⟨-, -, heq⟩ := hadded
    · rw [heq, siblings_add, openEnd_concat, Node.openEnd_of_endSpan hended]
    · rw [heq, siblings_push]
      rfl
  endTag {p b span} name h _ _ _ := by
    refine ⟨h.unended.endElement name span, ?_⟩
    obtain ⟨fault, -, heq⟩ | ⟨e, rest, faults, -, -, -, heq⟩ := endElement_cases rules b name span
    · rw [heq]
      exact h.complete
    · rw [heq, siblings_add, openEnd_concat, Node.openEnd_of_endSpan (Option.some_ne_none span)]

/-- Tokens that are in order are taken as they arrive in the tree. -/
theorem received_eq_arriving {cs : List Char} {p q : Nat} {ts : List Token} (hts : InOrder cs p ts q) :
    ∀ before : List Token, Ready (fun _ => Settled rules) cs p (before.foldl (step rules) {}) →
      (before.foldl (step rules) {}).received rules ts = arriving rules before ts := by
  induction hts with
  | nil _ => exact fun _ _ => rfl
  | @cons p q t ts hspan hstart hstop hopens _ ih =>
    intro before hbefore
    have hsettled := (invariant_settled rules cs).flush hbefore
    have hnext := (invariant_settled rules cs).step hbefore
      (.cons hspan hstart hstop hopens (.nil (Nat.le_refl _)))
    have hrest := ih (before ++ [t]) (by rwa [List.foldl_concat])
    rw [List.foldl_concat] at hrest
    rw [received, hrest, arriving]
    congr 1
    cases t.lexeme with
    | text value => simp only [taken, hsettled.textValue_eq]; rfl
    | rawText value => simp only [taken, hsettled.textValue_eq]; rfl
    | _ => rfl

end Builder

/-! ### Texts that are apart -/

/-- One more node: no texts side by side before it, and none at it. -/
theorem isChain_apart_concat {ns : List Node} {n : Node} :
    (ns ++ [n]).IsChain Apart ↔ ns.IsChain Apart ∧ ∀ m ∈ ns.getLast?, Apart m n := by
  rw [List.isChain_append]
  simp

/-- No texts come to stand side by side as the tree grows. -/
theorem growth_apart (rules : String → TagRules) (cs : List Char) :
    Growth rules cs fun _ _ ns => ns.IsChain Apart where
  later h _ := h
  text {p parent ns span} value h _ _ _ := by
    unfold Builder.appendText
    split
    · next before place hlast =>
      obtain ⟨init, rfl⟩ := List.getLast?_eq_some_iff.1 hlast
      obtain ⟨hinit, hapart⟩ := isChain_apart_concat.1 h
      rw [List.dropLast_concat]
      exact isChain_apart_concat.2 ⟨hinit, fun m hm htext => absurd (hapart m hm htext) nofun⟩
    · next hlast =>
      refine isChain_apart_concat.2 ⟨h, fun m hm htext => ?_⟩
      cases m with
      | text before place => exact absurd hm (hlast before place)
      | comment _ _ => cases htext
      | element _ _ => cases htext
  comment _ h _ _ _ := isChain_apart_concat.2 ⟨h, fun _ _ _ => rfl⟩
  element h _ _ _ _ := isChain_apart_concat.2 ⟨h, fun _ _ _ => rfl⟩
  childless _ _ := .nil
  ended h _ _ _ _ := isChain_apart_concat.2 ⟨(isChain_apart_concat.1 h).1, fun _ _ _ => rfl⟩
  complete h _ _ _ := h

/-- Whether texts stand side by side does not depend on what is below the nodes. -/
theorem isChain_apart_map_shell {ns : List Node} : (ns.map Node.shell).IsChain Apart ↔ ns.IsChain Apart := by
  have hshell (n : Node) : n.shell.isText = n.isText := by cases n <;> rfl
  rw [List.isChain_map]
  simp only [Apart, hshell]
  rfl

/-! ### Whole sources -/

/-- The tree of a source holds what its tokens announce, in their order; no text follows another one; and
each end tag is reported, or it is the end of one element of its name. -/
theorem parseWith_conserves (rules : String → TagRules) (source : String) :
    marksOf (parseWith rules source).nodes =
      announced false (arriving rules [] (tokenize rules source).tokens) ∧
    (parseWith rules source).nodes.IsChain Apart ∧
    (∀ e ∈ elementsOf (parseWith rules source).nodes, e.children.IsChain Apart) ∧
    ∀ t ∈ (tokenize rules source).tokens, ∀ name, t.lexeme = .tagClose name →
      (endsAt t.span (parseWith rules source).nodes = [] ∧
        ∃ fault, (fault = NestingFault.voidEndTag name ∨ fault = .unexpectedEndTag name) ∧
          fault.diagnostic t.span ∈ (parseWith rules source).faults) ∨
      ∃ tag, endsAt t.span (parseWith rules source).nodes = [tag] ∧ tag.name = name := by
  obtain ⟨q, htokens⟩ := tokenize_inOrder rules source
  obtain ⟨-, hroots, hbelow⟩ := (growth_apart rules (unifyLines source.toList)).family_parseWith .nil
  refine ⟨?_, isChain_apart_map_shell.1 hroots, fun e he => isChain_apart_map_shell.1 (hbelow e he),
    fun t ht name hname => ?_⟩
  · have hready : Builder.Ready (fun _ => Builder.Settled rules) (unifyLines source.toList) 0
        (([] : List Token).foldl (Builder.step rules) {}) := Builder.ready_empty ⟨nofun, rfl⟩
    rw [← Builder.received_eq_arriving htokens [] hready]
    exact Builder.marksOf_foldl_step _ {}
  · obtain ⟨hends, fault, hfault, hmem⟩ | hends := endsAt_build rules htokens ht hname
    · exact .inl ⟨hends, fault, hfault, List.mem_append_right _ hmem⟩
    · exact .inr hends

/-- One line feed is dropped, the text of the comment stays in it, and the end tags announce nothing. -/
example : announced false
    (arriving TagRules.html [] (tokenize TagRules.html "<pre a=b c>\n\n<!--\n--></i>d</pre>").tokens) =
      [.element "pre" [("a", "b"), ("c", "")], .character '\n', .comment "\n", .character 'd'] := by
  decide +kernel

end ViewTemplate.Markup
