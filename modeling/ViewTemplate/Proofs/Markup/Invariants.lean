import ViewTemplate.Proofs.Markup.Building
import ViewTemplate.Proofs.Markup.Places

/-!
# Invariants of tree building

Tree building takes the tokens of a source in the order in which they stand there.  An invariant may speak of
the offset up to which the source has been read; it holds at the end if each item keeps it that stands at or
behind that offset: a text, a comment, a start tag, an end tag.  A start tag and a comment have several tokens,
and count when the last of them has been taken.

* `Builder.Invariant` — what each item keeps; `Builder.Ready` — the invariant between two tokens.
* `Builder.Invariant.step`, `Builder.Invariant.build` — then each token keeps it, and so do all of them.
* `Builder.Unended` — the open elements have no end.
-/

namespace ViewTemplate.Markup

open ViewTemplate.Source ViewTemplate.Text

/-! ### What has been read in part -/

/-- The spans of the attribute lie in the text. -/
structure Attribute.IsIn (a : Attribute) (cs : List Char) : Prop where
  span : a.span.IsIn cs
  value : ∀ s ∈ a.valueSpan, s.IsIn cs

/-- A start tag that stands in the text from the offset on: its opening mark, its attributes, its end. -/
structure OpensIn (cs : List Char) (p : Nat) (openSpan : Span) (attributes : List Attribute)
    (stop : Location) : Prop where
  mark : openSpan.IsIn cs
  after : p ≤ openSpan.start.offset
  filled : openSpan.start.offset < openSpan.stop.offset
  place : stop.IsIn cs
  order : openSpan.stop.offset ≤ stop.offset
  attributes : ∀ a ∈ attributes, a.IsIn cs

section

variable {cs : List Char} {p q : Nat} {openSpan : Span} {attributes : List Attribute} {stop : Location}

/-- The start tag as a whole. -/
theorem OpensIn.isIn (h : OpensIn cs p openSpan attributes stop) : (⟨openSpan.start, stop⟩ : Span).IsIn cs :=
  ⟨h.mark.start, h.place, h.mark.order.trans h.order⟩

/-- A start tag does not end where it begins. -/
theorem OpensIn.lt (h : OpensIn cs p openSpan attributes stop) : openSpan.start.offset < stop.offset :=
  h.filled.trans_le h.order

/-- The same start tag with its end further on. -/
theorem OpensIn.extend (h : OpensIn cs p openSpan attributes stop) {later : Location} (hlater : later.IsIn cs)
    (hle : stop.offset ≤ later.offset) : OpensIn cs p openSpan attributes later :=
  ⟨h.mark, h.after, h.filled, hlater, h.order.trans hle, h.attributes⟩

/-- What has been read in part stands in the text, from the one offset to the other. -/
def Pending.LiesIn (cs : List Char) (p q : Nat) : Pending → Prop
  | .nothing => p ≤ q
  | .startTag _ span attributes => OpensIn cs p span attributes span.stop ∧ span.stop.offset ≤ q ∧
    ∀ a ∈ attributes, a.span.stop.offset ≤ q
  | .comment _ span => span.IsIn cs ∧ p ≤ span.start.offset ∧ span.stop.offset ≤ q

/-- What has been read in part lies in any longer stretch of the text. -/
theorem Pending.LiesIn.mono {q' : Nat} {pending : Pending} (h : pending.LiesIn cs p q) (hle : q ≤ q') :
    pending.LiesIn cs p q' := by
  cases pending with
  | nothing => exact Nat.le_trans h hle
  | startTag name span attributes =>
    obtain ⟨hopens, hstop, hlast⟩ := h
    exact ⟨hopens, hstop.trans hle, fun a ha => (hlast a ha).trans hle⟩
  | comment value span =>
    obtain ⟨hspan, hafter, hstop⟩ := h
    exact ⟨hspan, hafter, hstop.trans hle⟩

/-- What holds of the attributes, changed or not, holds when the last one is changed. -/
theorem forall_mem_changeLast {f : Attribute → Attribute} {Q : Attribute → Prop}
    (h : ∀ a ∈ attributes, Q a ∧ Q (f a)) : ∀ a ∈ Builder.changeLast f attributes, Q a := by
  unfold Builder.changeLast
  split
  · next last hlast =>
    obtain ⟨init, rfl⟩ := List.getLast?_eq_some_iff.1 hlast
    rw [List.dropLast_concat]
    obtain ⟨hinit, hlast⟩ := List.forall_mem_append.1 h
    refine List.forall_mem_append.2 ⟨fun a ha => (hinit a ha).1, ?_⟩
    rintro _ (_ | ⟨_, ⟨⟩⟩)
    exact (hlast last List.mem_cons_self).2
  · exact nofun

/-- A token that changes the last attribute of a start tag, which ends before the token does. -/
theorem Pending.LiesIn.changeLast {name : String} {q' : Nat} {f : Attribute → Attribute}
    (h : (Pending.startTag name openSpan attributes).LiesIn cs p q) (hle : q ≤ q')
    (hf : ∀ a, a.IsIn cs → a.span.stop.offset ≤ q → (f a).IsIn cs ∧ (f a).span.stop.offset ≤ q') :
    (Pending.startTag name openSpan (Builder.changeLast f attributes)).LiesIn cs p q' := by
  obtain ⟨hopens, hstop, hlast⟩ := h
  have hall : ∀ a ∈ Builder.changeLast f attributes, a.IsIn cs ∧ a.span.stop.offset ≤ q' :=
    forall_mem_changeLast fun a ha =>
      ⟨⟨hopens.attributes a ha, (hlast a ha).trans hle⟩, hf a (hopens.attributes a ha) (hlast a ha)⟩
  exact ⟨{ hopens with attributes := fun a ha => (hall a ha).1 }, hstop.trans hle, fun a ha => (hall a ha).2⟩

end

/-! ### Invariants -/

namespace Builder

/-- What every item keeps that stands in the text at or behind the offset up to which the text has been
read. -/
structure Invariant (rules : String → TagRules) (cs : List Char) (I : Nat → Builder → Prop) : Prop where
  later {p q : Nat} {b : Builder} : I p b → p ≤ q → I q b
  pending {p : Nat} {b : Builder} (pending : Pending) : I p b → I p { b with pending }
  text {p : Nat} {b : Builder} {span : Span} (value : String) : I p b → span.IsIn cs →
    p ≤ span.start.offset → I span.stop.offset (b.addText rules value span)
  comment {p : Nat} {b : Builder} {span : Span} (value : String) : I p b → span.IsIn cs →
    p ≤ span.start.offset → I span.stop.offset (b.add (.comment value span))
  startTag {p : Nat} {b : Builder} {openSpan : Span} {attributes : List Attribute} {stop : Location}
    (name : String) (isSelfClosing : Bool) : I p b → OpensIn cs p openSpan attributes stop →
    I stop.offset (b.startElement rules name openSpan attributes stop isSelfClosing)
  endTag {p : Nat} {b : Builder} {span : Span} (name : String) : I p b → span.IsIn cs →
    p ≤ span.start.offset → span.start.offset < span.stop.offset →
    I span.stop.offset (b.endElement rules name span)

/-- The invariant held at some offset, and behind it stands what has been read in part. -/
def Ready (I : Nat → Builder → Prop) (cs : List Char) (q : Nat) (b : Builder) : Prop :=
  ∃ p, I p b ∧ b.pending.LiesIn cs p q

/-- Where nothing has been read in part, the invariant is all there is to know. -/
theorem ready_of_pending {I : Nat → Builder → Prop} {cs : List Char} {q : Nat} {b : Builder} (h : I q b)
    (hb : b.pending = .nothing) : Ready I cs q b :=
  ⟨q, h, by rw [hb]; exact Nat.le_refl q⟩

namespace Invariant

variable {rules : String → TagRules} {cs : List Char} {I : Nat → Builder → Prop}

/-- The invariant holds when what has been read in part is finished. -/
theorem flush (h : Invariant rules cs I) {q : Nat} {b : Builder} (hb : Ready I cs q b) :
    I q (b.flush rules) := by
  obtain ⟨p, hp, hpending⟩ := hb
  unfold Builder.flush
  split
  · next heq =>
    rw [heq] at hpending
    exact h.later hp hpending
  · next name span attributes heq =>
    rw [heq] at hpending
    obtain ⟨hopens, hstop, -⟩ := hpending
    exact h.later (h.startTag name false (h.pending .nothing hp) hopens) hstop
  · next value span heq =>
    rw [heq] at hpending
    obtain ⟨hspan, hafter, hstop⟩ := hpending
    exact h.later (h.comment value (h.pending .nothing hp) hspan hafter) hstop

/-- One token when nothing is read in part. -/
theorem receive (h : Invariant rules cs I) {q r : Nat} {b : Builder} {t : Token} (hb : I q b)
    (hnothing : b.pending = .nothing) (ht : InOrder cs q [t] r) :
    Ready I cs t.span.stop.offset (b.receive rules t) := by
  cases ht with
  | cons hspan hstart hstop hopens _ =>
  unfold Builder.receive
  split
  · next name heq =>
    have hafter := hstart (by rw [heq]; nofun)
    have hfilled := hopens (by rw [heq]; rfl)
    exact ⟨q, h.pending _ hb, ⟨hspan, hafter, hfilled, hspan.stop, Nat.le_refl _, nofun⟩, Nat.le_refl _, nofun⟩
  · next heq => exact ⟨q, h.pending _ hb, hspan, hstart (by rw [heq]; nofun), Nat.le_refl _⟩
  · next name heq =>
    have hafter := hstart (by rw [heq]; nofun)
    have hfilled := hopens (by rw [heq]; rfl)
    exact ready_of_pending (h.endTag name hb hspan hafter hfilled) (by rw [endElement_pending, hnothing])
  · next value heq =>
    have hafter := hstart (by rw [heq]; nofun)
    exact ready_of_pending (h.text value hb hspan hafter) (by rw [addText_pending, hnothing])
  · next value heq =>
    have hafter := hstart (by rw [heq]; nofun)
    exact ready_of_pending (h.text value hb hspan hafter) (by rw [addText_pending, hnothing])
  · exact ready_of_pending (h.later hb hstop) hnothing

/-- The token that ends a start tag. -/
theorem endStartTag (h : Invariant rules cs I) {p q : Nat} {b : Builder} {name : String} {span : Span}
    {attributes : List Attribute} {stop : Location} (isSelfClosing : Bool) (hb : I p b)
    (hpending : (Pending.startTag name span attributes).LiesIn cs p q) (hstop : stop.IsIn cs)
    (hle : q ≤ stop.offset) :
    Ready I cs stop.offset ({ b with pending := .nothing }.startElement rules name span attributes stop
      isSelfClosing) := by
  obtain ⟨hopens, hend, -⟩ := hpending
  have hstarted := h.startTag name isSelfClosing (h.pending .nothing hb) (hopens.extend hstop (hend.trans hle))
  exact ready_of_pending hstarted (by rw [startElement_pending])

/-- One token after what has been read. -/
theorem step (h : Invariant rules cs I) {q r : Nat} {b : Builder} {t : Token} (hb : Ready I cs q b)
    (ht : InOrder cs q [t] r) : Ready I cs t.span.stop.offset (b.step rules t) := by
  -- The token goes to what is pending where that takes it, and else what is pending is flushed first.
  have hreceive := h.receive (h.flush hb) (flush_pending rules b) ht
  cases ht with
  | cons hspan hstart hstop hopens _ =>
  obtain ⟨p, hp, hpending⟩ := hb
  unfold Builder.step
  split
  · next name tag span attributes hlexeme heq =>
    rw [heq] at hpending
    obtain ⟨hopens, hle, hlast⟩ := hpending
    refine ⟨p, h.pending _ hp, { hopens with attributes := ?_ }, hle.trans hstop, ?_⟩
    · exact List.forall_mem_append.2 ⟨hopens.attributes, List.forall_mem_singleton.2 ⟨hspan, nofun⟩⟩
    · exact List.forall_mem_append.2 ⟨fun a ha => (hlast a ha).trans hstop,
        List.forall_mem_singleton.2 (Nat.le_refl _)⟩
  · next tag span attributes hlexeme heq =>
    rw [heq] at hpending
    refine ⟨p, h.pending _ hp, hpending.changeLast hstop fun a ha hle => ?_⟩
    exact ⟨⟨⟨ha.span.start, hspan.stop, (ha.span.order.trans hle).trans hstop⟩, ha.value⟩, Nat.le_refl _⟩
  · next value tag span attributes hlexeme heq =>
    rw [heq] at hpending
    refine ⟨p, h.pending _ hp, hpending.changeLast hstop fun a ha hle => ?_⟩
    refine ⟨⟨⟨ha.span.start, hspan.stop, (ha.span.order.trans hle).trans hstop⟩, ?_⟩, Nat.le_refl _⟩
    rintro _ ⟨⟩
    exact hspan
  · next name span attributes hlexeme heq =>
    rw [heq] at hpending
    exact h.endStartTag false hp hpending hspan.stop hstop
  · next name span attributes hlexeme heq =>
    rw [heq] at hpending
    exact h.endStartTag true hp hpending hspan.stop hstop
  · next value _ span hlexeme heq =>
    rw [heq] at hpending
    obtain ⟨hcomment, hafter, hle⟩ := hpending
    have horder := (hcomment.order.trans hle).trans hstop
    exact ⟨p, h.pending _ hp, ⟨hcomment.start, hspan.stop, horder⟩, hafter, Nat.le_refl _⟩
  · next value span hlexeme heq =>
    rw [heq] at hpending
    obtain ⟨hcomment, hafter, hle⟩ := hpending
    have hplace : (⟨span.start, t.span.stop⟩ : Span).IsIn cs :=
      ⟨hcomment.start, hspan.stop, (hcomment.order.trans hle).trans hstop⟩
    have hadded := h.comment value (h.pending .nothing hp) hplace hafter
    exact ready_of_pending hadded (by rw [add_pending])
  · exact hreceive

/-- All tokens that are in order. -/
theorem foldl_step (h : Invariant rules cs I) {ts : List Token} {p q : Nat} (hts : InOrder cs p ts q) :
    ∀ {b : Builder}, Ready I cs p b → Ready I cs q (ts.foldl (Builder.step rules) b) := by
  induction hts with
  | nil hle =>
    rintro b ⟨r, hr, hpending⟩
    exact ⟨r, hr, hpending.mono hle⟩
  | cons hspan hstart hstop hopens _ ih =>
    intro b hb
    exact ih (h.step hb (.cons hspan hstart hstop hopens (.nil (Nat.le_refl _))))

/-- The builder when all tokens have been taken. -/
theorem build (h : Invariant rules cs I) {ts : List Token} {p q : Nat} (hts : InOrder cs p ts q) {b : Builder}
    (hb : Ready I cs p b) : I q ((ts.foldl (Builder.step rules) b).flush rules) :=
  h.flush (h.foldl_step hts hb)

end Invariant

/-- Before the first token the invariant is that of the empty tree. -/
theorem ready_empty {cs : List Char} {I : Nat → Builder → Prop} (h : I 0 {}) : Ready I cs 0 {} :=
  ready_of_pending h rfl

/-! ### Open elements -/

/-- The open elements have no end, and none of them is void. -/
def Unended (rules : String → TagRules) (b : Builder) : Prop :=
  ∀ t ∈ b.openTags, t.endSpan = none ∧ (rules t.name).isVoid = false

section

variable {rules : String → TagRules} {b : Builder}

/-- The parent of the next node has no end. -/
theorem Unended.parent (h : b.Unended rules) : ∀ t ∈ b.parent, t.endSpan = none :=
  fun t ht => (h t (mem_openTags_of_parent ht)).1

/-- The innermost open element has no end, and neither have those around it. -/
theorem Unended.of_stack (h : b.Unended rules) {e : OpenElement} {rest : List OpenElement}
    (hstack : b.stack = e :: rest) : e.tag.endSpan = none ∧ Unended rules { b with stack := rest } := by
  unfold Unended openTags at h
  rw [hstack, List.map_cons, List.forall_mem_cons] at h
  exact ⟨h.1.1, h.2⟩

/-- To set siblings ends no open element. -/
theorem Unended.setSiblings (h : b.Unended rules) (ns : List Node) : (b.setSiblings ns).Unended rules := by
  unfold Unended
  rwa [openTags_setSiblings]

/-- To close elements ends none that stay open. -/
theorem Unended.closes {b' : Builder} (h : b.Unended rules) (hcloses : Closes b b') : b'.Unended rules :=
  fun t ht => h t (hcloses.openTags_suffix.subset ht)

/-- To add a text ends no open element. -/
theorem Unended.addText (h : b.Unended rules) (value : String) (span : Span) :
    (b.addText rules value span).Unended rules := by
  unfold Builder.addText
  dsimp only
  split
  · exact h
  · exact h.setSiblings _

/-- A start tag opens an element without an end, or completes one. -/
theorem Unended.startElement (h : b.Unended rules) (name : String) (openSpan : Span)
    (attributes : List Attribute) (stop : Location) (isSelfClosing : Bool) :
    (b.startElement rules name openSpan attributes stop isSelfClosing).Unended rules := by
  obtain ⟨tag, b₁, faults, htag, -, hcloses, -, hadded⟩ :=
    startElement_cases rules b name openSpan attributes stop isSelfClosing
  have hb₁ : Unended rules { b₁ with faults := b.faults ++ faults } :=
    fun t ht => h.closes hcloses t ht
  obtain ⟨-, heq⟩ | ⟨hnone, hvoid, heq⟩ := hadded
  · rw [heq]
    exact hb₁.setSiblings _
  · rw [heq]
    exact List.forall_mem_cons.2 ⟨⟨hnone, htag.name ▸ hvoid⟩, hb₁⟩

/-- An end tag ends only elements that it closes. -/
theorem Unended.endElement (h : b.Unended rules) (name : String) (span : Span) :
    (b.endElement rules name span).Unended rules := by
  obtain ⟨fault, -, heq⟩ | ⟨e, rest, faults, hcloses, -, -, heq⟩ := endElement_cases rules b name span
  · rw [heq]
    exact h
  · have hrest : Unended rules { b with stack := rest, faults := b.faults ++ faults } :=
      fun t ht => h.closes hcloses t (List.mem_cons_of_mem _ ht)
    rw [heq]
    exact hrest.setSiblings _

end

end Builder

end ViewTemplate.Markup
