import ViewTemplate.Proofs.Markup.Invariants

/-!
# Where elements end

An end tag is reported, or it is the end of one element, which has its name.  Before the end tag has been taken
no element ends there; taking it gives the end to one element at most, which was open; and what comes later
stands elsewhere in the source, and takes no end away.

* `endsAt` — the elements that end at a span.
* `Builder.invariant_notYet`, `Builder.invariant_noMore` — before and behind the end tag.
* `endsAt_build` — the end tags among tokens that are in order.
-/

namespace ViewTemplate.Markup

open ViewTemplate.Source ViewTemplate.Text

/-- The tags of the elements that end at the span, in document order. -/
def endsAt (s : Span) (ns : List Node) : List Tag :=
  ((preorder ns).filterMap Node.tag?).filter (·.endSpan = some s)

namespace Builder

/-! ### What each item does to the ends -/

variable {rules : String → TagRules} {b : Builder} {s : Span}

/-- A text that is joined to nodes brings no tag. -/
theorem tags_appendText (ns : List Node) (value : String) (span : Span) :
    (preorder (appendText ns value span)).filterMap Node.tag? = (preorder ns).filterMap Node.tag? := by
  unfold appendText
  split
  · next before place hlast =>
    obtain ⟨init, rfl⟩ := List.getLast?_eq_some_iff.1 hlast
    rw [List.dropLast_concat, preorder_append, preorder_append, List.filterMap_append, List.filterMap_append]
    rfl
  · rw [preorder_append, List.filterMap_append]
    exact List.append_nil _

/-- A text that is added ends nothing. -/
theorem endsAt_addText (b : Builder) (value : String) (span s : Span) :
    endsAt s (b.addText rules value span).finish = endsAt s b.finish := by
  unfold addText
  dsimp only
  split
  · rfl
  · obtain ⟨before, hb, hbefore⟩ := b.exists_preorder
    unfold endsAt
    rw [hb, hbefore, List.filterMap_append, List.filterMap_append, tags_appendText]

/-- A comment that is added ends nothing. -/
theorem endsAt_addComment (b : Builder) (value : String) (span s : Span) :
    endsAt s (b.add (.comment value span)).finish = endsAt s b.finish := by
  unfold endsAt
  rw [preorder_add, List.filterMap_append, List.filter_append]
  exact List.append_nil _

/-- An element that does not end at the span with its start tag. -/
theorem endsAt_startElement {openSpan : Span} {stop : Location} (h : ⟨openSpan.start, stop⟩ ≠ s) (name : String)
    (attributes : List Attribute) (isSelfClosing : Bool) :
    endsAt s (b.startElement rules name openSpan attributes stop isSelfClosing).finish = endsAt s b.finish := by
  obtain ⟨tag, htag, hpreorder⟩ := preorder_startElement rules b name openSpan attributes stop isSelfClosing
  have hend : tag.endSpan ≠ some s := by
    intro hend
    exact h (htag.startSpan ▸ (htag.endSpan s hend).symm)
  unfold endsAt
  rw [hpreorder, List.filterMap_append, List.filter_append]
  simp [Node.tag?, hend]

/-- An end tag elsewhere. -/
theorem endsAt_endElement (hb : b.Unended rules) {span : Span} (h : span ≠ s) (name : String) :
    endsAt s (b.endElement rules name span).finish = endsAt s b.finish := by
  obtain ⟨fault, -, heq⟩ | ⟨t, ht, -, before, after, hbefore, hafter⟩ := preorder_endElement rules b name span
  · rw [heq]
    rfl
  · have hopen := (hb t ht).1
    unfold endsAt
    rw [hbefore, hafter]
    simp [Node.tag?, Tag.ended, hopen, h]

/-- The end tag itself, where no element has ended yet. -/
theorem endsAt_endElement_self (rules : String → TagRules) (hb : endsAt s b.finish = []) (name : String) :
    (∃ fault, (fault = .voidEndTag name ∨ fault = .unexpectedEndTag name) ∧
        b.endElement rules name s = b.report fault s) ∨
      ∃ tag, endsAt s (b.endElement rules name s).finish = [tag] ∧ tag.name = name := by
  refine (preorder_endElement rules b name s).imp_right ?_
  rintro ⟨t, -, hname, before, after, hbefore, hafter⟩
  refine ⟨t.ended s, ?_, hname⟩
  unfold endsAt at hb ⊢
  rw [hbefore, ← List.singleton_append, List.filterMap_append, List.filterMap_append, List.filter_append,
    List.filter_append, List.append_eq_nil_iff, List.append_eq_nil_iff] at hb
  rw [hafter, ← List.singleton_append, List.filterMap_append, List.filterMap_append, List.filter_append,
    List.filter_append, hb.1, hb.2.2]
  simp [Node.tag?, Tag.ended]

/-! ### Before and behind an end tag -/

/-- Before the span no element ends at it. -/
theorem invariant_notYet (rules : String → TagRules) (cs : List Char) (s : Span) :
    Invariant rules cs fun p b => b.Unended rules ∧ (p ≤ s.start.offset → endsAt s b.finish = []) where
  later h hle := ⟨h.1, fun hs => h.2 (hle.trans hs)⟩
  pending _ h := h
  text {p b span} value h hspan hle := by
    refine ⟨h.1.addText value span, fun hs => ?_⟩
    rw [endsAt_addText]
    exact h.2 ((hle.trans hspan.order).trans hs)
  comment {p b span} value h hspan hle := by
    refine ⟨h.1.setSiblings _, fun hs => ?_⟩
    rw [endsAt_addComment]
    exact h.2 ((hle.trans hspan.order).trans hs)
  startTag {p b openSpan attributes stop} name isSelfClosing h hopens := by
    refine ⟨h.1.startElement name openSpan attributes stop isSelfClosing, fun hs => ?_⟩
    have hbefore : openSpan.start.offset < s.start.offset := hopens.lt.trans_le hs
    rw [endsAt_startElement (by rintro rfl; exact Nat.lt_irrefl _ hbefore)]
    exact h.2 (hopens.after.trans hbefore.le)
  endTag {p b span} name h hspan hle hfilled := by
    refine ⟨h.1.endElement name span, fun hs => ?_⟩
    have hbefore : span.start.offset < s.start.offset := hfilled.trans_le hs
    rw [endsAt_endElement h.1 (by rintro rfl; exact Nat.lt_irrefl _ hbefore)]
    exact h.2 (hle.trans hbefore.le)

/-- Behind the start of the span no further element ends at it. -/
theorem invariant_noMore (rules : String → TagRules) (cs : List Char) (s : Span) (tags : List Tag) :
    Invariant rules cs fun p b => b.Unended rules ∧ s.start.offset < p ∧ endsAt s b.finish = tags where
  later h hle := ⟨h.1, h.2.1.trans_le hle, h.2.2⟩
  pending _ h := h
  text {p b span} value h hspan hle := by
    refine ⟨h.1.addText value span, h.2.1.trans_le (hle.trans hspan.order), ?_⟩
    rw [endsAt_addText, h.2.2]
  comment {p b span} value h hspan hle := by
    refine ⟨h.1.setSiblings _, h.2.1.trans_le (hle.trans hspan.order), ?_⟩
    rw [endsAt_addComment, h.2.2]
  startTag {p b openSpan attributes stop} name isSelfClosing h hopens := by
    have hbehind : s.start.offset < openSpan.start.offset := h.2.1.trans_le hopens.after
    refine ⟨h.1.startElement name openSpan attributes stop isSelfClosing, hbehind.trans hopens.lt, ?_⟩
    rw [endsAt_startElement (by rintro rfl; exact Nat.lt_irrefl _ hbehind), h.2.2]
  endTag {p b span} name h hspan hle hfilled := by
    have hbehind : s.start.offset < span.start.offset := h.2.1.trans_le hle
    refine ⟨h.1.endElement name span, hbehind.trans hfilled, ?_⟩
    rw [endsAt_endElement h.1 (by rintro rfl; exact Nat.lt_irrefl _ hbehind), h.2.2]

/-- What is reported stays reported. -/
theorem invariant_reported (rules : String → TagRules) (cs : List Char) (d : Diagnostic) :
    Invariant rules cs fun _ b => d ∈ b.faults where
  later h _ := h
  pending _ h := h
  text {p b span} value h _ _ := by
    unfold addText
    dsimp only
    split
    · exact h
    · rwa [setSiblings_faults]
  comment {p b span} value h _ _ := by rwa [add, setSiblings_faults]
  startTag {p b openSpan attributes stop} name isSelfClosing h _ := by
    obtain ⟨tag, b₁, faults, -, -, -, -, hadded⟩ :=
      startElement_cases rules b name openSpan attributes stop isSelfClosing
    obtain ⟨-, heq⟩ | ⟨-, -, heq⟩ := hadded
    · rw [heq, add, setSiblings_faults]
      exact List.mem_append_left _ h
    · rw [heq]
      exact List.mem_append_left _ h
  endTag {p b span} name h _ _ _ := by
    obtain ⟨fault, -, heq⟩ | ⟨e, rest, faults, -, -, -, heq⟩ := endElement_cases rules b name span
    · rw [heq]
      exact List.mem_append_left _ h
    · rw [heq, add, setSiblings_faults]
      exact List.mem_append_left _ h

end Builder

/-- An end tag among tokens that are in order is reported and ends nothing, or ends one element of its name. -/
theorem endsAt_build (rules : String → TagRules) {cs : List Char} {q : Nat} {ts : List Token}
    (hts : InOrder cs 0 ts q) {t : Token} (ht : t ∈ ts) {name : String} (hname : t.lexeme = .tagClose name) :
    (endsAt t.span (build rules ts).nodes = [] ∧
        ∃ fault, (fault = NestingFault.voidEndTag name ∨ fault = .unexpectedEndTag name) ∧
          fault.diagnostic t.span ∈ (build rules ts).faults) ∨
      ∃ tag, endsAt t.span (build rules ts).nodes = [tag] ∧ tag.name = name := by
  obtain ⟨before, after, rfl⟩ := List.append_of_mem ht
  obtain ⟨p, hbefore, hmid, hafter⟩ := hts.split
  obtain ⟨hstart, hfilled⟩ : p ≤ t.span.start.offset ∧ t.span.start.offset < t.span.stop.offset := by
    cases hmid with
    | cons _ hstart _ hopens _ => exact ⟨hstart (by rw [hname]; nofun), hopens (by rw [hname]; rfl)⟩
  have hflush := (Builder.invariant_notYet rules cs t.span).build hbefore
    (Builder.ready_empty ⟨nofun, fun _ => rfl⟩)
  generalize hb : (before.foldl (Builder.step rules) {}).flush rules = b at hflush
  obtain ⟨hopen, hnone⟩ := hflush
  have hstep : (before.foldl (Builder.step rules) {}).step rules t = b.endElement rules name t.span := by
    rw [Builder.step_eq_receive (by rw [hname]; cases Builder.pending _ <;> rfl), hb]
    unfold Builder.receive
    rw [hname]
  have hbuild : build rules (before ++ t :: after) =
      ⟨((after.foldl (Builder.step rules) (b.endElement rules name t.span)).flush rules).finish,
        ((after.foldl (Builder.step rules) (b.endElement rules name t.span)).flush rules).faults⟩ := by
    unfold build
    rw [List.foldl_append, List.foldl_cons, hstep]
  have hpending : (b.endElement rules name t.span).pending = .nothing := by
    rw [Builder.endElement_pending, ← hb, Builder.flush_pending]
  -- What holds behind the end tag holds at the end.
  have hlater {I : Nat → Builder → Prop} (hI : Builder.Invariant rules cs I)
      (h : I t.span.stop.offset (b.endElement rules name t.span)) :
      I q ((after.foldl (Builder.step rules) (b.endElement rules name t.span)).flush rules) :=
    hI.build hafter ⟨t.span.stop.offset, h, by rw [hpending]; exact Nat.le_refl _⟩
  have hends {tags : List Tag} (h : endsAt t.span (b.endElement rules name t.span).finish = tags) :
      endsAt t.span (build rules (before ++ t :: after)).nodes = tags := by
    rw [hbuild]
    have hmore := hlater (Builder.invariant_noMore rules cs t.span tags)
      ⟨hopen.endElement name t.span, hfilled, h⟩
    exact hmore.2.2
  refine (Builder.endsAt_endElement_self rules (hnone hstart) name).imp ?_ ?_
  · rintro ⟨fault, hfault, heq⟩
    refine ⟨hends (by rw [heq]; exact hnone hstart), fault, hfault, ?_⟩
    rw [hbuild]
    refine hlater (Builder.invariant_reported rules cs _) ?_
    rw [heq]
    exact List.mem_append_right _ (List.mem_singleton_self _)
  · rintro ⟨tag, htag, htagName⟩
    exact ⟨tag, hends htag, htagName⟩

end ViewTemplate.Markup
