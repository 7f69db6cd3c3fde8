import ViewTemplate.Proofs.Markup.Building
import ViewTemplate.Proofs.Markup.Places

/-!
# The grammar of tokens

Whatever is wrong with a source, its tokens are phrases one after the other, then what is left of a phrase that the
source breaks off, then the end.  The builder follows the same grammar: what it has read in part says which lexemes it
has a use for, and in a source it meets no others but declarations.

* `Phrase` — the lexemes of one item; `Remnant` — of an item that the source breaks off.
* `scanItem_readsPhrase`, `scanAll_phrases` — what is read of an item, and of any text.
* `Stage` — what a builder has read in part, without what is in it; `Builder.stage_step` — it follows the lexemes.
* `Stage.Leads` — lexemes that come where they are of use.
* `tokenize_phrases` — the tokens of a source, and what the builder passes over.
-/

namespace ViewTemplate.Markup

open ViewTemplate.Source ViewTemplate.Text

/-! ### Phrases -/

/-- The lexemes of one item of a source.  Behind a start tag stands the content of the element just if it holds no
markup. -/
inductive Phrase (rules : String → TagRules) : List Lexeme → Prop where
  | text (value : String) : Phrase rules [.text value]
  | declaration (value : String) : Phrase rules [.docType value]
  | endTag (name : String) : Phrase rules [.tagClose name]
  | comment (value : String) : Phrase rules [.commentStart, .text value, .commentEnd]
  | selfClosed (name : String) {as : List (String × String)} {ls : List Lexeme} (h : AttributesSpelling as ls) :
    Phrase rules (.tagOpen name :: (ls ++ [.tagSelfClose]))
  | opened {name : String} {as : List (String × String)} {ls : List Lexeme} (h : AttributesSpelling as ls)
    (hcontent : (rules name).content = .parsable) : Phrase rules (.tagOpen name :: (ls ++ [.tagOpenEnd]))
  | holding {name : String} {as : List (String × String)} {ls : List Lexeme} (h : AttributesSpelling as ls)
    (hcontent : (rules name).content ≠ .parsable) (value : String) :
    Phrase rules (.tagOpen name :: (ls ++ [.tagOpenEnd, .rawText value]))

/-- The attributes of a start tag that the source breaks off, the last one perhaps in its quoted value. -/
inductive BrokenAttributes : List Lexeme → Prop where
  | between {as : List (String × String)} {ls : List Lexeme} (h : AttributesSpelling as ls) : BrokenAttributes ls
  | inValue {as : List (String × String)} {ls : List Lexeme} (h : AttributesSpelling as ls) (name : String)
    (quote : Char) (value : String) :
    BrokenAttributes (ls ++ [.attributeName name, .attributeQuote quote, .attributeValue value])

/-- What is left of a phrase that the source breaks off. -/
inductive Remnant : List Lexeme → Prop where
  | comment (value : String) : Remnant [.commentStart, .text value]
  | startTag (name : String) {ls : List Lexeme} (h : BrokenAttributes ls) : Remnant (.tagOpen name :: ls)

/-- The spelling of one attribute is one of attributes. -/
theorem AttributeSpelling.singleton {a : String × String} {ls : List Lexeme} (h : AttributeSpelling a ls) :
    AttributesSpelling [a] ls := by
  simpa using AttributesSpelling.cons h .nil

/-- The spellings of attributes, one behind the other. -/
theorem AttributesSpelling.append {as bs : List (String × String)} {ls ms : List Lexeme}
    (h : AttributesSpelling as ls) (h' : AttributesSpelling bs ms) : AttributesSpelling (as ++ bs) (ls ++ ms) := by
  induction h with
  | nil => exact h'
  | cons ha _ ih =>
    rw [List.cons_append, List.append_assoc]
    exact .cons ha ih

/-- Whole attributes before broken ones. -/
theorem BrokenAttributes.after {as : List (String × String)} {ls ms : List Lexeme} (h : AttributesSpelling as ls)
    (h' : BrokenAttributes ms) : BrokenAttributes (ls ++ ms) := by
  cases h' with
  | between hms => exact .between (h.append hms)
  | inValue hms name quote value =>
    rw [← List.append_assoc]
    exact .inValue (h.append hms) name quote value

/-! ### Start tags -/

/-- The lexemes of the tokens that were read. -/
def Scan.lexemes (s : Scan) : List Lexeme :=
  s.tokens.map Token.lexeme

/-- The lexemes of two scans, one after the other. -/
@[simp]
theorem Scan.lexemes_andThen (s : Scan) (f : Cursor → Scan) :
    (s.andThen f).lexemes = s.lexemes ++ (f s.next).lexemes :=
  List.map_append

/-- The source ends before the item does, and this is reported. -/
structure Scan.BreaksOff (s : Scan) : Prop where
  reported : s.faults ≠ []
  exhausted : s.next.ahead = []

section

variable {cs : List Char} {c : Cursor}

/-- A value completes its attribute, or the source ends in it. -/
theorem scanValue_lexemes (c : Cursor) (name : String) :
    (∃ value, AttributeSpelling (name, value) (.attributeName name :: (scanValue c).lexemes)) ∨
      ((scanValue c).BreaksOff ∧
        ∃ quote value, (scanValue c).lexemes = [.attributeQuote quote, .attributeValue value]) := by
  unfold scanValue
  split
  · next quote rest hahead =>
    dsimp only
    split
    · split
      · next hend =>
        refine .inr ⟨⟨?_, List.isEmpty_iff.1 hend⟩, quote, _, rfl⟩
        exact List.append_ne_nil_of_right_ne_nil _ (List.cons_ne_nil _ _)
      · exact .inl ⟨_, .quoted name _ quote⟩
    · exact .inl ⟨_, .unquoted name _⟩
  · exact .inl ⟨"", .unquoted name ""⟩

/-- An attribute is complete, or the source ends in its quoted value. -/
theorem scanAttribute_lexemes (c : Cursor) :
    (∃ a, AttributeSpelling a (scanAttribute c).lexemes) ∨
      ((scanAttribute c).BreaksOff ∧ ∃ name quote value, (scanAttribute c).lexemes =
        [.attributeName name, .attributeQuote quote, .attributeValue value]) := by
  rw [scanAttribute_eq]
  by_cases hequals : (scanName c).2.skipSpaces.startsWith ['='] = true
  · rw [if_pos hequals]
    obtain ⟨value, hvalue⟩ | ⟨hbreaks, quote, value, hvalue⟩ :=
      scanValue_lexemes ((scanName c).2.skipSpaces.skip 1).skipSpaces (scanName c).1
    · exact .inl ⟨_, hvalue⟩
    · refine .inr ⟨⟨hbreaks.reported, hbreaks.exhausted⟩, (scanName c).1, quote, value, ?_⟩
      rw [Scan.lexemes_andThen, hvalue]
      rfl
  · rw [if_neg hequals]
    exact .inl ⟨_, .absent (scanName c).1⟩

/-- Where an attribute ends, its name has been read. -/
theorem scanAttribute_reaches (hc : c.StandsIn cs) : (scanName c).2.Reaches (scanAttribute c).next := by
  have hspaces := (scanName c).2.reaches_skipSpaces
  rw [scanAttribute_eq]
  show (scanName c).2.Reaches (if _ then _ else _ : Scan).next
  split
  · have hvalue := hspaces.trans ((Cursor.reaches_skip _ 1).trans (Cursor.reaches_skipSpaces _))
    exact hvalue.trans (scanValue_from (hc.reaches ((scanName_reaches c).trans hvalue))).next
  · exact hspaces

/-- What is read of a start tag behind its name: attributes and the mark that ends it, or what the source breaks
off. -/
def Scan.EndsTag (s : Scan) : TagEnd → Prop
  | .missing => s.BreaksOff ∧ BrokenAttributes s.lexemes
  | tagEnd => ∃ as ls, AttributesSpelling as ls ∧ s.lexemes = ls ++ [tagEnd.lexeme]

/-- What comes before the rest of a start tag: an attribute, or a stray character, which leaves no token. -/
theorem Scan.EndsTag.after {s t : Scan} {tagEnd : TagEnd} (h : t.EndsTag tagEnd) {as : List (String × String)}
    (hs : AttributesSpelling as s.lexemes) : (s.andThen fun _ => t).EndsTag tagEnd := by
  cases tagEnd with
  | missing =>
    obtain ⟨hbreaks, hbroken⟩ := h
    refine ⟨⟨List.append_ne_nil_of_right_ne_nil _ hbreaks.reported, hbreaks.exhausted⟩, ?_⟩
    rw [Scan.lexemes_andThen]
    exact .after hs hbroken
  | opened | selfClosed =>
    obtain ⟨bs, ls, hls, hlexemes⟩ := h
    refine ⟨as ++ bs, s.lexemes ++ ls, hs.append hls, ?_⟩
    rw [Scan.lexemes_andThen, hlexemes, List.append_assoc]

/-- The attributes of a start tag end it, or the source ends first. -/
theorem scanAttributes_endsTag {fuel : Nat} (hc : c.StandsIn cs) (hplain : IsPlain c.ahead)
    (hfuel : c.ahead.length < fuel) : (scanAttributes fuel c).1.EndsTag (scanAttributes fuel c).2 := by
  induction fuel generalizing c with
  | zero => exact absurd hfuel (Nat.not_lt_zero _)
  | succ fuel ih =>
    have hc' := hc.reaches c.reaches_skipSpaces
    have hspaces := c.skipSpaces_suffix
    cases hahead : c.skipSpaces.ahead with
    | nil =>
      rw [scanAttributes_nil hahead]
      exact ⟨⟨List.cons_ne_nil _ _, hahead⟩, .between .nil⟩
    | cons d ds =>
      have hlength : ds.length < fuel := by
        have := hspaces.length_le
        rw [hahead, List.length_cons] at this
        omega
      -- Every attribute and every stray character takes a character, so the rest is read as far as it goes.
      have hrest {next : Cursor} (hreaches : c.skipSpaces.Reaches next) (hsuffix : next.ahead <:+ ds) :
          (scanAttributes fuel next).1.EndsTag (scanAttributes fuel next).2 :=
        ih (hc'.reaches hreaches)
          (hplain.of_suffix (hsuffix.trans ((hahead ▸ List.suffix_cons d ds).trans hspaces)))
          (hsuffix.length_le.trans_lt hlength)
      rw [scanAttributes_cons hahead]
      split
      · exact ⟨[], [], .nil, rfl⟩
      · next hclose =>
        split
        · exact ⟨[], [], .nil, rfl⟩
        · dsimp only
          split
          · have hskip : (c.skipSpaces.skip 1).ahead <:+ ds := by
              rw [Cursor.skip_ahead, hahead]
              exact List.suffix_rfl
            exact (hrest (Cursor.reaches_skip _ 1) hskip).after (s := ⟨[], _, _⟩) .nil
          · next hstray =>
            have hd := isNameEnd_eq_false hahead (hplain.of_suffix hspaces) hclose (by simpa using hstray)
            have hsuffix : (scanAttribute c.skipSpaces).next.ahead <:+ ds := by
              obtain ⟨n, hn⟩ := scanAttribute_reaches hc'
              rw [hn]
              exact (Cursor.skip_suffix _ n).trans (scanName_attribute hahead hd.1 hd.2).2
            obtain ⟨a, ha⟩ | ⟨hbreaks, name, quote, value, hlexemes⟩ := scanAttribute_lexemes c.skipSpaces
            · exact (hrest (scanAttribute_from hc').next hsuffix).after ha.singleton
            · -- The source ends in the value, so nothing is left for the rest.
              have hnil : (scanAttribute c.skipSpaces).next.skipSpaces.ahead = [] := by
                rw [Cursor.skipSpaces_ahead, hbreaks.exhausted, List.dropWhile_nil]
              obtain ⟨fuel, rfl⟩ := Nat.exists_eq_add_one.2 (Nat.zero_lt_of_lt hlength)
              rw [scanAttributes_nil hnil]
              refine ⟨⟨List.append_ne_nil_of_left_ne_nil hbreaks.reported _, hnil⟩, ?_⟩
              rw [Scan.lexemes_andThen, hlexemes]
              exact .inValue .nil name quote value

/-! ### Items and whole sources -/

/-- The scan gives a phrase, or what is left of one that the source breaks off. -/
def Scan.ReadsPhrase (rules : String → TagRules) (s : Scan) : Prop :=
  Phrase rules s.lexemes ∨ s.BreaksOff ∧ Remnant s.lexemes

/-- The scan of a comment reads a phrase, or a remnant with a fault. -/
theorem scanComment_readsPhrase (rules : String → TagRules) (c : Cursor) : (scanComment c).ReadsPhrase rules := by
  unfold scanComment
  dsimp only
  split
  · next hend => exact .inr ⟨⟨List.cons_ne_nil _ _, List.isEmpty_iff.1 hend⟩, .comment _⟩
  · exact .inl (.comment _)

/-- The scan of a declaration reads a phrase, or a remnant with a fault. -/
theorem scanDocType_readsPhrase (rules : String → TagRules) (c : Cursor) : (scanDocType c).ReadsPhrase rules := by
  unfold scanDocType
  dsimp only
  split <;> exact .inl (.declaration _)

/-- The scan of an end tag reads a phrase, also where it reports a fault. -/
theorem scanTagClose_readsPhrase (rules : String → TagRules) (c : Cursor) : (scanTagClose c).ReadsPhrase rules := by
  unfold scanTagClose
  dsimp only
  split <;> exact .inl (.endTag _)

/-- The scan of a start tag reads a phrase, with content that is no markup, or a remnant with a fault. -/
theorem scanTagOpen_readsPhrase (rules : String → TagRules) (hc : c.StandsIn cs) (hplain : IsPlain c.ahead) :
    (scanTagOpen rules c).ReadsPhrase rules := by
  have hname := (c.reaches_skip 1).trans (scanName_reaches (c.skip 1))
  have hsuffix : (scanName (c.skip 1)).2.ahead <:+ c.ahead := (Cursor.skip_suffix _ _).trans (c.skip_suffix 1)
  unfold scanTagOpen
  dsimp only
  generalize scanName (c.skip 1) = scanned at hname hsuffix ⊢
  obtain ⟨name, after⟩ := scanned
  dsimp only at hname hsuffix ⊢
  have hends := scanAttributes_endsTag (hc.reaches hname) (hplain.of_suffix hsuffix) (Nat.lt_succ_self _)
  generalize scanAttributes (after.ahead.length + 1) after = attributes at hends ⊢
  obtain ⟨attributes, tagEnd⟩ := attributes
  dsimp only at hends ⊢
  cases tagEnd with
  | missing =>
    -- Only the end of the source leaves a start tag without its mark.
    obtain ⟨hbreaks, hbroken⟩ := hends
    exact .inr ⟨⟨hbreaks.reported, hbreaks.exhausted⟩, .startTag name hbroken⟩
  | selfClosed =>
    obtain ⟨as, ls, hls, hlexemes⟩ := hends
    refine .inl ?_
    show Phrase rules (.tagOpen name :: attributes.lexemes)
    rw [hlexemes]
    exact .selfClosed name hls
  | opened =>
    obtain ⟨as, ls, hls, hlexemes⟩ := hends
    refine .inl ?_
    -- Content that is no markup belongs to the phrase of its start tag.
    have hraw (decoded : Bool) (hcontent : (rules name).content ≠ .parsable) :
        Phrase rules (((Scan.token (.tagOpen name) c after).andThen fun _ => attributes).andThen
          (scanRawText name decoded)).lexemes := by
      rw [Scan.lexemes_andThen, Scan.lexemes_andThen, hlexemes]
      show Phrase rules (.tagOpen name :: (ls ++ [.tagOpenEnd] ++ [.rawText _]))
      rw [List.append_assoc]
      exact .holding hls hcontent _
    cases hcontent : (rules name).content with
    | rawText => exact hraw false (by rw [hcontent]; decide)
    | escapableRawText => exact hraw true (by rw [hcontent]; decide)
    | parsable =>
      show Phrase rules (.tagOpen name :: attributes.lexemes)
      rw [hlexemes]
      exact .opened hls hcontent

/-- An item of any source. -/
theorem scanItem_readsPhrase (rules : String → TagRules) (hc : c.StandsIn cs) (hplain : IsPlain c.ahead) :
    (scanItem rules c).ReadsPhrase rules := by
  unfold scanItem
  split
  · split
    · exact scanComment_readsPhrase rules c
    · split
      · exact scanDocType_readsPhrase rules c
      · split
        · exact scanTagClose_readsPhrase rules c
        · exact scanTagOpen_readsPhrase rules hc hplain
  · exact .inl (.text _)

/-- The whole scan reads phrases, perhaps a remnant, and the end of the source. -/
theorem scanAll_phrases (rules : String → TagRules) {fuel : Nat} (hc : c.StandsIn cs) (hplain : IsPlain c.ahead)
    (hfuel : c.ahead.length < fuel) :
    ∃ (phrases : List (List Lexeme)) (rest : List Lexeme),
      (scanAll rules fuel c).lexemes = phrases.flatten ++ (rest ++ [.endOfSource]) ∧
      (∀ p ∈ phrases, Phrase rules p) ∧ (rest = [] ∨ Remnant rest ∧ (scanAll rules fuel c).faults ≠ []) := by
  induction fuel generalizing c with
  | zero => exact absurd hfuel (Nat.not_lt_zero _)
  | succ fuel ih =>
    cases hahead : c.ahead with
    | nil =>
      rw [scanAll, hahead]
      exact ⟨[], [], rfl, List.forall_mem_nil _, .inl rfl⟩
    | cons d ds =>
      have hne : c.ahead ≠ [] := by simp [hahead]
      have hnext := (scanItem_from rules hc hne).next
      have hlength := hnext.length_lt (scanItem_advances rules hc hne)
      have hsuffix : (scanItem rules c).next.ahead <:+ c.ahead := by
        obtain ⟨n, hn⟩ := hnext
        rw [hn]
        exact c.skip_suffix n
      obtain ⟨phrases, rest, hlexemes, hphrases, hrest⟩ :=
        ih (hc.reaches hnext) (hplain.of_suffix hsuffix) (by omega)
      rw [scanAll, hahead]
      dsimp only
      rw [Scan.lexemes_andThen]
      obtain hphrase | ⟨hbreaks, hremnant⟩ := scanItem_readsPhrase rules hc hplain
      · refine ⟨(scanItem rules c).lexemes :: phrases, rest, ?_, List.forall_mem_cons.2 ⟨hphrase, hphrases⟩, ?_⟩
        · rw [hlexemes, List.flatten_cons, List.append_assoc]
        · exact hrest.imp_right (And.imp_right (List.append_ne_nil_of_right_ne_nil _))
      · -- Behind an item that the source breaks off there is nothing but the end.
        obtain ⟨fuel, rfl⟩ := Nat.exists_eq_add_one.2 (show 0 < fuel by omega)
        have hend : (scanAll rules (fuel + 1) (scanItem rules c).next).lexemes = [.endOfSource] := by
          rw [scanAll, hbreaks.exhausted]
          rfl
        refine ⟨[], (scanItem rules c).lexemes, by rw [hend]; rfl, List.forall_mem_nil _, .inr ⟨hremnant, ?_⟩⟩
        exact List.append_ne_nil_of_left_ne_nil hbreaks.reported _

end

/-! ### What the builder has a use for -/

/-- What a builder has read in part, without what is in it. -/
inductive Stage where
  | outside
  | startTag
  | comment
  deriving DecidableEq

/-- The stage of what has been read in part. -/
def Pending.stage : Pending → Stage
  | .nothing => .outside
  | .startTag _ _ _ => .startTag
  | .comment _ _ => .comment

namespace Stage

/-- The stage behind a lexeme. -/
def next : Stage → Lexeme → Stage
  | _, .tagOpen _ => .startTag
  | _, .commentStart => .comment
  | .startTag, .attributeName _ => .startTag
  | .startTag, .attributeQuote _ => .startTag
  | .startTag, .attributeValue _ => .startTag
  | .comment, .text _ => .comment
  | _, _ => .outside

/-- Whether a builder passes over the lexeme at this stage: it belongs to nothing that has been read in part, and no
node starts or ends with it. -/
def passesOver : Stage → Lexeme → Bool
  | _, .tagOpen _ => false
  | _, .tagClose _ => false
  | _, .commentStart => false
  | _, .text _ => false
  | _, .rawText _ => false
  | .startTag, .attributeName _ => false
  | .startTag, .attributeQuote _ => false
  | .startTag, .attributeValue _ => false
  | .startTag, .tagOpenEnd => false
  | .startTag, .tagSelfClose => false
  | .comment, .commentEnd => false
  | _, _ => true

end Stage

namespace Builder

variable {rules : String → TagRules} {b : Builder}

/-- The stage follows the lexemes, whatever is in them. -/
theorem stage_step (rules : String → TagRules) (b : Builder) (t : Token) :
    (b.step rules t).pending.stage = b.pending.stage.next t.lexeme := by
  obtain ⟨l, span⟩ := t
  have hflush := flush_pending rules b
  -- What has been read in part is completed, unless the lexeme belongs to it.
  cases l <;> cases hpending : b.pending <;> simp [step, hpending, hflush, Pending.stage, Stage.next]

/-- The stage that the builder comes to is decided by the lexemes alone. -/
theorem stage_foldl_step (b : Builder) (ts : List Token) :
    (ts.foldl (step rules) b).pending.stage = (ts.map Token.lexeme).foldl Stage.next b.pending.stage := by
  induction ts generalizing b with
  | nil => rfl
  | cons t ts ih => rw [List.foldl_cons, ih, stage_step, List.map_cons, List.foldl_cons]

/-- A lexeme that is passed over completes what has been read in part, and does nothing else. -/
theorem step_of_passesOver {t : Token} (h : b.pending.stage.passesOver t.lexeme = true) :
    b.step rules t = b.flush rules := by
  obtain ⟨l, span⟩ := t
  have htakes : b.pending.takes l = false := by
    generalize b.pending = p at h
    cases p <;> cases l <;> first | rfl | cases h
  rw [step_eq_receive htakes]
  -- At every stage a lexeme that the builder receives is one that is not passed over.
  generalize b.pending.stage = s at h
  cases l <;> first | rfl | (cases s <;> cases h)

/-- Outside of all items there is nothing to finish. -/
theorem flush_of_stage (h : b.pending.stage = .outside) : b.flush rules = b := by
  unfold flush
  cases hpending : b.pending <;> simp_all [Pending.stage]

/-! ### What leaves no trace -/

/-- The lexeme leaves no trace in the builder: wherever it stands, it completes what has been read in part and does
nothing else. -/
def Discards (rules : String → TagRules) (b : Builder) (l : Lexeme) : Prop :=
  ∀ span, b.step rules ⟨l, span⟩ = b.flush rules

/-- Where a start tag ends can be seen in the tree. -/
theorem stop_eq_of_startElement_eq {name : String} {openSpan : Span} {attributes : List Attribute}
    {stop stop' : Location} {isSelfClosing : Bool}
    (h : b.startElement rules name openSpan attributes stop isSelfClosing =
      b.startElement rules name openSpan attributes stop' isSelfClosing) : stop = stop' := by
  obtain ⟨tag, htag, hpreorder⟩ := preorder_startElement rules b name openSpan attributes stop isSelfClosing
  obtain ⟨tag', htag', hpreorder'⟩ := preorder_startElement rules b name openSpan attributes stop' isSelfClosing
  rw [h, hpreorder'] at hpreorder
  obtain rfl : tag' = tag := by simpa using hpreorder
  simpa using htag.startSpan.symm.trans htag'.startSpan

/-- Where a text stands can be seen in the tree. -/
theorem stop_eq_of_appendText_eq {ns : List Node} {value : String} {span span' : Span}
    (h : appendText ns value span = appendText ns value span') : span.stop = span'.stop := by
  unfold appendText at h
  split at h <;> simp_all

/-- An end tag is reported, or leaves fewer elements open. -/
theorem endElement_ne (rules : String → TagRules) (b : Builder) (name : String) (span : Span) :
    b.endElement rules name span ≠ b := by
  intro heq
  obtain ⟨fault, -, hreport⟩ | ⟨e, rest, faults, hcloses, -, -, hclosed⟩ := endElement_cases rules b name span
  · have hfaults := congrArg Builder.faults (hreport.symm.trans heq)
    simp [report] at hfaults
  · have hopen := congrArg openTags (hclosed.symm.trans heq)
    have hlength := hcloses.openTags_suffix.length_le
    rw [add, openTags_setSiblings] at hopen
    rw [← hopen] at hlength
    exact Nat.not_succ_le_self _ hlength

/-- A text that leaves no trace is empty. -/
theorem textValue_of_addText {value : String} (h : ∀ span, b.addText rules value span = b) :
    b.textValue rules value = "" := by
  by_contra hne
  have hadd (span : Span) : b.siblings = appendText b.siblings (b.textValue rules value) span := by
    have heq := h span
    unfold addText at heq
    dsimp only at heq
    rw [if_neg (by simpa using hne)] at heq
    have hsiblings := congrArg siblings heq
    rw [siblings_setSiblings] at hsiblings
    exact hsiblings.symm
  have hstop := stop_eq_of_appendText_eq ((hadd {}).symm.trans (hadd ⟨{}, ⟨1, 0, 0⟩⟩))
  exact absurd hstop (by decide)

/-- What leaves no trace is passed over, or is an empty text. -/
theorem passesOver_or_of_discards {l : Lexeme} (h : b.Discards rules l) :
    b.pending.stage.passesOver l = true ∨
      ∃ value, (l = .text value ∨ l = .rawText value) ∧ (b.flush rules).textValue rules value = "" := by
  -- Behind a lexeme that leaves no trace nothing has been read in part.
  have hstage : b.pending.stage.next l = .outside := by
    rw [← stage_step rules b ⟨l, {}⟩, h, flush_pending]
    rfl
  -- A lexeme whose place can be seen leaves a trace.
  have hplace {f : Location → Builder} (hf : ∀ {stop stop'}, f stop = f stop' → stop = stop')
      (hstep : ∀ span, b.step rules ⟨l, span⟩ = f span.stop) : False := by
    have hsame := ((hstep {}).symm.trans (h {})).trans
      ((hstep ⟨{}, ⟨1, 0, 0⟩⟩).symm.trans (h ⟨{}, ⟨1, 0, 0⟩⟩)).symm
    exact absurd (hf hsame) (by decide)
  cases l with
  | tagOpen name => exact absurd hstage (by cases b.pending <;> nofun)
  | commentStart => exact absurd hstage (by cases b.pending <;> nofun)
  | attributeName _ | attributeQuote _ | attributeValue _ =>
    cases hpending : b.pending with
    | startTag name span attributes => rw [hpending] at hstage; cases hstage
    | nothing => exact .inl rfl
    | comment value span => exact .inl rfl
  | tagOpenEnd | tagSelfClose =>
    cases hpending : b.pending with
    | startTag name span attributes =>
      exact (hplace stop_eq_of_startElement_eq fun _ => by simp only [step, hpending]; rfl).elim
    | nothing => exact .inl rfl
    | comment value span => exact .inl rfl
  | commentEnd =>
    cases hpending : b.pending with
    | comment value span =>
      refine (hplace (f := fun stop => { b with pending := .nothing }.add (.comment value ⟨span.start, stop⟩))
        (fun heq => ?_) fun _ => by simp only [step, hpending]).elim
      have hsiblings := congrArg siblings heq
      simpa [siblings_add] using hsiblings
    | nothing => exact .inl rfl
    | startTag name span attributes => exact .inl rfl
  | tagClose name =>
    have hstep := h {}
    rw [step_eq_receive (by cases b.pending <;> rfl)] at hstep
    exact absurd hstep (endElement_ne rules (b.flush rules) name {})
  | text value =>
    have htakes : b.pending.takes (.text value) = false := by
      cases hpending : b.pending with
      | comment before span => rw [hpending] at hstage; cases hstage
      | nothing => rfl
      | startTag name span attributes => rfl
    exact .inr ⟨value, .inl rfl, textValue_of_addText fun span => (step_eq_receive htakes).symm.trans (h span)⟩
  | rawText value =>
    have htakes : b.pending.takes (.rawText value) = false := by cases b.pending <;> rfl
    exact .inr ⟨value, .inr rfl, textValue_of_addText fun span => (step_eq_receive htakes).symm.trans (h span)⟩
  | docType value | endOfSource => exact .inl (by cases b.pending <;> rfl)

end Builder

namespace Stage

/-- Lexemes that lead from one stage to another, none of them passed over but declarations between items. -/
inductive Leads : Stage → List Lexeme → Stage → Prop where
  | nil (s : Stage) : Leads s [] s
  | cons {s s' : Stage} {l : Lexeme} {ls : List Lexeme}
    (h : s.passesOver l = true → s = .outside ∧ ∃ value, l = .docType value) (h' : Leads (s.next l) ls s') :
    Leads s (l :: ls) s'

namespace Leads

variable {s s' s'' : Stage} {l : Lexeme} {ls ms : List Lexeme}

/-- A lexeme that is taken leads on. -/
theorem use (h : s.passesOver l = false) (h' : Leads (s.next l) ls s') : Leads s (l :: ls) s' :=
  .cons (fun hpasses => absurd (h.symm.trans hpasses) nofun) h'

/-- What leads from one stage to another, and on from there. -/
theorem append (h : Leads s ls s') (h' : Leads s' ms s'') : Leads s (ls ++ ms) s'' := by
  induction h with
  | nil s => exact h'
  | cons hl _ ih => exact .cons hl (ih h')

/-- One of the lexemes, at the stage behind those before it. -/
theorem split (h : Leads s (ls ++ l :: ms) s') (hpasses : (ls.foldl next s).passesOver l = true) :
    ls.foldl next s = .outside ∧ ∃ value, l = .docType value := by
  induction ls generalizing s with
  | nil =>
    cases h with
    | cons hl _ => exact hl hpasses
  | cons k ls ih =>
    cases h with
    | cons _ h' => exact ih h' hpasses

end Leads

end Stage

open Stage

/-- Attributes lead through a start tag. -/
theorem AttributesSpelling.leads {as : List (String × String)} {ls : List Lexeme} (h : AttributesSpelling as ls) :
    Leads .startTag ls .startTag := by
  induction h with
  | nil => exact .nil _
  | cons ha _ ih =>
    refine .append ?_ ih
    cases ha with
    | absent name => exact .use rfl (.nil _)
    | unquoted name value => exact .use rfl (.use rfl (.nil _))
    | quoted name value quote => exact .use rfl (.use rfl (.use rfl (.use rfl (.nil _))))

/-- A phrase leads from between two items to between two items. -/
theorem Phrase.leads {rules : String → TagRules} {p : List Lexeme} (h : Phrase rules p) :
    Leads .outside p .outside := by
  cases h with
  | text value => exact .use rfl (.nil _)
  | declaration value => exact .cons (fun _ => ⟨rfl, value, rfl⟩) (.nil _)
  | endTag name => exact .use rfl (.nil _)
  | comment value => exact .use rfl (.use rfl (.use rfl (.nil _)))
  | selfClosed name has => exact .use rfl (has.leads.append (.use rfl (.nil _)))
  | opened has hcontent => exact .use rfl (has.leads.append (.use rfl (.nil _)))
  | holding has hcontent value => exact .use rfl (has.leads.append (.use rfl (.use rfl (.nil _))))

/-- A remnant leads to some stage. -/
theorem Remnant.leads {ls : List Lexeme} (h : Remnant ls) : ∃ s, Leads .outside ls s := by
  cases h with
  | comment value => exact ⟨_, .use rfl (.use rfl (.nil _))⟩
  | startTag name hbroken =>
    cases hbroken with
    | between has => exact ⟨_, .use rfl has.leads⟩
    | inValue has name quote value => exact ⟨_, .use rfl (has.leads.append (.use rfl (.use rfl (.use rfl (.nil _)))))⟩

/-- Phrases, one behind the other, lead back out each time. -/
theorem leads_flatten {rules : String → TagRules} {phrases : List (List Lexeme)}
    (h : ∀ p ∈ phrases, Phrase rules p) : Leads .outside phrases.flatten .outside := by
  induction phrases with
  | nil => exact .nil _
  | cons p phrases ih =>
    obtain ⟨hp, hphrases⟩ := List.forall_mem_cons.1 h
    exact hp.leads.append (ih hphrases)

/-- The tokens of a source are phrases, then what is left of one if the source breaks it off, then the end.  Of the
tokens before the end the builder passes over the declarations and no others, which leave it as it is; and nothing else
but empty texts leaves no trace. -/
theorem tokenize_phrases (rules : String → TagRules) (source : String) :
    (∃ (phrases : List (List Lexeme)) (rest : List Lexeme),
      (tokenize rules source).tokens.map Token.lexeme = phrases.flatten ++ (rest ++ [.endOfSource]) ∧
      (∀ p ∈ phrases, Phrase rules p) ∧ (rest = [] ∨ Remnant rest ∧ (tokenize rules source).faults ≠ [])) ∧
    ∀ before t after b, (tokenize rules source).tokens = before ++ t :: after → after ≠ [] →
      b = before.foldl (Builder.step rules) {} →
      (b.pending.stage.passesOver t.lexeme = true ↔ ∃ value, t.lexeme = .docType value) ∧
        (b.pending.stage.passesOver t.lexeme = true → b.step rules t = b) ∧
        (b.Discards rules t.lexeme → (∃ value, t.lexeme = .docType value) ∨
          ∃ value, (t.lexeme = .text value ∨ t.lexeme = .rawText value) ∧
            (b.flush rules).textValue rules value = "") := by
  have hstart : (⟨{}, beforeNul (unifyLines source.toList)⟩ : Cursor).StandsIn (unifyLines source.toList) :=
    ⟨[], beforeNul_isPrefix _, rfl⟩
  have hread := scanAll_phrases rules hstart (isPlain_beforeNul_unifyLines source.toList) (Nat.lt_succ_self _)
  refine ⟨hread, ?_⟩
  rintro before t after b htokens hafter rfl
  obtain ⟨phrases, rest, hlexemes, hphrases, hrest⟩ := hread
  obtain ⟨s, hleads⟩ : ∃ s, Leads .outside (phrases.flatten ++ rest) s := by
    obtain rfl | ⟨hremnant, -⟩ := hrest
    · exact ⟨.outside, by simpa using leads_flatten hphrases⟩
    · obtain ⟨s, hs⟩ := hremnant.leads
      exact ⟨s, (leads_flatten hphrases).append hs⟩
  -- The last token is the end, so this one is among those that lead up to it.
  obtain ⟨after, last, rfl⟩ := (List.eq_nil_or_concat' after).resolve_left hafter
  have hall : (before.map Token.lexeme ++ t.lexeme :: after.map Token.lexeme) ++ [last.lexeme] =
      (phrases.flatten ++ rest) ++ [.endOfSource] := by
    have hlexemes : (tokenize rules source).tokens.map Token.lexeme = _ := hlexemes
    simpa [htokens] using hlexemes
  rw [← (List.append_inj' hall rfl).1] at hleads
  have hpasses : (before.foldl (Builder.step rules) {}).pending.stage.passesOver t.lexeme = true →
      (before.foldl (Builder.step rules) {}).pending.stage = .outside ∧ ∃ value, t.lexeme = .docType value := by
    rw [Builder.stage_foldl_step]
    exact hleads.split
  refine ⟨⟨fun h => (hpasses h).2, ?_⟩, fun h => ?_,
    fun h => (Builder.passesOver_or_of_discards h).imp_left fun hover => (hpasses hover).2⟩
  · rintro ⟨value, hvalue⟩
    rw [hvalue]
    cases (before.foldl (Builder.step rules) {}).pending.stage <;> rfl
  · rw [Builder.step_of_passesOver h, Builder.flush_of_stage (hpasses h).1]

/-- A source that ends in a value, behind a declaration. -/
def brokenValue : String :=
  "<!doctype html><p title='a"

/-- The value is read in part, and it is not lost. -/
theorem tokenize_phrases_brokenValue :
    ∃ before t after, (tokenize TagRules.html brokenValue).tokens = before ++ t :: after ∧ after ≠ [] ∧
      t.lexeme = .attributeValue "a" ∧
      ¬ (before.foldl (Builder.step TagRules.html) {}).Discards TagRules.html t.lexeme := by
  let place (n : Nat) : Location := Location.advanceAll {} (brokenValue.toList.take n)
  let before : List Token := [⟨.docType "doctype html", ⟨place 0, place 15⟩⟩, ⟨.tagOpen "p", ⟨place 15, place 17⟩⟩,
    ⟨.attributeName "title", ⟨place 18, place 23⟩⟩, ⟨.attributeQuote '\x27', ⟨place 24, place 25⟩⟩]
  let value : Token := ⟨.attributeValue "a", ⟨place 25, place 26⟩⟩
  have htokens : (tokenize TagRules.html brokenValue).tokens =
      before ++ value :: [⟨.endOfSource, ⟨place 26, place 26⟩⟩] := by decide +kernel
  refine ⟨before, value, _, htokens, List.cons_ne_nil _ _, rfl, fun hdiscards => ?_⟩
  obtain ⟨-, hplace⟩ := tokenize_phrases TagRules.html brokenValue
  obtain ⟨-, -, htrace⟩ := hplace before value _ _ htokens (List.cons_ne_nil _ _) rfl
  obtain ⟨_, hvalue⟩ | ⟨_, hvalue | hvalue, -⟩ := htrace hdiscards <;> cases hvalue

end ViewTemplate.Markup
