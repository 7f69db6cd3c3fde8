import ViewTemplate.Markup.Tree

/-!
# Items of a source

Between the tokens of a source and the tree built from them stand items: a text, a comment, a declaration,
a whole start tag, an end tag.  A source without faults is a sequence of items, whatever way its attributes
are quoted and wherever its tokens stand; and the builder, between two items, holds nothing in part.

* `Item`, `Spelling` — the items, and the lexemes they are made of.
* `Builder.Takes` — what one item does to the builder; `Builder.Runs` — what a sequence does.
* `Builder.runs_foldl_step` — the pass over the tokens is the run of their items.
-/

namespace ViewTemplate.Markup

open ViewTemplate.Source ViewTemplate.Text

/-! ### Items and their lexemes -/

/-- What stands in a source one after the other, without the places. -/
inductive Item where
  | text (value : String)
  | rawText (value : String)
  | comment (value : String)
  | declaration (value : String)
  | startTag (name : String) (attributes : List (String × String)) (isSelfClosing : Bool)
  | endTag (name : String)
  | endOfSource

/-- The lexemes of an attribute: its value may be left out, and may stand without quotes. -/
inductive AttributeSpelling : String × String → List Lexeme → Prop where
  | absent (name : String) : AttributeSpelling (name, "") [.attributeName name]
  | unquoted (name value : String) :
    AttributeSpelling (name, value) [.attributeName name, .attributeValue value]
  | quoted (name value : String) (quote : Char) : AttributeSpelling (name, value)
      [.attributeName name, .attributeQuote quote, .attributeValue value, .attributeQuote quote]

/-- The lexemes of attributes, one after the other. -/
inductive AttributesSpelling : List (String × String) → List Lexeme → Prop where
  | nil : AttributesSpelling [] []
  | cons {a : String × String} {as : List (String × String)} {ls ls' : List Lexeme}
    (h : AttributeSpelling a ls) (h' : AttributesSpelling as ls') : AttributesSpelling (a :: as) (ls ++ ls')

/-- The lexemes of an item. -/
inductive Item.Spelling : Item → List Lexeme → Prop where
  | text (value : String) : Spelling (.text value) [.text value]
  | rawText (value : String) : Spelling (.rawText value) [.rawText value]
  | comment (value : String) : Spelling (.comment value) [.commentStart, .text value, .commentEnd]
  | declaration (value : String) : Spelling (.declaration value) [.docType value]
  | opened (name : String) {as : List (String × String)} {ls : List Lexeme}
    (h : AttributesSpelling as ls) :
    Spelling (.startTag name as false) (.tagOpen name :: (ls ++ [.tagOpenEnd]))
  | selfClosed (name : String) {as : List (String × String)} {ls : List Lexeme}
    (h : AttributesSpelling as ls) :
    Spelling (.startTag name as true) (.tagOpen name :: (ls ++ [.tagSelfClose]))
  | endTag (name : String) : Spelling (.endTag name) [.tagClose name]
  | endOfSource : Spelling .endOfSource [.endOfSource]

/-- The lexemes of items, one after the other. -/
inductive Spelling : List Item → List Lexeme → Prop where
  | nil : Spelling [] []
  | cons {i : Item} {is : List Item} {ls ls' : List Lexeme} (h : i.Spelling ls) (h' : Spelling is ls') :
    Spelling (i :: is) (ls ++ ls')

/-- The spelling of one item is one of items. -/
theorem Item.Spelling.singleton {i : Item} {ls : List Lexeme} (h : i.Spelling ls) :
    Markup.Spelling [i] ls := by
  simpa using Markup.Spelling.cons h .nil

/-- The spellings of items, one behind the other. -/
theorem Spelling.append {is js : List Item} {ls ls' : List Lexeme} (h : Spelling is ls)
    (h' : Spelling js ls') : Spelling (is ++ js) (ls ++ ls') := by
  induction h with
  | nil => exact h'
  | cons hi _ ih =>
    rw [List.cons_append, List.append_assoc]
    exact .cons hi ih

/-! ### What the builder does with an item -/

/-- The name and the value. -/
def Attribute.entry (a : Attribute) : String × String :=
  (a.name, a.value)

namespace Builder

/-- To set siblings leaves what has been read in part. -/
@[simp] theorem setSiblings_pending (b : Builder) (ns : List Node) :
    (b.setSiblings ns).pending = b.pending := by
  unfold setSiblings
  split <;> rfl

/-- To add a node leaves what has been read in part. -/
@[simp] theorem add_pending (b : Builder) (n : Node) : (b.add n).pending = b.pending :=
  b.setSiblings_pending _

/-- To add a text leaves what has been read in part. -/
@[simp] theorem addText_pending (rules : String → TagRules) (b : Builder) (value : String) (span : Span) :
    (b.addText rules value span).pending = b.pending := by
  unfold addText
  dsimp only
  split
  · rfl
  · exact b.setSiblings_pending _

/-- To close an element before another one leaves what has been read in part. -/
@[simp] theorem closeBefore_pending (rules : String → TagRules) (b : Builder) (name : String) :
    (b.closeBefore rules name).pending = b.pending := by
  unfold closeBefore
  split
  · rfl
  · split
    · exact add_pending _ _
    · rfl

/-- A start tag leaves what has been read in part. -/
@[simp] theorem startElement_pending (rules : String → TagRules) (b : Builder) (name : String) (openSpan : Span)
    (attributes : List Attribute) (stop : Location) (isSelfClosing : Bool) :
    (b.startElement rules name openSpan attributes stop isSelfClosing).pending = b.pending := by
  unfold startElement report
  dsimp only
  split <;> split <;> simp

/-- An end tag leaves what has been read in part. -/
@[simp] theorem endElement_pending (rules : String → TagRules) (b : Builder) (name : String) (span : Span) :
    (b.endElement rules name span).pending = b.pending := by
  unfold endElement report
  split
  · rfl
  · split <;> simp

/-- What an item does to a builder; where it stands is left open. -/
inductive Takes (rules : String → TagRules) (b : Builder) : Item → Builder → Prop where
  | text (value : String) (span : Span) : Takes rules b (.text value) (b.addText rules value span)
  | rawText (value : String) (span : Span) : Takes rules b (.rawText value) (b.addText rules value span)
  | comment (value : String) (span : Span) : Takes rules b (.comment value) (b.add (.comment value span))
  | declaration (value : String) : Takes rules b (.declaration value) b
  | startTag (name : String) (attributes : List Attribute) (isSelfClosing : Bool) (span : Span)
    (stop : Location) : Takes rules b (.startTag name (attributes.map Attribute.entry) isSelfClosing)
      (b.startElement rules name span attributes stop isSelfClosing)
  | endTag (name : String) (span : Span) : Takes rules b (.endTag name) (b.endElement rules name span)
  | endOfSource : Takes rules b .endOfSource b

/-- An item leaves as it finds it what has been read in part. -/
theorem Takes.pending {rules : String → TagRules} {b b' : Builder} {i : Item} (h : Takes rules b i b') :
    b'.pending = b.pending := by
  cases h <;> simp

/-- What items do to a builder, one after the other. -/
inductive Runs (rules : String → TagRules) : Builder → List Item → Builder → Prop where
  | nil (b : Builder) : Runs rules b [] b
  | cons {b b' b'' : Builder} {i : Item} {is : List Item} (h : Takes rules b i b') (h' : Runs rules b' is b'') :
    Runs rules b (i :: is) b''

/-- An attribute is added to the start tag that is being put together. -/
theorem foldl_step_attribute (rules : String → TagRules) {b : Builder} {a : String × String}
    {ls : List Lexeme} (h : AttributeSpelling a ls) {ts : List Token} (hls : ts.map Token.lexeme = ls)
    {name : String} {span : Span} {done : List Attribute} (hb : b.pending = .startTag name span done) :
    ∃ new : Attribute, new.entry = a ∧
      ts.foldl (step rules) b = { b with pending := .startTag name span (done ++ [new]) } := by
  cases h with
  | absent attr =>
    obtain ⟨t, rfl, ht⟩ := List.map_eq_singleton_iff.1 hls
    exact ⟨{ name := attr, value := "", span := t.span }, rfl, by simp [step, ht, hb]⟩
  | unquoted attr value =>
    obtain ⟨t, _, rfl, ht, hls⟩ := List.map_eq_cons_iff.1 hls
    obtain ⟨u, rfl, hu⟩ := List.map_eq_singleton_iff.1 hls
    refine ⟨{ name := attr, value, valueSpan := some u.span, span := ⟨t.span.start, u.span.stop⟩ }, rfl, ?_⟩
    simp [step, ht, hu, hb, changeLast]
  | quoted attr value quote =>
    obtain ⟨t, _, rfl, ht, hls⟩ := List.map_eq_cons_iff.1 hls
    obtain ⟨p, _, rfl, hp, hls⟩ := List.map_eq_cons_iff.1 hls
    obtain ⟨u, _, rfl, hu, hls⟩ := List.map_eq_cons_iff.1 hls
    obtain ⟨q, rfl, hq⟩ := List.map_eq_singleton_iff.1 hls
    refine ⟨{ name := attr, value, valueSpan := some u.span, span := ⟨t.span.start, q.span.stop⟩ }, rfl, ?_⟩
    simp [step, ht, hp, hu, hq, hb, changeLast]

/-- The tokens of attributes are put behind those of the start tag that has been read in part. -/
theorem foldl_step_attributes (rules : String → TagRules) {as : List (String × String)} {ls : List Lexeme}
    (h : AttributesSpelling as ls) : ∀ {ts : List Token}, ts.map Token.lexeme = ls →
    ∀ {b : Builder} {name : String} {span : Span} {done : List Attribute},
      b.pending = .startTag name span done →
      ∃ new : List Attribute, new.map Attribute.entry = as ∧
        ts.foldl (step rules) b = { b with pending := .startTag name span (done ++ new) } := by
  induction h with
  | nil =>
    intro ts hls b name span done hb
    obtain rfl := List.map_eq_nil_iff.1 hls
    exact ⟨[], rfl, by simp [← hb]⟩
  | cons ha _ ih =>
    intro ts hls b name span done hb
    obtain ⟨first, rest, rfl, hfirst, hrest⟩ := List.map_eq_append_iff.1 hls
    obtain ⟨a, rfl, hstep⟩ := foldl_step_attribute rules ha hfirst hb
    obtain ⟨as, rfl, hsteps⟩ := ih hrest (b := { b with pending := .startTag name span (done ++ [a]) }) rfl
    exact ⟨a :: as, rfl, by simp [List.foldl_append, hstep, hsteps]⟩

/-- Where nothing has been read in part, to forget it changes nothing. -/
theorem with_pending_nothing {b : Builder} (hb : b.pending = .nothing) :
    { b with pending := .nothing } = b := by
  rw [← hb]

/-- Between items nothing is read in part; then the lexemes of an item do what the item does. -/
theorem takes_foldl_step (rules : String → TagRules) {b : Builder} {i : Item} {ls : List Lexeme}
    (h : i.Spelling ls) {ts : List Token} (hls : ts.map Token.lexeme = ls) (hb : b.pending = .nothing) :
    Takes rules b i (ts.foldl (step rules) b) := by
  -- A start tag: its attributes, and then the mark that ends it.
  have hstart {name : String} {as : List (String × String)} {ls : List Lexeme} (hls : AttributesSpelling as ls)
      {ts : List Token} {stop : Lexeme} (hts : ts.map Token.lexeme = .tagOpen name :: (ls ++ [stop])) :
      ∃ t span attributes, t.lexeme = stop ∧ attributes.map Attribute.entry = as ∧
        ts.foldl (step rules) b = step rules { b with pending := .startTag name span attributes } t := by
    obtain ⟨t, _, rfl, ht, hts⟩ := List.map_eq_cons_iff.1 hts
    obtain ⟨between, last, rfl, hbetween, hlast⟩ := List.map_eq_append_iff.1 hts
    obtain ⟨u, rfl, hu⟩ := List.map_eq_singleton_iff.1 hlast
    obtain ⟨attributes, has, hfold⟩ := foldl_step_attributes rules hls hbetween
      (b := { b with pending := .startTag name t.span [] }) rfl
    refine ⟨u, t.span, attributes, hu, has, ?_⟩
    have hopen : step rules b t = { b with pending := .startTag name t.span [] } := by
      simp [step, ht, hb, flush]
    rw [List.foldl_cons, hopen, List.foldl_append, hfold]
    rfl
  cases h with
  | text value =>
    obtain ⟨t, rfl, ht⟩ := List.map_eq_singleton_iff.1 hls
    have hstep : step rules b t = b.addText rules value t.span := by simp [step, ht, hb, flush]
    rw [List.foldl_cons, hstep]
    exact .text value t.span
  | rawText value =>
    obtain ⟨t, rfl, ht⟩ := List.map_eq_singleton_iff.1 hls
    have hstep : step rules b t = b.addText rules value t.span := by simp [step, ht, hb, flush]
    rw [List.foldl_cons, hstep]
    exact .rawText value t.span
  | comment value =>
    obtain ⟨t, _, rfl, ht, hls⟩ := List.map_eq_cons_iff.1 hls
    obtain ⟨u, _, rfl, hu, hls⟩ := List.map_eq_cons_iff.1 hls
    obtain ⟨v, rfl, hv⟩ := List.map_eq_singleton_iff.1 hls
    have hstep : [t, u, v].foldl (step rules) b = b.add (.comment value ⟨t.span.start, v.span.stop⟩) := by
      simp [step, ht, hu, hv, hb, flush, with_pending_nothing hb]
    rw [hstep]
    exact .comment value _
  | declaration value =>
    obtain ⟨t, rfl, ht⟩ := List.map_eq_singleton_iff.1 hls
    have hstep : step rules b t = b := by simp [step, ht, hb, flush]
    rw [List.foldl_cons, hstep]
    exact .declaration value
  | opened name has =>
    obtain ⟨t, span, attributes, ht, rfl, hfold⟩ := hstart has hls
    rw [hfold]
    simp only [step, ht, with_pending_nothing hb]
    exact .startTag name attributes false span t.span.stop
  | selfClosed name has =>
    obtain ⟨t, span, attributes, ht, rfl, hfold⟩ := hstart has hls
    rw [hfold]
    simp only [step, ht, with_pending_nothing hb]
    exact .startTag name attributes true span t.span.stop
  | endTag name =>
    obtain ⟨t, rfl, ht⟩ := List.map_eq_singleton_iff.1 hls
    have hstep : step rules b t = b.endElement rules name t.span := by simp [step, ht, hb, flush]
    rw [List.foldl_cons, hstep]
    exact .endTag name t.span
  | endOfSource =>
    obtain ⟨t, rfl, ht⟩ := List.map_eq_singleton_iff.1 hls
    have hstep : step rules b t = b := by simp [step, ht, hb, flush]
    rw [List.foldl_cons, hstep]
    exact .endOfSource

/-- The pass over the lexemes of items takes the items one after the other. -/
theorem runs_foldl_step (rules : String → TagRules) {is : List Item} {ls : List Lexeme} (h : Spelling is ls) :
    ∀ {ts : List Token}, ts.map Token.lexeme = ls → ∀ {b : Builder}, b.pending = .nothing →
      Runs rules b is (ts.foldl (step rules) b) := by
  induction h with
  | nil =>
    intro ts hls b hb
    obtain rfl := List.map_eq_nil_iff.1 hls
    exact .nil b
  | cons hi _ ih =>
    intro ts hls b hb
    obtain ⟨first, rest, rfl, hfirst, hrest⟩ := List.map_eq_append_iff.1 hls
    have htakes := takes_foldl_step rules hi hfirst hb
    rw [List.foldl_append]
    exact .cons htakes (ih hrest (htakes.pending.trans hb))

end Builder

end ViewTemplate.Markup
