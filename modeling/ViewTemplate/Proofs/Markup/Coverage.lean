import ViewTemplate.Proofs.Markup.Places

/-!
# The text under tokens

The span of a token that carries text covers that text: what stands under the span, with its references decoded
wherever references are, is what the token carries.  Tokens start where the ones before them have ended.  There is one
exception to both: the text of a comment ends with the mark that ends the comment, so that the mark stands under the
text as well as by itself.

* `Preceding` — what comes before a token, as far as it says how the text under the token is read.
* `Token.Covers` — the text under a token is what it carries; `Token.CoversMark` — it is that and the mark.
* `Tiled`, `Covering` — tokens with the text under each of them; `Token.IsInTag` — those behind the name of a tag.
* `scanItem_covering`, `scanAll_covering` — the tokens of an item, and those of any text.
* `tokenize_covers` — the text under each token of a source, and where the next one starts.
-/

namespace ViewTemplate.Markup

open ViewTemplate.Source ViewTemplate.Text

/-! ### Tokens and the text under them -/

/-- What comes before a token: the lexeme right before it, and the name of the last start tag. -/
structure Preceding where
  last : Option Lexeme := none
  tag : String := ""

namespace Preceding

/-- What comes before the token after a lexeme. -/
def next (x : Preceding) (l : Lexeme) : Preceding :=
  ⟨some l, match l with
    | .tagOpen name => name
    | _ => x.tag⟩

/-- What comes before the token after several others. -/
def after (x : Preceding) (ts : List Token) : Preceding :=
  ts.foldl (fun x t => x.next t.lexeme) x

/-- What comes before a token is found by going over the tokens before it. -/
theorem after_append (x : Preceding) (ts us : List Token) : x.after (ts ++ us) = (x.after ts).after us :=
  List.foldl_append

/-- Whether the text under a lexeme is taken as it stands: in comments, and in elements whose content has no
references. -/
def isVerbatim (rules : String → TagRules) (x : Preceding) : Lexeme → Bool
  | .text _ => x.last = some .commentStart
  | .rawText _ => (rules x.tag).content = .rawText
  | _ => false

end Preceding

/-- The text that a lexeme carries. -/
def Lexeme.payload? : Lexeme → Option String
  | .text value | .rawText value | .attributeValue value => some value
  | _ => none

namespace Token

/-- The characters under the span of the token. -/
def under? (t : Token) (cs : List Char) : Option (List Char) :=
  sliceBytes t.span.start.offset t.span.stop.offset cs

/-- The text that the token carries is what stands under it, with references decoded unless it is taken as it
stands. -/
def Covers (rules : String → TagRules) (cs : List Char) (x : Preceding) (t : Token) : Prop :=
  ∀ value ∈ t.lexeme.payload?, ∃ under, t.under? cs = some under ∧
    value.toList = if x.isVerbatim rules t.lexeme then under else decode under

/-- The characters of the mark that ends a comment. -/
def endMark : List Char :=
  ['-', '-', '>']

/-- The token is the text of a comment, and the other one is the mark that ends it: the mark stands under both. -/
structure CoversMark (cs : List Char) (x : Preceding) (t mark : Token) : Prop where
  comment : x.last = some .commentStart
  text : ∃ value, t.lexeme = .text value ∧ t.under? cs = some (value.toList ++ endMark)
  ending : mark.lexeme = .commentEnd ∧ mark.under? cs = some endMark
  stop : mark.span.stop = t.span.stop

end Token

/-- The tokens cover their texts, the texts of closed comments with the marks that end them. -/
inductive Tiled (rules : String → TagRules) (cs : List Char) : Preceding → List Token → Prop where
  | nil (x : Preceding) : Tiled rules cs x []
  | cons {x : Preceding} {t : Token} {ts : List Token} (hcovers : t.Covers rules cs x)
    (hmark : t.lexeme ≠ .commentEnd) (h : Tiled rules cs (x.next t.lexeme) ts) : Tiled rules cs x (t :: ts)
  | comment {x : Preceding} {t mark : Token} {ts : List Token} (hcovers : t.CoversMark cs x mark)
    (h : Tiled rules cs ((x.next t.lexeme).next mark.lexeme) ts) : Tiled rules cs x (t :: mark :: ts)

namespace Tiled

variable {rules : String → TagRules} {cs : List Char} {x : Preceding} {ts us : List Token}

/-- Tokens that cover their texts, and others that do behind them. -/
theorem append (h : Tiled rules cs x ts) (h' : Tiled rules cs (x.after ts) us) : Tiled rules cs x (ts ++ us) := by
  induction h with
  | nil x => exact h'
  | cons hcovers hmark _ ih => exact .cons hcovers hmark (ih h')
  | comment hcovers _ ih => exact .comment hcovers (ih h')

/-- The mark that ends a comment never comes first. -/
theorem head_ne (h : Tiled rules cs x ts) : ∀ t ∈ ts.head?, t.lexeme ≠ .commentEnd := by
  rintro t ht
  rcases h with _ | ⟨-, hmark, -⟩ | ⟨hcovers, -⟩
  · exact absurd ht nofun
  · obtain rfl := Option.some.inj ht
    exact hmark
  · obtain rfl := Option.some.inj ht
    obtain ⟨value, htext, -⟩ := hcovers.text
    rw [htext]
    exact nofun

/-- One of the tokens, with what comes before it: it covers its text and no mark follows, or it is the text of a
comment and its mark does. -/
theorem split {before after : List Token} {t : Token} (h : Tiled rules cs x (before ++ t :: after)) :
    (t.Covers rules cs (x.after before) ∧ ∀ u ∈ after.head?, u.lexeme ≠ .commentEnd) ∨
    ∃ mark rest, after = mark :: rest ∧ t.CoversMark cs (x.after before) mark := by
  generalize hts : before ++ t :: after = ts at h
  induction h generalizing before with
  | nil x => exact absurd hts (by simp)
  | @cons x u ts hcovers hmark hrest ih =>
    rcases before with _ | ⟨b, before⟩
    · obtain ⟨rfl, rfl⟩ := List.cons.inj hts
      exact .inl ⟨hcovers, hrest.head_ne⟩
    · obtain ⟨rfl, htail⟩ := List.cons.inj hts
      exact ih htail
  | @comment x u mark ts hcovers hrest ih =>
    rcases before with _ | ⟨b, _ | ⟨b', before⟩⟩
    · obtain ⟨rfl, rfl⟩ := List.cons.inj hts
      exact .inr ⟨mark, ts, rfl, hcovers⟩
    · -- The token is the mark itself, which carries no text.
      obtain ⟨rfl, htail⟩ := List.cons.inj hts
      obtain ⟨rfl, rfl⟩ := List.cons.inj htail
      refine .inl ⟨fun value hvalue => ?_, hrest.head_ne⟩
      rw [hcovers.ending.1] at hvalue
      exact absurd hvalue nofun
    · obtain ⟨rfl, htail⟩ := List.cons.inj hts
      obtain ⟨rfl, hafter⟩ := List.cons.inj htail
      exact ih hafter

end Tiled

/-- Tokens that cover their texts, none of them the open start of a comment at the end. -/
structure Covering (rules : String → TagRules) (cs : List Char) (x : Preceding) (ts : List Token) : Prop where
  tiled : Tiled rules cs x ts
  ended : (x.after ts).last ≠ some .commentStart

/-- Tokens that cover their texts and end no comment, and others behind them. -/
theorem Covering.append {rules : String → TagRules} {cs : List Char} {x : Preceding} {ts us : List Token}
    (h : Covering rules cs x ts) (h' : Covering rules cs (x.after ts) us) : Covering rules cs x (ts ++ us) := by
  refine ⟨h.tiled.append h'.tiled, ?_⟩
  rw [Preceding.after_append]
  exact h'.ended

/-! ### Scans -/

/-- The characters between a cursor and one that is reached from it. -/
theorem Cursor.StandsIn.under?_skip {c : Cursor} {cs : List Char} (hc : c.StandsIn cs) (l : Lexeme) (n : Nat) :
    (⟨l, c.spanTo (c.skip n)⟩ : Token).under? cs = some (c.ahead.take n) := by
  obtain ⟨before, ⟨rest, rfl⟩, hplace⟩ := hc
  have hstart : c.place.offset = byteLength before := by rw [hplace, Location.offset_advanceAll, Nat.zero_add]
  have hstop : (c.skip n).place.offset = byteLength (before ++ c.ahead.take n) := by
    rw [Cursor.skip, Location.offset_advanceAll, hstart, byteLength_append]
  have hcut : before ++ c.ahead ++ rest = before ++ (c.ahead.take n ++ (c.ahead.drop n ++ rest)) := by
    rw [← List.append_assoc (c.ahead.take n), List.take_append_drop, List.append_assoc]
  show sliceBytes c.place.offset (c.skip n).place.offset _ = _
  rw [hstart, hstop, hcut, sliceBytes_append]

section

variable {rules : String → TagRules} {cs : List Char} {c : Cursor} {x : Preceding}

/-- A token that carries no text has nothing to cover. -/
theorem Token.covers_of_payload?_eq_none {t : Token} (h : t.lexeme.payload? = none) : t.Covers rules cs x := by
  intro value hvalue
  rw [h] at hvalue
  exact absurd hvalue nofun

/-- A single token that carries no text and is no mark of a comment. -/
theorem covering_singleton {l : Lexeme} {span : Span} (hnone : l.payload? = none) (hstart : l ≠ .commentStart)
    (hmark : l ≠ .commentEnd) : Covering rules cs x [⟨l, span⟩] :=
  ⟨.cons (Token.covers_of_payload?_eq_none hnone) hmark (.nil _), fun hlast => hstart (Option.some.inj hlast)⟩

/-- The scan of a text: what it decodes stands under its token. -/
theorem scanText_covering (hc : c.StandsIn cs) (hx : x.last ≠ some .commentStart) :
    Covering rules cs x (scanText c).tokens := by
  refine ⟨.cons (fun value hvalue => ⟨_, hc.under?_skip _ _, ?_⟩) nofun (.nil _), nofun⟩
  obtain rfl := Option.some.inj hvalue
  rw [if_neg (by simpa [Scan.token, Preceding.isVerbatim] using hx), String.toList_ofList]

/-- What is left of a comment behind its text starts with the mark, unless nothing is left. -/
theorem drop_extent_endMark (ds : List Char)
    (h : ds.drop (extent (['-', '-', '>'].isPrefixOf ·) ds) ≠ []) :
    ∃ rest, ds.drop (extent (['-', '-', '>'].isPrefixOf ·) ds) = Token.endMark ++ rest := by
  have hstops := (extent_split (['-', '-', '>'].isPrefixOf ·) ds).1.resolve_left h
  obtain ⟨rest, hrest⟩ := List.isPrefixOf_iff_prefix.1 hstops
  exact ⟨rest, hrest.symm⟩

/-- The scan of a comment: its text, and the mark that ends it with the text or nothing before. -/
theorem scanComment_covering (hc : c.StandsIn cs) : Covering rules cs x (scanComment c).tokens := by
  have hinside := hc.reaches (c.reaches_skip 4)
  have hopening : (⟨.commentStart, c.spanTo (c.skip 4)⟩ : Token).Covers rules cs x :=
    Token.covers_of_payload?_eq_none rfl
  unfold scanComment
  dsimp only
  split
  · refine ⟨.cons hopening nofun (.cons (fun value hvalue => ⟨_, hinside.under?_skip _ _, ?_⟩) nofun (.nil _)),
      nofun⟩
    obtain rfl := Option.some.inj hvalue
    rw [if_pos (by simp [Preceding.isVerbatim, Preceding.next]), String.toList_ofList]
  · next hclosed =>
    obtain ⟨rest, hrest⟩ := drop_extent_endMark (c.skip 4).ahead (by simpa using hclosed)
    generalize extent (['-', '-', '>'].isPrefixOf ·) (c.skip 4).ahead = n at *
    have hafter : ((c.skip 4).skip n).ahead = Token.endMark ++ rest := hrest
    refine ⟨.cons hopening nofun (.comment ⟨rfl, ⟨_, rfl, ?_⟩, ⟨rfl, ?_⟩, rfl⟩ (.nil _)), nofun⟩
    · rw [Cursor.skip_skip, hinside.under?_skip, List.take_add, ← Cursor.skip_ahead, hafter, String.toList_ofList]
      rfl
    · rw [(hinside.reaches (Cursor.reaches_skip _ n)).under?_skip, hafter]
      rfl

/-- The scan of a declaration, whose text is not asked to be covered. -/
theorem scanDocType_covering : Covering rules cs x (scanDocType c).tokens := by
  unfold scanDocType
  dsimp only
  split <;> exact covering_singleton rfl nofun nofun

/-- The scan of an end tag, which carries no text. -/
theorem scanTagClose_covering : Covering rules cs x (scanTagClose c).tokens := by
  unfold scanTagClose
  dsimp only
  split <;> exact covering_singleton rfl nofun nofun

/-! ### Start tags -/

/-- The lexemes of a start tag, behind its name. -/
inductive Lexeme.IsInTag : Lexeme → Prop where
  | name (name : String) : IsInTag (.attributeName name)
  | quote (quote : Char) : IsInTag (.attributeQuote quote)
  | value (value : String) : IsInTag (.attributeValue value)
  | opened : IsInTag .tagOpenEnd
  | selfClosed : IsInTag .tagSelfClose

/-- A token in a start tag, behind its name.  The value of an attribute is read with references, whatever comes
before it. -/
structure Token.IsInTag (cs : List Char) (t : Token) : Prop where
  lexeme : t.lexeme.IsInTag
  value : ∀ value ∈ t.lexeme.payload?, ∃ under, t.under? cs = some under ∧ value.toList = decode under

/-- A lexeme in a start tag is read with references, and leaves the name of the tag. -/
theorem Preceding.next_isInTag {l : Lexeme} (h : l.IsInTag) (x : Preceding) (rules : String → TagRules) :
    x.isVerbatim rules l = false ∧ (x.next l).last = some l ∧ (x.next l).tag = x.tag := by
  cases h <;> exact ⟨rfl, rfl, rfl⟩

/-- No lexeme in a start tag is a mark of a comment. -/
theorem Lexeme.IsInTag.ne {l : Lexeme} (h : l.IsInTag) : l ≠ .commentStart ∧ l ≠ .commentEnd := by
  cases h <;> exact ⟨nofun, nofun⟩

/-- Tokens of a start tag leave the name of the tag as it was. -/
theorem covering_of_isInTag (rules : String → TagRules) {ts : List Token} (h : ∀ t ∈ ts, t.IsInTag cs)
    (hx : x.last ≠ some .commentStart) : Covering rules cs x ts ∧ (x.after ts).tag = x.tag := by
  induction ts generalizing x with
  | nil => exact ⟨⟨.nil x, hx⟩, rfl⟩
  | cons t ts ih =>
    obtain ⟨ht, hts⟩ := List.forall_mem_cons.1 h
    obtain ⟨hread, hlast, htag⟩ := x.next_isInTag ht.lexeme rules
    obtain ⟨hstart, hmark⟩ := ht.lexeme.ne
    obtain ⟨hrest, hname⟩ := ih hts (by rw [hlast]; exact fun heq => hstart (Option.some.inj heq))
    have hcovers : t.Covers rules cs x := by
      intro value hvalue
      rw [hread]
      exact ht.value value hvalue
    exact ⟨⟨.cons hcovers hmark hrest.tiled, hrest.ended⟩, hname.trans htag⟩

/-- A token in a start tag that carries no text. -/
theorem isInTag_of_payload?_eq_none {t : Token} (h : t.lexeme.IsInTag) (hnone : t.lexeme.payload? = none) :
    t.IsInTag cs := by
  refine ⟨h, fun value hvalue => ?_⟩
  rw [hnone] at hvalue
  exact absurd hvalue nofun

/-- The value of an attribute is what stands under it, with references decoded. -/
theorem isInTag_value (hc : c.StandsIn cs) (n : Nat) :
    (⟨.attributeValue (String.ofList (decode (c.ahead.take n))), c.spanTo (c.skip n)⟩ : Token).IsInTag cs := by
  refine ⟨.value _, fun value hvalue => ⟨_, hc.under?_skip _ _, ?_⟩⟩
  obtain rfl := Option.some.inj hvalue
  rw [String.toList_ofList]

/-- The tokens of a value are in a start tag. -/
theorem scanValue_isInTag (hc : c.StandsIn cs) : ∀ t ∈ (scanValue c).tokens, t.IsInTag cs := by
  unfold scanValue
  split
  · next quote rest hahead =>
    dsimp only
    have hquote (d e : Cursor) : (⟨.attributeQuote quote, d.spanTo e⟩ : Token).IsInTag cs :=
      isInTag_of_payload?_eq_none (.quote quote) rfl
    split
    · have hvalue := isInTag_value (hc.reaches (c.reaches_skip 1)) (rest.takeWhile (· ≠ quote)).length
      rw [Cursor.skip_ahead, hahead, List.drop_one, List.tail_cons,
        ← List.prefix_iff_eq_take.1 (List.takeWhile_prefix _)] at hvalue
      split
      · exact List.forall_mem_cons.2 ⟨hquote _ _, List.forall_mem_singleton.2 hvalue⟩
      · exact List.forall_mem_cons.2 ⟨hquote _ _, List.forall_mem_cons.2
          ⟨hvalue, List.forall_mem_singleton.2 (hquote _ _)⟩⟩
    · exact List.forall_mem_singleton.2 (isInTag_value hc _)
  · next hahead =>
    have hvalue := isInTag_value hc 0
    exact List.forall_mem_singleton.2 hvalue

/-- The tokens of an attribute are in a start tag. -/
theorem scanAttribute_isInTag (hc : c.StandsIn cs) : ∀ t ∈ (scanAttribute c).tokens, t.IsInTag cs := by
  rw [scanAttribute_eq]
  refine List.forall_mem_append.2 ⟨List.forall_mem_singleton.2 (isInTag_of_payload?_eq_none (.name _) rfl), ?_⟩
  show ∀ t ∈ Scan.tokens (if (scanName c).2.skipSpaces.startsWith ['='] then _ else _), _
  split
  · have hvalue := (((scanName_reaches c).trans (Cursor.reaches_skipSpaces _)).trans (Cursor.reaches_skip _ 1)).trans
      (Cursor.reaches_skipSpaces _)
    exact scanValue_isInTag (hc.reaches hvalue)
  · exact nofun

/-- The tokens of all attributes, and the end of the tag, are in a start tag. -/
theorem scanAttributes_isInTag (fuel : Nat) (hc : c.StandsIn cs) :
    ∀ t ∈ (scanAttributes fuel c).1.tokens, t.IsInTag cs := by
  induction fuel generalizing c with
  | zero => exact nofun
  | succ fuel ih =>
    have hc' := hc.reaches c.reaches_skipSpaces
    cases hahead : c.skipSpaces.ahead with
    | nil =>
      rw [scanAttributes_nil hahead]
      exact nofun
    | cons d ds =>
      rw [scanAttributes_cons hahead]
      split
      · exact List.forall_mem_singleton.2 (isInTag_of_payload?_eq_none .opened rfl)
      · split
        · exact List.forall_mem_singleton.2 (isInTag_of_payload?_eq_none .selfClosed rfl)
        · dsimp only
          split
          · exact ih (hc'.reaches (Cursor.reaches_skip _ 1))
          · exact List.forall_mem_append.2 ⟨scanAttribute_isInTag hc',
              ih (hc'.reaches (scanAttribute_from hc').next)⟩

/-- The content of an element, read as the rules of its tag say. -/
theorem scanRawText_covering {decoded : Bool} (hc : c.StandsIn cs)
    (hdecoded : decoded = !decide ((rules x.tag).content = .rawText)) (name : String) :
    Covering rules cs x (scanRawText name decoded c).tokens := by
  refine ⟨.cons (fun value hvalue => ⟨_, hc.under?_skip _ _, ?_⟩) nofun (.nil _), nofun⟩
  obtain rfl := Option.some.inj hvalue
  rw [String.toList_ofList, hdecoded]
  show _ = if decide ((rules x.tag).content = .rawText) then _ else _
  cases decide ((rules x.tag).content = .rawText) <;> rfl

/-- The scan of a start tag, together with what its element holds if that is no markup. -/
theorem scanTagOpen_covering (hc : c.StandsIn cs) : Covering rules cs x (scanTagOpen rules c).tokens := by
  unfold scanTagOpen
  dsimp only
  have hname := (c.reaches_skip 1).trans (scanName_reaches (c.skip 1))
  generalize scanName (c.skip 1) = scanned at hname ⊢
  obtain ⟨name, after⟩ := scanned
  have hattributes := scanAttributes_isInTag (after.ahead.length + 1) (hc.reaches hname)
  have hnext := (scanAttributes_from (after.ahead.length + 1) (hc.reaches hname)).next
  dsimp only at hname ⊢
  generalize scanAttributes (after.ahead.length + 1) after = attributes at hattributes hnext ⊢
  have hafter := hc.reaches (hname.trans hnext)
  have hopen : Covering rules cs x [⟨.tagOpen name, c.spanTo after⟩] := covering_singleton rfl nofun nofun
  obtain ⟨hrest, htag⟩ := covering_of_isInTag rules hattributes hopen.ended
  have hall := hopen.append hrest
  have htag : (x.after ([⟨.tagOpen name, c.spanTo after⟩] ++ attributes.1.tokens)).tag = name := by
    rw [Preceding.after_append, htag]
    rfl
  split
  · next hcontent => exact hall.append (scanRawText_covering hafter (by rw [htag, hcontent]; rfl) name)
  · next hcontent => exact hall.append (scanRawText_covering hafter (by rw [htag, hcontent]; rfl) name)
  · exact hall

/-! ### Whole sources -/

/-- An item of any source. -/
theorem scanItem_covering (rules : String → TagRules) (hc : c.StandsIn cs) (hx : x.last ≠ some .commentStart) :
    Covering rules cs x (scanItem rules c).tokens := by
  unfold scanItem
  split
  · split
    · exact scanComment_covering hc
    · split
      · exact scanDocType_covering
      · split
        · exact scanTagClose_covering
        · exact scanTagOpen_covering hc
  · exact scanText_covering hc hx

/-- The tokens of the whole source, by the items that are scanned one after the other. -/
theorem scanAll_covering (fuel : Nat) (hc : c.StandsIn cs) (hx : x.last ≠ some .commentStart) :
    Covering rules cs x (scanAll rules fuel c).tokens := by
  induction fuel generalizing c x with
  | zero => exact ⟨.nil x, hx⟩
  | succ fuel ih =>
    cases hahead : c.ahead with
    | nil =>
      rw [scanAll, hahead]
      exact covering_singleton rfl (by decide) (by decide)
    | cons d ds =>
      have hitem := scanItem_covering rules hc hx
      have hnext := (scanItem_from rules hc (by simp [hahead])).next
      rw [scanAll, hahead]
      exact hitem.append (ih (hc.reaches hnext) hitem.ended)

end

/-- Each token of a source covers its text, and the token after it starts where it has ended.  Closed comments are the
exception: their text has the mark that ends the comment under it, and the token of the mark stands inside it. -/
theorem tokenize_covers (rules : String → TagRules) (source : String) :
    ∀ before t after, (tokenize rules source).tokens = before ++ t :: after →
      (t.Covers rules (unifyLines source.toList) (Preceding.after {} before) ∧
        ∀ u ∈ after.head?, t.span.stop.offset ≤ u.span.start.offset) ∨
      ∃ mark rest, after = mark :: rest ∧
        t.CoversMark (unifyLines source.toList) (Preceding.after {} before) mark := by
  intro before t after htokens
  have hcovering : Covering rules (unifyLines source.toList) {} (tokenize rules source).tokens :=
    scanAll_covering _ ⟨[], beforeNul_isPrefix _, rfl⟩ nofun
  obtain ⟨q, horder⟩ := tokenize_inOrder rules source
  rw [htokens] at hcovering horder
  obtain ⟨-, -, -, hrest⟩ := horder.split
  refine hcovering.tiled.split.imp (fun ⟨hcovers, hhead⟩ => ⟨hcovers, fun u hu => ?_⟩) id
  obtain ⟨rest, rfl⟩ := List.head?_eq_some_iff.1 hu
  rcases hrest with _ | ⟨-, hstart, -, -, -⟩
  exact hstart (hhead u hu)

/-- The place behind the first characters of a source. -/
def placeAfter (source : String) (n : Nat) : Location :=
  Location.advanceAll {} (source.toList.take n)

/-- A start tag with a reference in a value. -/
def referringTag : String :=
  "<p title='a&lt;'>"

/-- What stands between the quotes is the value, with the reference decoded. -/
theorem tokenize_covers_referringTag :
    ∃ before t after, (tokenize TagRules.html referringTag).tokens = before ++ t :: after ∧
      t.lexeme = .attributeValue "a<" ∧
      t.Covers TagRules.html (unifyLines referringTag.toList) (Preceding.after {} before) ∧
      ∀ u ∈ after.head?, t.span.stop.offset ≤ u.span.start.offset := by
  let place := placeAfter referringTag
  let before : List Token := [⟨.tagOpen "p", ⟨place 0, place 2⟩⟩, ⟨.attributeName "title", ⟨place 3, place 8⟩⟩,
    ⟨.attributeQuote '\x27', ⟨place 9, place 10⟩⟩]
  let value : Token := ⟨.attributeValue "a<", ⟨place 10, place 15⟩⟩
  let after : List Token := [⟨.attributeQuote '\x27', ⟨place 15, place 16⟩⟩, ⟨.tagOpenEnd, ⟨place 16, place 17⟩⟩,
    ⟨.endOfSource, ⟨place 17, place 17⟩⟩]
  have htokens : (tokenize TagRules.html referringTag).tokens = before ++ value :: after := by decide +kernel
  refine ⟨before, value, after, htokens, rfl, ?_⟩
  obtain h | ⟨_, _, -, hmark⟩ := tokenize_covers TagRules.html referringTag before value after htokens
  · exact h
  · obtain ⟨_, htext, -⟩ := hmark.text
    exact absurd htext nofun

/-- A comment that is closed. -/
def closedComment : String :=
  "<!--a-->"

/-- The text of the comment has more under it than it carries, and the mark starts before the end of the text. -/
theorem tokenize_closedComment :
    ∃ before t mark after, (tokenize TagRules.html closedComment).tokens = before ++ t :: mark :: after ∧
      ¬ t.Covers TagRules.html (unifyLines closedComment.toList) (Preceding.after {} before) ∧
      mark.span.start.offset < t.span.stop.offset := by
  let place := placeAfter closedComment
  let text : Token := ⟨.text "a", ⟨place 4, place 8⟩⟩
  refine ⟨[⟨.commentStart, ⟨place 0, place 4⟩⟩], text, ⟨.commentEnd, ⟨place 5, place 8⟩⟩,
    [⟨.endOfSource, ⟨place 8, place 8⟩⟩], by decide +kernel, ?_, by decide +kernel⟩
  intro hcovers
  obtain ⟨under, hunder, hread⟩ := hcovers "a" rfl
  have hmark : text.under? (unifyLines closedComment.toList) = some ['a', '-', '-', '>'] := by decide +kernel
  obtain rfl := Option.some.inj (hunder.symm.trans hmark)
  exact absurd hread (by decide +kernel)

end ViewTemplate.Markup
