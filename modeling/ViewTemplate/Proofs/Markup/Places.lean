import ViewTemplate.Proofs.Markup.Sources

/-!
# Where tokens stand

The scanner counts bytes, lines and columns as it goes, and a location can be counted afresh from its
offset.  Both agree on every place that the scanner reports, whatever the source and the rules of its tags
and whatever is wrong with the source: every cursor of a scan is reached from the first one by skipping
characters.  The tokens stand one after the other; only the mark that ends a comment stands inside the span
of the comment's text.

* `Location.IsIn`, `Span.IsIn` — the places of a text; `Span.IsIn.isExact` — they can be counted afresh.
* `Cursor.Reaches`, `Scan.From` — how cursors move, and what a scan from a cursor gives.
* `InOrder` — tokens one after the other; `scanAll_complete`, `tokenize_inOrder` — the tokens of a source are.
* `tokenize_ends` — the tokens end before the first NUL of the source, or at its end.
-/

namespace ViewTemplate.Text

/-- The first bytes of a text, as many as a first part of it has, are that part. -/
theorem takeBytes_append (xs ys : List Char) : takeBytes (byteLength xs) (xs ++ ys) = xs := by
  induction xs with
  | nil =>
    cases ys with
    | nil => rfl
    | cons c cs => simp [takeBytes, Nat.ne_of_gt c.utf8Size_pos]
  | cons c cs ih => simp [takeBytes, ih]

end ViewTemplate.Text

namespace ViewTemplate.Source

open ViewTemplate.Text

/-! ### Places of a text -/

/-- The location is a place of the text: some first part of the text leads to it. -/
def Location.IsIn (l : Location) (cs : List Char) : Prop :=
  ∃ before, before <+: cs ∧ l = Location.advanceAll {} before

/-- The location is what counting in the source up to its offset gives, and no character is cut there. -/
structure Location.IsExact (l : Location) (source : String) : Prop where
  whole : (splitAtByte l.offset source.toList).isSome = true
  counted : l = Location.ofOffset source l.offset

/-- A place in a text is exact: a recount gives its line and column. -/
theorem Location.IsIn.isExact {l : Location} {cs : List Char} (h : l.IsIn cs) :
    l.IsExact (String.ofList cs) := by
  obtain ⟨before, ⟨after, rfl⟩, rfl⟩ := h
  have hoffset : (Location.advanceAll {} before).offset = byteLength before := by
    rw [offset_advanceAll, Nat.zero_add]
  constructor
  · rw [hoffset, String.toList_ofList, splitAtByte_append]
    rfl
  · rw [ofOffset, hoffset, String.toList_ofList, takeBytes_append, ← hoffset]

/-- A place in a text does not lie behind its end. -/
theorem Location.IsIn.offset_le {l : Location} {cs : List Char} (h : l.IsIn cs) :
    l.offset ≤ byteLength cs := by
  obtain ⟨before, ⟨after, rfl⟩, rfl⟩ := h
  rw [offset_advanceAll, Nat.zero_add, byteLength_append]
  exact Nat.le_add_right _ _

/-- Both ends of the span are places of the text, in order. -/
structure Span.IsIn (s : Span) (cs : List Char) : Prop where
  start : s.start.IsIn cs
  stop : s.stop.IsIn cs
  order : s.start.offset ≤ s.stop.offset

/-- Both ends of the span are exact, they are in order, and the span ends within the source. -/
structure Span.IsExact (s : Span) (source : String) : Prop where
  start : s.start.IsExact source
  stop : s.stop.IsExact source
  order : s.start.offset ≤ s.stop.offset
  within : s.stop.offset ≤ byteLength source.toList

/-- A span in a text is exact at both of its ends. -/
theorem Span.IsIn.isExact {s : Span} {cs : List Char} (h : s.IsIn cs) : s.IsExact (String.ofList cs) :=
  ⟨h.start.isExact, h.stop.isExact, h.order, by rw [String.toList_ofList]; exact h.stop.offset_le⟩

/-- The empty span at a place in a text is in the text. -/
theorem Span.isIn_point {l : Location} {cs : List Char} (h : l.IsIn cs) : (Span.point l).IsIn cs :=
  ⟨h, h, Nat.le_refl _⟩

end ViewTemplate.Source

namespace ViewTemplate.Markup

open ViewTemplate.Source ViewTemplate.Text

/-! ### Cursors -/

namespace Cursor

/-- The cursor stands in the text: what is before it leads to its place, and what is ahead comes next. -/
def StandsIn (c : Cursor) (cs : List Char) : Prop :=
  ∃ before, before ++ c.ahead <+: cs ∧ c.place = Location.advanceAll {} before

/-- The other cursor is reached by skipping characters. -/
def Reaches (c d : Cursor) : Prop :=
  ∃ n, d = c.skip n

/-- To skip twice is to skip once by as many characters. -/
theorem skip_skip (c : Cursor) (m n : Nat) : (c.skip m).skip n = c.skip (m + n) := by
  unfold skip
  rw [List.take_add, Location.advanceAll_append, List.drop_drop]

/-- A cursor reaches where it is after skipping. -/
theorem reaches_skip (c : Cursor) (n : Nat) : c.Reaches (c.skip n) :=
  ⟨n, rfl⟩

/-- A cursor reaches the end of the spaces ahead of it. -/
theorem reaches_skipSpaces (c : Cursor) : c.Reaches c.skipSpaces :=
  c.reaches_skip _

/-- A cursor reaches itself. -/
theorem Reaches.refl (c : Cursor) : c.Reaches c :=
  ⟨0, rfl⟩

/-- What is reached from a cursor that is reached is reached. -/
theorem Reaches.trans {c d e : Cursor} (h : c.Reaches d) (h' : d.Reaches e) : c.Reaches e := by
  obtain ⟨m, rfl⟩ := h
  obtain ⟨n, rfl⟩ := h'
  exact ⟨m + n, c.skip_skip m n⟩

/-- Skipping moves the place by the bytes that are no longer ahead. -/
theorem Reaches.offset_add {c d : Cursor} (h : c.Reaches d) :
    d.place.offset + byteLength d.ahead = c.place.offset + byteLength c.ahead := by
  obtain ⟨n, rfl⟩ := h
  rw [skip_ahead, skip, Location.offset_advanceAll, Nat.add_assoc, ← byteLength_append, List.take_append_drop]

/-- A cursor that is reached stands no earlier. -/
theorem Reaches.offset_le {c d : Cursor} (h : c.Reaches d) : c.place.offset ≤ d.place.offset := by
  obtain ⟨n, rfl⟩ := h
  rw [skip, Location.offset_advanceAll]
  exact Nat.le_add_right _ _

/-- Where there is a character to skip, skipping it moves the place. -/
theorem offset_lt_skip {c : Cursor} (h : c.ahead ≠ []) (n : Nat) :
    c.place.offset < (c.skip (n + 1)).place.offset := by
  obtain ⟨d, ds, hds⟩ := List.exists_cons_of_ne_nil h
  have hpos := d.utf8Size_pos
  rw [skip, Location.offset_advanceAll, hds, List.take_succ_cons, byteLength_cons]
  omega

/-- A cursor that is reached stands in the text too. -/
theorem StandsIn.reaches {c d : Cursor} {cs : List Char} (hc : c.StandsIn cs) (h : c.Reaches d) :
    d.StandsIn cs := by
  obtain ⟨n, rfl⟩ := h
  obtain ⟨before, hbefore, hplace⟩ := hc
  refine ⟨before ++ c.ahead.take n, ?_, ?_⟩
  · rwa [List.append_assoc, skip_ahead, List.take_append_drop]
  · rw [skip, hplace, Location.advanceAll_append]

/-- Where a cursor stands is a place in the text. -/
theorem StandsIn.place_isIn {c : Cursor} {cs : List Char} (hc : c.StandsIn cs) : c.place.IsIn cs := by
  obtain ⟨before, hbefore, hplace⟩ := hc
  exact ⟨before, (List.prefix_append before c.ahead).trans hbefore, hplace⟩

/-- What lies between two cursors, the first of which reaches the second, is a span in the text. -/
theorem StandsIn.spanTo_isIn {c d : Cursor} {cs : List Char} (hc : c.StandsIn cs) (h : c.Reaches d) :
    (c.spanTo d).IsIn cs :=
  ⟨hc.place_isIn, (hc.reaches h).place_isIn, h.offset_le⟩

end Cursor

/-! ### Tokens in order -/

/-- Whether the lexeme starts a tag, a comment or a declaration, and so takes a character at least. -/
def Lexeme.opensMarkup : Lexeme → Bool
  | .tagOpen _ | .tagClose _ | .commentStart | .docType _ => true
  | _ => false

/-- The tokens stand in the text one after the other, between two offsets.  The mark that ends a comment
stands inside the span of the text before it; what starts markup is not empty. -/
inductive InOrder (cs : List Char) : Nat → List Token → Nat → Prop where
  | nil {p q : Nat} (h : p ≤ q) : InOrder cs p [] q
  | cons {p q : Nat} {t : Token} {ts : List Token} (hspan : t.span.IsIn cs)
    (hstart : t.lexeme ≠ .commentEnd → p ≤ t.span.start.offset) (hstop : p ≤ t.span.stop.offset)
    (hopens : t.lexeme.opensMarkup = true → t.span.start.offset < t.span.stop.offset)
    (h : InOrder cs t.span.stop.offset ts q) : InOrder cs p (t :: ts) q

namespace InOrder

variable {cs : List Char}

/-- Tokens in order do not end before they begin. -/
theorem le {p q : Nat} {ts : List Token} (h : InOrder cs p ts q) : p ≤ q := by
  induction h with
  | nil h => exact h
  | cons _ _ hstop _ _ ih => exact hstop.trans ih

/-- Tokens that are in order from a place on are so from any earlier place. -/
theorem mono {p p' q : Nat} {ts : List Token} (h : InOrder cs p ts q) (hle : p' ≤ p) : InOrder cs p' ts q := by
  cases h with
  | nil h => exact .nil (hle.trans h)
  | cons hspan hstart hstop hopens h =>
    exact .cons hspan (fun hne => hle.trans (hstart hne)) (hle.trans hstop) hopens h

/-- Tokens in order, and others in order behind them. -/
theorem append {p q r : Nat} {ts us : List Token} (h : InOrder cs p ts q) (h' : InOrder cs q us r) :
    InOrder cs p (ts ++ us) r := by
  induction h with
  | nil h => exact h'.mono h
  | cons hspan hstart hstop hopens _ ih => exact .cons hspan hstart hstop hopens (ih h')

/-- Each of the tokens in order has its span in the text. -/
theorem mem_isIn {p q : Nat} {ts : List Token} (h : InOrder cs p ts q) : ∀ t ∈ ts, t.span.IsIn cs := by
  induction h with
  | nil _ => exact nofun
  | cons hspan _ _ _ _ ih => exact List.forall_mem_cons.2 ⟨hspan, ih⟩

/-- The tokens before one of them, the token itself, and those after it. -/
theorem split {p q : Nat} {ts us : List Token} {t : Token} (h : InOrder cs p (ts ++ t :: us) q) :
    ∃ r, InOrder cs p ts r ∧ InOrder cs r [t] t.span.stop.offset ∧ InOrder cs t.span.stop.offset us q := by
  induction ts generalizing p with
  | nil =>
    cases h with
    | cons hspan hstart hstop hopens h =>
      exact ⟨p, .nil (Nat.le_refl p), .cons hspan hstart hstop hopens (.nil (Nat.le_refl _)), h⟩
  | cons u ts ih =>
    cases h with
    | cons hspan hstart hstop hopens h =>
      obtain ⟨r, hts, ht, hus⟩ := ih h
      exact ⟨r, .cons hspan hstart hstop hopens hts, ht, hus⟩

end InOrder

/-! ### Scans -/

/-- What scanning from the cursor gives: tokens in order from there to where the scan stops, none of them
the end of the source, and faults at places of the text. -/
structure Scan.From (s : Scan) (cs : List Char) (c : Cursor) : Prop where
  tokens : InOrder cs c.place.offset s.tokens s.next.place.offset
  proper : ∀ t ∈ s.tokens, t.lexeme ≠ .endOfSource
  faults : ∀ d ∈ s.faults, d.span.IsIn cs
  next : c.Reaches s.next

namespace Scan.From

variable {cs : List Char} {c d : Cursor}

/-- A scan that gives nothing stays where it is. -/
theorem nothing (c : Cursor) : (Scan.nothing c).From cs c :=
  ⟨.nil (Nat.le_refl _), nofun, nofun, .refl c⟩

/-- A scan of one token, where one that opens markup takes a character at least. -/
theorem token (l : Lexeme) (hc : c.StandsIn cs) (h : c.Reaches d) (hl : l ≠ .endOfSource)
    (hopens : l.opensMarkup = true → c.place.offset < d.place.offset) : (Scan.token l c d).From cs c :=
  ⟨.cons (hc.spanTo_isIn h) (fun _ => Nat.le_refl _) h.offset_le hopens (.nil (Nat.le_refl _)),
    List.forall_mem_singleton.2 hl, nofun, h⟩

/-- Two scans, one after the other, keep to the text if each does from where it begins. -/
theorem andThen {s : Scan} {f : Cursor → Scan} (h : s.From cs c) (h' : (f s.next).From cs s.next) :
    (s.andThen f).From cs c :=
  ⟨h.tokens.append h'.tokens, List.forall_mem_append.2 ⟨h.proper, h'.proper⟩,
    List.forall_mem_append.2 ⟨h.faults, h'.faults⟩, h.next.trans h'.next⟩

/-- The fault of an unexpected character is at a place in the text. -/
theorem unexpected_isIn (hc : c.StandsIn cs) : c.unexpected.span.IsIn cs :=
  Span.isIn_point hc.place_isIn

/-- A scan that reports the character at which it starts keeps to the text. -/
theorem fault {s : Scan} (hc : c.StandsIn cs) (h : s.From cs c) : s.fault.From cs c :=
  ⟨h.tokens, h.proper,
    List.forall_mem_append.2 ⟨h.faults, List.forall_mem_singleton.2 (unexpected_isIn (hc.reaches h.next))⟩,
    h.next⟩

/-- A scan that starts further on. -/
theorem later {s : Scan} (h : s.From cs d) (hd : c.Reaches d) : s.From cs c :=
  ⟨h.tokens.mono hd.offset_le, h.proper, h.faults, hd.trans h.next⟩

end Scan.From

section

variable {cs : List Char} {c : Cursor}

/-- The end of a name is reached from its beginning. -/
theorem scanName_reaches (c : Cursor) : c.Reaches (scanName c).2 :=
  c.reaches_skip _

/-- The scan of a text keeps to the text of the source. -/
theorem scanText_from (hc : c.StandsIn cs) : (scanText c).From cs c :=
  .token (.text _) hc (c.reaches_skip _) nofun nofun

/-- The scan of a comment, which ends with `-->` or with the source. -/
theorem scanComment_from (hc : c.StandsIn cs) (hne : c.ahead ≠ []) : (scanComment c).From cs c := by
  have hinside := c.reaches_skip 4
  have hc' := hc.reaches hinside
  have hopening : (Scan.token .commentStart c (c.skip 4)).From cs c :=
    .token .commentStart hc hinside nofun fun _ => Cursor.offset_lt_skip hne 3
  unfold scanComment
  dsimp only
  generalize extent (['-', '-', '>'].isPrefixOf ·) (c.skip 4).ahead = n
  let content := Lexeme.text (String.ofList ((c.skip 4).ahead.take n))
  have hafter := (c.skip 4).reaches_skip n
  split
  · exact (hopening.andThen (f := fun _ => .token content (c.skip 4) ((c.skip 4).skip n))
      (.token content hc' hafter nofun nofun)).fault hc
  · have hstop := ((c.skip 4).skip n).reaches_skip 3
    have hcontent := hopening.andThen (f := fun _ => .token content (c.skip 4) (((c.skip 4).skip n).skip 3))
      (.token content hc' (hafter.trans hstop) nofun nofun)
    -- The closing mark starts before the place where the text of the comment ends.
    have hmark : InOrder cs (((c.skip 4).skip n).skip 3).place.offset
        [⟨.commentEnd, ((c.skip 4).skip n).spanTo (((c.skip 4).skip n).skip 3)⟩]
        (((c.skip 4).skip n).skip 3).place.offset :=
      .cons ((hc'.reaches hafter).spanTo_isIn hstop) (fun hne => absurd rfl hne) (Nat.le_refl _) nofun
        (.nil (Nat.le_refl _))
    exact ⟨hcontent.tokens.append hmark,
      List.forall_mem_append.2 ⟨hcontent.proper, List.forall_mem_singleton.2 nofun⟩,
      List.forall_mem_append.2 ⟨hcontent.faults, nofun⟩, hcontent.next⟩

/-- The scan of a declaration. -/
theorem scanDocType_from (hc : c.StandsIn cs) (hne : c.ahead ≠ []) : (scanDocType c).From cs c := by
  have hopening : c.place.offset < (c.skip 2).place.offset := Cursor.offset_lt_skip hne 1
  unfold scanDocType
  dsimp only
  have hvalue := (c.skip 2).reaches_skip ((c.skip 2).ahead.takeWhile (· ≠ '>')).length
  split
  · exact (Scan.From.token (.docType _) hc ((c.reaches_skip 2).trans hvalue) nofun
      fun _ => hopening.trans_le hvalue.offset_le).fault hc
  · have hstop := hvalue.trans (Cursor.reaches_skip _ 1)
    exact .token (.docType _) hc ((c.reaches_skip 2).trans hstop) nofun
      fun _ => hopening.trans_le hstop.offset_le

/-- The scan of a value, with or without quotes. -/
theorem scanValue_from (hc : c.StandsIn cs) : (scanValue c).From cs c := by
  unfold scanValue
  split
  · next quote rest hahead =>
    dsimp only
    split
    · have hinside := c.reaches_skip 1
      have hafter := (c.skip 1).reaches_skip (rest.takeWhile (· ≠ quote)).length
      let value := Lexeme.attributeValue (String.ofList (decode (rest.takeWhile (· ≠ quote))))
      have hcontent := (Scan.From.token (.attributeQuote quote) hc hinside nofun nofun).andThen
        (f := fun _ => .token value (c.skip 1) ((c.skip 1).skip (rest.takeWhile (· ≠ quote)).length))
        (.token value (hc.reaches hinside) hafter nofun nofun)
      split
      · exact hcontent.fault hc
      · exact hcontent.andThen (.token (.attributeQuote quote) (hc.reaches hcontent.next)
          (Cursor.reaches_skip _ 1) nofun nofun)
    · exact .token (.attributeValue _) hc (c.reaches_skip _) nofun nofun
  · exact .token (.attributeValue "") hc (.refl c) nofun nofun

/-- The scan of an attribute, with or without a value. -/
theorem scanAttribute_from (hc : c.StandsIn cs) : (scanAttribute c).From cs c := by
  have hname := scanName_reaches c
  have hequals := hname.trans (scanName c).2.reaches_skipSpaces
  rw [scanAttribute_eq]
  refine (Scan.From.token (.attributeName _) hc hname nofun nofun).andThen ?_
  show Scan.From _ cs (scanName c).2
  split
  · have hvalue := ((scanName c).2.skipSpaces.reaches_skip 1).trans
      ((scanName c).2.skipSpaces.skip 1).reaches_skipSpaces
    exact (scanValue_from (hc.reaches (hequals.trans hvalue))).later
      ((Cursor.reaches_skipSpaces _).trans hvalue)
  · exact (Scan.From.nothing _).later (Cursor.reaches_skipSpaces _)

/-- The attributes of a start tag, stray characters among them, and the mark that ends it. -/
theorem scanAttributes_from : (fuel : Nat) → {c : Cursor} → c.StandsIn cs →
    (scanAttributes fuel c).1.From cs c
  | 0, c, _ => .nothing c
  | fuel + 1, c, hc => by
    have hspaces := c.reaches_skipSpaces
    have hc' := hc.reaches hspaces
    cases hahead : c.skipSpaces.ahead with
    | nil =>
      rw [scanAttributes_nil hahead]
      exact ((Scan.From.nothing _).fault hc').later hspaces
    | cons d ds =>
      rw [scanAttributes_cons hahead]
      split
      · exact (Scan.From.token .tagOpenEnd hc' (Cursor.reaches_skip _ 1) nofun nofun).later hspaces
      · split
        · exact (Scan.From.token .tagSelfClose hc' (Cursor.reaches_skip _ 2) nofun nofun).later hspaces
        · dsimp only
          have hfirst : (if isStrayInTag d then
              { (Scan.nothing c.skipSpaces).fault with next := c.skipSpaces.skip 1 }
              else scanAttribute c.skipSpaces).From cs c.skipSpaces := by
            split
            · have hstep := c.skipSpaces.reaches_skip 1
              exact ⟨.nil hstep.offset_le, nofun,
                List.forall_mem_singleton.2 (Scan.From.unexpected_isIn hc'), hstep⟩
            · exact scanAttribute_from hc'
          exact (hfirst.andThen (scanAttributes_from fuel (hc'.reaches hfirst.next))).later hspaces

/-- The scan of content that holds no markup. -/
theorem scanRawText_from (name : String) (decoded : Bool) (hc : c.StandsIn cs) :
    (scanRawText name decoded c).From cs c :=
  .token (.rawText _) hc (c.reaches_skip _) nofun nofun

/-- The scan of a start tag, together with what its element holds if that is no markup. -/
theorem scanTagOpen_from (rules : String → TagRules) (hc : c.StandsIn cs) (hne : c.ahead ≠ []) :
    (scanTagOpen rules c).From cs c := by
  have hname : ∃ n, (scanName (c.skip 1)).2 = c.skip (n + 1) := by
    obtain ⟨n, hn⟩ := scanName_reaches (c.skip 1)
    exact ⟨n, by rw [hn, Cursor.skip_skip, Nat.add_comm]⟩
  unfold scanTagOpen
  dsimp only
  generalize (scanName (c.skip 1)).1 = name
  obtain ⟨n, hn⟩ := hname
  rw [hn]
  have hopen : (Scan.token (.tagOpen name) c (c.skip (n + 1))).From cs c :=
    .token (.tagOpen name) hc (c.reaches_skip _) nofun fun _ => Cursor.offset_lt_skip hne n
  have hopens := hopen.andThen (f := fun _ => _)
    (scanAttributes_from ((c.skip (n + 1)).ahead.length + 1) (hc.reaches hopen.next))
  split
  · exact hopens.andThen (scanRawText_from name false (hc.reaches hopens.next))
  · exact hopens.andThen (scanRawText_from name true (hc.reaches hopens.next))
  · exact hopens

/-- The scan of an end tag. -/
theorem scanTagClose_from (hc : c.StandsIn cs) (hne : c.ahead ≠ []) : (scanTagClose c).From cs c := by
  have hafter : ∃ n, (scanName (c.skip 2)).2.skipSpaces = c.skip (n + 1) := by
    obtain ⟨n, hn⟩ := (scanName_reaches (c.skip 2)).trans (Cursor.reaches_skipSpaces _)
    exact ⟨n + 1, by rw [hn, Cursor.skip_skip]; congr 1; omega⟩
  unfold scanTagClose
  dsimp only
  obtain ⟨n, hn⟩ := hafter
  rw [hn]
  have htoken (k : Nat) :
      (Scan.token (.tagClose (scanName (c.skip 2)).1) c ((c.skip (n + 1)).skip k)).From cs c := by
    rw [Cursor.skip_skip, Nat.add_right_comm]
    exact .token (.tagClose _) hc (c.reaches_skip _) nofun fun _ => Cursor.offset_lt_skip hne _
  split
  · exact htoken 1
  · obtain ⟨htokens, hproper, -, hnext⟩ := htoken (((c.skip (n + 1)).ahead.takeWhile (· ≠ '>')).length + 1)
    have hfault : (c.skip (n + 1)).unexpected.span.IsIn cs :=
      Scan.From.unexpected_isIn (hc.reaches (c.reaches_skip _))
    exact ⟨htokens, hproper, List.forall_mem_singleton.2 hfault, hnext⟩

/-- An item of any source. -/
theorem scanItem_from (rules : String → TagRules) (hc : c.StandsIn cs) (hne : c.ahead ≠ []) :
    (scanItem rules c).From cs c := by
  unfold scanItem
  split
  · split
    · exact scanComment_from hc hne
    · split
      · exact scanDocType_from hc hne
      · split
        · exact scanTagClose_from hc hne
        · exact scanTagOpen_from rules hc hne
  · exact scanText_from hc

end

/-! ### Whole sources -/

/-- Tokens of which the first opens markup do not end where they begin. -/
theorem InOrder.lt_of_opensMarkup {cs : List Char} {p q : Nat} {t : Token} {ts : List Token}
    (h : InOrder cs p (t :: ts) q) (ht : t.lexeme.opensMarkup = true) : p < q := by
  cases h with
  | cons _ hstart _ hopens h =>
    have hne : t.lexeme ≠ .commentEnd := by
      intro heq
      rw [heq] at ht
      cases ht
    have := hstart hne
    have := hopens ht
    have := h.le
    omega

/-- Where a scan does not stop at once it takes a character. -/
theorem extent_pos {stops : List Char → Bool} {cs : List Char} (hne : cs ≠ []) (h : stops cs = false) :
    ∃ n, extent stops cs = n + 1 := by
  obtain ⟨c, cs, rfl⟩ := List.exists_cons_of_ne_nil hne
  exact ⟨extent stops cs, by rw [extent, h]; rfl⟩

/-- An item is a text, or starts with what starts markup. -/
theorem scanItem_cases (rules : String → TagRules) (c : Cursor) :
    (scanItem rules c = scanText c ∧ opensMarkup c.ahead = false) ∨
      ∃ t ts, (scanItem rules c).tokens = t :: ts ∧ t.lexeme.opensMarkup = true := by
  unfold scanItem
  split
  · right
    split
    · unfold scanComment
      dsimp only
      split <;> exact ⟨_, _, rfl, rfl⟩
    · split
      · unfold scanDocType
        dsimp only
        split <;> exact ⟨_, _, rfl, rfl⟩
      · split
        · unfold scanTagClose
          dsimp only
          split <;> exact ⟨_, _, rfl, rfl⟩
        · unfold scanTagOpen
          dsimp only
          split <;> exact ⟨_, _, rfl, rfl⟩
  · next hopens => exact .inl ⟨rfl, by simpa using hopens⟩

/-- An item takes a character at least. -/
theorem scanItem_advances (rules : String → TagRules) {cs : List Char} {c : Cursor} (hc : c.StandsIn cs)
    (hne : c.ahead ≠ []) : c.place.offset < (scanItem rules c).next.place.offset := by
  obtain ⟨htext, hopens⟩ | ⟨t, ts, htokens, ht⟩ := scanItem_cases rules c
  · obtain ⟨n, hn⟩ := extent_pos hne hopens
    rw [htext]
    show c.place.offset < (c.skip (extent opensMarkup c.ahead)).place.offset
    rw [hn]
    exact Cursor.offset_lt_skip hne n
  · have htokens' := (scanItem_from rules hc hne).tokens
    rw [htokens] at htokens'
    exact htokens'.lt_of_opensMarkup ht

/-- Less is ahead of a cursor that stands further on. -/
theorem Cursor.Reaches.length_lt {c d : Cursor} (h : c.Reaches d) (hlt : c.place.offset < d.place.offset) :
    d.ahead.length < c.ahead.length := by
  obtain ⟨n, rfl⟩ := h
  have hn : n ≠ 0 := by
    rintro rfl
    exact Nat.lt_irrefl _ hlt
  have hne : c.ahead ≠ [] := by
    intro hnil
    rw [skip, hnil, List.take_nil, Location.advanceAll_nil] at hlt
    exact Nat.lt_irrefl _ hlt
  have hpos := List.length_pos_iff.2 hne
  rw [skip_ahead, List.length_drop]
  omega

/-- The tokens of a text, the end of the source last and nowhere else. -/
structure Scan.Complete (s : Scan) (cs : List Char) (c : Cursor) (ts : List Token) (l : Location) : Prop where
  tokens : s.tokens = ts ++ [⟨.endOfSource, .point l⟩]
  inOrder : InOrder cs c.place.offset ts l.offset
  proper : ∀ t ∈ ts, t.lexeme ≠ .endOfSource
  faults : ∀ d ∈ s.faults, d.span.IsIn cs
  place : l.IsIn cs
  offset : l.offset = c.place.offset + byteLength c.ahead

/-- With steps for every character, the scan comes to the end of the text. -/
theorem scanAll_complete (rules : String → TagRules) {cs : List Char} {fuel : Nat} {c : Cursor}
    (hc : c.StandsIn cs) (hfuel : c.ahead.length < fuel) :
    ∃ ts l, (scanAll rules fuel c).Complete cs c ts l := by
  induction fuel generalizing c with
  | zero => exact absurd hfuel (Nat.not_lt_zero _)
  | succ fuel ih =>
    cases hahead : c.ahead with
    | nil =>
      refine ⟨[], c.place, ?_⟩
      rw [scanAll, hahead]
      exact ⟨rfl, .nil (Nat.le_refl _), List.forall_mem_nil _, List.forall_mem_nil _, hc.place_isIn,
        by rw [hahead]; rfl⟩
    | cons d ds =>
      have hne : c.ahead ≠ [] := by simp [hahead]
      have hitem := scanItem_from rules hc hne
      have hlength := hitem.next.length_lt (scanItem_advances rules hc hne)
      obtain ⟨ts, l, hrest⟩ := ih (hc.reaches hitem.next) (by omega)
      refine ⟨(scanItem rules c).tokens ++ ts, l, ?_⟩
      rw [scanAll, hahead]
      refine ⟨?_, hitem.tokens.append hrest.inOrder, List.forall_mem_append.2 ⟨hitem.proper, hrest.proper⟩,
        List.forall_mem_append.2 ⟨hitem.faults, hrest.faults⟩, hrest.place,
        hrest.offset.trans hitem.next.offset_add⟩
      rw [List.append_assoc, ← hrest.tokens]
      rfl

/-- What is kept of the source stands at its beginning. -/
theorem beforeNul_isPrefix (cs : List Char) : beforeNul cs <+: cs :=
  List.takeWhile_prefix _

/-- The tokens of a source. -/
theorem tokenize_complete (rules : String → TagRules) (source : String) :
    ∃ ts l, (scanAll rules ((beforeNul (unifyLines source.toList)).length + 1)
        ⟨{}, beforeNul (unifyLines source.toList)⟩).Complete (unifyLines source.toList)
      ⟨{}, beforeNul (unifyLines source.toList)⟩ ts l :=
  scanAll_complete rules ⟨[], beforeNul_isPrefix _, rfl⟩ (Nat.lt_succ_self _)

/-- The tokens of a source are in order, the last one included. -/
theorem tokenize_inOrder (rules : String → TagRules) (source : String) :
    ∃ q, InOrder (unifyLines source.toList) 0 (tokenize rules source).tokens q := by
  obtain ⟨ts, l, h⟩ := tokenize_complete rules source
  refine ⟨l.offset, ?_⟩
  unfold tokenize
  dsimp only
  rw [h.tokens]
  exact h.inOrder.append (.cons (Span.isIn_point h.place) (fun _ => Nat.le_refl _) (Nat.le_refl _) nofun
    (.nil (Nat.le_refl _)))

/-- All faults of the scanner are at spans in the source with its line endings unified. -/
theorem tokenize_faults_isIn (rules : String → TagRules) (source : String) :
    ∀ d ∈ (tokenize rules source).faults, d.span.IsIn (unifyLines source.toList) := by
  obtain ⟨ts, l, h⟩ := tokenize_complete rules source
  exact h.faults

/-! ### Where the tokens end -/

/-- To unify line endings adds no NUL and takes none away. -/
theorem nul_mem_unifyLines (cs : List Char) : '\x00' ∈ unifyLines cs ↔ '\x00' ∈ cs := by
  fun_induction unifyLines cs with
  | case1 => rfl
  | case2 cs ih => simp [ih]
  | case3 c cs _ ih =>
    rw [List.mem_cons, List.mem_cons, ih]
    split
    · next hcr => simp [hcr]
    · rfl

/-- A beginning of a text that is as long as the text is all of it. -/
theorem byteLength_eq_iff_of_isPrefix {xs ys : List Char} (h : xs <+: ys) :
    byteLength xs = byteLength ys ↔ xs = ys := by
  refine ⟨fun heq => ?_, congrArg byteLength⟩
  obtain ⟨zs, rfl⟩ := h
  cases zs with
  | nil => rw [List.append_nil]
  | cons c cs =>
    have hpos := c.utf8Size_pos
    rw [byteLength_append, byteLength_cons] at heq
    omega

/-- All of the source is kept exactly if there is no NUL in it. -/
theorem beforeNul_eq_self_iff {cs : List Char} : beforeNul cs = cs ↔ '\x00' ∉ cs := by
  unfold beforeNul
  rw [List.takeWhile_eq_self_iff]
  constructor
  · intro h hmem
    simpa using h _ hmem
  · intro h c hc
    simp only [ne_eq, decide_not, Bool.not_eq_eq_eq_not, Bool.not_true, decide_eq_false_iff_not]
    rintro rfl
    exact h hc

/-- The tokens end with the end of the source, which stands before the first NUL of the text: at the end of
the text just if the source has no NUL. -/
theorem tokenize_ends (rules : String → TagRules) (source : String) :
    ∃ ts l, (tokenize rules source).tokens = ts ++ [⟨.endOfSource, .point l⟩] ∧
      (∀ t ∈ ts, t.lexeme ≠ .endOfSource) ∧
      l.offset = byteLength (beforeNul (unifyLines source.toList)) ∧
      (l.offset = byteLength (unifyLines source.toList) ↔ '\x00' ∉ source.toList) := by
  obtain ⟨ts, l, h⟩ := tokenize_complete rules source
  have hoffset : l.offset = byteLength (beforeNul (unifyLines source.toList)) := by
    rw [h.offset, Nat.zero_add]
  refine ⟨ts, l, h.tokens, h.proper, hoffset, ?_⟩
  rw [hoffset, byteLength_eq_iff_of_isPrefix (beforeNul_isPrefix _), beforeNul_eq_self_iff, nul_mem_unifyLines]

/-- A source with a NUL in its text. -/
def nulSource : String :=
  "a\x00b"

/-- What stands behind the NUL is not read, and nothing is reported. -/
theorem tokenize_nulSource : (tokenize TagRules.html nulSource).faults = [] ∧
    (tokenize TagRules.html nulSource).tokens.map (fun t => (t.lexeme, t.span.stop.offset)) =
      [(.text "a", 1), (.endOfSource, 1)] ∧
    byteLength (unifyLines nulSource.toList) = 3 := by
  decide +kernel

end ViewTemplate.Markup
