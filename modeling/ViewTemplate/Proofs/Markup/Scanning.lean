import Mathlib.Data.List.Infix
import ViewTemplate.Markup.Printer
import ViewTemplate.Proofs.Markup.Items
import ViewTemplate.Proofs.Text.LowerCase

/-!
# Scanning what was written

Each piece that is written — an escaped text, a comment, a start tag, the content of an element without
markup, an end tag — is scanned as the item it stands for, from whatever place it stands at.  What a piece
needs of the text after it is part of its lemma: a text ends only where markup starts, and the content of an
element without markup only where no end tag stands in it.

* `Scan.Gives`, `Scan.Reads` — a scan without faults, by its lexemes and by its items.
* `decode_escapeText`, `decode_escapeValue` — references are read as what was escaped.
* `IsTagName`, `IsAttributeName`, `IsCommentText`, `HoldsNoEndTag` — what is read as it stands.
* `Scans` — characters that are read as items to the end of the source, put together item by item.
-/

namespace ViewTemplate.Markup

open ViewTemplate.Source ViewTemplate.Text

/-! ### Escaped texts -/

/-- An escaped character of a text decodes to itself, whatever comes behind it. -/
theorem decode_escapeTextChar_append (c : Char) (cs : List Char) :
    decode ((escapeTextChar c).toList ++ cs) = c :: decode cs := by
  unfold escapeTextChar decode
  split
  · rfl
  · rfl
  · rfl
  · rfl
  · next h _ _ _ => rw [String.toList_singleton, List.singleton_append, decodeFrom, if_neg h]

/-- An escaped character of an attribute value decodes to itself, whatever comes behind it. -/
theorem decode_escapeValueChar_append (c : Char) (cs : List Char) :
    decode ((escapeValueChar c).toList ++ cs) = c :: decode cs := by
  unfold escapeValueChar decode
  split
  · rfl
  · rfl
  · rfl
  · next h _ _ => rw [String.toList_singleton, List.singleton_append, decodeFrom, if_neg h]

/-- A text that is written character by character, each so that it reads as itself, reads as it was. -/
theorem decode_flatMap {escape : Char → String}
    (h : ∀ c cs, decode ((escape c).toList ++ cs) = c :: decode cs) (cs : List Char) :
    decode (cs.flatMap fun c => (escape c).toList) = cs := by
  induction cs with
  | nil => rfl
  | cons c cs ih => rw [List.flatMap_cons, h, ih]

/-- A text is escaped character by character. -/
theorem toList_escapeText (value : String) :
    (escapeText value).toList = value.toList.flatMap fun c => (escapeTextChar c).toList := by
  simp [escapeText, List.flatMap, Function.comp_def]

/-- An attribute value is escaped character by character. -/
theorem toList_escapeValue (value : String) :
    (escapeValue value).toList = value.toList.flatMap fun c => (escapeValueChar c).toList := by
  simp [escapeValue, List.flatMap, Function.comp_def]

/-- Decoding undoes the escaping of a text. -/
theorem decode_escapeText (value : String) : decode (escapeText value).toList = value.toList := by
  rw [toList_escapeText]
  exact decode_flatMap decode_escapeTextChar_append _

/-- Decoding undoes the escaping of an attribute value. -/
theorem decode_escapeValue (value : String) : decode (escapeValue value).toList = value.toList := by
  rw [toList_escapeValue]
  exact decode_flatMap decode_escapeValueChar_append _

/-- An escaped text holds no `<`, so nothing in it can open markup. -/
theorem ne_of_mem_escapeText {value : String} {d : Char} (h : d ∈ (escapeText value).toList) : d ≠ '<' := by
  rw [toList_escapeText, List.mem_flatMap] at h
  obtain ⟨c, -, hd⟩ := h
  rintro rfl
  unfold escapeTextChar at hd
  split at hd
  all_goals simp at hd
  subst hd
  contradiction

/-- An escaped attribute value holds no double quote, so nothing in it can end the value. -/
theorem ne_of_mem_escapeValue {value : String} {d : Char} (h : d ∈ (escapeValue value).toList) :
    d ≠ '\x22' := by
  rw [toList_escapeValue, List.mem_flatMap] at h
  obtain ⟨c, -, hd⟩ := h
  rintro rfl
  unfold escapeValueChar at hd
  split at hd
  all_goals simp at hd
  subst hd
  contradiction

/-! ### Cursors and scans -/

/-- What is ahead after some characters have been skipped. -/
@[simp] theorem Cursor.skip_ahead (c : Cursor) (n : Nat) : (c.skip n).ahead = c.ahead.drop n := rfl

/-- What is ahead after spaces have been skipped. -/
@[simp] theorem Cursor.skipSpaces_ahead (c : Cursor) : c.skipSpaces.ahead = c.ahead.dropWhile isSpace := by
  unfold skipSpaces
  rw [skip_ahead, ← List.append_cancel_left_eq (c.ahead.takeWhile isSpace), List.takeWhile_append_dropWhile]
  exact List.prefix_iff_eq_append.1 (List.takeWhile_prefix isSpace)

/-- The scan gives the lexemes, finds nothing wrong, and stops before `rest`. -/
structure Scan.Gives (s : Scan) (ls : List Lexeme) (rest : List Char) : Prop where
  lexemes : s.tokens.map Token.lexeme = ls
  faults : s.faults = []
  ahead : s.next.ahead = rest

namespace Scan.Gives

/-- A scan of one token gives that token. -/
theorem token {l : Lexeme} {start stop : Cursor} {rest : List Char} (h : stop.ahead = rest) :
    (Scan.token l start stop).Gives [l] rest :=
  ⟨rfl, rfl, h⟩

/-- Two scans, one after the other, give what the first gives and then what the second gives. -/
theorem andThen {s : Scan} {f : Cursor → Scan} {ls ls' all : List Lexeme} {middle rest : List Char}
    (h : s.Gives ls middle) (h' : (f s.next).Gives ls' rest) (hall : ls ++ ls' = all) :
    (s.andThen f).Gives all rest := by
  subst hall
  refine ⟨?_, ?_, h'.ahead⟩
  · simp [Scan.andThen, h.lexemes, h'.lexemes]
  · simp [Scan.andThen, h.faults, h'.faults]

end Scan.Gives

/-- What is scanned up to the first place where `stops` holds is what stands before it. -/
theorem extent_append {stops : List Char → Bool} {rest : List Char} (hrest : rest = [] ∨ stops rest = true) :
    ∀ {w : List Char}, (∀ b, b ≠ [] → b <:+ w → stops (b ++ rest) = false) →
      extent stops (w ++ rest) = w.length
  | [], _ => by
    rcases hrest with rfl | hstop
    · rfl
    · cases rest with
      | nil => rfl
      | cons c cs => rw [List.nil_append, extent, if_pos hstop, List.length_nil]
  | c :: w, hw => by
    have hgo : stops (c :: (w ++ rest)) = false := hw (c :: w) (List.cons_ne_nil c w) List.suffix_rfl
    have htail := extent_append hrest fun b hb hsuffix => hw b hb (hsuffix.trans (List.suffix_cons c w))
    rw [List.cons_append, extent, hgo, htail]
    rfl

/-! ### Texts and comments -/

/-- Where a text ends: at the end of the source and before markup. -/
def Breaks (rest : List Char) : Prop :=
  rest = [] ∨ opensMarkup rest = true

/-- Only `<` opens markup. -/
theorem opensMarkup_cons_of_ne {c : Char} (h : c ≠ '<') (cs : List Char) : opensMarkup (c :: cs) = false := by
  unfold opensMarkup
  split <;> simp_all

/-- An escaped text, up to where markup may begin, is scanned as one text with its value. -/
theorem scanText_gives {c : Cursor} {value : String} {rest : List Char}
    (h : c.ahead = (escapeText value).toList ++ rest) (hrest : Breaks rest) :
    (scanText c).Gives [.text value] rest := by
  have hextent : extent opensMarkup c.ahead = (escapeText value).toList.length := by
    rw [h]
    refine extent_append hrest fun b hb hsuffix => ?_
    obtain ⟨d, b, rfl⟩ := List.exists_cons_of_ne_nil hb
    exact opensMarkup_cons_of_ne (ne_of_mem_escapeText (hsuffix.subset List.mem_cons_self)) _
  unfold scanText
  dsimp only
  rw [hextent, h, List.take_left, decode_escapeText, String.ofList_toList]
  exact .token (by rw [Cursor.skip_ahead, h, List.drop_left])

/-- The content of a comment that ends where it is written to end. -/
def IsCommentText (value : String) : Prop :=
  ¬ ['-', '-', '>'] <:+: value.toList

instance (value : String) : Decidable (IsCommentText value) :=
  inferInstanceAs (Decidable (¬ _))

/-- A part of a comment that does not begin with `-->` does not seem to when `-->` follows it. -/
theorem isPrefixOf_closer_append {b : List Char} (hb : b ≠ []) (h : ¬ ['-', '-', '>'] <+: b) (rest : List Char) :
    ['-', '-', '>'].isPrefixOf (b ++ '-' :: '-' :: '>' :: rest) = false := by
  match b, hb with
  | [x], _ => simp [List.isPrefixOf]
  | [x, y], _ => simp [List.isPrefixOf]
  | x :: y :: z :: b, _ => simpa [List.isPrefixOf] using h

/-- A comment whose text may stand in one is scanned as its opening, its text and its end. -/
theorem scanComment_gives {c : Cursor} {value : String} {rest : List Char} (hvalue : IsCommentText value)
    (h : c.ahead = '<' :: '!' :: '-' :: '-' :: (value.toList ++ '-' :: '-' :: '>' :: rest)) :
    (scanComment c).Gives [.commentStart, .text value, .commentEnd] rest := by
  have hinside : (c.skip 4).ahead = value.toList ++ '-' :: '-' :: '>' :: rest := by
    rw [Cursor.skip_ahead, h]
    rfl
  have hextent : extent (['-', '-', '>'].isPrefixOf ·) (c.skip 4).ahead = value.toList.length := by
    rw [hinside]
    refine extent_append (Or.inr (by simp)) fun b hb hsuffix => ?_
    exact isPrefixOf_closer_append hb (fun hstart => hvalue (hstart.isInfix.trans hsuffix.isInfix)) rest
  have hafter : ((c.skip 4).skip value.toList.length).ahead = '-' :: '-' :: '>' :: rest := by
    rw [Cursor.skip_ahead, hinside, List.drop_left]
  unfold scanComment
  dsimp only
  rw [hextent, hafter, hinside, List.take_left, String.ofList_toList, List.isEmpty_cons, if_neg (by decide)]
  refine .andThen (.andThen (.token rfl) (.token rfl) rfl) (.token ?_) rfl
  rw [Cursor.skip_ahead, hafter]
  rfl

/-! ### Names -/

/-- A name that is read as it stands: nothing in it ends a name, and nothing in it has another lower case. -/
structure IsNameText (name : String) : Prop where
  unbroken : ∀ c ∈ name.toList, isNameEnd c = false
  lower : lowerCase name = name

/-- The name of an element. -/
structure IsTagName (name : String) : Prop extends IsNameText name where
  letter : ∃ c ∈ name.toList.head?, isAsciiLetter c = true

/-- The name of an attribute. -/
structure IsAttributeName (name : String) : Prop extends IsNameText name where
  start : ∃ c ∈ name.toList.head?, c ≠ '\x60'

instance (name : String) : Decidable (IsNameText name) :=
  decidable_of_iff ((name.toList.all fun c => !isNameEnd c) = true ∧ lowerCase name = name)
    ⟨fun ⟨h, h'⟩ => ⟨by simpa using h, h'⟩, fun ⟨h, h'⟩ => ⟨by simpa using h, h'⟩⟩

instance (name : String) : Decidable (IsTagName name) :=
  decidable_of_iff (IsNameText name ∧ name.toList.head?.any isAsciiLetter = true)
    ⟨fun ⟨h, h'⟩ => ⟨h, (Option.any_eq_true _ _).1 h'⟩, fun ⟨h, h'⟩ => ⟨h, (Option.any_eq_true _ _).2 h'⟩⟩

instance (name : String) : Decidable (IsAttributeName name) :=
  decidable_of_iff (IsNameText name ∧ name.toList.head?.any (· ≠ '\x60') = true)
    ⟨fun ⟨h, h'⟩ => ⟨h, by simpa [Option.any_eq_true] using h'⟩,
      fun ⟨h, h'⟩ => ⟨h, by simpa [Option.any_eq_true] using h'⟩⟩

/-- The name of a tag begins with a letter. -/
theorem IsTagName.exists_cons {name : String} (h : IsTagName name) :
    ∃ c cs, name.toList = c :: cs ∧ isAsciiLetter c = true := by
  obtain ⟨c, hc, hletter⟩ := h.letter
  obtain ⟨cs, hcs⟩ := List.head?_eq_some_iff.1 hc
  exact ⟨c, cs, hcs, hletter⟩

/-- The name of an attribute begins with some character other than a grave accent. -/
theorem IsAttributeName.exists_cons {name : String} (h : IsAttributeName name) :
    ∃ c cs, name.toList = c :: cs ∧ c ≠ '\x60' := by
  obtain ⟨c, hc, hgrave⟩ := h.start
  obtain ⟨cs, hcs⟩ := List.head?_eq_some_iff.1 hc
  exact ⟨c, cs, hcs, hgrave⟩

/-- A name in front of something that ends names is scanned as it stands. -/
theorem IsNameText.scanName {name : String} (hname : IsNameText name) {c : Cursor} {rest : List Char}
    (h : c.ahead = name.toList ++ rest) (hrest : ∃ d ds, rest = d :: ds ∧ isNameEnd d = true) :
    (scanName c).1 = name ∧ (scanName c).2.ahead = rest := by
  have htake : c.ahead.takeWhile (!isNameEnd ·) = name.toList := by
    obtain ⟨d, ds, rfl, hd⟩ := hrest
    rw [h, List.takeWhile_append_of_pos fun c hc => by simp [hname.unbroken c hc]]
    simp [hd]
  unfold Markup.scanName
  dsimp only
  rw [htake, String.ofList_toList]
  refine ⟨hname.lower, ?_⟩
  rw [Cursor.skip_ahead, h, List.drop_left]

/-! ### Tags -/

/-- An end tag as it is written is scanned as one token. -/
theorem scanTagClose_gives {c : Cursor} {name : String} {rest : List Char} (hname : IsTagName name)
    (h : c.ahead = '<' :: '/' :: (name.toList ++ '>' :: rest)) :
    (scanTagClose c).Gives [.tagClose name] rest := by
  have hinside : (c.skip 2).ahead = name.toList ++ '>' :: rest := by
    rw [Cursor.skip_ahead, h]
    rfl
  obtain ⟨hlexeme, hafter⟩ := hname.scanName hinside ⟨'>', rest, rfl, rfl⟩
  have hspaces : (scanName (c.skip 2)).2.skipSpaces.ahead = '>' :: rest := by
    rw [Cursor.skipSpaces_ahead, hafter]
    rfl
  have hstarts : (scanName (c.skip 2)).2.skipSpaces.startsWith ['>'] = true := by
    unfold Cursor.startsWith
    rw [hspaces]
    rfl
  unfold scanTagClose
  dsimp only
  rw [hstarts, hlexeme, if_pos rfl]
  refine .token ?_
  rw [Cursor.skip_ahead, hspaces]
  rfl

/-- How an attribute is written, character by character. -/
theorem toList_render (a : Attribute) :
    a.render.toList = ' ' :: (a.name.toList ++ '=' :: '\x22' :: ((escapeValue a.value).toList ++ ['\x22'])) := by
  simp [Attribute.render]

/-- A value between double quotes is scanned as its quotes and its value. -/
theorem scanValue_gives {c : Cursor} {value : String} {rest : List Char}
    (h : c.ahead = '\x22' :: ((escapeValue value).toList ++ '\x22' :: rest)) :
    (scanValue c).Gives [.attributeQuote '\x22', .attributeValue value, .attributeQuote '\x22'] rest := by
  have htake : ((escapeValue value).toList ++ '\x22' :: rest).takeWhile (· ≠ '\x22')
      = (escapeValue value).toList := by
    rw [List.takeWhile_append_of_pos fun d hd => by simpa using ne_of_mem_escapeValue hd]
    simp
  have hafter : ((c.skip 1).skip (escapeValue value).toList.length).ahead = '\x22' :: rest := by
    rw [Cursor.skip_ahead, Cursor.skip_ahead, h, List.drop_one, List.tail_cons, List.drop_left]
  unfold scanValue
  rw [h]
  dsimp only
  rw [htake, hafter, decode_escapeValue, String.ofList_toList, if_pos (by decide), List.isEmpty_cons,
    if_neg (by decide)]
  refine .andThen (.andThen (.token rfl) (.token rfl) rfl) (.token ?_) rfl
  show ((c.skip 1).skip (escapeValue value).toList.length).ahead.drop 1 = rest
  rw [hafter]
  rfl

/-- An attribute as it is written is scanned as its name, its quotes and its value. -/
theorem scanAttribute_gives {c : Cursor} {a : Attribute} {rest : List Char} (ha : IsAttributeName a.name)
    (h : c.ahead = a.name.toList ++ '=' :: '\x22' :: ((escapeValue a.value).toList ++ '\x22' :: rest)) :
    (scanAttribute c).Gives [.attributeName a.name, .attributeQuote '\x22', .attributeValue a.value,
      .attributeQuote '\x22'] rest := by
  obtain ⟨hlexeme, hafter⟩ := ha.scanName h ⟨'=', _, rfl, rfl⟩
  have hspaces : (scanName c).2.skipSpaces.ahead =
      '=' :: '\x22' :: ((escapeValue a.value).toList ++ '\x22' :: rest) := by
    rw [Cursor.skipSpaces_ahead, hafter]
    rfl
  have hequals : (scanName c).2.skipSpaces.startsWith ['='] = true := by
    unfold Cursor.startsWith
    rw [hspaces]
    rfl
  have hvalue : (((scanName c).2.skipSpaces.skip 1).skipSpaces).ahead =
      '\x22' :: ((escapeValue a.value).toList ++ '\x22' :: rest) := by
    rw [Cursor.skipSpaces_ahead, Cursor.skip_ahead, hspaces]
    rfl
  unfold scanAttribute
  dsimp only
  rw [hlexeme]
  refine .andThen (.token hafter) ?_ rfl
  show Scan.Gives (if (scanName c).2.skipSpaces.startsWith ['='] then _ else _) _ _
  rw [hequals, if_pos rfl]
  exact scanValue_gives hvalue

/-- The attributes as they are written. -/
def renderAttributes (as : List Attribute) : List Char :=
  (String.join (as.map Attribute.render)).toList

/-- No attributes are written as nothing. -/
@[simp] theorem renderAttributes_nil : renderAttributes [] = [] := by
  simp [renderAttributes]

/-- The first of several attributes stands before the others, with a space in front. -/
theorem renderAttributes_cons (a : Attribute) (as : List Attribute) :
    renderAttributes (a :: as) = ' ' :: (a.name.toList ++
      '=' :: '\x22' :: ((escapeValue a.value).toList ++ '\x22' :: renderAttributes as)) := by
  simp [renderAttributes, toList_render]

/-- What begins the name of an attribute is neither stray in a tag nor the end of it. -/
theorem IsAttributeName.isStrayInTag_eq_false {name : String} {c : Char} {cs : List Char}
    (h : IsAttributeName name) (hname : name.toList = c :: cs) :
    isStrayInTag c = false ∧ c ≠ '>' ∧ isSpace c = false := by
  have hend : isNameEnd c = false := h.unbroken c (by simp [hname])
  have hgrave : c ≠ '\x60' := by
    obtain ⟨d, ds, hd, hne⟩ := h.exists_cons
    rw [hname] at hd
    exact (List.cons.inj hd).1 ▸ hne
  simp only [isNameEnd, Bool.or_eq_false_iff, decide_eq_false_iff_not] at hend
  simp [isStrayInTag, isQuote, hend, hgrave]

/-- The attributes of a start tag as they are written are scanned one by one, and the tag is complete. -/
theorem scanAttributes_gives {rest : List Char} : (as : List Attribute) →
    (∀ a ∈ as, IsAttributeName a.name) → ∀ {fuel : Nat}, as.length < fuel → ∀ {c : Cursor},
      c.ahead = renderAttributes as ++ '>' :: rest →
      ∃ ls, AttributesSpelling (as.map Attribute.entry) ls ∧
        (scanAttributes fuel c).1.Gives (ls ++ [.tagOpenEnd]) rest ∧ (scanAttributes fuel c).2 = .opened
  | [], _, fuel + 1, _, c, h => by
    have hspaces : c.skipSpaces.ahead = '>' :: rest := by
      rw [Cursor.skipSpaces_ahead, h]
      rfl
    refine ⟨[], .nil, ?_⟩
    unfold scanAttributes
    dsimp only
    rw [hspaces]
    dsimp only
    rw [if_pos rfl]
    refine ⟨.token ?_, rfl⟩
    rw [Cursor.skip_ahead, hspaces]
    rfl
  | a :: as, has, fuel + 1, hfuel, c, h => by
    have ha : IsAttributeName a.name := has a List.mem_cons_self
    obtain ⟨d, ds, hd, -⟩ := ha.exists_cons
    obtain ⟨hstray, hclose, hspace⟩ := ha.isStrayInTag_eq_false hd
    have hspaces : c.skipSpaces.ahead = a.name.toList ++
        '=' :: '\x22' :: ((escapeValue a.value).toList ++ '\x22' :: (renderAttributes as ++ '>' :: rest)) := by
      rw [Cursor.skipSpaces_ahead, h, renderAttributes_cons, List.cons_append,
        List.dropWhile_cons_of_pos (by decide), hd]
      simp [hspace]
    have hfirst := scanAttribute_gives ha hspaces
    obtain ⟨ls, hls, hrest, hopened⟩ := scanAttributes_gives as (fun b hb => has b (List.mem_cons_of_mem a hb))
      (Nat.lt_of_succ_lt_succ hfuel) hfirst.ahead
    refine ⟨_, .cons (.quoted a.name a.value '\x22') hls, ?_⟩
    -- A name starts with neither of the marks that end a tag, so the scan goes to an attribute.
    have hmark : c.skipSpaces.startsWith ['/', '>'] = false := by
      have hslash : d ≠ '/' := by
        rintro rfl
        cases hstray
      unfold Cursor.startsWith
      rw [hspaces, hd]
      simp [List.isPrefixOf, hslash.symm]
    have hstep : scanAttributes (fuel + 1) c =
        ((scanAttribute c.skipSpaces).andThen fun _ => (scanAttributes fuel (scanAttribute c.skipSpaces).next).1,
          (scanAttributes fuel (scanAttribute c.skipSpaces).next).2) := by
      rw [hd] at hspaces
      rw [scanAttributes]
      dsimp only
      rw [hspaces]
      simp [hclose, hmark, hstray]
    rw [hstep]
    exact ⟨hfirst.andThen (f := fun _ => _) hrest (List.append_assoc _ _ _).symm, hopened⟩

/-! ### Content without markup -/

/-- No end tag of the element stands in the text, so that the element's content ends behind it. -/
def HoldsNoEndTag (name : String) (cs : List Char) : Prop :=
  ∀ b, b <:+ cs → closesTag name.toList b = false

instance (name : String) (cs : List Char) : Decidable (HoldsNoEndTag name cs) :=
  decidable_of_iff (∀ b ∈ cs.tails, closesTag name.toList b = false) (by simp [HoldsNoEndTag])

/-- No other character is `<` but for its case. -/
theorem sameIgnoringCase_angle {a : Char} (ha : a ≠ '<') : sameIgnoringCase a '<' = false := by
  rw [sameIgnoringCase, decide_eq_false_iff_not]
  intro hlower
  rcases toLower_eq_self_or a with hself | hsmall
  · exact ha (hself.symm.trans hlower)
  · rw [hlower] at hsmall
    cases hsmall

/-- The name of an end tag does not run on into markup. -/
theorem startsWithName_append_angle {name : List Char} (hname : '<' ∉ name) (rest : List Char) :
    ∀ cs : List Char, startsWithName name (cs ++ '<' :: rest) = startsWithName name cs := by
  induction name with
  | nil =>
    intro cs
    cases cs <;> rfl
  | cons a name ih =>
    rw [List.mem_cons, not_or] at hname
    intro cs
    cases cs with
    | nil =>
      show (sameIgnoringCase a '<' && startsWithName name rest) = false
      rw [sameIgnoringCase_angle (Ne.symm hname.1), Bool.false_and]
    | cons c cs => rw [List.cons_append, startsWithName, startsWithName, ih hname.2]

/-- A further `<` behind some characters does not make them an end tag. -/
theorem closesTag_append_angle {name : List Char} (hname : '<' ∉ name) {b : List Char} (hb : b ≠ [])
    (rest : List Char) : closesTag name (b ++ '<' :: rest) = closesTag name b := by
  match b, hb with
  | [c], _ => simp [closesTag]
  | c :: d :: b, _ =>
    by_cases hopen : c = '<' ∧ d = '/'
    · obtain ⟨rfl, rfl⟩ := hopen
      exact startsWithName_append_angle hname rest b
    · unfold closesTag
      split <;> split <;> simp_all

/-- A name in front of something that ends names is found there. -/
theorem startsWithName_self (name : List Char) {d : Char} (hd : isNameEnd d = true) (rest : List Char) :
    startsWithName name (name ++ d :: rest) = true := by
  induction name with
  | nil => exact hd
  | cons a name ih => simpa [startsWithName, sameIgnoringCase] using ih

/-- There is no `<` in a name. -/
theorem IsNameText.angle_notMem {name : String} (h : IsNameText name) : '<' ∉ name.toList := by
  intro hmem
  cases h.unbroken '<' hmem

/-- The content of an element that holds no markup is scanned up to the end tag of that element. -/
theorem scanRawText_gives (decoded : Bool) {c : Cursor} {name : String} {content rest : List Char}
    (hname : IsNameText name) (hcontent : HoldsNoEndTag name content)
    (h : c.ahead = content ++ '<' :: '/' :: (name.toList ++ '>' :: rest)) :
    (scanRawText name decoded c).Gives
      [.rawText (String.ofList (if decoded then decode content else content))]
      ('<' :: '/' :: (name.toList ++ '>' :: rest)) := by
  have hextent : extent (closesTag name.toList) c.ahead = content.length := by
    rw [h]
    have hcloses : closesTag name.toList ('<' :: '/' :: (name.toList ++ '>' :: rest)) = true :=
      startsWithName_self name.toList rfl rest
    refine extent_append (.inr hcloses) fun b hb hsuffix => ?_
    rw [closesTag_append_angle hname.angle_notMem hb]
    exact hcontent b hsuffix
  unfold scanRawText
  dsimp only
  rw [hextent, h, List.take_left]
  exact .token (by rw [Cursor.skip_ahead, h, List.drop_left])

/-! ### Items -/

/-- The start tag as it is written. -/
theorem toList_renderStart (t : Tag) :
    t.renderStart.toList = '<' :: (t.name.toList ++ (renderAttributes t.attributes ++ ['>'])) := by
  simp [Tag.renderStart, renderAttributes]

/-- How an end tag is written, character by character. -/
theorem toList_renderEnd (t : Tag) : t.renderEnd.toList = '<' :: '/' :: (t.name.toList ++ ['>']) := by
  simp [Tag.renderEnd]

/-- Every attribute takes a character at least, which bounds the steps that its tag needs. -/
theorem length_le_renderAttributes (as : List Attribute) : as.length ≤ (renderAttributes as).length := by
  induction as with
  | nil => exact Nat.zero_le _
  | cons a as ih =>
    rw [renderAttributes_cons]
    simp only [List.length_cons, List.length_append]
    omega

/-- A tag that is read as it is written. -/
structure IsTag (t : Tag) : Prop where
  name : IsTagName t.name
  attributes : ∀ a ∈ t.attributes, IsAttributeName a.name

instance (t : Tag) : Decidable (IsTag t) :=
  decidable_of_iff (IsTagName t.name ∧ ∀ a ∈ t.attributes, IsAttributeName a.name)
    ⟨fun ⟨h, h'⟩ => ⟨h, h'⟩, fun ⟨h, h'⟩ => ⟨h, h'⟩⟩

/-- The names and values of the attributes. -/
def Tag.entries (t : Tag) : List (String × String) :=
  t.attributes.map Attribute.entry

/-- The scan reads the items, finds nothing wrong, and stops before `rest`. -/
def Scan.Reads (s : Scan) (is : List Item) (rest : List Char) : Prop :=
  ∃ ls, Spelling is ls ∧ s.Gives ls rest

/-- A scan that gives the spelling of an item reads that item. -/
theorem Scan.Gives.reads {s : Scan} {i : Item} {ls : List Lexeme} {rest : List Char} (h : s.Gives ls rest)
    (hls : i.Spelling ls) : s.Reads [i] rest :=
  ⟨ls, hls.singleton, h⟩

/-- Two scans, one after the other, read what the first reads and then what the second reads. -/
theorem Scan.Reads.andThen {s : Scan} {f : Cursor → Scan} {is js : List Item} {middle rest : List Char}
    (h : s.Reads is middle) (h' : (f s.next).Reads js rest) : (s.andThen f).Reads (is ++ js) rest := by
  obtain ⟨ls, hls, hs⟩ := h
  obtain ⟨ls', hls', hf⟩ := h'
  exact ⟨ls ++ ls', hls.append hls', hs.andThen hf rfl⟩

/-- A start tag is read up to its closing angle bracket, and then the content if it holds no markup. -/
theorem scanTagOpen_reads_start (rules : String → TagRules) {c : Cursor} {t : Tag} {rest : List Char}
    (ht : IsTag t) (h : c.ahead = t.renderStart.toList ++ rest) :
    ∃ tag : Scan, tag.Reads [.startTag t.name t.entries false] rest ∧
      scanTagOpen rules c = match (rules t.name).content with
        | .rawText => tag.andThen (scanRawText t.name false)
        | .escapableRawText => tag.andThen (scanRawText t.name true)
        | .parsable => tag := by
  have hinside : (c.skip 1).ahead = t.name.toList ++ (renderAttributes t.attributes ++ '>' :: rest) := by
    rw [Cursor.skip_ahead, h, toList_renderStart]
    simp
  have hend : ∃ d ds, renderAttributes t.attributes ++ '>' :: rest = d :: ds ∧ isNameEnd d = true := by
    cases t.attributes with
    | nil => exact ⟨'>', rest, by simp, rfl⟩
    | cons a as => exact ⟨' ', _, by rw [renderAttributes_cons]; rfl, rfl⟩
  obtain ⟨hname, hafter⟩ := ht.name.scanName hinside hend
  have hfuel : t.attributes.length < (scanName (c.skip 1)).2.ahead.length + 1 := by
    have hlength := length_le_renderAttributes t.attributes
    rw [hafter, List.length_append]
    omega
  obtain ⟨ls, hls, hgives, hopened⟩ := scanAttributes_gives t.attributes ht.attributes hfuel hafter
  have hopen : (Scan.token (.tagOpen t.name) c (scanName (c.skip 1)).2).Gives [.tagOpen t.name] _ :=
    .token hafter
  refine ⟨_, (hopen.andThen (f := fun _ => _) hgives rfl).reads (.opened t.name hls), ?_⟩
  unfold scanTagOpen
  dsimp only
  rw [hopened, hname]
  cases (rules t.name).content <;> rfl

/-- A letter opens neither a comment nor an end tag. -/
theorem isAsciiLetter_ne {c : Char} (h : isAsciiLetter c = true) : c ≠ '!' ∧ c ≠ '/' := by
  constructor <;> rintro rfl <;> cases h

/-- A `<` with a letter behind it opens markup. -/
theorem opensMarkup_letter {c : Char} (h : isAsciiLetter c = true) (cs : List Char) :
    opensMarkup ('<' :: c :: cs) = true := by
  unfold opensMarkup
  split
  · next heq =>
    cases heq
    cases h
  · next heq =>
    cases heq
    rw [h, Bool.true_or]
  · next hother => exact absurd rfl (hother c cs)

section

variable (rules : String → TagRules) {c : Cursor} {rest : List Char}

/-- A text that is not empty is read as one item. -/
theorem scanItem_reads_text {value : String} (hvalue : value ≠ "") (hrest : Breaks rest)
    (h : c.ahead = (escapeText value).toList ++ rest) : (scanItem rules c).Reads [.text value] rest := by
  have hplain : opensMarkup c.ahead = false := by
    have hne : (escapeText value).toList ≠ [] := by
      intro hnil
      have hdecode := decode_escapeText value
      rw [hnil] at hdecode
      exact hvalue (String.toList_eq_nil_iff.1 hdecode.symm)
    obtain ⟨d, ds, hds⟩ := List.exists_cons_of_ne_nil hne
    rw [h, hds, List.cons_append]
    exact opensMarkup_cons_of_ne (ne_of_mem_escapeText (hds ▸ List.mem_cons_self)) _
  rw [scanItem, hplain, if_neg (by decide)]
  exact (scanText_gives h hrest).reads (.text value)

/-- A comment is read as one item. -/
theorem scanItem_reads_comment {value : String} (hvalue : IsCommentText value)
    (h : c.ahead = '<' :: '!' :: '-' :: '-' :: (value.toList ++ '-' :: '-' :: '>' :: rest)) :
    (scanItem rules c).Reads [.comment value] rest := by
  have hdispatch : scanItem rules c = scanComment c := by
    unfold scanItem Cursor.startsWith
    rw [h]
    rfl
  rw [hdispatch]
  exact (scanComment_gives hvalue h).reads (.comment value)

/-- An end tag is read as one item. -/
theorem scanItem_reads_end {name : String} (hname : IsTagName name)
    (h : c.ahead = '<' :: '/' :: (name.toList ++ '>' :: rest)) :
    (scanItem rules c).Reads [.endTag name] rest := by
  have hdispatch : scanItem rules c = scanTagClose c := by
    obtain ⟨d, ds, hds, hd⟩ := hname.exists_cons
    unfold scanItem Cursor.startsWith
    rw [h, hds, List.cons_append]
    simp [opensMarkup, hd, List.isPrefixOf]
  rw [hdispatch]
  exact (scanTagClose_gives hname h).reads (.endTag name)

/-- Where a start tag is written, a tag is scanned. -/
theorem scanItem_start {t : Tag} (ht : IsTag t) (h : c.ahead = t.renderStart.toList ++ rest) :
    scanItem rules c = scanTagOpen rules c := by
  obtain ⟨d, ds, hds, hd⟩ := ht.name.exists_cons
  obtain ⟨hbang, hslash⟩ := isAsciiLetter_ne hd
  unfold scanItem Cursor.startsWith
  rw [h, toList_renderStart, hds, List.cons_append, List.cons_append, List.cons_append, opensMarkup_letter hd]
  simp [List.isPrefixOf, hbang.symm, hslash.symm]

/-- A start tag is read as one item, where its element may hold markup. -/
theorem scanItem_reads_start {t : Tag} (ht : IsTag t) (hcontent : (rules t.name).content = .parsable)
    (h : c.ahead = t.renderStart.toList ++ rest) :
    (scanItem rules c).Reads [.startTag t.name t.entries false] rest := by
  obtain ⟨tag, hreads, hscan⟩ := scanTagOpen_reads_start rules ht h
  rw [scanItem_start rules ht h, hscan, hcontent]
  exact hreads

/-- The content of an element without markup as it is read. -/
def contentText (rules : TagRules) (content : List Char) : String :=
  String.ofList (if rules.content = .escapableRawText then decode content else content)

/-- A start tag whose element holds no markup is read together with its content. -/
theorem scanItem_reads_raw {t : Tag} {content : List Char} (ht : IsTag t)
    (hcontent : (rules t.name).content ≠ .parsable) (hend : HoldsNoEndTag t.name content)
    (h : c.ahead = t.renderStart.toList ++ (content ++ (t.renderEnd.toList ++ rest))) :
    (scanItem rules c).Reads
      [.startTag t.name t.entries false, .rawText (contentText (rules t.name) content)]
      (t.renderEnd.toList ++ rest) := by
  obtain ⟨tag, hreads, hscan⟩ := scanTagOpen_reads_start rules ht h
  obtain ⟨ls, -, hgives⟩ := id hreads
  have hraw (decoded : Bool) : (scanRawText t.name decoded tag.next).Reads
      [.rawText (String.ofList (if decoded then decode content else content))] (t.renderEnd.toList ++ rest) := by
    have hahead : tag.next.ahead = content ++ '<' :: '/' :: (t.name.toList ++ '>' :: rest) := by
      rw [hgives.ahead, toList_renderEnd]
      simp
    have hscan := scanRawText_gives decoded ht.name.toIsNameText hend hahead
    rw [toList_renderEnd]
    simpa using hscan.reads (.rawText _)
  rw [scanItem_start rules ht h, hscan, contentText]
  cases hmodel : (rules t.name).content with
  | rawText => exact hreads.andThen (hraw false)
  | escapableRawText => exact hreads.andThen (hraw true)
  | parsable => exact absurd hmodel hcontent

end

/-! ### Whole sources -/

/-- The characters are read as the items, to the end of the source, from wherever they stand. -/
def Scans (rules : String → TagRules) (cs : List Char) (is : List Item) : Prop :=
  ∀ (fuel : Nat) (c : Cursor), c.ahead = cs → cs.length < fuel → (scanAll rules fuel c).Reads is []

/-- At the end of the source there is nothing left to read. -/
theorem Scans.nil (rules : String → TagRules) : Scans rules [] [.endOfSource] := by
  intro fuel c hc hfuel
  obtain ⟨fuel, rfl⟩ := Nat.exists_eq_add_one_of_ne_zero (Nat.ne_zero_of_lt hfuel)
  rw [scanAll, hc]
  exact (Scan.Gives.token hc).reads .endOfSource

/-- One item, and what follows. -/
theorem Scans.append {rules : String → TagRules} {w rest : List Char} {is js : List Item} (hw : w ≠ [])
    (h : ∀ {c : Cursor}, c.ahead = w ++ rest → (scanItem rules c).Reads is rest) (h' : Scans rules rest js) :
    Scans rules (w ++ rest) (is ++ js) := by
  intro fuel c hc hfuel
  obtain ⟨fuel, rfl⟩ := Nat.exists_eq_add_one_of_ne_zero (Nat.ne_zero_of_lt hfuel)
  obtain ⟨d, ds, rfl⟩ := List.exists_cons_of_ne_nil hw
  have hfirst := h hc
  obtain ⟨ls, -, hgives⟩ := id hfirst
  have hrest : rest.length < fuel := by
    rw [List.cons_append, List.length_cons, List.length_append] at hfuel
    omega
  rw [scanAll, hc, List.cons_append]
  exact hfirst.andThen (h' fuel _ hgives.ahead hrest)

end ViewTemplate.Markup
