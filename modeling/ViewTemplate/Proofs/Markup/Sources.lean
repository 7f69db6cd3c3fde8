import ViewTemplate.Proofs.Markup.Legible

/-!
# Sources without faults

What the scanner can give when it finds nothing wrong: a sequence of items in which every start tag is
complete, every name can be written as it stands, every comment ends where it is written to end, and the
content of an element that holds no markup is followed by the end tag of that element, if by anything.

* `scanAttributes_clean`, `scanTagOpen_clean`, `scanItem_clean` — what each scan gives without faults.
* `Sequence` — the sequences of items; `scanAll_clean`, `tokenize_clean` — a source is one of them.
-/

namespace ViewTemplate.Markup

open ViewTemplate.Source ViewTemplate.Text

/-! ### Scans without faults -/

/-- What stands before and behind the first place where `stops` holds. -/
theorem extent_split (stops : List Char → Bool) : (cs : List Char) →
    (cs.drop (extent stops cs) = [] ∨ stops (cs.drop (extent stops cs)) = true) ∧
      ∀ b, b ≠ [] → b <:+ cs.take (extent stops cs) → stops (b ++ cs.drop (extent stops cs)) = false
  | [] => ⟨.inl rfl, fun b hb hsuffix => absurd (List.suffix_nil.1 hsuffix) hb⟩
  | c :: cs => by
    rw [extent]
    split
    · next hstops => exact ⟨.inr hstops, fun b hb hsuffix => absurd (List.suffix_nil.1 hsuffix) hb⟩
    · next hstops =>
      obtain ⟨hrest, hbefore⟩ := extent_split stops cs
      refine ⟨hrest, fun b hb hsuffix => ?_⟩
      rw [List.take_succ_cons, List.suffix_cons_iff] at hsuffix
      rw [List.drop_succ_cons]
      rcases hsuffix with rfl | hsuffix
      · rw [List.cons_append, List.take_append_drop]
        simpa using hstops
      · exact hbefore b hb hsuffix

/-- What is ahead after skipping was ahead before. -/
theorem Cursor.skip_suffix (c : Cursor) (n : Nat) : (c.skip n).ahead <:+ c.ahead :=
  List.drop_suffix n c.ahead

/-- What is ahead behind spaces was ahead before them. -/
theorem Cursor.skipSpaces_suffix (c : Cursor) : c.skipSpaces.ahead <:+ c.ahead :=
  c.skip_suffix _

/-- An end of plain characters is plain. -/
theorem IsPlain.of_suffix {cs ds : List Char} (h : IsPlain cs) (hsuffix : ds <:+ cs) : IsPlain ds :=
  fun c hc => h c (hsuffix.subset hc)

/-- The name that is read is one that is read as it stands. -/
theorem isNameText_scanName (c : Cursor) : IsNameText (scanName c).1 := by
  refine ⟨isNameEnd_lowerCase ?_, lowerCase_lowerCase _⟩
  intro d hd
  rw [String.toList_ofList] at hd
  simpa using List.mem_takeWhile_imp hd

/-- A value that is read without faults stands by itself or between quotes. -/
theorem scanValue_clean {c : Cursor} (h : (scanValue c).faults = []) (name : String) :
    (∃ value, AttributeSpelling (name, value) (.attributeName name :: (scanValue c).tokens.map Token.lexeme)) ∧
      (scanValue c).next.ahead <:+ c.ahead := by
  unfold scanValue at h ⊢
  split at h
  · next quote rest hahead =>
    rw [hahead] at h ⊢
    dsimp only at h ⊢
    split at h
    · next hquote =>
      rw [if_pos hquote]
      split at h
      · simp [Scan.fault] at h
      · next hclosed =>
        rw [if_neg hclosed, ← hahead]
        refine ⟨⟨_, .quoted name _ quote⟩, ?_⟩
        exact ((Cursor.skip_suffix _ _).trans (Cursor.skip_suffix _ _)).trans (Cursor.skip_suffix _ _)
    · next hquote =>
      rw [if_neg hquote, ← hahead]
      exact ⟨⟨_, .unquoted name _⟩, Cursor.skip_suffix _ _⟩
  · next hahead =>
    rw [hahead]
    exact ⟨⟨"", .unquoted name ""⟩, by simp [Scan.token, hahead]⟩

/-- The scan of an attribute: its name, and a value if an equals sign follows. -/
theorem scanAttribute_eq (c : Cursor) : scanAttribute c =
    (Scan.token (.attributeName (scanName c).1) c (scanName c).2).andThen fun _ =>
      if (scanName c).2.skipSpaces.startsWith ['='] then scanValue ((scanName c).2.skipSpaces.skip 1).skipSpaces
      else .nothing (scanName c).2.skipSpaces := rfl

/-- An attribute that is read without faults. -/
theorem scanAttribute_clean {c : Cursor} (h : (scanAttribute c).faults = []) :
    (∃ value, AttributeSpelling ((scanName c).1, value) ((scanAttribute c).tokens.map Token.lexeme)) ∧
      (scanAttribute c).next.ahead <:+ (scanName c).2.ahead := by
  rw [scanAttribute_eq] at h ⊢
  by_cases hequals : (scanName c).2.skipSpaces.startsWith ['='] = true
  · rw [if_pos hequals] at h ⊢
    obtain ⟨⟨value, hvalue⟩, hsuffix⟩ := scanValue_clean h (scanName c).1
    refine ⟨⟨value, hvalue⟩, ?_⟩
    exact ((hsuffix.trans (Cursor.skipSpaces_suffix _)).trans (Cursor.skip_suffix _ _)).trans
      (Cursor.skipSpaces_suffix _)
  · rw [if_neg hequals]
    exact ⟨⟨"", .absent _⟩, Cursor.skipSpaces_suffix _⟩

/-- A character that starts an attribute is part of its name, and the name can be written. -/
theorem scanName_attribute {c : Cursor} {d : Char} {ds : List Char} (hahead : c.ahead = d :: ds)
    (hd : isNameEnd d = false) (hgrave : d ≠ '\x60') :
    IsAttributeName (scanName c).1 ∧ (scanName c).2.ahead <:+ ds := by
  have htake : c.ahead.takeWhile (!isNameEnd ·) = d :: ds.takeWhile (!isNameEnd ·) := by
    rw [hahead, List.takeWhile_cons_of_pos (by simp [hd])]
  refine ⟨⟨isNameText_scanName c, ?_⟩, ?_⟩
  · obtain ⟨e, es, hes, hfrom, -⟩ := exists_lowerCase_cons
      (s := String.ofList (c.ahead.takeWhile (!isNameEnd ·))) (by rw [String.toList_ofList, htake])
    refine ⟨e, by rw [scanName, hes]; rfl, ?_⟩
    rintro rfl
    rcases hfrom with hself | hsmall | hbeyond
    · exact hgrave hself.symm
    · cases hsmall
    · revert hbeyond
      decide
  · unfold scanName
    dsimp only
    rw [Cursor.skip_ahead, htake, hahead, List.length_cons, List.drop_succ_cons]
    exact List.drop_suffix _ _

/-- What begins an attribute, if nothing is wrong there, may stand in a name and is no grave accent. -/
theorem isNameEnd_eq_false {c : Cursor} {d : Char} {ds : List Char} (hahead : c.skipSpaces.ahead = d :: ds)
    (hplain : IsPlain c.skipSpaces.ahead) (hclose : d ≠ '>') (hstray : isStrayInTag d = false) :
    isNameEnd d = false ∧ d ≠ '\x60' := by
  have hspace : isSpace d = false := by
    have hhead := List.head?_dropWhile_not isSpace c.ahead
    rwa [← Cursor.skipSpaces_ahead, hahead] at hhead
  have hnul : d ≠ '\x00' := (hplain d (by rw [hahead]; exact List.mem_cons_self)).2
  simp only [isStrayInTag, isQuote, Bool.or_eq_false_iff, decide_eq_false_iff_not] at hstray
  simp [isNameEnd, hspace, hnul, hclose, hstray]

/-- The mark that ends a start tag, as a lexeme. -/
def TagEnd.lexeme : TagEnd → Lexeme
  | .selfClosed => .tagSelfClose
  | _ => .tagOpenEnd

/-- At the end of the source, the start tag is not complete. -/
theorem scanAttributes_nil {fuel : Nat} {c : Cursor} (h : c.skipSpaces.ahead = []) :
    scanAttributes (fuel + 1) c = ((Scan.nothing c.skipSpaces).fault, .missing) := by
  rw [scanAttributes]
  dsimp only
  rw [h]

/-- What the next character in a start tag is: its end, something stray, or an attribute. -/
theorem scanAttributes_cons {fuel : Nat} {c : Cursor} {d : Char} {ds : List Char}
    (h : c.skipSpaces.ahead = d :: ds) : scanAttributes (fuel + 1) c =
      if d = '>' then (.token .tagOpenEnd c.skipSpaces (c.skipSpaces.skip 1), .opened)
      else if c.skipSpaces.startsWith ['/', '>'] then
        (.token .tagSelfClose c.skipSpaces (c.skipSpaces.skip 2), .selfClosed)
      else
        let first := if isStrayInTag d then { (Scan.nothing c.skipSpaces).fault with next := c.skipSpaces.skip 1 }
          else scanAttribute c.skipSpaces
        (first.andThen fun _ => (scanAttributes fuel first.next).1, (scanAttributes fuel first.next).2) := by
  rw [scanAttributes]
  dsimp only
  rw [h]

/-- The attributes of a start tag that are read without faults, up to the mark that ends it. -/
theorem scanAttributes_clean : (fuel : Nat) → {c : Cursor} → IsPlain c.ahead → c.ahead.length < fuel →
    (scanAttributes fuel c).1.faults = [] →
    ∃ as ls, AttributesSpelling as ls ∧ (∀ a ∈ as, IsAttributeName a.1) ∧
      (scanAttributes fuel c).1.tokens.map Token.lexeme = ls ++ [(scanAttributes fuel c).2.lexeme] ∧
      (scanAttributes fuel c).2 ≠ .missing ∧ (scanAttributes fuel c).1.next.ahead <:+ c.ahead
  | fuel + 1, c, hplain, hfuel, h => by
    cases hahead : c.skipSpaces.ahead with
    | nil =>
      rw [scanAttributes_nil hahead] at h
      -- The text ends inside the tag, which is a fault.
      simp [Scan.fault] at h
    | cons d ds =>
      have hspaces := c.skipSpaces_suffix
      rw [scanAttributes_cons hahead] at h ⊢
      by_cases hclose : d = '>'
      · rw [if_pos hclose]
        exact ⟨[], [], .nil, by simp, rfl, nofun, (Cursor.skip_suffix _ _).trans hspaces⟩
      · rw [if_neg hclose] at h ⊢
        by_cases hself : c.skipSpaces.startsWith ['/', '>'] = true
        · rw [if_pos hself]
          exact ⟨[], [], .nil, by simp, rfl, nofun, (Cursor.skip_suffix _ _).trans hspaces⟩
        · rw [if_neg hself] at h ⊢
          dsimp only at h ⊢
          by_cases hstray : isStrayInTag d = true
          · rw [if_pos hstray] at h
            simp [Scan.andThen, Scan.fault] at h
          · rw [if_neg hstray] at h ⊢
            obtain ⟨hfirst, hrest⟩ := List.append_eq_nil_iff.1 h
            obtain ⟨⟨value, hvalue⟩, hnext⟩ := scanAttribute_clean hfirst
            have hd := isNameEnd_eq_false hahead (hplain.of_suffix hspaces) hclose (by simpa using hstray)
            obtain ⟨hname, hafter⟩ := scanName_attribute hahead hd.1 hd.2
            have hsuffix : (scanAttribute c.skipSpaces).next.ahead <:+ ds := hnext.trans hafter
            have hwithin : ds <:+ c.ahead := (hahead ▸ List.suffix_cons d ds).trans hspaces
            have hlength : (scanAttribute c.skipSpaces).next.ahead.length < fuel := by
              have := hsuffix.length_le
              have := hspaces.length_le
              rw [hahead, List.length_cons] at this
              omega
            obtain ⟨as, ls, hls, has, htokens, hend, hlast⟩ := scanAttributes_clean fuel
              (hplain.of_suffix (hsuffix.trans hwithin)) hlength hrest
            refine ⟨_, _, .cons hvalue hls, List.forall_mem_cons.2 ⟨hname, has⟩, ?_, hend,
              hlast.trans (hsuffix.trans hwithin)⟩
            rw [Scan.andThen, List.map_append, htokens, List.append_assoc]

/-! ### Sequences of items -/

/-- What can be said of an item that was read. -/
inductive Item.Sound : Item → Prop where
  | text (value : String) : Sound (.text value)
  | comment {value : String} (h : IsCommentText value) (h' : IsPlain value.toList) : Sound (.comment value)
  | declaration (value : String) : Sound (.declaration value)
  | startTag {name : String} {as : List (String × String)} {isSelfClosing : Bool} (hname : IsTagName name)
    (has : ∀ a ∈ as, IsAttributeName a.1)
    (hcontent : isSelfClosing = false → (TagRules.html name).content = .parsable) :
    Sound (.startTag name as isSelfClosing)
  | endTag (name : String) : Sound (.endTag name)
  | endOfSource : Sound .endOfSource

/-- The sequences of items that a source is read as.  After the content of an element that holds no markup,
whose name is kept, comes the end tag of the element or the end of the source. -/
inductive Sequence : (inside : Option String) → List Item → Prop where
  | nil (inside : Option String) : Sequence inside []
  | cons {i : Item} {is : List Item} (hi : i.Sound) (h : Sequence none is) : Sequence none (i :: is)
  | raw {name : String} {as : List (String × String)} {value : String} {is : List Item}
    (hname : IsTagName name) (has : ∀ a ∈ as, IsAttributeName a.1)
    (hcontent : (TagRules.html name).content ≠ .parsable)
    (hvalue : (TagRules.html name).content = .rawText → HoldsNoEndTag name value.toList)
    (h : Sequence (some name) is) :
    Sequence none (.startTag name as false :: .rawText value :: is)
  | close {name : String} {is : List Item} (h : Sequence none is) : Sequence (some name) (.endTag name :: is)
  | stop (name : String) : Sequence (some name) [.endOfSource]

/-- The scan of a text gives one text. -/
theorem scanText_clean (c : Cursor) :
    ∃ value, (scanText c).tokens.map Token.lexeme = [.text value] ∧ (scanText c).next.ahead <:+ c.ahead :=
  ⟨_, rfl, Cursor.skip_suffix _ _⟩

/-- What stands before the first `-->` may be the text of a comment. -/
theorem isCommentText_take_extent (cs : List Char) :
    IsCommentText (String.ofList (cs.take (extent (['-', '-', '>'].isPrefixOf ·) cs))) := by
  rintro ⟨before, after, hinfix⟩
  rw [String.toList_ofList] at hinfix
  obtain ⟨-, hclean⟩ := extent_split (['-', '-', '>'].isPrefixOf ·) cs
  have hstops := hclean (['-', '-', '>'] ++ after) (by simp) ⟨before, by rw [← hinfix, List.append_assoc]⟩
  simp [List.isPrefixOf] at hstops

/-- The scan of a comment without faults gives its opening, its text and its end. -/
theorem scanComment_clean {c : Cursor} (hplain : IsPlain c.ahead) (h : (scanComment c).faults = []) :
    ∃ value, IsCommentText value ∧ IsPlain value.toList ∧
      (scanComment c).tokens.map Token.lexeme = [.commentStart, .text value, .commentEnd] ∧
      (scanComment c).next.ahead <:+ c.ahead := by
  unfold scanComment at h ⊢
  dsimp only at h ⊢
  split at h
  · simp [Scan.fault] at h
  · next hclosed =>
    rw [if_neg hclosed]
    refine ⟨_, isCommentText_take_extent _, ?_, rfl, ?_⟩
    · rw [String.toList_ofList]
      exact fun d hd => hplain d ((Cursor.skip_suffix _ _).subset (List.mem_of_mem_take hd))
    · exact ((Cursor.skip_suffix _ _).trans (Cursor.skip_suffix _ _)).trans (Cursor.skip_suffix _ _)

/-- The scan of a declaration without faults gives one token. -/
theorem scanDocType_clean {c : Cursor} (h : (scanDocType c).faults = []) :
    ∃ value, (scanDocType c).tokens.map Token.lexeme = [.docType value] ∧
      (scanDocType c).next.ahead <:+ c.ahead := by
  unfold scanDocType at h ⊢
  dsimp only at h ⊢
  split at h
  · simp [Scan.fault] at h
  · next hclosed =>
    rw [if_neg hclosed]
    exact ⟨_, rfl, ((Cursor.skip_suffix _ _).trans (Cursor.skip_suffix _ _)).trans (Cursor.skip_suffix _ _)⟩

/-- The scan of an end tag without faults gives one token with its name. -/
theorem scanTagClose_clean {c : Cursor} (h : (scanTagClose c).faults = []) :
    (scanTagClose c).tokens.map Token.lexeme = [.tagClose (scanName (c.skip 2)).1] ∧
      (scanTagClose c).next.ahead <:+ c.ahead := by
  unfold scanTagClose at h ⊢
  dsimp only at h ⊢
  split at h
  · next hclosed =>
    rw [if_pos hclosed]
    refine ⟨rfl, ?_⟩
    exact (((Cursor.skip_suffix _ _).trans (Cursor.skipSpaces_suffix _)).trans (Cursor.skip_suffix _ _)).trans
      (Cursor.skip_suffix _ _)
  · simp at h

/-- An end tag begins with `</` and goes on with the name. -/
theorem exists_cons_of_closesTag {name cs : List Char} (h : closesTag name cs = true) :
    ∃ ds, cs = '<' :: '/' :: ds ∧ startsWithName name ds = true := by
  unfold closesTag at h
  split at h
  · exact ⟨_, rfl, h⟩
  · cases h

/-- The content of an element that holds no markup ends where its end tag starts. -/
theorem scanRawText_clean {name : String} (hname : IsNameText name) (decoded : Bool) (c : Cursor) :
    ∃ value, (scanRawText name decoded c).tokens.map Token.lexeme = [.rawText value] ∧
      (decoded = false → HoldsNoEndTag name value.toList) ∧
      ((scanRawText name decoded c).next.ahead = [] ∨
        closesTag name.toList (scanRawText name decoded c).next.ahead = true) ∧
      (scanRawText name decoded c).next.ahead <:+ c.ahead := by
  obtain ⟨hrest, hclean⟩ := extent_split (closesTag name.toList) c.ahead
  refine ⟨_, rfl, ?_, hrest, Cursor.skip_suffix _ _⟩
  rintro rfl b hb
  rw [if_neg (by decide), String.toList_ofList] at hb
  by_cases hnil : b = []
  · rw [hnil]
    rfl
  · have hb := hclean b hnil hb
    rcases hrest with hrest | hrest
    · rwa [hrest, List.append_nil] at hb
    · obtain ⟨ds, hds, -⟩ := exists_cons_of_closesTag hrest
      rwa [hds, closesTag_append_angle hname.angle_notMem hnil] at hb

/-- A letter ends no name. -/
theorem isNameEnd_of_isAsciiLetter {c : Char} (h : isAsciiLetter c = true) : isNameEnd c = false :=
  forall_isAscii (p := fun c => isAsciiLetter c = true → isNameEnd c = false) (by decide +kernel)
    (isAscii_of_isAsciiLetter h) h

/-- The name after an opening angle bracket and a letter. -/
theorem isTagName_scanName {c : Cursor} {d : Char} {ds : List Char} (hahead : c.ahead = d :: ds)
    (hd : isAsciiLetter d = true) : IsTagName (scanName c).1 := by
  refine ⟨isNameText_scanName c, ?_⟩
  have hend : isNameEnd d = false := isNameEnd_of_isAsciiLetter hd
  have htake : c.ahead.takeWhile (!isNameEnd ·) = d :: ds.takeWhile (!isNameEnd ·) := by
    rw [hahead, List.takeWhile_cons_of_pos (by simp [hend])]
  obtain ⟨e, es, hes, -, hletter⟩ := exists_lowerCase_cons
    (s := String.ofList (c.ahead.takeWhile (!isNameEnd ·))) (by rw [String.toList_ofList, htake])
  exact ⟨e, by rw [scanName, hes]; rfl, hletter hd⟩

/-- The scan from the cursor reads items that stand before every sequence that can follow, `inside` the
content of an element of that name if there is one. -/
structure Scan.Yields (s : Scan) (c : Cursor) (inside : Option String) : Prop where
  items : ∃ is, s.Reads is s.next.ahead ∧ ∀ js, Sequence inside js → Sequence none (is ++ js)
  ends : ∀ name ∈ inside, IsTagName name ∧ (TagRules.html name).content ≠ .parsable ∧
    (s.next.ahead = [] ∨ closesTag name.toList s.next.ahead = true)
  within : s.next.ahead <:+ c.ahead

/-- A scan that gives the spelling of a sound item, without faults, yields that item. -/
theorem Scan.Yields.of_sound {s : Scan} {c : Cursor} {i : Item} {ls : List Lexeme} (hi : i.Sound)
    (hls : i.Spelling ls) (htokens : s.tokens.map Token.lexeme = ls) (hfaults : s.faults = [])
    (hwithin : s.next.ahead <:+ c.ahead) : s.Yields c none :=
  ⟨⟨[i], ⟨ls, hls.singleton, htokens, hfaults, rfl⟩, fun _ hjs => .cons hi hjs⟩, by simp, hwithin⟩

/-- The scan of a start tag: its name, its attributes, and its content if that is no markup. -/
theorem scanTagOpen_eq (c : Cursor) : scanTagOpen TagRules.html c =
    let name := (scanName (c.skip 1)).1
    let after := (scanName (c.skip 1)).2
    let attributes := scanAttributes (after.ahead.length + 1) after
    let tag := (Scan.token (.tagOpen name) c after).andThen fun _ => attributes.1
    match attributes.2, (TagRules.html name).content with
    | .opened, .rawText => tag.andThen (scanRawText name false)
    | .opened, .escapableRawText => tag.andThen (scanRawText name true)
    | _, _ => tag := rfl

/-- A start tag that is read without faults, with the content of the element if it holds no markup. -/
theorem scanTagOpen_clean {c : Cursor} {d : Char} {ds : List Char} (hplain : IsPlain c.ahead)
    (hahead : c.ahead = '<' :: d :: ds) (hd : isAsciiLetter d = true)
    (h : (scanTagOpen TagRules.html c).faults = []) :
    ∃ inside, (scanTagOpen TagRules.html c).Yields c inside := by
  have hname : IsTagName (scanName (c.skip 1)).1 :=
    isTagName_scanName (by rw [Cursor.skip_ahead, hahead]; rfl) hd
  have hafter : (scanName (c.skip 1)).2.ahead <:+ c.ahead :=
    (Cursor.skip_suffix _ _).trans (Cursor.skip_suffix _ _)
  rw [scanTagOpen_eq] at h ⊢
  dsimp only at h ⊢
  generalize (scanName (c.skip 1)).1 = name at *
  generalize (scanName (c.skip 1)).2 = after at *
  have hfaults : (scanAttributes (after.ahead.length + 1) after).1.faults = [] := by
    split at h
    · exact (List.append_eq_nil_iff.1 h).1
    · exact (List.append_eq_nil_iff.1 h).1
    · exact h
  obtain ⟨as, ls, hls, has, htokens, hend, hwithin⟩ := scanAttributes_clean _ (hplain.of_suffix hafter)
    (Nat.lt_succ_self _) hfaults
  generalize scanAttributes (after.ahead.length + 1) after = attributes at *
  obtain ⟨attributes, tagEnd⟩ := attributes
  have htag : ((Scan.token (.tagOpen name) c after).andThen fun _ => attributes).Gives
      (.tagOpen name :: (ls ++ [tagEnd.lexeme])) attributes.next.ahead :=
    ⟨congrArg (Lexeme.tagOpen name :: ·) htokens, hfaults, rfl⟩
  cases tagEnd with
  | missing => exact absurd rfl hend
  | selfClosed =>
    have hsound : (Item.startTag name as true).Sound := .startTag hname has nofun
    exact ⟨none, .of_sound hsound (.selfClosed name hls) htag.lexemes h (hwithin.trans hafter)⟩
  | opened =>
    -- The content follows the start tag of an element that holds no markup.
    have hraw (decoded : Bool) (hcontent : (TagRules.html name).content ≠ .parsable)
        (hdecoded : (TagRules.html name).content = .rawText → decoded = false) :
        (((Scan.token (.tagOpen name) c after).andThen fun _ => attributes).andThen
          (scanRawText name decoded)).Yields c (some name) := by
      obtain ⟨value, hvalue, hholds, hends, hsuffix⟩ :=
        scanRawText_clean hname.toIsNameText decoded attributes.next
      refine ⟨⟨[.startTag name as false, .rawText value], ?_, ?_⟩, ?_, hsuffix.trans (hwithin.trans hafter)⟩
      · exact (htag.reads (.opened name hls)).andThen
          ⟨_, (Item.Spelling.rawText value).singleton, hvalue, rfl, rfl⟩
      · exact fun js hjs => .raw hname has hcontent (fun hraw => hholds (hdecoded hraw)) hjs
      · rintro _ ⟨⟩
        exact ⟨hname, hcontent, hends⟩
    dsimp only at h ⊢
    cases hcontent : (TagRules.html name).content with
    | rawText => exact ⟨some name, hraw false (by rw [hcontent]; decide) fun _ => rfl⟩
    | escapableRawText => exact ⟨some name, hraw true (by rw [hcontent]; decide) (by rw [hcontent]; nofun)⟩
    | parsable =>
      exact ⟨none, .of_sound (.startTag hname has fun _ => hcontent) (.opened name hls) htag.lexemes hfaults
        (hwithin.trans hafter)⟩

/-- An item that is read without faults. -/
theorem scanItem_clean {c : Cursor} (hplain : IsPlain c.ahead) (h : (scanItem TagRules.html c).faults = []) :
    ∃ inside, (scanItem TagRules.html c).Yields c inside := by
  unfold scanItem at h ⊢
  by_cases hopens : opensMarkup c.ahead = true
  · rw [if_pos hopens] at h ⊢
    by_cases hcomment : c.startsWith ['<', '!', '-', '-'] = true
    · rw [if_pos hcomment] at h ⊢
      obtain ⟨value, hvalue, hplain, htokens, hwithin⟩ := scanComment_clean hplain h
      exact ⟨none, .of_sound (.comment hvalue hplain) (.comment value) htokens h hwithin⟩
    · rw [if_neg hcomment] at h ⊢
      by_cases hdeclaration : c.startsWith ['<', '!'] = true
      · rw [if_pos hdeclaration] at h ⊢
        obtain ⟨value, htokens, hwithin⟩ := scanDocType_clean h
        exact ⟨none, .of_sound (.declaration value) (.declaration value) htokens h hwithin⟩
      · rw [if_neg hdeclaration] at h ⊢
        by_cases hend : c.startsWith ['<', '/'] = true
        · rw [if_pos hend] at h ⊢
          obtain ⟨htokens, hwithin⟩ := scanTagClose_clean h
          exact ⟨none, .of_sound (.endTag _) (.endTag _) htokens h hwithin⟩
        · rw [if_neg hend] at h ⊢
          obtain ⟨d, ds, hahead, hd⟩ : ∃ d ds, c.ahead = '<' :: d :: ds ∧ isAsciiLetter d = true := by
            unfold Cursor.startsWith at hdeclaration hend
            generalize c.ahead = cs at *
            unfold opensMarkup at hopens
            split at hopens
            · simp [List.isPrefixOf] at hend
            · next d ds _ =>
              have hbang : d ≠ '!' := by
                rintro rfl
                exact hdeclaration rfl
              exact ⟨d, ds, rfl, by simpa [hbang] using hopens⟩
            · cases hopens
          exact scanTagOpen_clean hplain hahead hd h
  · rw [if_neg hopens] at h ⊢
    obtain ⟨value, htokens, hwithin⟩ := scanText_clean c
    exact ⟨none, .of_sound (.text value) (.text value) htokens h hwithin⟩

/-! ### End tags of elements without markup -/

/-- The names of elements whose content is no markup are made of small letters. -/
theorem isAsciiLower_of_mem_rawNames {name : String} (h : name ∈ rawNames) :
    name.toList ≠ [] ∧ ∀ c ∈ name.toList, isAsciiLower c = true := by
  have hall : ∀ name ∈ rawNames, name.toList ≠ [] ∧ name.toList.all isAsciiLower = true := by
    decide +kernel
  obtain ⟨hne, hlower⟩ := hall name h
  exact ⟨hne, List.all_eq_true.1 hlower⟩

/-- A letter in another case is a letter. -/
theorem isAsciiLetter_of_sameIgnoringCase {a c : Char} (ha : isAsciiLower a = true)
    (h : sameIgnoringCase a c = true) : isAsciiLetter c = true ∧ c.toLower = a := by
  rw [sameIgnoringCase, decide_eq_true_eq, toLower_of_isAsciiLower ha] at h
  refine ⟨?_, h.symm⟩
  by_cases hc : isAscii c = true
  · refine forall_isAscii (p := fun c => isAsciiLower c.toLower = true → isAsciiLetter c = true)
      (by decide +kernel) hc (h ▸ ha)
  · rw [toLower_eq_self_of_not_isAscii (by simpa using hc)] at h
    rw [← h, isAsciiLetter, ha, Bool.or_true]

/-- Where the name of an end tag starts, it is read. -/
theorem takeWhile_of_startsWithName : {name cs : List Char} → (∀ c ∈ name, isAsciiLower c = true) →
    startsWithName name cs = true →
    (cs.takeWhile (!isNameEnd ·)).map Char.toLower = name ∧
      ∀ c ∈ cs.takeWhile (!isNameEnd ·), isAscii c = true
  | [], [], _, _ => by simp
  | [], c :: cs, _, h => by
    have hend : isNameEnd c = true := h
    rw [List.takeWhile_cons_of_neg (by simp [hend])]
    simp
  | a :: name, c :: cs, hname, h => by
    obtain ⟨ha, hname⟩ := List.forall_mem_cons.1 hname
    rw [startsWithName, Bool.and_eq_true] at h
    obtain ⟨hletter, hlower⟩ := isAsciiLetter_of_sameIgnoringCase ha h.1
    have hascii := isAscii_of_isAsciiLetter hletter
    have hend : isNameEnd c = false := isNameEnd_of_isAsciiLetter hletter
    obtain ⟨hmap, hall⟩ := takeWhile_of_startsWithName hname h.2
    rw [List.takeWhile_cons_of_pos (by simp [hend])]
    exact ⟨by rw [List.map_cons, hlower, hmap], List.forall_mem_cons.2 ⟨hascii, hall⟩⟩

/-- Where the end tag of an element without markup starts, it is read. -/
theorem scanItem_close {c : Cursor} {name : String} (hname : name ∈ rawNames)
    (hcloses : closesTag name.toList c.ahead = true) (h : (scanItem TagRules.html c).faults = []) :
    (scanItem TagRules.html c).Reads [.endTag name] (scanItem TagRules.html c).next.ahead ∧
      (scanItem TagRules.html c).next.ahead <:+ c.ahead := by
  obtain ⟨hne, hlower⟩ := isAsciiLower_of_mem_rawNames hname
  obtain ⟨ds, hahead, hstarts⟩ := exists_cons_of_closesTag hcloses
  obtain ⟨hmap, hascii⟩ := takeWhile_of_startsWithName hlower hstarts
  have hdispatch : scanItem TagRules.html c = scanTagClose c := by
    have hletter : ∃ e es, ds = e :: es ∧ isAsciiLetter e = true := by
      obtain ⟨a, as, has⟩ := List.exists_cons_of_ne_nil hne
      rw [has] at hlower hstarts
      cases ds with
      | nil => cases hstarts
      | cons e es =>
        rw [startsWithName, Bool.and_eq_true] at hstarts
        exact ⟨e, es, rfl, (isAsciiLetter_of_sameIgnoringCase (hlower a List.mem_cons_self) hstarts.1).1⟩
    obtain ⟨e, es, rfl, he⟩ := hletter
    unfold scanItem Cursor.startsWith
    rw [hahead]
    simp [opensMarkup, he, List.isPrefixOf]
  have hread : (scanName (c.skip 2)).1 = name := by
    have hskip : (c.skip 2).ahead = ds := by
      rw [Cursor.skip_ahead, hahead]
      rfl
    unfold scanName lowerCase
    dsimp only
    rw [hskip, String.toList_ofList, lowerChars_of_isAscii _ hascii, hmap, String.ofList_toList]
  rw [hdispatch] at h ⊢
  obtain ⟨htokens, hwithin⟩ := scanTagClose_clean h
  exact ⟨⟨_, (Item.Spelling.endTag name).singleton, by rw [htokens, hread], h, rfl⟩, hwithin⟩

/-! ### Whole sources -/

/-- A source that is read without faults is a sequence of items. -/
theorem scanAll_clean : (fuel : Nat) → {c : Cursor} → IsPlain c.ahead →
    (scanAll TagRules.html fuel c).faults = [] → ∀ inside : Option String,
    (∀ name ∈ inside, name ∈ rawNames ∧ (c.ahead = [] ∨ closesTag name.toList c.ahead = true)) →
    ∃ is ls, Sequence inside is ∧ Spelling is ls ∧
      (scanAll TagRules.html fuel c).tokens.map Token.lexeme = ls
  | 0, c, _, _, inside, _ => ⟨[], [], .nil inside, .nil, rfl⟩
  | fuel + 1, c, hplain, h, inside, hinside => by
    cases hahead : c.ahead with
    | nil =>
      rw [scanAll, hahead]
      refine ⟨[.endOfSource], _, ?_, Item.Spelling.endOfSource.singleton, rfl⟩
      cases inside with
      | none => exact .cons .endOfSource (.nil none)
      | some name => exact .stop name
    | cons d ds =>
      rw [scanAll, hahead] at h ⊢
      dsimp only at h ⊢
      obtain ⟨hfirst, hrest⟩ := List.append_eq_nil_iff.1 h
      -- Behind a start tag whose content is no markup, the end tag is what comes next.
      cases inside with
      | none =>
        obtain ⟨inside, ⟨is, ⟨ls, hls, hgives⟩, hbefore⟩, hends, hwithin⟩ := scanItem_clean hplain hfirst
        have hraw : ∀ name ∈ inside, name ∈ rawNames ∧
            ((scanItem TagRules.html c).next.ahead = [] ∨
              closesTag name.toList (scanItem TagRules.html c).next.ahead = true) := by
          intro name hname
          obtain ⟨htag, hcontent, hclose⟩ := hends name hname
          exact ⟨(html_of_lowerCase htag.lower).1 hcontent, hclose⟩
        obtain ⟨js, ls', hjs, hls', htokens⟩ := scanAll_clean fuel (hplain.of_suffix hwithin) hrest inside hraw
        refine ⟨is ++ js, ls ++ ls', hbefore js hjs, hls.append hls', ?_⟩
        rw [Scan.andThen, List.map_append, hgives.lexemes, htokens]
      | some name =>
        obtain ⟨hname, hclose⟩ := hinside name rfl
        have hcloses : closesTag name.toList c.ahead = true :=
          hclose.resolve_left (by rw [hahead]; exact List.cons_ne_nil d ds)
        obtain ⟨⟨ls, hls, hgives⟩, hwithin⟩ := scanItem_close hname hcloses hfirst
        obtain ⟨js, ls', hjs, hls', htokens⟩ :=
          scanAll_clean fuel (hplain.of_suffix hwithin) hrest none (by simp)
        refine ⟨.endTag name :: js, ls ++ ls', .close hjs, hls.append hls', ?_⟩
        rw [Scan.andThen, List.map_append, hgives.lexemes, htokens]

/-- With line endings unified there is no carriage return. -/
theorem mem_unifyLines {d : Char} (cs : List Char) (h : d ∈ unifyLines cs) : d ≠ '\r' := by
  fun_induction unifyLines cs with
  | case1 => cases h
  | case2 cs ih =>
    rcases List.mem_cons.1 h with rfl | h
    · decide
    · exact ih h
  | case3 c cs hne ih =>
    rcases List.mem_cons.1 h with rfl | h
    · split
      · decide
      · assumption
    · exact ih h

/-- What is scanned of a source is plain. -/
theorem isPlain_beforeNul_unifyLines (cs : List Char) : IsPlain (beforeNul (unifyLines cs)) := by
  intro d hd
  have hmem := List.takeWhile_prefix (p := (· ≠ '\x00')) (l := unifyLines cs) |>.subset hd
  exact ⟨mem_unifyLines cs hmem, by simpa using List.mem_takeWhile_imp hd⟩

/-- The tokens of a source without faults are a sequence of items. -/
theorem tokenize_clean {source : String} (h : (tokenize TagRules.html source).faults = []) :
    ∃ is ls, Sequence none is ∧ Spelling is ls ∧
      (tokenize TagRules.html source).tokens.map Token.lexeme = ls :=
  scanAll_clean _ (isPlain_beforeNul_unifyLines source.toList) h none nofun

end ViewTemplate.Markup
