import Mathlib.Data.List.Chain
import ViewTemplate.Text.Name
import ViewTemplate.Proofs.Text.LowerCase

/-!
# The two spellings of a name

A property name in camel case comes back from its dashed spelling, and a dashed name from its camel case, as long as
each spelling keeps the words apart.  In camel case a capital needs a small letter or a digit before it to start a word,
so a word of one letter can stand only at the ends of a name.

* `IsCamelCase`, `IsKebabCase` — the names that keep their words apart.
* `dashAfter` — a dash is put by what comes right before a capital.
* `camelChars_dashAfter` — camel case takes the dashes out again.
* `camelChars_dashed`, `dashAfter_capitalised` — words lose their dashes in camel case, and get them back.
* `camelCase_kebabCase_inverse` — from one spelling to the other and back.
-/

namespace ViewTemplate.Text

/-! ### Names that keep their words apart -/

/-- The names in camel case: letters and digits, where every capital comes right behind a small letter or a digit. -/
structure IsCamelCase (name : String) : Prop where
  chars : ∀ c ∈ name.toList, (isAsciiLetter c || isDigit c) = true
  start : ∀ c ∈ name.toList.head?, isAsciiUpper c = false
  capitals : name.toList.IsChain fun a b => isAsciiUpper b = true → isWordChar a = true

/-- A word of a dashed name: a small letter, with small letters and digits behind it. -/
def isNameWord : List Char → Bool
  | [] => false
  | c :: cs => isAsciiLower c && cs.all isWordChar

/-- The names in words with a dash between them, where only the first and the last word may have one letter. -/
def IsKebabCase (name : String) : Prop :=
  ∃ words : List (List Char), name.toList = ['-'].intercalate words ∧ (∀ w ∈ words, isNameWord w = true) ∧
    ∀ w ∈ words.tail.dropLast, 2 ≤ w.length

/-! ### Characters of names -/

/-- Digits are ASCII characters. -/
theorem isAscii_of_isDigit {c : Char} (h : isDigit c = true) : isAscii c = true := by
  simp only [isDigit, Char.le_def, UInt32.le_iff_toNat_le, Bool.and_eq_true, decide_eq_true_eq] at h
  have hle : c.toNat ≤ 57 := h.2
  simp only [isAscii, decide_eq_true_eq]
  omega

/-- Word characters are ASCII characters. -/
theorem isAscii_of_isWordChar {c : Char} (h : isWordChar c = true) : isAscii c = true :=
  (Bool.or_eq_true_iff.1 h).elim isAscii_of_isAsciiLower isAscii_of_isDigit

/-- A capital comes back from its small letter. -/
theorem toUpper_toLower {c : Char} (h : isAsciiUpper c = true) :
    c.toLower.toUpper = c ∧ isWordChar c.toLower = true :=
  forall_isAscii (p := fun c => isAsciiUpper c = true → c.toLower.toUpper = c ∧ isWordChar c.toLower = true)
    (by decide +kernel) (isAscii_of_isAsciiLetter (by rw [isAsciiLetter, h, Bool.true_or])) h

/-- A small letter comes back from its capital, which is none itself. -/
theorem toLower_toUpper {c : Char} (h : isAsciiLower c = true) :
    c.toUpper.toLower = c ∧ isAsciiUpper c.toUpper = true ∧ isWordChar c.toUpper = false :=
  forall_isAscii (p := fun c => isAsciiLower c = true →
    c.toUpper.toLower = c ∧ isAsciiUpper c.toUpper = true ∧ isWordChar c.toUpper = false)
    (by decide +kernel) (isAscii_of_isAsciiLower h) h

/-- A word character is in lower case already, and no dash. -/
theorem toLower_of_isWordChar {c : Char} (h : isWordChar c = true) :
    c.toLower = c ∧ isAsciiUpper c = false ∧ c ≠ '-' :=
  forall_isAscii (p := fun c => isWordChar c = true → c.toLower = c ∧ isAsciiUpper c = false ∧ c ≠ '-')
    (by decide +kernel) (isAscii_of_isWordChar h) h

/-- Lower case leaves no capital, and no character that is not ASCII. -/
theorem isAsciiUpper_toLower {c : Char} (h : isAscii c = true) :
    isAsciiUpper c.toLower = false ∧ isAscii c.toLower = true :=
  forall_isAscii (p := fun c => isAsciiUpper c.toLower = false ∧ isAscii c.toLower = true) (by decide +kernel) h

/-- Word characters are in lower case already. -/
theorem map_toLower_eq_self {cs : List Char} (h : ∀ c ∈ cs, isWordChar c = true) : cs.map Char.toLower = cs :=
  (List.map_congr_left fun c hc => (toLower_of_isWordChar (h c hc)).1).trans (List.map_id' cs)

/-! ### Where dashes are put -/

/-- Puts a dash before a capital that comes right behind a word character; `afterWord` tells whether the characters
themselves come behind one. -/
def dashAfter (afterWord : Bool) : List Char → List Char
  | [] => []
  | c :: cs => (if afterWord && isAsciiUpper c then ['-', c] else [c]) ++ dashAfter (isWordChar c) cs

/-- A capital behind a word character gets a dash. -/
theorem dashAfter_capital {c : Char} (h : isAsciiUpper c = true) (cs : List Char) :
    dashAfter true (c :: cs) = '-' :: c :: dashAfter (isWordChar c) cs := by
  rw [dashAfter, h]
  rfl

/-- A character other than a capital gets no dash, whatever it comes behind. -/
theorem dashAfter_other {c : Char} (h : isAsciiUpper c = false) (afterWord : Bool) (cs : List Char) :
    dashAfter afterWord (c :: cs) = c :: dashAfter (isWordChar c) cs := by
  rw [dashAfter, h, Bool.and_false]
  rfl

/-- The first character gets no dash. -/
theorem dashChars_cons (c : Char) (cs : List Char) : dashChars (c :: cs) = c :: dashAfter (isWordChar c) cs := by
  induction cs generalizing c with
  | nil => rfl
  | cons d cs ih =>
    rw [dashChars, dashAfter, ih d]
    split <;> rfl

/-- At the beginning there is no word character before. -/
theorem dashChars_eq_dashAfter (cs : List Char) : dashChars cs = dashAfter false cs := by
  cases cs with
  | nil => rfl
  | cons c cs => rw [dashChars_cons, dashAfter, Bool.false_and]; rfl

/-- Without capitals no dash is put. -/
theorem dashAfter_eq_self {cs : List Char} (h : ∀ c ∈ cs, isAsciiUpper c = false) (afterWord : Bool) :
    dashAfter afterWord cs = cs := by
  induction cs generalizing afterWord with
  | nil => rfl
  | cons c cs ih =>
    obtain ⟨hc, hcs⟩ := List.forall_mem_cons.1 h
    rw [dashAfter_other hc, ih hcs]

/-- Behind a word that is not empty the next capital gets a dash. -/
theorem dashAfter_append_word {w : List Char} (hw : ∀ c ∈ w, isWordChar c = true) (hne : w ≠ []) (afterWord : Bool)
    (cs : List Char) : dashAfter afterWord (w ++ cs) = w ++ dashAfter true cs := by
  induction w generalizing afterWord with
  | nil => exact absurd rfl hne
  | cons c w ih =>
    obtain ⟨hc, hw⟩ := List.forall_mem_cons.1 hw
    rw [List.cons_append, dashAfter_other (toLower_of_isWordChar hc).2.1, hc]
    cases w with
    | nil => rfl
    | cons d w => rw [ih hw (List.cons_ne_nil d w)]; rfl

/-- Only dashes are put in. -/
theorem mem_dashAfter {c : Char} {cs : List Char} {afterWord : Bool} (h : c ∈ dashAfter afterWord cs) :
    c = '-' ∨ c ∈ cs := by
  induction cs generalizing afterWord with
  | nil => cases h
  | cons d cs ih =>
    rw [dashAfter, List.mem_append] at h
    rcases h with h | h
    · have hhere : c = '-' ∨ c = d := by split at h <;> simp_all
      rcases hhere with rfl | rfl
      · exact .inl rfl
      · exact .inr List.mem_cons_self
    · exact (ih h).imp_right (List.mem_cons_of_mem d)

/-- With dashes put in, ASCII characters are so still. -/
theorem isAscii_of_mem_dashAfter {cs : List Char} (h : ∀ c ∈ cs, isAscii c = true) {afterWord : Bool} :
    ∀ c ∈ dashAfter afterWord cs, isAscii c = true := by
  intro c hc
  rcases mem_dashAfter hc with rfl | hc
  · rfl
  · exact h c hc

/-- The dashed spelling of an ASCII name. -/
theorem toList_kebabCase {name : String} (h : ∀ c ∈ name.toList, isAscii c = true) :
    (kebabCase name).toList = (dashAfter false name.toList).map Char.toLower := by
  rw [kebabCase, String.toList_ofList, dashChars_eq_dashAfter, lowerChars_of_isAscii _ (isAscii_of_mem_dashAfter h)]

/-! ### From camel case to dashes and back -/

/-- A character other than a dash stays as it is. -/
theorem camelChars_cons {c : Char} (h : c ≠ '-') (cs : List Char) : camelChars 0 (c :: cs) = c :: camelChars 0 cs := by
  simp [camelChars, h]

/-- A word character behind a dash takes its place as a capital. -/
theorem camelChars_dash {c : Char} (h : isWordChar c = true) (cs : List Char) :
    camelChars 0 ('-' :: c :: cs) = c.toUpper :: camelChars 0 cs := by
  simp [camelChars, h, (toLower_of_isWordChar h).2.2]

/-- The dashes are taken out again, and the capitals come back. -/
theorem camelChars_dashAfter {cs : List Char} (hchars : ∀ c ∈ cs, (isAsciiLetter c || isDigit c) = true)
    {afterWord : Bool} (hstart : ∀ c ∈ cs.head?, isAsciiUpper c = true → afterWord = true)
    (hcapitals : cs.IsChain fun a b => isAsciiUpper b = true → isWordChar a = true) :
    camelChars 0 ((dashAfter afterWord cs).map Char.toLower) = cs := by
  induction cs generalizing afterWord with
  | nil => rfl
  | cons c cs ih =>
    obtain ⟨hc, hchars⟩ := List.forall_mem_cons.1 hchars
    have hrest := ih hchars (List.isChain_cons.1 hcapitals).1 (List.isChain_cons.1 hcapitals).2
    cases hupper : isAsciiUpper c with
    | true =>
      obtain ⟨hback, hword⟩ := toUpper_toLower hupper
      rw [hstart c rfl hupper, dashAfter_capital hupper, List.map_cons, List.map_cons]
      show camelChars 0 ('-' :: c.toLower :: _) = _
      rw [camelChars_dash hword, hback, hrest]
    | false =>
      have hword : isWordChar c = true := by simpa [isAsciiLetter, hupper, isWordChar] using hc
      obtain ⟨hlower, -, hdash⟩ := toLower_of_isWordChar hword
      rw [dashAfter_other hupper, List.map_cons, hlower, camelChars_cons hdash, hrest]

/-- A name in camel case comes back from its dashes: each dash was put in before a capital. -/
theorem camelCase_kebabCase {name : String} (h : IsCamelCase name) : camelCase (kebabCase name) = name := by
  have hascii : ∀ c ∈ name.toList, isAscii c = true := fun c hc =>
    (Bool.or_eq_true_iff.1 (h.chars c hc)).elim isAscii_of_isAsciiLetter isAscii_of_isDigit
  have hstart : ∀ c ∈ name.toList.head?, isAsciiUpper c = true → false = true := fun c hc hupper =>
    (h.start c hc).symm.trans hupper
  rw [camelCase, toList_kebabCase hascii, camelChars_dashAfter h.chars hstart h.capitals, String.ofList_toList]

/-! ### From dashes to camel case and back -/

/-- The word with a capital. -/
def capitalised : List Char → List Char
  | [] => []
  | c :: cs => c.toUpper :: cs

/-- A word of a name begins with a small letter, and word characters follow. -/
theorem isNameWord_cons {c : Char} {cs : List Char} (h : isNameWord (c :: cs) = true) :
    isAsciiLower c = true ∧ ∀ d ∈ cs, isWordChar d = true := by
  rw [isNameWord, Bool.and_eq_true] at h
  exact ⟨h.1, List.all_eq_true.1 h.2⟩

/-- A word of a name has a character, and all of them are word characters. -/
theorem isWordChar_of_isNameWord {w : List Char} (h : isNameWord w = true) :
    w ≠ [] ∧ ∀ c ∈ w, isWordChar c = true := by
  cases w with
  | nil => cases h
  | cons c cs =>
    obtain ⟨hc, hcs⟩ := isNameWord_cons h
    exact ⟨List.cons_ne_nil c cs, List.forall_mem_cons.2 ⟨by rw [isWordChar, hc, Bool.true_or], hcs⟩⟩

/-- Word characters stay as they are, whatever follows. -/
theorem camelChars_append_word {w : List Char} (hw : ∀ c ∈ w, isWordChar c = true) (cs : List Char) :
    camelChars 0 (w ++ cs) = w ++ camelChars 0 cs := by
  induction w with
  | nil => rfl
  | cons c w ih =>
    obtain ⟨hc, hw⟩ := List.forall_mem_cons.1 hw
    rw [List.cons_append, camelChars_cons (toLower_of_isWordChar hc).2.2, ih hw]
    rfl

/-- Words with dashes between them: the first word, and each other one behind a dash. -/
theorem intercalate_dash (w : List Char) (ws : List (List Char)) :
    ['-'].intercalate (w :: ws) = w ++ ws.flatMap ('-' :: ·) := by
  induction ws generalizing w with
  | nil => simp
  | cons v ws ih => simp [ih v]

/-- Every word behind a dash loses it and gets a capital. -/
theorem camelChars_dashed {ws : List (List Char)} (h : ∀ w ∈ ws, isNameWord w = true) :
    camelChars 0 (ws.flatMap ('-' :: ·)) = ws.flatMap capitalised := by
  induction ws with
  | nil => rfl
  | cons w ws ih =>
    obtain ⟨hw, hws⟩ := List.forall_mem_cons.1 h
    cases w with
    | nil => cases hw
    | cons c cs =>
      have hword : isWordChar c = true := (isWordChar_of_isNameWord hw).2 c List.mem_cons_self
      rw [List.flatMap_cons, List.flatMap_cons, List.cons_append, List.cons_append, camelChars_dash hword,
        camelChars_append_word (isNameWord_cons hw).2, ih hws]
      rfl

/-- Every word gets its dash back, if the words before it have more than their capital. -/
theorem dashAfter_capitalised {ws : List (List Char)} (h : ∀ w ∈ ws, isNameWord w = true)
    (hlong : ∀ w ∈ ws.dropLast, 2 ≤ w.length) :
    dashAfter true (ws.flatMap capitalised) = ws.flatMap fun w => '-' :: capitalised w := by
  induction ws with
  | nil => rfl
  | cons w ws ih =>
    obtain ⟨hw, hws⟩ := List.forall_mem_cons.1 h
    cases w with
    | nil => cases hw
    | cons c cs =>
      obtain ⟨hlower, hcs⟩ := isNameWord_cons hw
      obtain ⟨-, hupper, hcapital⟩ := toLower_toUpper hlower
      rw [List.flatMap_cons, List.flatMap_cons]
      show dashAfter true (c.toUpper :: (cs ++ _)) = '-' :: c.toUpper :: (cs ++ _)
      rw [dashAfter_capital hupper, hcapital]
      cases ws with
      | nil =>
        rw [List.flatMap_nil, List.append_nil, dashAfter_eq_self fun d hd => (toLower_of_isWordChar (hcs d hd)).2.1]
        simp
      | cons v ws =>
        rw [List.dropLast_cons_cons, List.forall_mem_cons] at hlong
        have hne : cs ≠ [] := by
          rintro rfl
          exact absurd hlong.1 (by simp)
        rw [dashAfter_append_word hcs hne, ih hws hlong.2]

/-- A word with a capital is made of ASCII characters. -/
theorem isAscii_of_mem_capitalised {w : List Char} (h : isNameWord w = true) :
    ∀ c ∈ capitalised w, isAscii c = true := by
  cases w with
  | nil => cases h
  | cons c cs =>
    obtain ⟨hc, hcs⟩ := isNameWord_cons h
    have hupper : isAsciiLetter c.toUpper = true := by rw [isAsciiLetter, (toLower_toUpper hc).2.1, Bool.true_or]
    exact List.forall_mem_cons.2 ⟨isAscii_of_isAsciiLetter hupper, fun d hd => isAscii_of_isWordChar (hcs d hd)⟩

/-- Lower case takes the capital off a word again. -/
theorem map_toLower_capitalised {w : List Char} (h : isNameWord w = true) : (capitalised w).map Char.toLower = w := by
  cases w with
  | nil => cases h
  | cons c cs =>
    obtain ⟨hc, hcs⟩ := isNameWord_cons h
    rw [capitalised, List.map_cons, (toLower_toUpper hc).1, map_toLower_eq_self hcs]

/-- Lower case takes the capitals off words behind dashes. -/
theorem map_toLower_dashed {ws : List (List Char)} (h : ∀ w ∈ ws, isNameWord w = true) :
    (ws.flatMap fun w => '-' :: capitalised w).map Char.toLower = ws.flatMap ('-' :: ·) := by
  induction ws with
  | nil => rfl
  | cons w ws ih =>
    obtain ⟨hw, hws⟩ := List.forall_mem_cons.1 h
    rw [List.flatMap_cons, List.flatMap_cons, List.map_append, List.map_cons, map_toLower_capitalised hw, ih hws]
    rfl

/-- A name of words with dashes comes back from its capitals: each capital stood behind a dash. -/
theorem kebabCase_camelCase {name : String} (h : IsKebabCase name) : kebabCase (camelCase name) = name := by
  obtain ⟨words, hname, hwords, hlong⟩ := h
  cases words with
  | nil =>
    obtain rfl : name = "" := String.toList_inj.1 hname
    decide
  | cons w ws =>
    obtain ⟨hw, hws⟩ := List.forall_mem_cons.1 hwords
    obtain ⟨hne, hw⟩ := isWordChar_of_isNameWord hw
    have hcamel : (camelCase name).toList = w ++ ws.flatMap capitalised := by
      rw [camelCase, String.toList_ofList, hname, intercalate_dash, camelChars_append_word hw, camelChars_dashed hws]
    have hascii : ∀ c ∈ (camelCase name).toList, isAscii c = true := by
      rw [hcamel, List.forall_mem_append]
      refine ⟨fun c hc => isAscii_of_isWordChar (hw c hc), fun c hc => ?_⟩
      obtain ⟨v, hv, hc⟩ := List.mem_flatMap.1 hc
      exact isAscii_of_mem_capitalised (hws v hv) c hc
    apply String.toList_inj.1
    rw [toList_kebabCase hascii, hcamel, dashAfter_append_word hw hne, dashAfter_capitalised hws hlong,
      List.map_append, map_toLower_eq_self hw, map_toLower_dashed hws, hname, intercalate_dash]

/-- A dashed spelling has no capitals, so it has no other dashed spelling. -/
theorem kebabCase_kebabCase {name : String} (h : ∀ c ∈ name.toList, isAscii c = true) :
    kebabCase (kebabCase name) = kebabCase name := by
  have hdashed : ∀ c ∈ (kebabCase name).toList, isAsciiUpper c = false ∧ isAscii c = true := by
    rw [toList_kebabCase h, List.forall_mem_map]
    exact fun c hc => isAsciiUpper_toLower (isAscii_of_mem_dashAfter h c hc)
  apply String.toList_inj.1
  rw [toList_kebabCase fun c hc => (hdashed c hc).2, dashAfter_eq_self fun c hc => (hdashed c hc).1,
    toList_kebabCase h, List.map_map]
  exact List.map_congr_left fun c _ => toLower_toLower c

/-- Names that keep their words apart come back from the other spelling, and a dashed spelling is its own. -/
theorem camelCase_kebabCase_inverse :
    (∀ name, IsCamelCase name → camelCase (kebabCase name) = name) ∧
      (∀ name, IsKebabCase name → kebabCase (camelCase name) = name) ∧
      ∀ name : String, (∀ c ∈ name.toList, isAscii c = true) → kebabCase (kebabCase name) = kebabCase name :=
  ⟨fun _ h => camelCase_kebabCase h, fun _ h => kebabCase_camelCase h, fun _ h => kebabCase_kebabCase h⟩

/-- Digits before a capital, words of one letter at both ends, and capitals in a row. -/
theorem camelCase_kebabCase_inverse_edges :
    IsCamelCase "a2B9cDe" ∧ camelCase (kebabCase "a2B9cDe") = "a2B9cDe" ∧
      IsKebabCase "a-b2-c" ∧ kebabCase (camelCase "a-b2-c") = "a-b2-c" ∧
      kebabCase (kebabCase "-aBC--D") = kebabCase "-aBC--D" := by
  obtain ⟨hcamel, hkebab, hdashed⟩ := camelCase_kebabCase_inverse
  have h : IsCamelCase "a2B9cDe" := ⟨List.all_eq_true.1 (by decide), by rintro c ⟨⟩; rfl, by decide⟩
  have h' : IsKebabCase "a-b2-c" := ⟨[['a'], ['b', '2'], ['c']], by decide, by decide, by decide⟩
  exact ⟨h, hcamel _ h, h', hkebab _ h', hdashed _ (List.all_eq_true.1 (by decide))⟩

/-- A word of one letter between two others is joined to the one behind it. -/
example : kebabCase (camelCase "a-b-c") = "a-bc" := by decide

end ViewTemplate.Text
