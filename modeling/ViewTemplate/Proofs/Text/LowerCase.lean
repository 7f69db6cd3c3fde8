import ViewTemplate.Text.LowerCase
import ViewTemplate.Text.CharClass

/-!
# Names in lower case

A text in lower case has no other lower case, and nothing in it ends a name unless it did so before.  Both
come from what the table of capitals can lead to: a small letter of ASCII, or a character beyond the
no-break space that is itself no capital.

* `mem_lowerChar` — what the lower case of a character can be.
* `lowerCase_lowerCase`, `isNameEnd_lowerCase` — the same for texts.
-/

namespace ViewTemplate.Text

/-! ### ASCII -/

/-- What holds of the first 128 code points holds of every ASCII character. -/
theorem forall_isAscii {p : Char → Prop} (h : ∀ n : Fin 128, p (Char.ofNat n)) {c : Char}
    (hc : isAscii c = true) : p c := by
  have hlt : c.toNat < 128 := by simpa [isAscii] using hc
  simpa using h ⟨c.toNat, hlt⟩

/-- The lower case of ASCII leaves other characters alone. -/
theorem toLower_eq_self_of_not_isAscii {c : Char} (hc : isAscii c = false) : c.toLower = c := by
  have hge : 128 ≤ c.toNat := by simpa [isAscii] using hc
  unfold Char.toLower
  rw [dif_neg]
  rintro ⟨-, hle⟩
  have hsmall : c.toNat ≤ 90 := by simpa [UInt32.le_iff_toNat_le] using hle
  omega

/-- What the lower case of an ASCII character is: a small letter has no other one, and that of a letter is a
letter. -/
theorem toLower_of_isAscii {c : Char} (hc : isAscii c = true) :
    (c.toLower = c ∨ isAsciiLower c.toLower = true) ∧ (isAsciiLower c = true → c.toLower = c) ∧
      (isAsciiLetter c = true → isAsciiLetter c.toLower = true) :=
  forall_isAscii (p := fun c => (c.toLower = c ∨ isAsciiLower c.toLower = true) ∧
    (isAsciiLower c = true → c.toLower = c) ∧ (isAsciiLetter c = true → isAsciiLetter c.toLower = true))
    (by decide +kernel) hc

/-- Only capitals have another lower case, and it is a small letter. -/
theorem toLower_eq_self_or (c : Char) : c.toLower = c ∨ isAsciiLower c.toLower = true := by
  by_cases hc : isAscii c = true
  · exact (toLower_of_isAscii hc).1
  · exact .inl (toLower_eq_self_of_not_isAscii (by simpa using hc))

/-- A small letter is in lower case already. -/
theorem toLower_of_isAsciiLower {c : Char} (h : isAsciiLower c = true) : c.toLower = c := by
  by_cases hc : isAscii c = true
  · exact (toLower_of_isAscii hc).2.1 h
  · exact toLower_eq_self_of_not_isAscii (by simpa using hc)

/-- Lower case twice is lower case once. -/
theorem toLower_toLower (c : Char) : c.toLower.toLower = c.toLower := by
  rcases toLower_eq_self_or c with h | h
  · rw [h, h]
  · exact toLower_of_isAsciiLower h

/-- Letters of ASCII are in it. -/
theorem isAscii_of_isAsciiLetter {c : Char} (h : isAsciiLetter c = true) : isAscii c = true := by
  have hnat : c.toNat ≤ 122 := by
    simp only [isAsciiLetter, isAsciiUpper, isAsciiLower, Char.le_def, UInt32.le_iff_toNat_le, Bool.or_eq_true,
      Bool.and_eq_true, decide_eq_true_eq] at h
    have hz : 'z'.val.toNat = 122 := rfl
    have hZ : 'Z'.val.toNat = 90 := rfl
    show c.val.toNat ≤ 122
    omega
  simp only [isAscii, decide_eq_true_eq]
  omega

/-- Small letters of ASCII are in it. -/
theorem isAscii_of_isAsciiLower {c : Char} (h : isAsciiLower c = true) : isAscii c = true :=
  isAscii_of_isAsciiLetter (by rw [isAsciiLetter, h, Bool.or_true])

/-! ### Beyond ASCII -/

/-- The first of the small letters of the run. -/
def Shift.firstSmall (s : Shift) : Nat :=
  (s.first + s.distance).toNat

/-- The last of the small letters of the run. -/
def Shift.lastSmall (s : Shift) : Nat :=
  (s.last + s.distance).toNat

/-- The small letters of the run are no capitals of the run `t`: they lie outside of it, or between its
capitals. -/
def Shift.avoids (s t : Shift) : Bool :=
  Nat.blt s.lastSmall t.first || Nat.blt t.last s.firstSmall ||
    (Nat.beq s.first s.last || Nat.beq s.stride 2) && Nat.beq t.stride 2 &&
      Nat.beq ((s.firstSmall + t.first) % 2) 1

/-- The small letters of the run are characters beyond the no-break space, and the capital that becomes two
characters is not among them; only the Kelvin sign leads back to ASCII. -/
def Shift.isProper (s : Shift) : Bool :=
  Nat.ble s.first s.last && decide (0 ≤ s.first + s.distance) &&
    (Nat.blt 0xa0 s.firstSmall || Nat.beq s.first s.last && Nat.beq s.firstSmall 0x6b) &&
    (Nat.blt s.lastSmall 0xd800 || Nat.blt 0xdfff s.firstSmall && Nat.blt s.lastSmall 0x110000) &&
    (Nat.blt s.lastSmall 0x130 || Nat.blt 0x130 s.firstSmall)

/-- The characters that a rule of its own leads to or from. -/
theorem lowerChar_exceptions :
    lowerChar '\u0307' = ['\u0307'] ∧ lowerChar 'Σ' = ['σ'] ∧ lowerChar 'ς' = ['ς'] := by
  decide +kernel

/-- The runs of the table are proper, and none leads to a capital. -/
theorem all_isProper_avoids :
    capitalsBeyondAscii.all (fun s => s.isProper && capitalsBeyondAscii.all s.avoids) = true := by
  decide +kernel

/-- All shifts of the table are proper; there are few enough to check. -/
theorem isProper_of_mem {s : Shift} (hs : s ∈ capitalsBeyondAscii) : s.isProper = true :=
  (Bool.and_eq_true_iff.1 (List.all_eq_true.1 all_isProper_avoids s hs)).1

/-- The small letters of each shift of the table are no capitals of any. -/
theorem avoids_of_mem {s t : Shift} (hs : s ∈ capitalsBeyondAscii) (ht : t ∈ capitalsBeyondAscii) :
    s.avoids t = true :=
  List.all_eq_true.1 (Bool.and_eq_true_iff.1 (List.all_eq_true.1 all_isProper_avoids s hs)).2 t ht

/-- Which code points a run covers, as a conjunction. -/
theorem Shift.covers_iff {s : Shift} {n : Nat} :
    s.covers n = true ↔ s.first ≤ n ∧ n ≤ s.last ∧ (n - s.first) % s.stride = 0 := by
  simp [Shift.covers, and_assoc]

/-- The small letter of a capital lies in the range of small letters, at the same distance. -/
theorem Shift.small_mem {s : Shift} (hs : s.isProper = true) {n : Nat} (hn : s.covers n = true) :
    s.firstSmall ≤ (n + s.distance).toNat ∧ (n + s.distance).toNat ≤ s.lastSmall ∧
      (n + s.distance).toNat + s.first = n + s.firstSmall := by
  obtain ⟨hfirst, hlast, -⟩ := covers_iff.1 hn
  simp only [isProper, Bool.and_eq_true, decide_eq_true_eq] at hs
  unfold firstSmall lastSmall
  omega

/-- The small letter of a capital is no capital of a shift that is avoided. -/
theorem Shift.covers_small {s t : Shift} (hs : s.isProper = true) (h : s.avoids t = true) {n : Nat}
    (hn : s.covers n = true) : t.covers (n + s.distance).toNat = false := by
  obtain ⟨hlow, hhigh, hsum⟩ := small_mem hs hn
  obtain ⟨hfirst, hlast, hstride⟩ := covers_iff.1 hn
  rw [Bool.eq_false_iff]
  intro hcovers
  obtain ⟨hfirst', hlast', hstride'⟩ := covers_iff.1 hcovers
  simp only [avoids, Bool.or_eq_true, Bool.and_eq_true, Nat.blt_eq, Nat.beq_eq] at h
  rcases h with (h | h) | ⟨⟨hstep, htwo⟩, hodd⟩
  · omega
  · omega
  · rw [htwo] at hstride'
    rcases hstep with hone | hstep
    · omega
    · rw [hstep] at hstride
      omega

/-- The small letter of a capital beyond ASCII. -/
theorem Shift.toNat_small {s : Shift} (hs : s.isProper = true) {n : Nat} (hn : s.covers n = true) :
    (Char.ofNat (n + s.distance).toNat).toNat = (n + s.distance).toNat := by
  obtain ⟨hlow, hhigh, -⟩ := small_mem hs hn
  have hvalid : (n + s.distance).toNat.isValidChar := by
    simp only [isProper, Bool.or_eq_true, Bool.and_eq_true, Nat.blt_eq] at hs
    unfold Nat.isValidChar
    omega
  rw [Char.ofNat, dif_pos hvalid]
  rfl

/-- What the lower case of a character can be: the character, or a small letter, or a character beyond the
no-break space; and it has no other lower case. -/
theorem mem_lowerChar {c d : Char} (h : d ∈ lowerChar c) :
    (d = c ∨ isAsciiLower d = true ∨ 0xa0 < d.toNat) ∧ lowerChar d = [d] := by
  unfold lowerChar at h
  split at h
  · next hascii =>
    obtain rfl := List.mem_singleton.1 h
    rcases toLower_eq_self_or c with hsame | hlower
    · rw [hsame]
      refine ⟨.inl rfl, ?_⟩
      rw [lowerChar, if_pos hascii, hsame]
    · refine ⟨.inr (.inl hlower), ?_⟩
      rw [lowerChar, if_pos (isAscii_of_isAsciiLower hlower), toLower_toLower]
  · next hascii =>
    split at h
    · rw [List.mem_cons, List.mem_singleton] at h
      rcases h with rfl | rfl
      · exact ⟨.inr (.inl rfl), rfl⟩
      · exact ⟨.inr (.inr (by decide)), lowerChar_exceptions.1⟩
    · next hdot =>
      split at h
      · next s hfind =>
        obtain rfl := List.mem_singleton.1 h
        have hmem : s ∈ capitalsBeyondAscii := List.mem_of_find?_eq_some hfind
        have hcovers : s.covers c.toNat = true := by simpa using List.find?_some hfind
        have hproper := isProper_of_mem hmem
        have hnat := Shift.toNat_small hproper hcovers
        obtain ⟨hlow, hhigh, -⟩ := Shift.small_mem hproper hcovers
        -- A run of capitals has its small letters beyond the no-break space, or it is the Kelvin sign alone.
        have hwhere : 0xa0 < s.firstSmall ∨ s.first = s.last ∧ s.firstSmall = 0x6b := by
          simp only [Shift.isProper, Bool.or_eq_true, Bool.and_eq_true, Nat.blt_eq, Nat.beq_eq] at hproper
          exact hproper.1.1.2
        rcases hwhere with hbeyond | ⟨hone, hk⟩
        · refine ⟨.inr (.inr (by omega)), ?_⟩
          -- A small letter of one run is a capital of none.
          have hnone : capitalsBeyondAscii.find?
              (·.covers (Char.ofNat (c.toNat + s.distance).toNat).toNat) = none := by
            rw [List.find?_eq_none]
            intro t ht
            simpa [hnat] using Shift.covers_small hproper (avoids_of_mem hmem ht) hcovers
          have hdotted : Char.ofNat (c.toNat + s.distance).toNat ≠ '\u0130' := by
            intro heq
            have hcode : (c.toNat + s.distance).toNat = 0x130 := by rw [← hnat, heq]; rfl
            simp only [Shift.isProper, Bool.or_eq_true, Bool.and_eq_true, Nat.blt_eq] at hproper
            omega
          rw [lowerChar, if_neg (by simp only [isAscii, decide_eq_true_eq]; omega), if_neg hdotted, hnone]
        · have hkelvin : (c.toNat + s.distance).toNat = 0x6b := by
            unfold Shift.lastSmall at hhigh
            unfold Shift.firstSmall at hlow hk
            omega
          rw [hkelvin]
          exact ⟨.inr (.inl rfl), rfl⟩
      · next hfind =>
        obtain rfl := List.mem_singleton.1 h
        refine ⟨.inl rfl, ?_⟩
        rw [lowerChar, if_neg hascii, if_neg hdot, hfind]

/-! ### Texts -/

/-- Each character in lower case comes from one of the text, by itself or as a final sigma. -/
theorem mem_lowerChars {d : Char} : (cs : List Char) → ∀ {before : List Char}, d ∈ lowerChars before cs →
    ∃ c ∈ cs, d ∈ lowerChar c ∨ d = 'ς'
  | c :: cs, before, h => by
    rw [lowerChars, List.mem_append] at h
    rcases h with h | h
    · refine ⟨c, List.mem_cons_self, ?_⟩
      split at h
      · next hsigma =>
        obtain rfl := List.mem_singleton.1 h
        subst hsigma
        split
        · exact .inr rfl
        · exact .inl (by rw [lowerChar_exceptions.2.1]; exact List.mem_singleton_self _)
      · exact .inl h
    · obtain ⟨c', hc', hd⟩ := mem_lowerChars cs h
      exact ⟨c', List.mem_cons_of_mem c hc', hd⟩

/-- What a text in lower case is made of. -/
theorem mem_lowerCase {s : String} {d : Char} (h : d ∈ (lowerCase s).toList) :
    (d ∈ s.toList ∨ isAsciiLower d = true ∨ 0xa0 < d.toNat) ∧ lowerChar d = [d] := by
  rw [lowerCase, String.toList_ofList] at h
  obtain ⟨c, hc, hd | rfl⟩ := mem_lowerChars _ h
  · obtain ⟨hfrom, hself⟩ := mem_lowerChar hd
    refine ⟨?_, hself⟩
    rcases hfrom with rfl | hfrom
    · exact .inl hc
    · exact .inr hfrom
  · exact ⟨.inr (.inr (by decide)), lowerChar_exceptions.2.2⟩

/-- A text whose characters are in lower case is so as a whole. -/
theorem lowerChars_eq_self : (cs : List Char) → (∀ c ∈ cs, lowerChar c = [c]) →
    ∀ before, lowerChars before cs = cs
  | [], _, _ => rfl
  | c :: cs, h, before => by
    have hc : lowerChar c = [c] := h c List.mem_cons_self
    have hsigma : c ≠ 'Σ' := by
      rintro rfl
      rw [lowerChar_exceptions.2.1] at hc
      exact absurd hc (by decide)
    rw [lowerChars, if_neg hsigma, hc, lowerChars_eq_self cs fun d hd => h d (List.mem_cons_of_mem c hd)]
    rfl

/-- In ASCII every character has a lower case of its own. -/
theorem lowerChars_of_isAscii : (cs : List Char) → (∀ c ∈ cs, isAscii c = true) →
    ∀ before, lowerChars before cs = cs.map Char.toLower
  | [], _, _ => rfl
  | c :: cs, h, before => by
    obtain ⟨hc, hcs⟩ := List.forall_mem_cons.1 h
    have hsigma : c ≠ 'Σ' := by
      rintro rfl
      cases hc
    rw [lowerChars, if_neg hsigma, lowerChar, if_pos hc, lowerChars_of_isAscii cs hcs]
    rfl

/-- A text in lower case has no other lower case. -/
theorem lowerCase_lowerCase (s : String) : lowerCase (lowerCase s) = lowerCase s := by
  rw [lowerCase, lowerChars_eq_self _ fun d hd => (mem_lowerCase hd).2, String.ofList_toList]

/-- Every character has a lower case of one character at least. -/
theorem exists_lowerChar_cons (c : Char) : ∃ d ds, lowerChar c = d :: ds := by
  unfold lowerChar
  split
  · exact ⟨_, _, rfl⟩
  · split
    · exact ⟨_, _, rfl⟩
    · split <;> exact ⟨_, _, rfl⟩

/-- What a text in lower case starts with. -/
theorem exists_lowerCase_cons {s : String} {c : Char} {cs : List Char} (hs : s.toList = c :: cs) :
    ∃ d ds, (lowerCase s).toList = d :: ds ∧ (d = c ∨ isAsciiLower d = true ∨ 0xa0 < d.toNat) ∧
      (isAsciiLetter c = true → isAsciiLetter d = true) := by
  rw [lowerCase, String.toList_ofList, hs, lowerChars]
  split
  · next hsigma =>
    subst hsigma
    refine ⟨_, _, rfl, .inr (.inr ?_), fun h => by cases h⟩
    split <;> decide
  · obtain ⟨d, ds, hd⟩ := exists_lowerChar_cons c
    have hmem : d ∈ lowerChar c := hd ▸ List.mem_cons_self
    refine ⟨d, ds ++ lowerChars [c] cs, by rw [hd]; rfl, (mem_lowerChar hmem).1, fun hletter => ?_⟩
    have hascii : isAscii c = true := isAscii_of_isAsciiLetter hletter
    rw [lowerChar, if_pos hascii, List.mem_singleton] at hmem
    subst hmem
    exact (toLower_of_isAscii hascii).2.2 hletter

/-! ### Characters that end a name -/

/-- What ends a name lies low in the code, and is no small letter. -/
theorem isNameEnd_le {c : Char} (h : isNameEnd c = true) : c.toNat ≤ 0xa0 ∧ isAsciiLower c = false := by
  simp only [isNameEnd, isSpace, Bool.or_eq_true, decide_eq_true_eq, or_assoc] at h
  rcases h with rfl | rfl | rfl | rfl | rfl | rfl | rfl | rfl | rfl | rfl | rfl | rfl | rfl | rfl <;> decide

/-- The lower case of a name brings in no character that would end it. -/
theorem isNameEnd_lowerCase {s : String} (h : ∀ c ∈ s.toList, isNameEnd c = false) :
    ∀ d ∈ (lowerCase s).toList, isNameEnd d = false := by
  intro d hd
  rw [Bool.eq_false_iff]
  intro hend
  obtain ⟨hle, hlower⟩ := isNameEnd_le hend
  rcases (mem_lowerCase hd).1 with hmem | hsmall | hbeyond
  · rw [h d hmem] at hend
    cases hend
  · rw [hlower] at hsmall
    cases hsmall
  · omega

end ViewTemplate.Text
