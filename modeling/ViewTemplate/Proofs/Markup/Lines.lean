import ViewTemplate.Proofs.Markup.Classes
import ViewTemplate.Proofs.Markup.Sources

/-!
# Line endings

Before a source is scanned its line endings are made alike.  That commutes with writing, leaves the words of
a text as they are, and brings no end tag into it; so it does not change which elements are read.

* `unifyLines_append` — piece by piece, where no line ending is cut in two.
* `unifyLines_flatMap` — escaped texts.
* `wordChars_unifyLines`, `HoldsNoEndTag.unifyLines` — words and end tags.
* `parse_eq_of_unifyLines_eq` — sources that differ in their line endings alone are read alike.
-/

namespace ViewTemplate.Markup

open ViewTemplate.Text

/-! ### Pieces -/

/-- A character other than a carriage return stays. -/
theorem unifyLines_cons {c : Char} (hc : c ≠ '\r') (cs : List Char) :
    unifyLines (c :: cs) = c :: unifyLines cs := by
  rw [unifyLines.eq_3 c cs (fun _ hcr => absurd hcr hc), if_neg hc]

/-- A carriage return by itself becomes a line feed. -/
theorem unifyLines_cr {cs : List Char} (h : cs.head? ≠ some '\n') :
    unifyLines ('\r' :: cs) = '\n' :: unifyLines cs := by
  rw [unifyLines.eq_3 '\r' cs, if_pos rfl]
  rintro ds - rfl
  exact h rfl

/-- Without carriage returns a text is left as it is. -/
theorem unifyLines_append_left {cs : List Char} (h : '\r' ∉ cs) (ds : List Char) :
    unifyLines (cs ++ ds) = cs ++ unifyLines ds := by
  induction cs with
  | nil => rfl
  | cons c cs ih =>
    rw [List.mem_cons, not_or] at h
    rw [List.cons_append, List.cons_append, unifyLines_cons (Ne.symm h.1), ih h.2]

/-- Two texts between which no line ending is cut. -/
theorem unifyLines_append {ds : List Char} (hds : ds.head? ≠ some '\n') (cs : List Char) :
    unifyLines (cs ++ ds) = unifyLines cs ++ unifyLines ds := by
  fun_induction unifyLines cs with
  | case1 => rfl
  | case2 cs ih => exact congrArg ('\n' :: ·) ih
  | case3 c cs hne ih =>
    rw [List.cons_append]
    split
    · next hc =>
      subst hc
      rw [unifyLines_cr, ih]
      · rfl
      · cases cs with
        | nil => exact hds
        | cons d cs =>
          intro hd
          cases hd
          exact hne cs rfl rfl
    · next hc =>
      rw [unifyLines_cons hc, ih]
      rfl

/-- A text that is escaped character by character, with line endings as they are. -/
theorem unifyLines_flatMap {escape : Char → String} (hcr : escape '\r' = "\r") (hlf : escape '\n' = "\n")
    (h : ∀ c, c ≠ '\r' → '\r' ∉ (escape c).toList)
    (hhead : ∀ c, c ≠ '\n' → ∃ d ∈ (escape c).toList.head?, d ≠ '\n') (cs : List Char) :
    unifyLines (cs.flatMap fun c => (escape c).toList) =
      (unifyLines cs).flatMap fun c => (escape c).toList := by
  fun_induction unifyLines cs with
  | case1 => rfl
  | case2 cs ih =>
    rw [List.flatMap_cons, List.flatMap_cons, List.flatMap_cons, hcr, hlf, ← ih]
    rfl
  | case3 c cs hne ih =>
    rw [List.flatMap_cons, List.flatMap_cons, ← ih]
    split
    · next hc =>
      subst hc
      rw [hcr, hlf]
      show unifyLines ('\r' :: cs.flatMap fun c => (escape c).toList) = '\n' :: _
      refine unifyLines_cr ?_
      cases cs with
      | nil => simp
      | cons d cs =>
        have hd : d ≠ '\n' := fun hd => hne cs rfl (by rw [hd])
        obtain ⟨e, he, hne⟩ := hhead d hd
        rw [List.flatMap_cons, List.head?_append, Option.mem_def.1 he]
        simpa using hne
    · next hc => exact unifyLines_append_left (h c hc) _

/-- To unify line endings in an escaped text is to escape it with its line endings unified. -/
theorem unifyLines_escapeText (value : String) : unifyLines (escapeText value).toList =
    (escapeText (String.ofList (unifyLines value.toList))).toList := by
  rw [toList_escapeText, toList_escapeText, String.toList_ofList]
  refine unifyLines_flatMap rfl rfl (fun c hc => ?_) (fun c hc => ?_) value.toList
  · unfold escapeTextChar
    split <;> simp [Ne.symm hc]
  · unfold escapeTextChar
    split <;> simp [hc]

/-- To unify line endings in an escaped value is to escape it with its line endings unified. -/
theorem unifyLines_escapeValue (value : String) : unifyLines (escapeValue value).toList =
    (escapeValue (String.ofList (unifyLines value.toList))).toList := by
  rw [toList_escapeValue, toList_escapeValue, String.toList_ofList]
  refine unifyLines_flatMap rfl rfl (fun c hc => ?_) (fun c hc => ?_) value.toList
  · unfold escapeValueChar
    split <;> simp [Ne.symm hc]
  · unfold escapeValueChar
    split <;> simp [hc]

/-! ### What is kept -/

/-- Only nothing becomes nothing. -/
theorem unifyLines_eq_nil {cs : List Char} (h : unifyLines cs = []) : cs = [] := by
  fun_cases unifyLines cs with
  | case1 => rfl
  | case2 cs => cases h
  | case3 c cs hne =>
    rw [unifyLines.eq_3 c cs hne] at h
    cases h

/-- A character other than a line feed was there before. -/
theorem mem_of_mem_unifyLines {d : Char} (hd : d ≠ '\n') {cs : List Char} (h : d ∈ unifyLines cs) : d ∈ cs := by
  fun_induction unifyLines cs with
  | case1 => exact h
  | case2 cs ih =>
    rcases List.mem_cons.1 h with rfl | h
    · exact absurd rfl hd
    · exact List.mem_cons_of_mem _ (List.mem_cons_of_mem _ (ih h))
  | case3 c cs hne ih =>
    rcases List.mem_cons.1 h with hdc | h
    · split at hdc
      · exact absurd hdc hd
      · exact hdc ▸ List.mem_cons_self
    · exact List.mem_cons_of_mem _ (ih h)

/-- A text without NUL is plain once its line endings are alike. -/
theorem isPlain_unifyLines {cs : List Char} (h : '\x00' ∉ cs) : IsPlain (unifyLines cs) := by
  intro d hd
  refine ⟨mem_unifyLines cs hd, ?_⟩
  rintro rfl
  exact h (mem_of_mem_unifyLines (by decide) hd)

/-- Line endings that have been unified stay so. -/
theorem unifyLines_unifyLines (cs : List Char) : unifyLines (unifyLines cs) = unifyLines cs := by
  have hkept := unifyLines_append_left (fun h => mem_unifyLines cs h rfl) ([] : List Char)
  simpa [unifyLines] using hkept

/-- White space in place of white space divides the same words. -/
theorem piecesBy_unifyLines (cs : List Char) : ∃ p ps qs,
    piecesBy isWhiteSpace (unifyLines cs) = p :: ps ∧ piecesBy isWhiteSpace cs = p :: qs ∧
      ps.filter (!·.isEmpty) = qs.filter (!·.isEmpty) := by
  have hlf : isWhiteSpace '\n' = true := by decide
  have hcr : isWhiteSpace '\r' = true := by decide
  fun_induction unifyLines cs with
  | case1 => exact ⟨[], [], [], rfl, rfl, rfl⟩
  | case2 cs ih =>
    obtain ⟨p, ps, qs, hps, hqs, hfilter⟩ := ih
    refine ⟨[], p :: ps, [] :: p :: qs, ?_, ?_, ?_⟩
    · rw [piecesBy, if_pos hlf, hps]
    · rw [piecesBy, if_pos hcr, piecesBy, if_pos hlf, hqs]
    · simp [List.filter_cons, hfilter]
  | case3 c cs hne ih =>
    obtain ⟨p, ps, qs, hps, hqs, hfilter⟩ := ih
    have hspace : isWhiteSpace (if c = '\r' then '\n' else c) = isWhiteSpace c := by
      split
      · next hc => rw [hc, hlf, hcr]
      · rfl
    by_cases hc : isWhiteSpace c = true
    · refine ⟨[], p :: ps, p :: qs, ?_, ?_, ?_⟩
      · rw [piecesBy, hspace, if_pos hc, hps]
      · rw [piecesBy, if_pos hc, hqs]
      · simp [List.filter_cons, hfilter]
    · have hsame : (if c = '\r' then '\n' else c) = c := by
        refine if_neg fun h => hc ?_
        rw [h, hcr]
      refine ⟨c :: p, ps, qs, ?_, ?_, hfilter⟩
      · rw [hsame, piecesBy, if_neg hc, hps]
      · rw [piecesBy, if_neg hc, hqs]

/-- The words of a text do not depend on its line endings. -/
theorem wordChars_unifyLines (cs : List Char) : wordChars (unifyLines cs) = wordChars cs := by
  obtain ⟨p, ps, qs, hps, hqs, hfilter⟩ := piecesBy_unifyLines cs
  rw [wordChars, wordChars, hps, hqs, List.filter_cons, List.filter_cons, hfilter]

/-! ### End tags -/

/-- What the text ends with after unifying comes from what it ended with before. -/
theorem exists_suffix_of_unifyLines {b cs : List Char} (h : b <:+ unifyLines cs) :
    ∃ b', b' <:+ cs ∧ unifyLines b' = b := by
  fun_induction unifyLines cs with
  | case1 => exact ⟨[], List.suffix_rfl, (List.suffix_nil.1 h).symm⟩
  | case2 cs ih =>
    rcases List.suffix_cons_iff.1 h with rfl | h
    · exact ⟨_, List.suffix_rfl, rfl⟩
    · obtain ⟨b', hb', heq⟩ := ih h
      exact ⟨b', hb'.trans ((List.suffix_cons _ _).trans (List.suffix_cons _ _)), heq⟩
  | case3 c cs hne ih =>
    rcases List.suffix_cons_iff.1 h with rfl | h
    · exact ⟨_, List.suffix_rfl, unifyLines.eq_3 c cs hne⟩
    · obtain ⟨b', hb', heq⟩ := ih h
      exact ⟨b', hb'.trans (List.suffix_cons _ _), heq⟩

/-- A character that is no line feed was there before. -/
theorem exists_cons_of_unifyLines {cs ds : List Char} {d : Char} (hd : d ≠ '\n')
    (h : unifyLines cs = d :: ds) : ∃ es, cs = d :: es ∧ unifyLines es = ds := by
  fun_cases unifyLines cs with
  | case1 => cases h
  | case2 cs =>
    cases h
    exact absurd rfl hd
  | case3 c cs hne =>
    rw [unifyLines.eq_3 c cs hne] at h
    by_cases hc : c = '\r'
    · rw [if_pos hc] at h
      cases h
      exact absurd rfl hd
    · rw [if_neg hc] at h
      cases h
      exact ⟨cs, rfl, rfl⟩

/-- Lower case makes no line feed. -/
theorem toLower_ne_lineFeed {a : Char} (ha : a ≠ '\n') : a.toLower ≠ '\n' := by
  intro h
  rcases toLower_eq_self_or a with hself | hlower
  · exact ha (hself ▸ h)
  · rw [h] at hlower
    cases hlower

/-- A name that is found after unifying line endings was there before. -/
theorem startsWithName_of_unifyLines : (name : List Char) → '\n' ∉ name → ∀ {cs : List Char},
    startsWithName name (unifyLines cs) = true → startsWithName name cs = true
  | [], _, [], _ => rfl
  | [], _, c :: cs, h => by
    rw [startsWithName]
    by_cases hc : c = '\r'
    · rw [hc]
      decide
    · rwa [unifyLines_cons hc, startsWithName] at h
  | a :: name, hname, cs, h => by
    rw [List.mem_cons, not_or] at hname
    cases hunified : unifyLines cs with
    | nil =>
      rw [hunified] at h
      cases h
    | cons d ds =>
      rw [hunified, startsWithName, Bool.and_eq_true, sameIgnoringCase, decide_eq_true_eq] at h
      have hd : d ≠ '\n' := by
        rintro rfl
        exact toLower_ne_lineFeed (Ne.symm hname.1) h.1
      obtain ⟨es, rfl, rfl⟩ := exists_cons_of_unifyLines hd hunified
      rw [startsWithName, Bool.and_eq_true, sameIgnoringCase, decide_eq_true_eq]
      exact ⟨h.1, startsWithName_of_unifyLines name hname.2 h.2⟩

/-- Line endings that are made alike bring no end tag into a text. -/
theorem HoldsNoEndTag.unifyLines {name : String} (hname : IsNameText name) {cs : List Char}
    (h : HoldsNoEndTag name cs) : HoldsNoEndTag name (unifyLines cs) := by
  intro b hb
  obtain ⟨b', hb', rfl⟩ := exists_suffix_of_unifyLines hb
  rw [Bool.eq_false_iff]
  intro hcloses
  unfold closesTag at hcloses
  split at hcloses
  · next rest hrest =>
    obtain ⟨es, rfl, hes⟩ := exists_cons_of_unifyLines (by decide) hrest
    obtain ⟨fs, rfl, rfl⟩ := exists_cons_of_unifyLines (by decide) hes
    have hfeed : '\n' ∉ name.toList := fun hmem => by
      have hend := hname.unbroken _ hmem
      cases hend
    have hstarts := startsWithName_of_unifyLines name.toList hfeed hcloses
    exact Bool.eq_false_iff.1 (h _ hb') hstarts
  · cases hcloses

/-! ### Sources -/

/-- Sources that differ in their line endings alone are read alike. -/
theorem parse_eq_of_unifyLines_eq {source source' : String}
    (h : unifyLines source.toList = unifyLines source'.toList) : parse source = parse source' := by
  unfold parse parseWith tokenize
  rw [h]

end ViewTemplate.Markup
