import Mathlib.Data.List.Basic
import ViewTemplate.Proofs.Expression.Interpolations
import ViewTemplate.Proofs.Text.Enclosure

/-!
# Reading text with interpolations from left to right

Cutting text at its interpolations loses nothing and invents nothing.  The text is a run of literal characters, then
an interpolation up to the first brace that closes it, then a run again, and so on; it can always be read in this way
up to its end, or up to an interpolation that is never closed.  What is cut is just what was read so, with the escaped
dollar signs of each run written plain.

* `closeSegment_eq_some_iff`, `closeSegment_eq_none_iff` — the search for the brace that closes an interpolation.
* `IsLiteral` — a run in which no interpolation opens; `unescaped` — what it stands for.
* `ReadsAs` — runs and the texts of expressions, from left to right; `exists_readsAs` — every text is read so.
* `splitInterpolation_iff_readsAs` — text is cut into what is read, and refused where an interpolation stays open.
-/

namespace ViewTemplate.Expression

open ViewTemplate.Text Enclosure

/-! ### The brace that closes an interpolation -/

/-- A brace that nothing encloses ends the segment, and every other character belongs to it. -/
theorem closeSegment_cons (e : Enclosure) (c : Char) (cs : List Char) :
    closeSegment e.quote e.depth (c :: cs) =
      if c = '\x7d' ∧ e = outside then some ([], cs)
      else consSegment c (closeSegment (e.step c).quote (e.step c).depth cs) := by
  obtain ⟨_ | q, depth⟩ := e
  · by_cases hquote : isQuote c = true
    · have hne : c ≠ '\x7d' := by
        rintro rfl
        exact absurd hquote (by decide)
      simp [closeSegment, step, hquote, hne]
    · simp only [closeSegment, step, if_neg hquote]
      by_cases hopen : c = '\x7b'
      · simp [hopen]
      · by_cases hclose : c = '\x7d'
        · rcases depth with _ | depth <;> simp [hclose, outside]
        · simp [hopen, hclose]
  · by_cases hc : c = q <;> simp [closeSegment, step, hc, outside]

/-- The search ends at the first closing brace outside all quotation marks and braces. -/
theorem closeSegment_eq_some_iff {e : Enclosure} {cs inside rest : List Char} :
    closeSegment e.quote e.depth cs = some (inside, rest) ↔
      cs = inside ++ '\x7d' :: rest ∧ e.Avoids '\x7d' inside ∧ e.after inside = outside := by
  induction cs generalizing e inside with
  | nil => simp [closeSegment]
  | cons c cs ih =>
    rw [closeSegment_cons]
    by_cases hclose : c = '\x7d' ∧ e = outside
    · rw [if_pos hclose]
      obtain ⟨rfl, rfl⟩ := hclose
      constructor
      · rintro ⟨⟩
        exact ⟨rfl, avoids_nil _ _, rfl⟩
      · rintro ⟨hcs, havoids, -⟩
        rcases inside with _ | ⟨d, inside⟩
        · obtain ⟨-, rfl⟩ := List.cons.inj hcs
          rfl
        · obtain ⟨rfl, -⟩ := List.cons.inj hcs
          exact absurd rfl ((avoids_cons.1 havoids).1 rfl)
    · rw [if_neg hclose]
      constructor
      · intro h
        obtain ⟨found, hfound, heq⟩ := Option.map_eq_some_iff.1 h
        cases heq
        obtain ⟨rfl, havoids, hafter⟩ := ih.1 hfound
        exact ⟨rfl, avoids_cons.2 ⟨fun hc he => hclose ⟨hc, he⟩, havoids⟩, hafter⟩
      · rintro ⟨hcs, havoids, hafter⟩
        rcases inside with _ | ⟨d, inside⟩
        · exact absurd ⟨(List.cons.inj hcs).1, hafter⟩ hclose
        · obtain ⟨rfl, rfl⟩ := List.cons.inj hcs
          rw [ih.2 ⟨rfl, (avoids_cons.1 havoids).2, hafter⟩]
          rfl

/-- The search ends nowhere, if no closing brace stands outside all quotation marks and braces. -/
theorem closeSegment_eq_none_iff {e : Enclosure} {cs : List Char} :
    closeSegment e.quote e.depth cs = none ↔ e.Avoids '\x7d' cs := by
  induction cs generalizing e with
  | nil => simp [closeSegment, avoids_nil]
  | cons c cs ih =>
    rw [closeSegment_cons, avoids_cons]
    by_cases hclose : c = '\x7d' ∧ e = outside
    · simp [hclose]
    · rw [if_neg hclose, consSegment, Option.map_eq_none_iff, ih]
      exact ⟨fun h => ⟨fun hc he => hclose ⟨hc, he⟩, h⟩, And.right⟩

/-! ### Runs of literal text -/

/-- In a run no interpolation opens: where a dollar sign stands before a brace, a backslash stands before both. -/
def IsLiteral (run : List Char) : Prop :=
  ∀ before rest, run = before ++ '$' :: '\x7b' :: rest → before.getLast? = some '\\'

/-- The run without the backslashes that stand before a dollar sign. -/
def unescapeDollars : List Char → List Char
  | '\\' :: '$' :: cs => '$' :: unescapeDollars cs
  | c :: cs => c :: unescapeDollars cs
  | [] => []

/-- What a run stands for. -/
def unescaped (run : String) : String :=
  String.ofList (unescapeDollars run.toList)

/-- Nothing is literal. -/
theorem isLiteral_nil : IsLiteral [] := by
  intro before rest h
  exact absurd h.symm (by simp)

/-- What follows some characters of a run is one too, if these escape none of it. -/
theorem IsLiteral.of_append {w run : List Char} (h : IsLiteral (w ++ run))
    (hw : w.getLast? = some '\\' → run.head? ≠ some '$') : IsLiteral run := by
  rintro before rest rfl
  have hlast := h (w ++ before) rest (List.append_assoc ..).symm
  by_cases hbefore : before = []
  · subst hbefore
    rw [List.append_nil] at hlast
    exact absurd rfl (hw hlast)
  · rwa [List.getLast?_append_of_ne_nil w hbefore] at hlast

/-- A character before a run that opens no interpolation with it. -/
theorem IsLiteral.cons {c : Char} {run : List Char} (h : IsLiteral run) (hopen : c = '$' → run.head? ≠ some '\x7b') :
    IsLiteral (c :: run) := by
  intro before rest hrun
  rcases List.cons_eq_append_iff.1 hrun with ⟨-, hfirst⟩ | ⟨before, rfl, rfl⟩
  · obtain ⟨rfl, rfl⟩ := List.cons.inj hfirst
    exact absurd rfl (hopen rfl)
  · have hlast := h before rest rfl
    rw [List.getLast?_cons, hlast]
    rfl

/-- An escaped dollar sign before a run. -/
theorem IsLiteral.escape {run : List Char} (h : IsLiteral run) : IsLiteral ('\\' :: '$' :: run) := by
  intro before rest hrun
  rcases List.cons_eq_append_iff.1 hrun with ⟨-, hfirst⟩ | ⟨before, rfl, hmore⟩
  · exact absurd (List.cons.inj hfirst).1 (by decide)
  · rcases List.cons_eq_append_iff.1 hmore with ⟨rfl, -⟩ | ⟨before, rfl, rfl⟩
    · rfl
    · have hlast := h before rest rfl
      rw [List.getLast?_cons, List.getLast?_cons, hlast]
      rfl

/-- A run is taken character by character, where the text ends after it or an interpolation opens. -/
theorem splitChars_run (total : Nat) {rest : List Char} (hrest : ∀ c ∈ rest.head?, c = '$') (run : List Char) :
    ∀ fuel, IsLiteral run → (rest ≠ [] → run.getLast? ≠ some '\\') → (run ++ rest).length < fuel →
      ∃ fuel', rest.length < fuel' ∧
        splitChars total fuel (run ++ rest) =
          (splitChars total fuel' rest).map (Segments.pushAll (unescapeDollars run)) := by
  -- Along the escapes of the run, since these are what takes two characters in one step.
  fun_induction unescapeDollars run with
  | case1 cs ih =>
    intro fuel hrun hlast hfuel
    obtain ⟨fuel, rfl⟩ := Nat.exists_eq_add_one_of_ne_zero (Nat.ne_zero_of_lt hfuel)
    have hmore : IsLiteral cs := IsLiteral.of_append (w := ['\\', '$']) hrun (absurd · (by decide))
    have hlast' : rest ≠ [] → cs.getLast? ≠ some '\\' := by
      intro hne hcs
      refine hlast hne ?_
      rw [List.getLast?_cons, List.getLast?_cons, hcs]
      rfl
    simp only [List.cons_append, List.length_cons] at hfuel
    obtain ⟨fuel', hfuel', heq⟩ := ih fuel hmore hlast' (by omega)
    refine ⟨fuel', hfuel', ?_⟩
    rw [List.cons_append, List.cons_append, splitChars, heq]
    rcases splitChars total fuel' rest with _ | _ <;> rfl
  | case2 c cs hescape ih =>
    intro fuel hrun hlast hfuel
    obtain ⟨fuel, rfl⟩ := Nat.exists_eq_add_one_of_ne_zero (Nat.ne_zero_of_lt hfuel)
    have hnone : c = '\\' → (cs ++ rest).head? ≠ some '$' := by
      rintro rfl hhead
      rcases cs with _ | ⟨d, cs⟩
      · exact hlast (by rintro rfl; exact absurd hhead (by simp)) rfl
      · exact hescape cs rfl (by rw [Option.some.inj hhead])
    have hshut : c = '$' → (cs ++ rest).head? ≠ some '\x7b' := by
      rintro rfl hhead
      rcases cs with _ | ⟨d, cs⟩
      · exact absurd (hrest _ hhead) (by decide)
      · have hbrace : d = '\x7b' := Option.some.inj hhead
        exact absurd (hrun [] cs (by rw [hbrace]; rfl)) (by simp)
    have hmore : IsLiteral cs := by
      refine IsLiteral.of_append (w := [c]) hrun fun hc hhead => ?_
      obtain ⟨cs, rfl⟩ := List.head?_eq_some_iff.1 hhead
      exact hnone (by simpa using hc) rfl
    have hlast' : rest ≠ [] → cs.getLast? ≠ some '\\' := by
      intro hne hcs
      refine hlast hne ?_
      rw [List.getLast?_cons, hcs]
      rfl
    simp only [List.cons_append, List.length_cons] at hfuel
    obtain ⟨fuel', hfuel', heq⟩ := ih fuel hmore hlast' (by omega)
    refine ⟨fuel', hfuel', ?_⟩
    rw [List.cons_append, splitChars_char total fuel hnone hshut, heq]
    rcases splitChars total fuel' rest with _ | _ <;> rfl
  | case3 =>
    intro fuel _ _ hfuel
    refine ⟨fuel, hfuel, ?_⟩
    rw [List.nil_append]
    rcases splitChars total fuel rest with _ | _ <;> rfl

/-! ### Reading from left to right -/

/-- The characters are read from left to right as runs of literal text with the texts of expressions between them, up
to their end or up to an interpolation that is never closed; `left` is then what stands after its opening brace. -/
inductive ReadsAs : List Char → List String → List String → Option (List Char) → Prop where
  /-- A run up to the end. -/
  | ends {run : String} (hrun : IsLiteral run.toList) : ReadsAs run.toList [run] [] none
  /-- A run, and an interpolation that no brace closes. -/
  | opens {run : String} {left : List Char} (hrun : IsLiteral run.toList)
    (hescape : run.toList.getLast? ≠ some '\\') (hopen : outside.Avoids '\x7d' left) :
    ReadsAs (run.toList ++ '$' :: '\x7b' :: left) [run] [] (some left)
  /-- A run, an interpolation that ends at the first brace outside all quotation marks and braces, and more. -/
  | closes {run text : String} {cs : List Char} {runs texts : List String} {left : Option (List Char)}
    (hrun : IsLiteral run.toList) (hescape : run.toList.getLast? ≠ some '\\')
    (hopen : outside.Avoids '\x7d' text.toList) (hclosed : outside.after text.toList = outside)
    (hmore : ReadsAs cs runs texts left) :
    ReadsAs (run.toList ++ '$' :: '\x7b' :: (text.toList ++ '\x7d' :: cs)) (run :: runs) (text :: texts) left

section readings

variable {cs : List Char} {runs texts : List String} {left : Option (List Char)}

/-- What is read is the text, and there is a run between every two expressions. -/
theorem ReadsAs.lossless (h : ReadsAs cs runs texts left) :
    cs = (weave runs texts).toList ++ (left.elim [] fun rest => '$' :: '\x7b' :: rest) ∧
      runs.length = texts.length + 1 := by
  induction h with
  | ends hrun => simp [weave]
  | opens hrun hescape hopen => simp [weave]
  | closes hrun hescape hopen hclosed hmore ih =>
    rw [toList_weave_cons, List.append_assoc, List.cons_append, List.cons_append, List.append_assoc, List.cons_append,
      ← ih.1]
    exact ⟨rfl, congrArg Nat.succ ih.2⟩

/-- What is read is what the text is cut into. -/
theorem ReadsAs.splitChars_eq (total : Nat) (h : ReadsAs cs runs texts left) : ∀ fuel, cs.length < fuel →
    splitChars total fuel cs = left.elim (.ok ⟨runs.map unescaped, texts⟩) fun rest =>
      .error (.openInterpolation (total - byteLength ('$' :: '\x7b' :: rest))) := by
  have hdollar : ∀ rest : List Char, ∀ c ∈ ('$' :: '\x7b' :: rest).head?, c = '$' := by
    rintro rest c ⟨⟩
    rfl
  -- Each step takes one run, whatever fuel that leaves, and then the interpolation behind it.
  induction h with
  | @ends run hrun =>
    intro fuel hfuel
    rw [← List.append_nil run.toList] at hfuel
    obtain ⟨fuel', hfuel', heq⟩ := @splitChars_run total [] (by simp) run.toList fuel hrun (absurd rfl) hfuel
    obtain ⟨fuel', rfl⟩ := Nat.exists_eq_add_one_of_ne_zero (Nat.ne_zero_of_lt hfuel')
    rw [List.append_nil] at heq
    rw [heq, splitChars, Except.map, pushAll_cons, String.append_empty]
    rfl
  | @opens run rest hrun hescape hopen =>
    intro fuel hfuel
    obtain ⟨fuel', hfuel', heq⟩ := splitChars_run total (hdollar rest) run.toList fuel hrun (fun _ => hescape) hfuel
    obtain ⟨fuel', rfl⟩ := Nat.exists_eq_add_one_of_ne_zero (Nat.ne_zero_of_lt hfuel')
    have hsearch : closeSegment none 0 rest = none := closeSegment_eq_none_iff.2 hopen
    rw [heq, splitChars, hsearch]
    rfl
  | @closes run text cs runs texts left hrun hescape hopen hclosed hmore ih =>
    intro fuel hfuel
    obtain ⟨fuel', hfuel', heq⟩ := splitChars_run total (hdollar _) run.toList fuel hrun (fun _ => hescape) hfuel
    obtain ⟨fuel', rfl⟩ := Nat.exists_eq_add_one_of_ne_zero (Nat.ne_zero_of_lt hfuel')
    have hsearch : closeSegment none 0 (text.toList ++ '\x7d' :: cs) = some (text.toList, cs) :=
      closeSegment_eq_some_iff.2 ⟨rfl, hopen, hclosed⟩
    have hrest := ih fuel' (by simp only [List.length_cons, List.length_append] at hfuel'; omega)
    rw [heq, splitChars, hsearch]
    simp only [hrest]
    rcases left with _ | rest
    · simp only [Option.elim_none, Except.map, pushAll_cons, String.append_empty, List.map_cons, String.ofList_toList]
      rfl
    · rfl

/-- Characters before a text that open no interpolation with it, and escape none, go to its first run. -/
theorem ReadsAs.prepend {w : List Char} (h : ReadsAs cs runs texts left)
    (hliteral : ∀ run : List Char, run <+: cs → IsLiteral run → IsLiteral (w ++ run))
    (hescapes : w.getLast? = some '\\' → cs.head? ≠ some '$') : ∃ runs', ReadsAs (w ++ cs) runs' texts left := by
  -- The longer run ends as the run did, or with the characters before it, right where an interpolation opens.
  have hlast : ∀ {run rest : List Char}, cs = run ++ '$' :: rest → run.getLast? ≠ some '\\' →
      (w ++ run).getLast? ≠ some '\\' := by
    rintro run rest rfl hrun hw
    by_cases hempty : run = []
    · subst hempty
      rw [List.append_nil] at hw
      exact hescapes hw rfl
    · rw [List.getLast?_append_of_ne_nil w hempty] at hw
      exact hrun hw
  cases h with
  | @ends run hrun =>
    refine ⟨[String.ofList w ++ run], ?_⟩
    have hmore := @ReadsAs.ends (String.ofList w ++ run)
    simp only [String.toList_append, String.toList_ofList] at hmore
    exact hmore (hliteral _ (List.prefix_refl _) hrun)
  | @opens run rest hrun hescape hopen =>
    refine ⟨[String.ofList w ++ run], ?_⟩
    have hmore := @ReadsAs.opens (String.ofList w ++ run) rest
    simp only [String.toList_append, String.toList_ofList, List.append_assoc] at hmore
    exact hmore (hliteral _ (List.prefix_append _ _) hrun) (hlast rfl hescape) hopen
  | @closes run text cs runs texts left hrun hescape hopen hclosed hreads =>
    refine ⟨(String.ofList w ++ run) :: runs, ?_⟩
    have hmore := @ReadsAs.closes (String.ofList w ++ run) text cs runs texts left
    simp only [String.toList_append, String.toList_ofList, List.append_assoc] at hmore
    exact hmore (hliteral _ (List.prefix_append _ _) hrun) (hlast rfl hescape) hopen hclosed hreads

/-- Every text is read, up to its end or up to an interpolation that is never closed. -/
theorem exists_readsAs (cs : List Char) : ∃ runs texts left, ReadsAs cs runs texts left := by
  suffices h : ∀ fuel, cs.length < fuel → ∃ runs texts left, ReadsAs cs runs texts left from h _ (Nat.lt_succ_self _)
  intro fuel
  have hempty : IsLiteral "".toList ∧ "".toList.getLast? ≠ some '\\' := ⟨isLiteral_nil, by simp⟩
  -- Along the splitter itself: characters that it takes one by one go to the run in front.
  fun_induction splitChars 0 fuel cs with
  | case1 cs => exact fun hfuel => absurd hfuel (Nat.not_lt_zero _)
  | case2 fuel => exact fun _ => ⟨[""], [], none, .ends hempty.1⟩
  | case3 fuel cs ih =>
    intro hfuel
    obtain ⟨runs, texts, left, hreads⟩ := ih (by simp only [List.length_cons] at hfuel; omega)
    have hliteral : ∀ run : List Char, run <+: cs → IsLiteral run → IsLiteral (['\\', '$'] ++ run) :=
      fun run _ hrun => hrun.escape
    obtain ⟨runs', hmore⟩ := hreads.prepend hliteral (absurd · (by simp))
    exact ⟨runs', texts, left, hmore⟩
  | case4 fuel cs hsearch =>
    intro _
    exact ⟨[""], [], some cs, .opens hempty.1 hempty.2 ((closeSegment_eq_none_iff (e := outside)).1 hsearch)⟩
  | case5 fuel cs inside rest hsearch ih =>
    intro hfuel
    obtain ⟨rfl, hopen, hclosed⟩ := (closeSegment_eq_some_iff (e := outside)).1 hsearch
    obtain ⟨runs, texts, left, hreads⟩ := ih (by simp only [List.length_cons, List.length_append] at hfuel; omega)
    have hmore := @ReadsAs.closes "" (String.ofList inside) rest runs texts left hempty.1 hempty.2
    rw [String.toList_ofList] at hmore
    exact ⟨_, _, left, hmore hopen hclosed hreads⟩
  | case6 fuel c cs hescape hopen ih =>
    intro hfuel
    obtain ⟨runs, texts, left, hreads⟩ := ih (by simp only [List.length_cons] at hfuel; omega)
    have hliteral : ∀ run : List Char, run <+: cs → IsLiteral run → IsLiteral ([c] ++ run) := by
      rintro run ⟨ds, rfl⟩ hrun
      refine hrun.cons fun hc hhead => ?_
      obtain ⟨run, rfl⟩ := List.head?_eq_some_iff.1 hhead
      exact hopen _ hc rfl
    have hescapes : [c].getLast? = some '\\' → cs.head? ≠ some '$' := by
      intro hc hhead
      obtain ⟨cs, rfl⟩ := List.head?_eq_some_iff.1 hhead
      exact hescape cs (by simpa using hc) rfl
    obtain ⟨runs', hmore⟩ := hreads.prepend hliteral hescapes
    exact ⟨runs', texts, left, hmore⟩

end readings

/-! ### Whole texts -/

/-- How a text reads decides how it is split, and where it is refused. -/
theorem ReadsAs.splitInterpolation_eq {input : String} {runs texts : List String} {left : Option (List Char)}
    (h : ReadsAs input.toList runs texts left) :
    splitInterpolation input = left.elim (.ok ⟨runs.map unescaped, texts⟩) fun _ =>
      .error (.openInterpolation (byteLength (weave runs texts).toList)) := by
  have hsplit := h.splitChars_eq (byteLength input.toList) _ (Nat.lt_succ_self _)
  rw [splitInterpolation, hsplit]
  rcases left with _ | rest
  · rfl
  · have hlength := congrArg byteLength h.lossless.1
    rw [byteLength_append] at hlength
    rw [Option.elim_some, hlength, Option.elim_some, Nat.add_sub_cancel_right]
    rfl

/-- What is read up to the end of a text is the text. -/
theorem ReadsAs.input_eq {input : String} {runs texts : List String} (h : ReadsAs input.toList runs texts none) :
    input = weave runs texts := by
  have hchars := h.lossless.1
  rw [Option.elim_none, List.append_nil] at hchars
  exact String.toList_inj.1 hchars

/-- What is read up to an open interpolation is the text before it. -/
theorem ReadsAs.input_eq_of_open {input : String} {runs texts : List String} {rest : List Char}
    (h : ReadsAs input.toList runs texts (some rest)) : input = weave runs texts ++ "$\x7b" ++ String.ofList rest := by
  apply String.toList_inj.1
  rw [h.lossless.1]
  simp

/-- Text is cut into the runs and the texts of expressions that it is read as, if it can be read up to its end, and is
refused just if an interpolation opens in it that is never closed.  Nothing of the text is lost. -/
theorem splitInterpolation_iff_readsAs (input : String) :
    (∀ s, splitInterpolation input = .ok s ↔
      ∃ runs texts, ReadsAs input.toList runs texts none ∧ input = weave runs texts ∧
        runs.length = texts.length + 1 ∧ s = ⟨runs.map unescaped, texts⟩) ∧
    ∀ cause, splitInterpolation input = .error cause ↔
      ∃ runs texts rest, ReadsAs input.toList runs texts (some rest) ∧
        input = weave runs texts ++ "$\x7b" ++ String.ofList rest ∧
        cause = .openInterpolation (byteLength (weave runs texts).toList) := by
  refine ⟨fun s => ⟨fun h => ?_, ?_⟩, fun cause => ⟨fun h => ?_, ?_⟩⟩
  · obtain ⟨runs, texts, _ | rest, hreads⟩ := exists_readsAs input.toList
    · rw [hreads.splitInterpolation_eq] at h
      exact ⟨runs, texts, hreads, hreads.input_eq, hreads.lossless.2, (Except.ok.inj h).symm⟩
    · rw [hreads.splitInterpolation_eq] at h
      cases h
  · rintro ⟨runs, texts, hreads, -, -, rfl⟩
    exact hreads.splitInterpolation_eq
  · obtain ⟨runs, texts, _ | rest, hreads⟩ := exists_readsAs input.toList
    · rw [hreads.splitInterpolation_eq] at h
      cases h
    · rw [hreads.splitInterpolation_eq] at h
      exact ⟨runs, texts, rest, hreads, hreads.input_eq_of_open, (Except.error.inj h).symm⟩
  · rintro ⟨runs, texts, rest, hreads, -, rfl⟩
    exact hreads.splitInterpolation_eq

end ViewTemplate.Expression
