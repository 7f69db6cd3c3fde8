import ViewTemplate.Expression.Reader
import ViewTemplate.Proofs.Expression.InStep
import ViewTemplate.Proofs.Expression.Spelling

/-!
# Spaces between tokens

A text means the same, however its tokens are set apart: the spaces before the first token, between two and after
the last can be replaced by others, as long as some are left between two.

* `SetsApart` — the gaps that may stand around the words of a text; `respaced` — the text with these gaps.
* `read_respaced` — it has the same tokens, and is read as the same expression or iteration.
-/

namespace ViewTemplate.Expression

open ViewTemplate.Text

/-- The words, with a gap after each. -/
def spaced (words gaps : List String) : String :=
  String.join (List.zipWith (· ++ ·) words gaps)

/-- Gaps before the first of so many words and after each: they are of spaces, and there are some between two
words. -/
structure SetsApart (first : String) (gaps : List String) (count : Nat) : Prop where
  length_eq : gaps.length = count
  first_spaces : first.toList.all isSpace = true
  spaces : ∀ gap ∈ gaps, gap.toList.all isSpace = true
  between : ∀ gap ∈ gaps.dropLast, gap ≠ ""

/-- A rest starts like any other with spaces in front, if there are some. -/
theorem startsAlike_of_space {gap : List Char} (hgap : ∀ c ∈ gap, isSpace c = true) (hne : gap ≠ [])
    (rest rest' : List Char) : StartsAlike rest (gap ++ rest') := by
  obtain ⟨d, ds, rfl⟩ := List.exists_cons_of_ne_nil hne
  rintro c ⟨⟩
  exact .inl (hgap d List.mem_cons_self)

/-- Words that are set apart otherwise are read as the same lexemes. -/
theorem Spelled.lexes_spaced {cs : List Char} {ws : List (String × Lexeme)} (h : Spelled cs ws) :
    ∀ gaps : List String, gaps.length = ws.length → (∀ gap ∈ gaps, gap.toList.all isSpace = true) →
      (∀ gap ∈ gaps.dropLast, gap ≠ "") → Lexes (spaced (ws.map Prod.fst) gaps).toList (ws.map Prod.snd) := by
  induction h with
  | nil =>
    intro gaps _ _ _
    exact .nil
  | space hc h ih => exact ih
  | @cons w l rest ws hw h ih =>
    intro gaps hlength hspaces hbetween
    obtain ⟨gap, gaps, rfl⟩ := List.exists_cons_of_length_eq_add_one hlength
    rw [List.length_cons, List.length_cons, Nat.add_right_cancel_iff] at hlength
    obtain ⟨hgap, hspaces⟩ := List.forall_mem_cons.1 hspaces
    rw [List.all_eq_true] at hgap
    have hchars : (spaced (((w, l) :: ws).map Prod.fst) (gap :: gaps)).toList =
        w.toList ++ (gap.toList ++ (spaced (ws.map Prod.fst) gaps).toList) := by
      simp [spaced, String.join_cons]
    have halike : StartsAlike rest (gap.toList ++ (spaced (ws.map Prod.fst) gaps).toList) := by
      by_cases hempty : gap = ""
      · -- Only the last gap is empty, and nothing follows it.
        cases gaps with
        | cons next gaps => exact absurd hempty (hbetween gap (by simp))
        | nil =>
          rw [hempty]
          simp [spaced, StartsAlike]
      · exact startsAlike_of_space hgap (fun hnil => hempty (String.toList_eq_nil_iff.1 hnil)) _ _
    have hmore : ∀ gap ∈ gaps.dropLast, gap ≠ "" := by
      intro next hnext
      cases gaps with
      | nil => cases hnext
      | cons gap' gaps => exact hbetween next (List.mem_cons_of_mem gap hnext)
    rw [hchars]
    exact .cons (hw.alike halike) (.spaces hgap (ih gaps hlength hspaces hmore))

/-- The text of the tokens with other spaces between them. -/
def respaced (input first : String) (gaps : List String) : String :=
  first ++ spaced ((tokens input).map (·.slice input)) gaps

/-- With other gaps between them the lexemes are the same. -/
theorem map_lexeme_respaced {input first : String} {gaps : List String}
    (hfaults : ∀ t ∈ tokens input, t.lexeme.isFault = false) (hgaps : SetsApart first gaps (tokens input).length) :
    (tokens (respaced input first gaps)).map Token.lexeme = (tokens input).map Token.lexeme := by
  have hlexes := (spelled_tokens hfaults).lexes_spaced gaps (by simpa using hgaps.length_eq)
    hgaps.spaces hgaps.between
  simp only [List.map_map, Function.comp_def] at hlexes
  refine map_lexeme_tokens ?_
  rw [respaced, String.toList_append]
  exact hlexes.spaces (List.all_eq_true.1 hgaps.first_spaces)

/-- The kind of a token, its value and its text. -/
def Token.content (t : Token) (input : String) : Lexeme × Number × String :=
  (t.lexeme, t.value, t.text input)

/-- What a token holds is decided by its lexeme, if that is no fault. -/
theorem Token.content_of_lexeme {t t' : Token} (h : t.lexeme = t'.lexeme) (hfault : t.lexeme.isFault = false)
    (input input' : String) : t.content input = t'.content input' := by
  unfold Token.content Token.value Token.text
  rw [← h]
  cases hlexeme : t.lexeme with
  | fault cause =>
    rw [hlexeme] at hfault
    cases hfault
  | _ => rfl

/-- Tokens with the same lexemes have the same content. -/
theorem map_content {ts ts' : List Token} (h : Grammar.Alike ts ts') (hfaults : ∀ t ∈ ts, t.lexeme.isFault = false)
    (input input' : String) : ts.map (·.content input) = ts'.map (·.content input') := by
  induction h with
  | nil => rfl
  | cons ht _ ih =>
    obtain ⟨hfault, hfaults⟩ := List.forall_mem_cons.1 hfaults
    rw [List.map_cons, List.map_cons, Token.content_of_lexeme ht hfault input input', ih hfaults]

/-- Other spaces between the tokens of a text without faults change neither the tokens nor what is read. -/
theorem read_respaced {input first : String} {gaps : List String}
    (hfaults : ∀ t ∈ tokens input, t.lexeme.isFault = false) (hgaps : SetsApart first gaps (tokens input).length) :
    (tokens (respaced input first gaps)).map (·.content (respaced input first gaps)) =
        (tokens input).map (·.content input) ∧
      (read (respaced input first gaps)).toOption = (read input).toOption ∧
      (readIteration (respaced input first gaps)).toOption = (readIteration input).toOption := by
  have hlexemes := map_lexeme_respaced hfaults hgaps
  have halike := Grammar.alike_iff_map.2 hlexemes
  refine ⟨?_, ?_, ?_⟩
  · exact (map_content (Grammar.alike_iff_map.2 hlexemes.symm) hfaults input _).symm
  · rw [read, read, toOption_mapError, toOption_mapError]
    exact parse_alike halike
  · rw [readIteration, readIteration, toOption_mapError, toOption_mapError]
    exact parseIteration_alike halike

/-- A point before a digit starts a numeral, and a space in a string is no gap. -/
theorem read_respaced_conditional :
    (∀ t ∈ tokens "a?.5:'b c'", t.lexeme.isFault = false) ∧
    SetsApart " " [" ", "\n", "  ", "\t", ""] (tokens "a?.5:'b c'").length ∧
    (tokens " a ?\n.5  :\t'b c'").map (·.content " a ?\n.5  :\t'b c'") =
      (tokens "a?.5:'b c'").map (·.content "a?.5:'b c'") ∧
    (read " a ?\n.5  :\t'b c'").toOption = (read "a?.5:'b c'").toOption ∧
    (readIteration " a ?\n.5  :\t'b c'").toOption = (readIteration "a?.5:'b c'").toOption := by
  have hfaults : ∀ t ∈ tokens "a?.5:'b c'", t.lexeme.isFault = false := by decide +kernel
  have hgaps : SetsApart " " [" ", "\n", "  ", "\t", ""] (tokens "a?.5:'b c'").length :=
    ⟨by decide +kernel, by decide +kernel, by decide +kernel, by decide +kernel⟩
  have htext : respaced "a?.5:'b c'" " " [" ", "\n", "  ", "\t", ""] = " a ?\n.5  :\t'b c'" := by decide +kernel
  have hread := read_respaced hfaults hgaps
  rw [htext] at hread
  exact ⟨hfaults, hgaps, hread⟩

end ViewTemplate.Expression
