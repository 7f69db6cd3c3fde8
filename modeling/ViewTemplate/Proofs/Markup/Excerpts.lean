import ViewTemplate.Proofs.Markup.Spans

/-!
# Excerpts of a source

The places of faults are counted in the text whose line endings have been made alike, and excerpts are cut from
the source as it was given.  A carriage return before a line feed is a byte that only the source has, so an excerpt
is cut as many bytes too early as there are such pairs before the fault: without any, at the fault itself, and
never inside a character.

* `pairedEnds` — the line endings of two characters; `byteLength_unifyLines` — the bytes that they cost.
* `Location.StandsAt` — where a place of the unified text stands in the source.
* `Diagnostic.Shows` — what an excerpt shows of the text on both sides of a cut.
* `parseWith_excerpts` — where the excerpts of the faults of a source are cut.
-/

namespace ViewTemplate.Text

/-- What is taken stands at the beginning. -/
theorem takeCovering_isPrefix (n : Nat) (cs : List Char) : takeCovering n cs <+: cs := by
  fun_induction takeCovering n cs with
  | case1 cs => exact List.nil_prefix
  | case2 => exact List.nil_prefix
  | case3 n c cs ih => exact List.cons_prefix_cons.2 ⟨rfl, ih⟩

/-- The characters fill the bytes asked for, if there are enough of them. -/
theorem takeCovering_fills (n : Nat) (cs : List Char) :
    n ≤ byteLength (takeCovering n cs) ∨ takeCovering n cs = cs := by
  fun_induction takeCovering n cs with
  | case1 cs => exact .inl (Nat.zero_le _)
  | case2 => exact .inr rfl
  | case3 n c cs ih =>
    refine ih.imp (fun h => ?_) (congrArg (c :: ·))
    rw [byteLength_cons]
    omega

/-- Characters take as many bytes backwards. -/
theorem byteLength_reverse (cs : List Char) : byteLength cs.reverse = byteLength cs := by
  induction cs with
  | nil => rfl
  | cons c cs ih => simp [ih, Nat.add_comm]

/-- A text can be cut after `n` bytes just if some first part of it has as many. -/
theorem splitAtByte_eq_none_iff {n : Nat} {cs : List Char} :
    splitAtByte n cs = none ↔ ∀ before after, before ++ after = cs → byteLength before ≠ n := by
  constructor
  · rintro h before after rfl rfl
    rw [splitAtByte_append] at h
    cases h
  · intro h
    rw [Option.eq_none_iff_forall_ne_some]
    rintro ⟨before, after⟩ hcut
    obtain ⟨happ, hlength⟩ := splitAtByte_eq_some hcut
    exact h before after happ hlength

end ViewTemplate.Text

namespace ViewTemplate.Source

open ViewTemplate.Markup ViewTemplate.Text

/-- Where a place of the unified text stands in the source: what is before it there, and what comes after it.
Unifying the two parts gives the unified text, so no line ending is cut. -/
structure Location.StandsAt (l : Location) (source : String) (before after : List Char) : Prop where
  whole : before ++ after = source.toList
  unified : unifyLines before ++ unifyLines after = unifyLines source.toList
  place : l = Location.advanceAll {} (unifyLines before)

namespace Diagnostic

variable {d : Diagnostic}

/-- The message with the given pieces on both sides of the mark. -/
def quoting (d : Diagnostic) (left right : List Char) : String :=
  d.message ++ " (\"" ++ String.ofList left ++ "[" ++ d.severity.mark ++ " ->]" ++ String.ofList right ++ "\")"

/-- The piece of a text fills the reach of excerpts, or is all of the text. -/
def Fills (piece text : List Char) : Prop :=
  excerptReach ≤ byteLength piece ∨ piece = text

/-- The excerpt shows the end of the text before a cut and the start of the text after it, as far as excerpts
reach. -/
def Shows (d : Diagnostic) (before after : List Char) (excerpt : String) : Prop :=
  ∃ left right, excerpt = d.quoting left right ∧ left <:+ before ∧ Fills left before ∧
    right <+: after ∧ Fills right after

/-- An excerpt is cut at the offset where the span starts, if that is the end of a character. -/
theorem excerpt_eq {source : String} (h : d.span.start.offset ≤ byteLength source.toList) :
    d.excerpt source = (splitAtByte d.span.start.offset source.toList).map fun (before, after) =>
      d.quoting (takeCovering excerptReach before.reverse).reverse (takeCovering excerptReach after) := by
  unfold excerpt
  dsimp only
  rw [Nat.min_eq_left h]
  rfl

/-- The excerpt of a fault shows as much as it reaches, on both sides. -/
theorem shows_quoting (before after : List Char) : d.Shows before after
    (d.quoting (takeCovering excerptReach before.reverse).reverse (takeCovering excerptReach after)) := by
  refine ⟨_, _, rfl, ?_, ?_, takeCovering_isPrefix _ after, takeCovering_fills _ after⟩
  · rw [← List.reverse_prefix, List.reverse_reverse]
    exact takeCovering_isPrefix _ before.reverse
  · unfold Fills
    rw [byteLength_reverse, List.reverse_eq_iff]
    exact takeCovering_fills _ before.reverse

/-- What an excerpt shows, where the span starts after some first part of the source. -/
theorem exists_shows {source : String} {before after : List Char} (hwhole : before ++ after = source.toList)
    (hoffset : d.span.start.offset = byteLength before) :
    ∃ text, d.excerpt source = some text ∧ d.Shows before after text := by
  refine ⟨_, ?_, shows_quoting before after⟩
  rw [excerpt_eq, hoffset, ← hwhole, splitAtByte_append]
  · rfl
  · rw [hoffset, ← hwhole, byteLength_append]
    exact Nat.le_add_right _ _

end Diagnostic

end ViewTemplate.Source

namespace ViewTemplate.Markup

open ViewTemplate.Source ViewTemplate.Text

/-! ### Line endings of two characters -/

/-- The number of carriage returns that stand before a line feed. -/
def pairedEnds : List Char → Nat
  | [] => 0
  | '\r' :: '\n' :: cs => pairedEnds cs + 1
  | _ :: cs => pairedEnds cs

/-- Each pair loses a byte when line endings are made alike. -/
theorem byteLength_unifyLines (cs : List Char) :
    byteLength (unifyLines cs) + pairedEnds cs = byteLength cs := by
  fun_induction unifyLines cs with
  | case1 => rfl
  | case2 cs ih =>
    have hcr : '\r'.utf8Size = 1 := by decide
    simp only [byteLength_cons, pairedEnds, ← ih]
    omega
  | case3 c cs hne ih =>
    have hsize : (if c = '\r' then '\n' else c).utf8Size = c.utf8Size := by
      split
      · next hc => rw [hc]; decide
      · rfl
    rw [pairedEnds.eq_3 c cs hne, byteLength_cons, byteLength_cons, hsize, ← ih]
    omega

/-- A cut of the unified text is one of the source, between line endings. -/
theorem exists_append_of_unifyLines {cs us vs : List Char} (h : unifyLines cs = us ++ vs) :
    ∃ before after, before ++ after = cs ∧ unifyLines before = us ∧ unifyLines after = vs := by
  fun_induction unifyLines cs generalizing us with
  | case1 =>
    obtain ⟨rfl, rfl⟩ := List.append_eq_nil_iff.1 h.symm
    exact ⟨[], [], rfl, rfl, rfl⟩
  | case2 cs ih =>
    cases us with
    | nil => exact ⟨[], '\r' :: '\n' :: cs, rfl, rfl, h⟩
    | cons u us =>
      obtain ⟨rfl, htail⟩ := List.cons.inj h
      obtain ⟨before, after, rfl, rfl, rfl⟩ := ih htail
      exact ⟨'\r' :: '\n' :: before, after, rfl, rfl, rfl⟩
  | case3 c cs hne ih =>
    cases us with
    | nil => exact ⟨[], c :: cs, rfl, rfl, (unifyLines.eq_3 c cs hne).trans h⟩
    | cons u us =>
      obtain ⟨rfl, htail⟩ := List.cons.inj h
      obtain ⟨before, after, rfl, rfl, rfl⟩ := ih htail
      refine ⟨c :: before, after, rfl, unifyLines.eq_3 c before ?_, rfl⟩
      rintro ds hc rfl
      exact hne (ds ++ after) hc rfl

/-! ### The excerpts of faults -/

/-- All faults of a parse are at spans in the source with its line endings unified. -/
theorem parseWith_faults_isIn (rules : String → TagRules) (source : String) :
    ∀ d ∈ (parseWith rules source).faults, d.span.IsIn (unifyLines source.toList) := by
  obtain ⟨q, htokens⟩ := tokenize_inOrder rules source
  have hlocates := (invariant_locates rules _).build htokens (Builder.ready_empty ⟨nofun, nofun⟩)
  exact List.forall_mem_append.2 ⟨tokenize_faults_isIn rules source, hlocates.faults⟩

/-- A place in the text with its line endings unified stands at some place of the source. -/
theorem exists_standsAt {l : Location} {source : String} (h : l.IsIn (unifyLines source.toList)) :
    ∃ before after, l.StandsAt source before after := by
  obtain ⟨us, ⟨vs, hunified⟩, hplace⟩ := h
  obtain ⟨before, after, hwhole, rfl, rfl⟩ := exists_append_of_unifyLines hunified.symm
  exact ⟨before, after, hwhole, hunified, hplace⟩

/-- The offset is that of the place in the source, less a byte for each pair before it. -/
theorem offset_add_pairedEnds {l : Location} {source : String} {before after : List Char}
    (h : l.StandsAt source before after) : l.offset + pairedEnds before = byteLength before := by
  rw [h.place, Location.offset_advanceAll, Nat.zero_add, byteLength_unifyLines]

/-- The excerpt of a diagnostic whose place in the source is known. -/
theorem excerpt_of_standsAt {d : Diagnostic} {source : String} {before after : List Char}
    (h : d.span.start.StandsAt source before after) :
    (pairedEnds before = 0 → ∃ text, d.excerpt source = some text ∧ d.Shows before after text) ∧
    (∀ text, d.excerpt source = some text → ∃ early late, early ++ late = source.toList ∧
      byteLength early + pairedEnds before = byteLength before ∧ d.Shows early late text) ∧
    (d.excerpt source = none ↔ ∀ early late, early ++ late = source.toList →
      byteLength early + pairedEnds before ≠ byteLength before) := by
  have hoffset := offset_add_pairedEnds h
  have hle : d.span.start.offset ≤ byteLength source.toList := by
    rw [← h.whole, byteLength_append]
    omega
  refine ⟨fun hnone => ?_, fun text htext => ?_, ?_⟩
  · exact Diagnostic.exists_shows h.whole (by omega)
  · rw [Diagnostic.excerpt_eq hle] at htext
    obtain ⟨⟨early, late⟩, hcut, rfl⟩ := Option.map_eq_some_iff.1 htext
    obtain ⟨hwhole, hlength⟩ := splitAtByte_eq_some hcut
    exact ⟨early, late, hwhole, by omega, Diagnostic.shows_quoting early late⟩
  · rw [Diagnostic.excerpt_eq hle, Option.map_eq_none_iff, splitAtByte_eq_none_iff]
    refine forall_congr' fun early => forall_congr' fun late => imp_congr_right fun _ => not_congr ?_
    omega

/-- Every fault of a source has a place in it, and its excerpt is cut before that place by as many bytes as there are
line endings of two characters before it.  There is no excerpt if that is inside a character; without such line
endings it shows the source on both sides of the fault. -/
theorem parseWith_excerpts (rules : String → TagRules) (source : String) :
    ∀ d ∈ (parseWith rules source).faults, (∃ before after, d.span.start.StandsAt source before after) ∧
      ∀ before after, d.span.start.StandsAt source before after →
        (pairedEnds before = 0 → ∃ text, d.excerpt source = some text ∧ d.Shows before after text) ∧
        (∀ text, d.excerpt source = some text → ∃ early late, early ++ late = source.toList ∧
          byteLength early + pairedEnds before = byteLength before ∧ d.Shows early late text) ∧
        (d.excerpt source = none ↔ ∀ early late, early ++ late = source.toList →
          byteLength early + pairedEnds before ≠ byteLength before) := by
  intro d hd
  exact ⟨exists_standsAt (parseWith_faults_isIn rules source d hd).start, fun _ _ => excerpt_of_standsAt⟩

/-- A carriage return alone before an end tag that ends nothing. -/
def loneReturnSource : String :=
  "é\r</p>"

/-- The theorem at a carriage return alone, which moves no place. -/
theorem parse_loneReturnSource_excerpts : ∃ d ∈ (parse loneReturnSource).faults, ∃ before after text,
    d.span.start.StandsAt loneReturnSource before after ∧ pairedEnds before = 0 ∧
      d.excerpt loneReturnSource = some text ∧ d.Shows before after text := by
  have hne : (parse loneReturnSource).faults ≠ [] := fun h => by
    have hlength : (parse loneReturnSource).faults.length = 1 := by decide +kernel
    rw [h] at hlength
    cases hlength
  obtain ⟨d, hd⟩ := List.exists_mem_of_ne_nil _ hne
  obtain ⟨⟨before, after, hstands⟩, hexcerpt⟩ := parseWith_excerpts TagRules.html loneReturnSource d hd
  have hnone : ∀ cs ∈ loneReturnSource.toList.inits, pairedEnds cs = 0 := by decide
  have hbefore : pairedEnds before = 0 := hnone before ((List.mem_inits _ _).2 ⟨after, hstands.whole⟩)
  obtain ⟨text, htext, hshown⟩ := (hexcerpt before after hstands).1 hbefore
  exact ⟨d, hd, before, after, text, hstands, hbefore, htext, hshown⟩

/-- A line ending of two characters, some text, and an end tag that ends nothing. -/
def pairedSource (between : String) : String :=
  "\r\n" ++ between ++ "</p>"

/-- The excerpt starts with the line feed, which stands before the fault; and where the place that is too early lies
inside a character there is no excerpt at all. -/
theorem excerpt_pairedSource :
    (parse (pairedSource "")).faults.map (fun d => (d.span.start, d.excerpt (pairedSource ""))) =
      [(⟨1, 1, 0⟩, some ("Unexpected closing tag \"p\". It may happen when the tag has already been closed by " ++
        "another tag. (\"\r[ERROR ->]\n</p>\")"))] ∧
    (⟨1, 1, 0⟩ : Location).StandsAt (pairedSource "") "\r\n".toList "</p>".toList ∧
    ¬ "\n</p>".toList <+: "</p>".toList ∧
    (parse (pairedSource "é")).faults.map (fun d => d.excerpt (pairedSource "é")) = [none] := by
  refine ⟨by decide +kernel, ⟨by decide, by decide, by decide⟩, by decide, by decide +kernel⟩

end ViewTemplate.Markup
