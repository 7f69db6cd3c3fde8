import ViewTemplate.Expression.Reader
import ViewTemplate.Proofs.Expression.Cutting
import ViewTemplate.Proofs.Expression.Segments
import ViewTemplate.Proofs.Expression.Steps

/-!
# Faults of the tokens are never passed over

A fault is a token like any other, and stands among the tokens that the grammar reads.  No rule of the grammar takes
it, and all tokens have to be taken: so a text with a fault is refused, whatever it is read as.  The refusal is one of
the expression language itself and never the end of the steps, and it names the text that is at fault.

* `HoldsFault` — a fault is among the tokens of a text; `Refuses` — a reading ends with an error about a text.
* `read_refuses`, `readIteration_refuses` — a text with a fault, read whole.
* `readAll_refuses`, `fault_refused` — and as the text of an interpolation.
-/

namespace ViewTemplate.Expression

open ViewTemplate.Text Grammar

/-- A fault is among the tokens of the text. -/
def HoldsFault (input : String) : Prop :=
  ∃ t ∈ tokens input, t.lexeme.isFault = true

instance (input : String) : Decidable (HoldsFault input) :=
  inferInstanceAs (Decidable (∃ t ∈ tokens input, t.lexeme.isFault = true))

/-- The reading ends with an error about `text`, which is not the end of its steps. -/
def Refuses {α : Type} (text : String) (r : Except ExpressionError α) : Prop :=
  ∃ cause, r = .error ⟨text, cause⟩ ∧ cause ≠ .outOfSteps

/-- A text that holds a fault has a lexeme that is one. -/
theorem HoldsFault.not_noneFaulty {input : String} (h : HoldsFault input) :
    ¬NoneFaulty ((tokens input).map Token.lexeme) := by
  obtain ⟨t, ht, hfault⟩ := h
  intro hnone
  have hsound := hnone t.lexeme (List.mem_map_of_mem ht)
  rw [hfault] at hsound
  cases hsound

/-- A reading that gives no result and does not run out of steps refuses its text. -/
theorem refuses_mapError {α : Type} {r : Except Cause α} (text : String) (hok : ∀ a, r ≠ .ok a)
    (hsteps : r ≠ .error .outOfSteps) : Refuses text (r.mapError (⟨text, ·⟩)) := by
  rcases r with cause | a
  · exact ⟨cause, rfl, fun hcause => hsteps (congrArg _ hcause)⟩
  · exact absurd rfl (hok a)

/-! ### Whole texts -/

/-- The lexemes of an iteration are a word of every class. -/
theorem lexemes_of_parseIteration {P : List Lexeme → Prop} (hP : IsBraced P) {input : String} {e : Expression}
    (h : parseIteration input = .ok e) : P ((tokens input).map Token.lexeme) := by
  rw [parseIteration_eq_toEnd] at h
  exact (iterationOf_inStep hP (alike_iff_map.2 rfl)).of_toEnd h

/-- A text that is no expression is refused. -/
theorem refuses_of_ne_ok {input : String} (h : ∀ e, read input ≠ .ok e) : Refuses input (read input) := by
  refine refuses_mapError input (fun e hparse => ?_) (parse_ne_outOfSteps input)
  exact h e (mapError_eq_ok.2 hparse)

/-- A text with a fault is no expression. -/
theorem read_refuses {input : String} (h : HoldsFault input) : Refuses input (read input) := by
  refine refuses_of_ne_ok fun e hread => ?_
  exact h.not_noneFaulty (lexemes_of_parse isBraced_noneFaulty (mapError_eq_ok.1 hread))

/-- A text with a fault is no iteration. -/
theorem readIteration_refuses {input : String} (h : HoldsFault input) : Refuses input (readIteration input) := by
  refine refuses_mapError input (fun e hparse => ?_) (parseIteration_ne_outOfSteps input)
  exact h.not_noneFaulty (lexemes_of_parseIteration isBraced_noneFaulty hparse)

/-! ### Texts of interpolations -/

/-- Texts are read up to one that is no expression, at the latest the first that holds a fault. -/
theorem readAll_refuses {texts : List String} (h : ∃ text ∈ texts, HoldsFault text) :
    ∃ text ∈ texts, Refuses text (readAll texts) := by
  induction texts with
  | nil =>
    obtain ⟨text, hmem, -⟩ := h
    cases hmem
  | cons first texts ih =>
    -- If the first text can be read, the fault is in another.
    by_cases hfirst : ∃ e, read first = .ok e
    · obtain ⟨e, hfirst⟩ := hfirst
      have hrest : ∃ text ∈ texts, HoldsFault text := by
        obtain ⟨text, hmem, hfault⟩ := h
        rcases List.mem_cons.1 hmem with rfl | hmem
        · obtain ⟨cause, hrefused, -⟩ := read_refuses hfault
          rw [hfirst] at hrefused
          cases hrefused
        · exact ⟨text, hmem, hfault⟩
      obtain ⟨text, hmem, cause, hall, hsteps⟩ := ih hrest
      refine ⟨text, List.mem_cons_of_mem _ hmem, cause, ?_, hsteps⟩
      rw [readAll, hfirst]
      change (readAll texts >>= fun es => .ok (e :: es)) = _
      rw [hall]
      rfl
    · obtain ⟨cause, hrefused, hsteps⟩ := refuses_of_ne_ok (not_exists.1 hfirst)
      refine ⟨first, List.mem_cons_self, cause, ?_, hsteps⟩
      rw [readAll, hrefused]
      rfl

/-- Text that is cut into expressions is read as an interpolation, one expression after another. -/
theorem readInterpolation_of_split {input : String} {s : Segments} (hsplit : splitInterpolation input = .ok s)
    (hsome : s.expressions ≠ []) :
    readInterpolation input = (readAll s.expressions).map fun es => some (.interpolation s.parts es) := by
  -- The mark of an interpolation is looked for before the text is cut, so it has to be there.
  have hopens : hasInterpolation input = true := by
    obtain ⟨runs, texts, _ | rest, hreads⟩ := exists_readsAs input.toList
    · rw [hreads.splitInterpolation_eq] at hsplit
      cases hsplit
      have hlength := hreads.lossless.2
      rcases runs with _ | ⟨run, runs⟩
      · cases hlength
      · rcases texts with _ | ⟨text, texts⟩
        · exact absurd rfl hsome
        · rw [hreads.input_eq]
          exact hasInterpolation_weave run text runs texts
    · rw [hreads.splitInterpolation_eq] at hsplit
      cases hsplit
  rw [readInterpolation, if_pos hopens, hsplit]
  change (if s.expressions.isEmpty = true then _ else _) = _
  rw [if_neg (by rwa [List.isEmpty_iff])]
  rcases readAll s.expressions with e | es <;> rfl

/-- A text with a fault is refused, read as an expression or as an iteration, and text with interpolations is refused
if one of the texts that it is cut into holds a fault; the error is then about one of these. -/
theorem fault_refused (input : String) :
    (HoldsFault input → Refuses input (read input) ∧ Refuses input (readIteration input)) ∧
    ∀ s, splitInterpolation input = .ok s → (∃ text ∈ s.expressions, HoldsFault text) →
      ∃ text ∈ s.expressions, Refuses text (readInterpolation input) := by
  refine ⟨fun h => ⟨read_refuses h, readIteration_refuses h⟩, fun s hsplit hfault => ?_⟩
  have hsome : s.expressions ≠ [] := by
    obtain ⟨text, hmem, -⟩ := hfault
    exact List.ne_nil_of_mem hmem
  obtain ⟨text, hmem, cause, hall, hsteps⟩ := readAll_refuses hfault
  refine ⟨text, hmem, cause, ?_, hsteps⟩
  rw [readInterpolation_of_split hsplit hsome, hall]
  rfl

/-- The search for the brace takes the string for closed, but for the tokens its last quotation mark is escaped. -/
theorem fault_refused_escapedQuote :
    HoldsFault "a$\x7b'\\'\x7d" ∧ HoldsFault "'\\'" ∧
    splitInterpolation "a$\x7b'\\'\x7d" = .ok ⟨["a", ""], ["'\\'"]⟩ ∧
    Refuses "a$\x7b'\\'\x7d" (read "a$\x7b'\\'\x7d") ∧ Refuses "a$\x7b'\\'\x7d" (readIteration "a$\x7b'\\'\x7d") ∧
    Refuses "'\\'" (readInterpolation "a$\x7b'\\'\x7d") := by
  have hfault : HoldsFault "a$\x7b'\\'\x7d" := by decide +kernel
  have hinner : HoldsFault "'\\'" := by decide +kernel
  have hsplit : splitInterpolation "a$\x7b'\\'\x7d" = .ok ⟨["a", ""], ["'\\'"]⟩ := by rfl
  obtain ⟨hwhole, hcut⟩ := fault_refused "a$\x7b'\\'\x7d"
  obtain ⟨text, hmem, hrefused⟩ := hcut _ hsplit ⟨_, List.mem_singleton_self _, hinner⟩
  rw [List.mem_singleton.1 hmem] at hrefused
  exact ⟨hfault, hinner, hsplit, (hwhole hfault).1, (hwhole hfault).2, hrefused⟩

end ViewTemplate.Expression
