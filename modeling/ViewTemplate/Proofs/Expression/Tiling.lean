import ViewTemplate.Proofs.Expression.Spelling

/-!
# Tokens tile their text

The tokens of a text stand in it one after another, each on at least one character, with nothing but spaces between
them, before the first and after the last.  Only the last one may be a fault, and then the rest of the text is left.

There is one way out of the text: in a string that is not closed, a backslash at the very end takes one byte that is
not there.  This is so just if the number of backslashes at the end is odd, since they escape each other in pairs.

* `trailingSlashes` — the backslashes at the end; `readQuoted_unclosed` — the last one escapes nothing if they are odd.
* `Token.Covers` — a token stands on characters of the text; `Token.Overruns` — and on one byte more.
* `Tiles` — the tokens fill the text from some byte on; `tokens_tile` — from the first.
-/

namespace ViewTemplate.Expression

open ViewTemplate.Text

/-! ### Backslashes at the end -/

/-- The number of backslashes at the end. -/
def trailingSlashes (cs : List Char) : Nat :=
  (cs.reverse.takeWhile (· = '\\')).length

/-- One more character in front counts exactly if it is a backslash and so are all others. -/
theorem trailingSlashes_cons (c : Char) (cs : List Char) : trailingSlashes (c :: cs) =
    trailingSlashes cs + if c = '\\' ∧ trailingSlashes cs = cs.length then 1 else 0 := by
  simp only [trailingSlashes, List.reverse_cons, List.takeWhile_append, List.length_reverse]
  by_cases hall : (cs.reverse.takeWhile (· = '\\')).length = cs.length
  · by_cases hc : c = '\\' <;> simp [hall, hc]
  · simp [hall]

/-- What is escaped in front leaves the number even, or odd. -/
theorem trailingSlashes_escape (e : Char) (cs : List Char) :
    trailingSlashes ('\\' :: e :: cs) % 2 = trailingSlashes cs % 2 := by
  rw [trailingSlashes_cons, trailingSlashes_cons e cs, List.length_cons]
  by_cases hslash : e = '\\' ∧ trailingSlashes cs = cs.length
  · rw [if_pos hslash, if_pos ⟨rfl, congrArg (· + 1) hslash.2⟩]
    omega
  · -- A backslash in front counts only if all the others are backslashes too.
    have hle : trailingSlashes cs ≤ cs.length :=
      (List.takeWhile_prefix _).length_le.trans_eq cs.length_reverse
    rw [if_neg hslash, if_neg (by omega)]
    rfl

/-- Only the backslashes behind another character count. -/
theorem trailingSlashes_append {q : Char} (hq : q ≠ '\\') (before cs : List Char) :
    trailingSlashes (before ++ q :: cs) = trailingSlashes cs := by
  rw [trailingSlashes, List.reverse_append, List.reverse_cons, List.append_assoc, List.takeWhile_append]
  split
  · next hall => simpa [hq, trailingSlashes] using hall.symm
  · rfl

/-- The last backslash of a string that is not closed escapes nothing, just if their number is odd. -/
theorem readQuoted_unclosed {q : Char} {cs : List Char} {dangling : Bool}
    (h : readQuoted q cs = .unclosed dangling) : dangling = true ↔ trailingSlashes cs % 2 = 1 := by
  have hpush : ∀ {c : Char} {x : Quoted}, x.push c = .unclosed dangling → x = .unclosed dangling := by
    intro c x hx
    rcases x with ⟨value, rest⟩ | dangling'
    · cases hx
    · exact hx
  fun_induction readQuoted q cs with
  | case1 =>
    cases h
    simp [trailingSlashes]
  | case2 => cases h
  | case3 =>
    cases h
    simp [trailingSlashes]
  | case4 e cs hq ih =>
    rw [trailingSlashes_escape]
    exact ih (hpush h)
  | case5 c cs hq hslash ih =>
    rw [trailingSlashes_cons, if_neg (fun hc => hslash hc.1)]
    exact ih (hpush h)

/-! ### The step: one lexeme -/

/-- The lexeme is a string that is not closed, and a backslash at the end of the text escapes nothing. -/
def Lexeme.Overruns (l : Lexeme) (cs : List Char) : Prop :=
  l = .fault .openQuote ∧ trailingSlashes cs % 2 = 1

instance (l : Lexeme) (cs : List Char) : Decidable (l.Overruns cs) :=
  inferInstanceAs (Decidable (_ ∧ _))

/-- How a lexeme is cut off the front of `c :: cs`: on whole characters, `c` among them, and with a byte more just if
it overruns the text. -/
structure Scanned.Cuts (s : Scanned) (c : Char) (cs : List Char) : Prop where
  cut : ∃ w, cs = w ++ s.rest
  whole : s.lexeme = .fault .openQuote → s.rest = []
  overrun : ∀ before, s.overrun = if s.lexeme.Overruns (before ++ c :: cs) then 1 else 0

/-- What has the shape of a lexeme is no string that was left open. -/
theorem Shaped.ne_openQuote {w : List Char} {l : Lexeme} (h : Shaped w l) : l ≠ .fault .openQuote := by
  rcases h with ⟨hstart, hparts⟩ | ⟨hw⟩ | ⟨hc⟩ | ⟨hq, hinner⟩ | ⟨hsymbol⟩
  · unfold Lexeme.ofWord
    split <;> exact nofun
  · unfold Lexeme.ofNumeral
    split
    · exact nofun
    · intro h
      cases h
  · exact nofun
  · exact nofun
  · exact nofun

/-- What is spelled out takes nothing but its own characters. -/
theorem ScansTo.cuts {c : Char} {cs rest : List Char} {l : Lexeme} (h : ScansTo c cs l rest) :
    (Lexeme.scan c cs).Cuts c cs := by
  obtain ⟨w, rfl, hshaped, halike⟩ := h
  rw [halike rest fun d hd => .inr hd]
  have hne := hshaped.ne_openQuote
  exact ⟨⟨w, rfl⟩, fun heq => absurd heq hne, fun before => (if_neg fun hover => hne hover.1).symm⟩

/-- What is no fault does not overrun the end of the text. -/
theorem Scanned.Cuts.overrun_eq_zero {s : Scanned} {c : Char} {cs : List Char} (h : s.Cuts c cs)
    (hfault : s.lexeme.isFault = false) : s.overrun = 0 := by
  rw [h.overrun [], if_neg]
  rintro ⟨hopen, -⟩
  rw [hopen] at hfault
  cases hfault

/-- The scan at a character cuts off what it takes, and overruns the end only in a string that is left open. -/
theorem scan_cuts (c : Char) (cs : List Char) : (Lexeme.scan c cs).Cuts c cs := by
  by_cases hstart : isIdentifierStart c = true
  · exact (scansTo_word hstart rfl).cuts
  by_cases hnumeral : startsNumeral c cs = true
  · exact (scansTo_numeral hstart hnumeral rfl).cuts
  by_cases hmark : (c = '.' || isMark c) = true
  · exact (scansTo_mark hstart hnumeral hmark rfl).cuts
  by_cases hfault : (Lexeme.scan c cs).lexeme.isFault = false
  · exact (scansTo_of_scan rfl hfault).cuts
  have hdigit : ¬isDigit c = true := fun hdigit => hnumeral (by rw [startsNumeral, hdigit, Bool.true_or])
  rw [scan_other hstart hdigit hmark] at hfault ⊢
  by_cases hquote : (c = '\x27' || c = '\x22') = true
  · rw [if_pos hquote] at hfault ⊢
    rcases hread : readQuoted c cs with ⟨value, rest⟩ | dangling
    · rw [hread] at hfault
      exact absurd rfl hfault
    · have hslash : c ≠ '\\' := by
        rintro rfl
        cases hquote
      refine ⟨⟨cs, (List.append_nil cs).symm⟩, fun _ => rfl, fun before => ?_⟩
      simp only [Lexeme.Overruns, true_and, trailingSlashes_append hslash, ← readQuoted_unclosed hread]
  · rw [if_neg hquote] at hfault ⊢
    rcases hread : readOperator? c cs with _ | ⟨symbol, rest⟩
    · have hne : Lexeme.fault (.unexpected c) ≠ .fault .openQuote := by
        intro h
        cases h
      exact ⟨⟨[], rfl⟩, fun heq => absurd heq hne, fun before => (if_neg fun hover => hne hover.1).symm⟩
    · rw [hread] at hfault
      exact absurd rfl hfault

/-! ### Places in a text -/

/-- A character starts at the byte, or the text ends there. -/
def IsBoundary (input : String) (n : Nat) : Prop :=
  ∃ before after, input.toList = before ++ after ∧ byteLength before = n

/-- The two bytes are boundaries in order, and all characters between them are spaces. -/
def Blank (input : String) (start stop : Nat) : Prop :=
  ∃ gap, sliceBytes start stop input.toList = some gap ∧ ∀ c ∈ gap, isSpace c = true

/-- The token stands on one character of the text at least, and on whole characters, unless it overruns the end. -/
structure Token.Covers (t : Token) (input : String) : Prop where
  start_lt_stop : t.start < t.stop
  start_boundary : IsBoundary input t.start
  stop_boundary : ¬t.lexeme.Overruns input.toList → IsBoundary input t.stop
  stop_overrun : t.lexeme.Overruns input.toList → t.stop = byteLength input.toList + 1

/-- Where the last of the tokens stops, or `n` if there is none. -/
def endOf (n : Nat) (ts : List Token) : Nat :=
  (ts.getLast?.map Token.stop).getD n

/-- The end of tokens behind a first one. -/
theorem endOf_cons (n : Nat) (t : Token) (ts : List Token) : endOf n (t :: ts) = endOf t.stop ts := by
  rw [endOf, List.getLast?_cons]
  rcases hlast : ts.getLast? with _ | u <;> simp [endOf, hlast]

section places

variable {input : String} {before gap w rest : List Char}

/-- A blank stretch does not end before it begins. -/
theorem Blank.le {start stop : Nat} (h : Blank input start stop) : start ≤ stop := by
  obtain ⟨gap, hslice, -⟩ := h
  by_contra hlt
  rw [sliceBytes, if_neg hlt] at hslice
  cases hslice

/-- Spaces that are cut out of a text are a blank stretch of it. -/
theorem blank_of_cut (hcut : input.toList = before ++ (gap ++ rest)) (hgap : ∀ c ∈ gap, isSpace c = true) :
    Blank input (byteLength before) (byteLength (before ++ gap)) :=
  ⟨gap, by rw [hcut, sliceBytes_append], hgap⟩

/-- A token that is cut off what is left of a text covers it. -/
theorem Scanned.Cuts.covers {s : Scanned} {c : Char} (h : s.Cuts c (w ++ s.rest))
    (hcut : input.toList = before ++ c :: (w ++ s.rest)) :
    (⟨s.lexeme, byteLength before, byteLength (before ++ c :: w) + s.overrun⟩ : Token).Covers input where
  start_lt_stop := by
    have hpos := c.utf8Size_pos
    simp only [byteLength_append, byteLength_cons]
    omega
  start_boundary := ⟨before, _, hcut, rfl⟩
  stop_boundary := by
    intro hnot
    dsimp only at hnot ⊢
    rw [h.overrun before, ← hcut, if_neg hnot]
    exact ⟨before ++ c :: w, s.rest, by rw [hcut, List.append_assoc, List.cons_append], rfl⟩
  stop_overrun := by
    intro hover
    dsimp only at hover ⊢
    rw [h.overrun before, ← hcut, if_pos hover, hcut, h.whole hover.1, List.append_nil]

end places

/-! ### The run: all tokens -/

/-- The tokens fill the text from the byte `n` on. -/
structure Tiles (input : String) (n : Nat) (ts : List Token) : Prop where
  covers : ∀ t ∈ ts, t.Covers input
  /-- They stand in order, and none on bytes of another. -/
  ordered : ts.Pairwise fun t u => t.stop ≤ u.start
  above : ∀ t ∈ ts, n ≤ t.start
  /-- Nothing but spaces stands before each. -/
  blank_before : ∀ before t after, ts = before ++ t :: after → Blank input (endOf n before) t.start
  /-- Only the last may be a fault. -/
  sound : ∀ t ∈ ts.dropLast, t.lexeme.isFault = false
  /-- Nothing but spaces stands after them, if none is a fault. -/
  blank_after : (∀ t ∈ ts, t.lexeme.isFault = false) → Blank input (endOf n ts) (byteLength input.toList)

namespace Tiles

variable {input : String} {n : Nat} {t : Token} {ts : List Token}

/-- No tokens tile a text that is blank to its end. -/
theorem nil (h : Blank input n (byteLength input.toList)) : Tiles input n [] where
  covers := nofun
  ordered := .nil
  above := nofun
  blank_before := by
    intro before t after heq
    exact absurd heq (by simp)
  sound := nofun
  blank_after := fun _ => h

/-- A fault ends the tokens. -/
theorem fault (ht : t.Covers input) (hgap : Blank input n t.start)
    (hfault : t.lexeme.isFault = true) : Tiles input n [t] where
  covers := List.forall_mem_singleton.2 ht
  ordered := List.pairwise_singleton _ _
  above := List.forall_mem_singleton.2 hgap.le
  blank_before := by
    intro before u after heq
    rcases List.cons_eq_append_iff.1 heq with ⟨rfl, heq⟩ | ⟨more, -, hnil⟩
    · cases heq
      exact hgap
    · exact absurd hnil (by simp)
  sound := nofun
  blank_after := by
    intro hnone
    rw [List.forall_mem_singleton.1 hnone] at hfault
    cases hfault

/-- One token, and the others from where it stops. -/
theorem cons (ht : t.Covers input) (hgap : Blank input n t.start)
    (hfault : t.lexeme.isFault = false) (h : Tiles input t.stop ts) : Tiles input n (t :: ts) where
  covers := List.forall_mem_cons.2 ⟨ht, h.covers⟩
  ordered := List.pairwise_cons.2 ⟨h.above, h.ordered⟩
  above := by
    refine List.forall_mem_cons.2 ⟨hgap.le, fun u hu => ?_⟩
    exact (hgap.le.trans ht.start_lt_stop.le).trans (h.above u hu)
  blank_before := by
    intro before u after heq
    rcases List.cons_eq_append_iff.1 heq with ⟨rfl, heq⟩ | ⟨more, rfl, heq⟩
    · cases heq
      exact hgap
    · rw [endOf_cons]
      exact h.blank_before more u after (List.cons.inj heq).2
  sound := by
    intro u hu
    rcases ts with _ | ⟨v, vs⟩
    · cases hu
    · rcases List.mem_cons.1 hu with rfl | hu
      · exact hfault
      · exact h.sound u hu
  blank_after := by
    intro hnone
    rw [endOf_cons]
    exact h.blank_after (List.forall_mem_cons.1 hnone).2

end Tiles

/-- The tokens of what is left of a text fill it. -/
theorem tiles_scanTokens {input : String} (fuel : Nat) : ∀ (before : List Char) {cs : List Char},
    input.toList = before ++ cs → cs.length < fuel →
    Tiles input (byteLength before) (scanTokens (byteLength input.toList) fuel cs) := by
  -- On the fuel, with the text before `cs` carried along: its length is the byte from which the tokens fill the rest.
  induction fuel with
  | zero =>
    intro before cs _ hfuel
    cases hfuel
  | succ fuel ih =>
    intro before cs hcut hfuel
    rcases spaces_or_start cs with hspaces | ⟨gap, c, cs, rfl, hgap, hc⟩
    · rw [scanTokens_spaces hspaces]
      have hblank := blank_of_cut (hcut.trans (congrArg (before ++ ·) (List.append_nil cs).symm)) hspaces
      rw [← hcut] at hblank
      exact .nil hblank
    · have hcuts := scan_cuts c cs
      obtain ⟨w, hw⟩ := hcuts.cut
      rw [scanTokens_start cs hgap hc]
      generalize Lexeme.scan c cs = s at hcuts hw
      subst hw
      rw [← List.append_assoc] at hcut
      have hcut' : input.toList = (before ++ gap ++ c :: w) ++ s.rest := by
        rw [hcut, List.append_assoc _ (c :: w), List.cons_append]
      rw [byteLength_sub_of_cut hcut, byteLength_sub_of_cut hcut']
      have hcovers := hcuts.covers hcut
      have hblank : Blank input (byteLength before) (byteLength (before ++ gap)) :=
        blank_of_cut (hcut.trans (List.append_assoc ..)) hgap
      by_cases hfault : s.lexeme.isFault = true
      · rw [if_pos hfault]
        exact .fault hcovers hblank hfault
      · rw [if_neg hfault]
        have hsound : s.lexeme.isFault = false := Bool.eq_false_of_not_eq_true hfault
        refine .cons hcovers hblank hsound ?_
        -- No lexeme but a fault overruns the text, so the next one starts where this one stops.
        rw [hcuts.overrun_eq_zero hsound]
        apply ih _ hcut'
        simp only [List.length_append, List.length_cons] at hfuel
        omega

/-- The tokens of a text tile it: in order, on whole characters, with nothing but spaces between them, and only the
last may be a fault.  None leaves the text but a string that is not closed before a backslash that escapes nothing. -/
theorem tokens_tile (input : String) : Tiles input 0 (tokens input) :=
  tiles_scanTokens _ [] rfl (Nat.lt_succ_self _)

/-- A quotation mark and a backslash are two bytes, and their token is three bytes long. -/
theorem tokens_danglingEscape : tokens "'\\" = [⟨.fault .openQuote, 0, 3⟩] ∧
    ¬∀ t ∈ tokens "'\\", t.stop ≤ byteLength "'\\".toList := by
  decide +kernel

end ViewTemplate.Expression
