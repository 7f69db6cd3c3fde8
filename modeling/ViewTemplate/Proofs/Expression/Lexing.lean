import Mathlib.Data.List.TakeWhile
import Mathlib.Tactic.IntervalCases
import ViewTemplate.Expression.Printer
import ViewTemplate.Expression.Token
import ViewTemplate.Proofs.Number.ReadBack

/-!
# Lexemes of a text

What the scanner makes of a text that is put together from spellings of lexemes.  A spelling is read as its
lexeme only if what follows it does not run on, so that every spelling comes with a condition on the text
after it.

* `Spells` — a word is read as a lexeme where a given text follows.
* `Lexes` — a text is made of spellings and spaces; `map_lexeme_tokens` — its tokens are their lexemes.
* `IsIdentifier`, `IsMemberName` — the texts that are read as one word; `tokens_eq_singleton` says of which
  characters they are.
-/

namespace ViewTemplate.Expression

open ViewTemplate.Text

/-! ### Texts made of spellings -/

/-- Where `rest` follows, the characters `w` are read as the lexeme `l`. -/
def Spells (w : List Char) (l : Lexeme) (rest : List Char) : Prop :=
  ∃ c cs, w = c :: cs ∧ isSpace c = false ∧ l.isFault = false ∧
    Lexeme.scan c (cs ++ rest) = ⟨l, rest, 0⟩

/-- The characters are spellings of the lexemes, with spaces anywhere between them. -/
inductive Lexes : List Char → List Lexeme → Prop where
  | nil : Lexes [] []
  | space {c : Char} {cs : List Char} {ls : List Lexeme} (hc : isSpace c = true) (h : Lexes cs ls) :
    Lexes (c :: cs) ls
  | cons {w : List Char} {l : Lexeme} {rest : List Char} {ls : List Lexeme} (hw : Spells w l rest)
    (h : Lexes rest ls) : Lexes (w ++ rest) (l :: ls)

/-- The tokens of a text have its lexemes, if there are steps for each character. -/
theorem map_lexeme_scanTokens {cs : List Char} {ls : List Lexeme} (total : Nat) (h : Lexes cs ls) :
    ∀ fuel, cs.length < fuel → (scanTokens total fuel cs).map Token.lexeme = ls := by
  induction h with
  | nil =>
    intro fuel hfuel
    obtain ⟨fuel, rfl⟩ := Nat.exists_eq_add_one_of_ne_zero (Nat.ne_zero_of_lt hfuel)
    rfl
  | space hc h ih =>
    intro fuel hfuel
    obtain ⟨fuel, rfl⟩ := Nat.exists_eq_add_one_of_ne_zero (Nat.ne_zero_of_lt hfuel)
    rw [← ih (fuel + 1) (by rw [List.length_cons] at hfuel; omega), scanTokens, scanTokens,
      List.dropWhile_cons_of_pos hc]
  | @cons w l rest ls hw h ih =>
    intro fuel hfuel
    obtain ⟨c, cs, rfl, hspace, hfault, hscan⟩ := hw
    rw [List.cons_append, List.length_cons, List.length_append] at hfuel
    obtain ⟨fuel, rfl⟩ := Nat.exists_eq_add_one_of_ne_zero (Nat.ne_zero_of_lt hfuel)
    rw [List.cons_append, scanTokens, List.dropWhile_cons_of_neg (by simp [hspace])]
    simp [hscan, hfault, ih fuel (by omega)]

/-- The tokens of a text made of spellings are their lexemes. -/
theorem map_lexeme_tokens {input : String} {ls : List Lexeme} (h : Lexes input.toList ls) :
    (tokens input).map Token.lexeme = ls :=
  map_lexeme_scanTokens _ h _ (Nat.lt_succ_self _)

/-! ### Words -/

/-- A text that the scanner reads as one identifier, from its first byte to its last. -/
def IsIdentifier (s : String) : Prop :=
  ∃ name, tokens s = [⟨.identifier name, 0, byteLength s.toList⟩]

/-- A text that the scanner reads as one identifier or one keyword, from its first byte to its last. -/
def IsMemberName (s : String) : Prop :=
  IsIdentifier s ∨ ∃ word, tokens s = [⟨.keyword word, 0, byteLength s.toList⟩]

/-- The characters of an identifier or a keyword. -/
def IsWordText (s : String) : Prop :=
  ∃ c cs, s.toList = c :: cs ∧ isIdentifierStart c = true ∧ ∀ d ∈ cs, isIdentifierPart d = true

/-- Only no characters take no bytes. -/
theorem byteLength_eq_zero {cs : List Char} (h : byteLength cs = 0) : cs = [] := by
  cases cs with
  | nil => rfl
  | cons c cs =>
    have := c.utf8Size_pos
    rw [byteLength_cons] at h
    omega

/-- A run of characters and the rest take all the bytes together. -/
theorem byteLength_dropWhile_add (p : Char → Bool) (cs : List Char) :
    byteLength cs = byteLength (cs.takeWhile p) + byteLength (cs.dropWhile p) := by
  rw [← byteLength_append, List.takeWhile_append_dropWhile]

/-- Only the first branch of the scanner reads an identifier or a keyword. -/
theorem isIdentifierStart_of_scan (c : Char) (cs : List Char)
    (h : (∃ name, (Lexeme.scan c cs).lexeme = .identifier name) ∨
      ∃ word, (Lexeme.scan c cs).lexeme = .keyword word) : isIdentifierStart c = true := by
  by_contra hstart
  unfold Lexeme.scan at h
  rw [if_neg hstart] at h
  split at h
  · simp only [Lexeme.ofNumeral] at h
    split at h <;> simp at h
  · split at h
    · simp at h
    · split at h
      · split at h <;> simp at h
      · split at h <;> simp at h

/-- A text that is one token of a word consists of the characters of a word. -/
theorem tokens_eq_singleton {s : String} {l : Lexeme} (h : tokens s = [⟨l, 0, byteLength s.toList⟩])
    (hl : (∃ name, l = .identifier name) ∨ ∃ word, l = .keyword word) :
    IsWordText s ∧ l = .ofWord s := by
  unfold tokens at h
  simp only [scanTokens] at h
  have hlength := byteLength_dropWhile_add isSpace s.toList
  cases hdrop : s.toList.dropWhile isSpace with
  | nil => simp [hdrop] at h
  | cons c cs =>
    rw [hdrop] at h hlength
    simp only at h
    obtain ⟨hlexeme, hbegin, hend⟩ : (Lexeme.scan c cs).lexeme = l ∧
        byteLength s.toList - byteLength (c :: cs) = 0 ∧
        byteLength s.toList - byteLength (Lexeme.scan c cs).rest + (Lexeme.scan c cs).overrun =
          byteLength s.toList := by
      split at h <;> simp only [List.cons.injEq, Token.mk.injEq] at h <;> exact h.1
    have hstart := isIdentifierStart_of_scan c cs (by rwa [hlexeme])
    have hscan : Lexeme.scan c cs =
        ⟨.ofWord (String.ofList (c :: cs.takeWhile isIdentifierPart)), cs.dropWhile isIdentifierPart, 0⟩ :=
      if_pos hstart
    -- The token starts at the first byte, so no space was skipped, and it stops at the last.
    have hskipped : s.toList.takeWhile isSpace = [] := byteLength_eq_zero (by omega)
    have hchars : s.toList = c :: cs := by
      rw [← List.takeWhile_append_dropWhile (p := isSpace) (l := s.toList), hskipped, hdrop, List.nil_append]
    have hpos : 0 < byteLength s.toList := by
      rw [hchars, byteLength_cons]
      exact Nat.add_pos_left c.utf8Size_pos _
    rw [hscan] at hlexeme hend
    have hleft : cs.dropWhile isIdentifierPart = [] := byteLength_eq_zero (by simp only at hend; omega)
    have hparts : cs.takeWhile isIdentifierPart = cs := by
      rw [← List.append_nil (cs.takeWhile _), ← hleft, List.takeWhile_append_dropWhile]
    refine ⟨⟨c, cs, hchars, hstart, List.takeWhile_eq_self_iff.1 hparts⟩, ?_⟩
    rw [← hlexeme, hparts, ← hchars, String.ofList_toList]

/-- An identifier is made of the characters of a word, and its lexeme is an identifier. -/
theorem IsIdentifier.isWordText {s : String} (h : IsIdentifier s) :
    IsWordText s ∧ Lexeme.ofWord s = .identifier s := by
  obtain ⟨name, h⟩ := h
  obtain ⟨hword, hl⟩ := tokens_eq_singleton h (.inl ⟨name, rfl⟩)
  refine ⟨hword, ?_⟩
  unfold Lexeme.ofWord at hl ⊢
  split at hl
  · cases hl
  · next hkey => rw [if_neg hkey]

/-- The name of a member is made of the characters of a word. -/
theorem IsMemberName.isWordText {s : String} : IsMemberName s → IsWordText s
  | .inl h => h.isWordText.1
  | .inr ⟨word, h⟩ => (tokens_eq_singleton h (.inr ⟨word, rfl⟩)).1

/-! ### The spellings of lexemes -/

/-- What begins a word is no space. -/
theorem isSpace_eq_false_of_isIdentifierStart {c : Char} (h : isIdentifierStart c = true) :
    isSpace c = false := by
  by_contra hspace
  simp only [isSpace, Bool.not_eq_false, Bool.or_eq_true, decide_eq_true_eq, or_assoc] at hspace
  rcases hspace with rfl | rfl | rfl | rfl | rfl | rfl | rfl <;> revert h <;> decide +kernel

/-- A word is read as it stands, unless it runs on. -/
theorem spells_word {s : String} {rest : List Char} (h : IsWordText s)
    (hrest : ∀ c ∈ rest.head?, isIdentifierPart c = false) : Spells s.toList (.ofWord s) rest := by
  obtain ⟨c, cs, hchars, hstart, hparts⟩ := h
  have hrun : (cs ++ rest).takeWhile isIdentifierPart = cs ∧
      (cs ++ rest).dropWhile isIdentifierPart = rest := by
    rw [List.takeWhile_append_of_pos hparts, List.dropWhile_append_of_pos hparts]
    cases rest with
    | nil => simp
    | cons d rest => simp [hrest d rfl]
  refine ⟨c, cs, hchars, isSpace_eq_false_of_isIdentifierStart hstart, ?_, ?_⟩
  · unfold Lexeme.ofWord
    split <;> rfl
  · rw [Lexeme.scan, if_pos hstart, hrun.1, hrun.2, ← hchars, String.ofList_toList]

/-- A mark is read by itself, whatever follows. -/
theorem spells_mark {c : Char} (h : isMark c = true) (rest : List Char) :
    Spells [c] (.punctuation c) rest := by
  refine ⟨c, [], rfl, ?_, rfl, ?_⟩
  all_goals
    simp only [isMark, Bool.or_eq_true, decide_eq_true_eq, or_assoc] at h
    rcases h with rfl | rfl | rfl | rfl | rfl | rfl | rfl | rfl | rfl <;> rfl

/-- A point is a mark, unless a numeral starts with it. -/
theorem spells_point {rest : List Char} (hrest : ∀ c ∈ rest.head?, isDigit c = false) :
    Spells ['.'] (.punctuation '.') rest := by
  refine ⟨'.', [], rfl, rfl, rfl, ?_⟩
  have hdigit : (rest.head?.any isDigit) = false := by
    cases hhead : rest.head? with
    | none => rfl
    | some c => exact hrest c hhead
  simp [Lexeme.scan, hdigit, show isIdentifierStart '.' = false by rfl, show isDigit '.' = false by rfl]

/-! ### Strings -/

/-- The quotation mark closes the string. -/
theorem readQuoted_close (q : Char) (cs : List Char) : readQuoted q (q :: cs) = .closed [] cs := by
  rw [readQuoted.eq_def]
  exact if_pos rfl

/-- A backslash takes the next character with it. -/
theorem readQuoted_escape {q : Char} (hq : '\\' ≠ q) (e : Char) (cs : List Char) :
    readQuoted q ('\\' :: e :: cs) = (readQuoted q cs).push (unescape e) := by
  rw [readQuoted.eq_def]
  exact (if_neg hq).trans (if_pos rfl)

/-- Any other character stands for itself. -/
theorem readQuoted_plain {q c : Char} (hq : c ≠ q) (hslash : c ≠ '\\') (cs : List Char) :
    readQuoted q (c :: cs) = (readQuoted q cs).push c := by
  rw [readQuoted.eq_def]
  exact (if_neg hq).trans (if_neg hslash)

/-- What is written between apostrophes reads as it was. -/
theorem readQuoted_escaped (rest : List Char) :
    ∀ cs : List Char, readQuoted '\x27' (cs.flatMap escapeChar ++ '\x27' :: rest) = .closed cs rest
  | [] => readQuoted_close _ _
  | c :: cs => by
    rw [List.flatMap_cons, List.append_assoc, escapeChar]
    split
    · next hspecial =>
      have hunescape : unescape c = c := by
        simp only [Bool.or_eq_true, decide_eq_true_eq] at hspecial
        rcases hspecial with rfl | rfl <;> rfl
      rw [List.cons_append, List.singleton_append, readQuoted_escape (by decide), readQuoted_escaped rest cs,
        hunescape, Quoted.push]
    · next hplain =>
      simp only [Bool.or_eq_true, decide_eq_true_eq, not_or] at hplain
      rw [List.singleton_append, readQuoted_plain hplain.2 hplain.1, readQuoted_escaped rest cs, Quoted.push]

/-- A string in quotation marks, with its escapes, is one lexeme. -/
theorem spells_quoted (value : String) (rest : List Char) :
    Spells (quoted value).toList (.string value) rest := by
  refine ⟨'\x27', value.toList.flatMap escapeChar ++ ['\x27'], ?_, rfl, rfl, ?_⟩
  · simp [quoted]
  · rw [List.append_assoc, List.singleton_append]
    simp [Lexeme.scan, readQuoted_escaped, show isIdentifierStart '\x27' = false by rfl,
      show isDigit '\x27' = false by rfl, show isMark '\x27' = false by rfl]

/-! ### Numerals -/

/-- A numeral of digits and points ends where none of its parts comes next. -/
theorem spanNumeral_append {rest : List Char}
    (hrest : ∀ c ∈ rest.head?, (isDigit c || c = '.') = false ∧ (c = 'e' || c = 'E') = false) :
    ∀ {cs : List Char}, (∀ c ∈ cs, (isDigit c || c = '.') = true) → spanNumeral (cs ++ rest) = (cs, rest)
  | [], _ => by
    cases rest with
    | nil => rfl
    | cons c rest =>
      obtain ⟨hdigit, hexponent⟩ := hrest c rfl
      rw [List.nil_append, spanNumeral.eq_def]
      exact (if_neg (by rw [hdigit]; decide)).trans (if_neg (by rw [hexponent]; decide))
  | c :: cs, hcs => by
    have htail := spanNumeral_append hrest fun d hd => hcs d (List.mem_cons_of_mem c hd)
    rw [List.cons_append, spanNumeral.eq_def]
    refine (if_pos (hcs c List.mem_cons_self)).trans ?_
    rw [htail]
    rfl

/-- A digit starts neither a space nor a word. -/
theorem isSpace_isIdentifierStart_of_isDigit {c : Char} (h : isDigit c = true) :
    isSpace c = false ∧ isIdentifierStart c = false := by
  have hrange : 48 ≤ c.toNat ∧ c.toNat ≤ 57 := by
    simpa [isDigit, Char.le_def, UInt32.le_iff_toNat_le] using h
  obtain ⟨hlow, hhigh⟩ := hrange
  rw [← Char.ofNat_toNat c]
  interval_cases c.toNat <;> decide

/-- A number's text is read as the number, unless it runs on. -/
theorem spells_number {x : Number} {rest : List Char} (hsign : x.negative = false)
    (hfinite : x.isInfinite = false)
    (hrest : ∀ c ∈ rest.head?, (isDigit c || c = '.') = false ∧ (c = 'e' || c = 'E') = false) :
    Spells x.text.toList (.number x.text x) rest := by
  obtain ⟨d, hnumeral, hd⟩ := Number.numeral_text hsign hfinite
  obtain ⟨⟨c, cs, hchars, hdigit⟩, hall⟩ := hnumeral.chars
  obtain ⟨hspace, hstart⟩ := isSpace_isIdentifierStart_of_isDigit hdigit
  have hspan : spanNumeral (c :: (cs ++ rest)) = (x.text.toList, rest) := by
    rw [← List.cons_append, ← hchars]
    exact spanNumeral_append hrest hall
  refine ⟨c, cs, hchars, hspace, rfl, ?_⟩
  simp [Lexeme.scan, hstart, hdigit, hspan, Lexeme.ofNumeral, Number.read?_text hsign hfinite]

/-! ### Operators -/

/-- The operators that are written with a blank after them. -/
def symbols : List String :=
  ["??", "||", "&&", "==", "!=", "===", "!==", "<", ">", "<=", ">=", "+", "-", "*", "/", "%",
    "?", "=", "|", "&"]

/-- An operator with a blank behind it is one lexeme. -/
theorem spells_symbol {symbol : String} (h : symbol ∈ symbols) (rest : List Char) :
    Spells symbol.toList (.operator symbol) (' ' :: rest) := by
  simp only [symbols, List.mem_cons, List.not_mem_nil, or_false] at h
  rcases h with rfl | rfl | rfl | rfl | rfl | rfl | rfl | rfl | rfl | rfl | rfl | rfl | rfl | rfl |
    rfl | rfl | rfl | rfl | rfl | rfl <;> exact ⟨_, _, rfl, rfl, rfl, rfl⟩

/-- An exclamation mark is an operator where no equals sign follows. -/
theorem readOperator?_not {rest : List Char} (hrest : rest.head? ≠ some '=') :
    readOperator? '!' rest = some ("!", rest) := by
  unfold readOperator?
  split <;> simp_all

/-- The signs before an operand run on only into `=`. -/
theorem spells_sign {sign : Char} {rest : List Char} (h : sign ∈ ['!', '-', '+'])
    (hrest : rest.head? ≠ some '=') : Spells [sign] (.operator (String.singleton sign)) rest := by
  simp only [List.mem_cons, List.not_mem_nil, or_false] at h
  rcases h with rfl | rfl | rfl
  · refine ⟨'!', [], rfl, rfl, rfl, ?_⟩
    simp [Lexeme.scan, readOperator?_not hrest, show isIdentifierStart '!' = false by rfl,
      show isDigit '!' = false by rfl, show isMark '!' = false by rfl]
  · exact ⟨'-', [], rfl, rfl, rfl, rfl⟩
  · exact ⟨'+', [], rfl, rfl, rfl, rfl⟩

/-! ### The first lexeme of an expression -/

/-- The lexemes that an expression may start with. -/
def Lexeme.opens : Lexeme → Bool
  | .punctuation c => c = '(' || c = '[' || c = '\x7b'
  | .operator symbol => symbol = "!" || symbol = "-" || symbol = "+"
  | .fault _ => false
  | _ => true

/-- What begins with an equals sign opens no expression. -/
theorem readOperator?_equals (cs : List Char) :
    ∃ symbol rest, readOperator? '=' cs = some (symbol, rest) ∧ (Lexeme.operator symbol).opens = false := by
  unfold readOperator?
  split <;> simp_all [Lexeme.opens]

/-- What starts an expression is not spelled with `=`. -/
theorem Lexes.head?_ne_equals {cs : List Char} {l : Lexeme} {ls : List Lexeme} (h : Lexes cs (l :: ls))
    (hl : l.opens = true) : cs.head? ≠ some '=' := by
  cases h with
  | @space c cs ls hc h =>
    rintro ⟨⟩
    exact absurd hc (by decide)
  | @cons w l rest ls hw h =>
    obtain ⟨c, cs, rfl, -, -, hscan⟩ := hw
    rintro ⟨⟩
    obtain ⟨symbol, rest', hread, hclosed⟩ := readOperator?_equals (cs ++ rest)
    simp only [Lexeme.scan, hread] at hscan
    obtain ⟨rfl, -⟩ : Lexeme.operator symbol = l ∧ rest' = rest := by
      simpa [show isIdentifierStart '=' = false by rfl,
        show isDigit '=' = false by rfl, show isMark '=' = false by rfl] using hscan
    rw [hclosed] at hl
    cases hl

end ViewTemplate.Expression
