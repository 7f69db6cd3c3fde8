import ViewTemplate.Proofs.Expression.Lexing

/-!
# Spellings of lexemes

Every lexeme is the longest that can be read, so that what follows it may decide where it ends.  All that counts is
the first character that follows: a lexeme is the same before a space, and before what starts as the text did.

* `StartsAlike` — a text goes on with a space, or as another does; `Spells.alike` — a word is then read alike.
* `Shaped` — the characters that lexemes are spelled with; `Spells.shaped` — there are no others.
* `Token.slice` — the characters that a token covers.
* `Spelled`, `spelled_tokens` — a text without faults is made of what its tokens cover, and of spaces.
-/

namespace ViewTemplate.Expression

open ViewTemplate.Text

/-! ### What follows a lexeme -/

/-- What follows starts with a space, or as `rest` does, or there is nothing. -/
def StartsAlike (rest rest' : List Char) : Prop :=
  ∀ c ∈ rest'.head?, isSpace c = true ∨ c ∈ rest.head?

/-- Behind the same characters, rests that start alike still do. -/
theorem StartsAlike.append (w : List Char) {rest rest' : List Char} (h : StartsAlike rest rest') :
    StartsAlike (w ++ rest) (w ++ rest') := by
  cases w with
  | nil => exact h
  | cons c w =>
    rintro d ⟨⟩
    exact .inr rfl

/-- What no space starts with and `rest` does not, does not follow. -/
theorem StartsAlike.not {p : Char → Bool} {rest rest' : List Char} (h : StartsAlike rest rest')
    (hspace : ∀ c, isSpace c = true → p c = false) (hrest : ∀ c ∈ rest.head?, p c = false) :
    ∀ c ∈ rest'.head?, p c = false := by
  intro c hc
  rcases h c hc with hc | hc
  · exact hspace c hc
  · exact hrest c hc

/-- The spaces one by one. -/
def spaces : List Char :=
  [' ', '\t', '\n', '\r', '\x0b', '\x0c', '\u00a0']

/-- Every space is one of the seven. -/
theorem mem_spaces {c : Char} (h : isSpace c = true) : c ∈ spaces := by
  simp only [isSpace, Bool.or_eq_true, decide_eq_true_eq, or_assoc] at h
  simpa [spaces] using h

/-- What holds of every space by itself. -/
theorem forall_isSpace {p : Char → Bool} (h : spaces.all p = true) : ∀ c, isSpace c = true → p c = true :=
  fun c hc => List.all_eq_true.1 h c (mem_spaces hc)

/-- What holds of none of the spaces holds of no space. -/
theorem forall_isSpace_not {p : Char → Bool} (h : spaces.any p = false) : ∀ c, isSpace c = true → p c = false := by
  intro c hc
  simpa using List.any_eq_false.1 h c (mem_spaces hc)

/-- A space is no part of a word. -/
theorem not_isIdentifierPart_of_isSpace : ∀ c, isSpace c = true → isIdentifierPart c = false :=
  forall_isSpace_not (by decide +kernel)

/-! ### Numerals -/

section numerals

variable {c : Char} {cs rest : List Char}

/-- A digit or a point goes on with the numeral. -/
theorem spanNumeral_digit (hc : (isDigit c || c = '.') = true) (cs : List Char) :
    spanNumeral (c :: cs) = consFront [c] (spanNumeral cs) := by
  rw [spanNumeral.eq_def]
  exact if_pos hc

/-- The letter of an exponent is neither a digit nor a point. -/
theorem not_isDigit_of_exponent (hc : (c = 'e' || c = 'E') = true) : (isDigit c || c = '.') = false := by
  simp only [Bool.or_eq_true, decide_eq_true_eq] at hc
  rcases hc with rfl | rfl <;> rfl

/-- A mark of an exponent, where no sign follows it. -/
theorem spanNumeral_exponent (hc : (c = 'e' || c = 'E') = true)
    (hcs : ∀ s ∈ cs.head?, (s = '+' || s = '-') = false) :
    spanNumeral (c :: cs) = consFront [c] (spanNumeral cs) := by
  rw [spanNumeral.eq_def]
  simp only [not_isDigit_of_exponent hc, hc, Bool.false_eq_true, if_false, if_true]
  cases cs with
  | nil => rfl
  | cons s cs => simp [hcs s rfl]

/-- The letter of an exponent takes a sign with it. -/
theorem spanNumeral_exponent_sign {s : Char} (hc : (c = 'e' || c = 'E') = true) (hs : (s = '+' || s = '-') = true)
    (cs : List Char) : spanNumeral (c :: s :: cs) = consFront [c, s] (spanNumeral cs) := by
  rw [spanNumeral.eq_def]
  simp only [not_isDigit_of_exponent hc, hc, hs, Bool.false_eq_true, if_false, if_true]

/-- Whether a numeral goes on with the character. -/
def isNumeralPart (c : Char) : Bool :=
  isDigit c || c = '.' || c = 'e' || c = 'E'

/-- A numeral ends where no part of one comes next. -/
theorem spanNumeral_stop (h : ∀ c ∈ rest.head?, isNumeralPart c = false) : spanNumeral rest = ([], rest) := by
  refine @spanNumeral_append rest ?_ [] nofun
  intro c hc
  simpa [isNumeralPart, and_assoc] using h c hc

/-- A numeral is cut off at the front, and ends there wherever the text goes on alike. -/
theorem spanNumeral_alike (cs : List Char) : (spanNumeral cs).1 ++ (spanNumeral cs).2 = cs ∧
    ∀ rest', StartsAlike (spanNumeral cs).2 rest' →
      spanNumeral ((spanNumeral cs).1 ++ rest') = ((spanNumeral cs).1, rest') := by
  have hpart : ∀ c, isSpace c = true → isNumeralPart c = false := forall_isSpace_not (by decide)
  have hsign : ∀ c, isSpace c = true → (c = '+' || c = '-') = false := forall_isSpace_not (by decide)
  fun_induction spanNumeral cs with
  | case1 =>
    refine ⟨rfl, fun rest' hrest => ?_⟩
    exact spanNumeral_stop (hrest.not hpart nofun)
  | case2 c cs hdigit ih =>
    refine ⟨congrArg (c :: ·) ih.1, fun rest' hrest => ?_⟩
    exact (spanNumeral_digit hdigit _).trans (congrArg (consFront [c]) (ih.2 rest' hrest))
  | case3 c hdigit hexponent =>
    refine ⟨rfl, fun rest' hrest => ?_⟩
    rw [List.singleton_append, spanNumeral_exponent hexponent (hrest.not hsign nofun),
      spanNumeral_stop (hrest.not hpart nofun)]
    rfl
  | case4 c hdigit hexponent s cs hs ih =>
    refine ⟨congrArg (c :: s :: ·) ih.1, fun rest' hrest => ?_⟩
    exact (spanNumeral_exponent_sign hexponent hs _).trans (congrArg (consFront [c, s]) (ih.2 rest' hrest))
  | case5 c hdigit hexponent s cs hs ih =>
    refine ⟨congrArg (c :: ·) ih.1, fun rest' hrest => ?_⟩
    have halike : StartsAlike (s :: cs) ((spanNumeral (s :: cs)).1 ++ rest') := by
      have happend : StartsAlike ((spanNumeral (s :: cs)).1 ++ (spanNumeral (s :: cs)).2) _ := hrest.append _
      rwa [ih.1] at happend
    have hnone : ∀ d ∈ ((spanNumeral (s :: cs)).1 ++ rest').head?, (d = '+' || d = '-') = false := by
      apply halike.not hsign
      rintro d ⟨⟩
      exact Bool.eq_false_of_not_eq_true hs
    exact (spanNumeral_exponent hexponent hnone).trans (congrArg (consFront [c]) (ih.2 rest' hrest))
  | case6 c cs hdigit hexponent =>
    refine ⟨rfl, fun rest' hrest => ?_⟩
    apply spanNumeral_stop
    apply hrest.not hpart
    rintro d ⟨⟩
    simpa [isNumeralPart, not_or, and_assoc] using And.intro hdigit hexponent

/-- Whether the character occurs in numerals. -/
def isNumeralChar (c : Char) : Bool :=
  isNumeralPart c || c = '+' || c = '-'

/-- All characters of a numeral may stand in one. -/
theorem isNumeralChar_spanNumeral (cs : List Char) : ∀ d ∈ (spanNumeral cs).1, isNumeralChar d = true := by
  have hdigits : ∀ c, (isDigit c || c = '.') = true → isNumeralChar c = true := by
    intro c hc
    simp [isNumeralChar, isNumeralPart, hc]
  have hexponents : ∀ c, (c = 'e' || c = 'E') = true → isNumeralChar c = true := by
    intro c hc
    rw [Bool.or_eq_true, decide_eq_true_eq, decide_eq_true_eq] at hc
    rcases hc with rfl | rfl <;> rfl
  have hsigns : ∀ c, (c = '+' || c = '-') = true → isNumeralChar c = true := by
    intro c hc
    rw [Bool.or_eq_true, decide_eq_true_eq, decide_eq_true_eq] at hc
    rcases hc with rfl | rfl <;> rfl
  fun_induction spanNumeral cs with
  | case1 => exact nofun
  | case2 c cs hdigit ih => exact List.forall_mem_cons.2 ⟨hdigits c hdigit, ih⟩
  | case3 c hdigit hexponent => exact List.forall_mem_singleton.2 (hexponents c hexponent)
  | case4 c hdigit hexponent s cs hs ih =>
    exact List.forall_mem_cons.2 ⟨hexponents c hexponent, List.forall_mem_cons.2 ⟨hsigns s hs, ih⟩⟩
  | case5 c hdigit hexponent s cs hs ih => exact List.forall_mem_cons.2 ⟨hexponents c hexponent, ih⟩
  | case6 c cs hdigit hexponent => exact nofun

end numerals

/-! ### Strings -/

/-- A string with one more character in front is closed exactly if it was. -/
theorem Quoted.push_eq_closed {c : Char} {x : Quoted} {value rest : List Char} (h : x.push c = .closed value rest) :
    ∃ value', x = .closed value' rest ∧ value = c :: value' := by
  cases x with
  | closed value' rest' =>
    cases h
    exact ⟨value', rfl, rfl⟩
  | unclosed dangling => cases h

/-- A string is read up to its closing quote, whatever follows; the quotes before it are part of the value. -/
theorem readQuoted_alike {q : Char} (hunescape : unescape q = q) {cs value rest : List Char}
    (h : readQuoted q cs = .closed value rest) : ∃ inner, cs = inner ++ q :: rest ∧ (q ∈ inner → q ∈ value) ∧
      ∀ rest', readQuoted q (inner ++ q :: rest') = .closed value rest' := by
  fun_induction readQuoted q cs generalizing value with
  | case1 => cases h
  | case2 cs =>
    cases h
    exact ⟨[], rfl, nofun, fun rest' => readQuoted_close q rest'⟩
  | case3 hq => cases h
  | case4 e cs hq ih =>
    obtain ⟨value', hread, rfl⟩ := Quoted.push_eq_closed h
    obtain ⟨inner, rfl, hmem, hinner⟩ := ih hread
    refine ⟨'\\' :: e :: inner, rfl, ?_, fun rest' => ?_⟩
    · intro hq'
      rcases List.mem_cons.1 hq' with rfl | hq'
      · exact absurd rfl hq
      rcases List.mem_cons.1 hq' with rfl | hq'
      · rw [hunescape]
        exact List.mem_cons_self
      · exact List.mem_cons_of_mem _ (hmem hq')
    · rw [List.cons_append, List.cons_append, readQuoted_escape hq, hinner, Quoted.push]
  | case5 c cs hq hslash ih =>
    obtain ⟨value', hread, rfl⟩ := Quoted.push_eq_closed h
    obtain ⟨inner, rfl, hmem, hinner⟩ := ih hread
    refine ⟨c :: inner, rfl, ?_, fun rest' => ?_⟩
    · intro hq'
      exact List.mem_cons_of_mem c (hmem ((List.mem_cons.1 hq').resolve_left (Ne.symm hq)))
    · rw [List.cons_append, readQuoted_plain hq hslash, hinner, Quoted.push]

/-! ### Operators -/

/-- Rests that start alike begin with the same character other than a space, or neither does. -/
theorem StartsAlike.ne_cons {rest rest' : List Char} (h : StartsAlike rest rest') {d : Char}
    (hd : isSpace d = false) (hrest : ∀ cs, rest = d :: cs → False) : ∀ cs, rest' = d :: cs → False := by
  rintro cs rfl
  rcases h d rfl with hspace | hmem
  · rw [hd] at hspace
    cases hspace
  · obtain ⟨ds, rfl⟩ := List.head?_eq_some_iff.1 (Option.mem_def.1 hmem)
    exact hrest ds rfl

/-- The operators that may go on with a further character, and with which. -/
def joins : List (Char × Char) :=
  [('?', '?'), ('&', '&'), ('|', '|'), ('<', '='), ('>', '='), ('!', '='), ('=', '=')]

/-- A character that is joined to no next one is an operator by itself, or none. -/
theorem readOperator?_single {c : Char} {cs : List Char} (h : ∀ d ∈ cs.head?, (c, d) ∉ joins) :
    readOperator? c cs = if c ∈ ['+', '-', '*', '/', '%', '?', '&', '|', '<', '>', '!', '=']
      then some (String.singleton c, cs) else none := by
  unfold readOperator?
  split
  all_goals first | rfl | exact absurd (h _ rfl) (by decide)

/-- An operator that may go on with two characters more, the second being `=` both times. -/
theorem readOperator?_equals_alike {c : Char} {two three : String}
    (hthree : ∀ cs, readOperator? c ('=' :: '=' :: cs) = some (three, cs))
    (htwo : ∀ cs, (∀ ds, cs = '=' :: ds → False) → readOperator? c ('=' :: cs) = some (two, cs))
    {cs rest : List Char} {symbol : String} (h : readOperator? c ('=' :: cs) = some (symbol, rest)) :
    ∃ w, '=' :: cs = w ++ rest ∧
      ∀ rest', StartsAlike rest rest' → readOperator? c (w ++ rest') = some (symbol, rest') := by
  by_cases hthird : ∃ ds, cs = '=' :: ds
  · obtain ⟨ds, rfl⟩ := hthird
    rw [hthree] at h
    cases h
    exact ⟨['=', '='], rfl, fun rest' _ => hthree rest'⟩
  · have hnone : ∀ ds, cs = '=' :: ds → False := fun ds hds => hthird ⟨ds, hds⟩
    rw [htwo cs hnone] at h
    cases h
    exact ⟨['='], rfl, fun rest' hrest => htwo rest' (hrest.ne_cons rfl hnone)⟩

/-- The longest operator is the same, wherever the text goes on alike. -/
theorem readOperator?_alike {c : Char} {cs rest : List Char} {symbol : String}
    (h : readOperator? c cs = some (symbol, rest)) :
    ∃ w, cs = w ++ rest ∧ ∀ rest', StartsAlike rest rest' → readOperator? c (w ++ rest') = some (symbol, rest') := by
  by_cases hjoin : ∃ d ∈ cs.head?, (c, d) ∈ joins
  · obtain ⟨d, hd, hjoin⟩ := hjoin
    obtain ⟨cs, rfl⟩ := List.head?_eq_some_iff.1 (Option.mem_def.1 hd)
    simp only [joins, List.mem_cons, List.not_mem_nil, or_false, Prod.mk.injEq] at hjoin
    rcases hjoin with ⟨rfl, rfl⟩ | ⟨rfl, rfl⟩ | ⟨rfl, rfl⟩ | ⟨rfl, rfl⟩ | ⟨rfl, rfl⟩ | ⟨rfl, rfl⟩ | ⟨rfl, rfl⟩
    · cases h
      exact ⟨['?'], rfl, fun rest' _ => rfl⟩
    · cases h
      exact ⟨['&'], rfl, fun rest' _ => rfl⟩
    · cases h
      exact ⟨['|'], rfl, fun rest' _ => rfl⟩
    · cases h
      exact ⟨['='], rfl, fun rest' _ => rfl⟩
    · cases h
      exact ⟨['='], rfl, fun rest' _ => rfl⟩
    · exact readOperator?_equals_alike (fun _ => rfl) readOperator?.eq_7 h
    · exact readOperator?_equals_alike (fun _ => rfl) readOperator?.eq_9 h
  · have hnone : ∀ d ∈ cs.head?, (c, d) ∉ joins := fun d hd hmem => hjoin ⟨d, hd, hmem⟩
    have hspace : ∀ d, isSpace d = true → (c, d) ∉ joins := by
      intro d hd hmem
      have hall : joins.any (isSpace ·.2) = false := by decide
      exact List.any_eq_false.1 hall (c, d) hmem hd
    rw [readOperator?_single hnone] at h
    split at h
    · next hc =>
      cases h
      refine ⟨[], rfl, fun rest' hrest => ?_⟩
      rw [List.nil_append, readOperator?_single, if_pos hc]
      intro d hd
      rcases hrest d hd with hd | hd
      · exact hspace d hd
      · exact hnone d hd
    · cases h

/-- The characters of operators. -/
def operatorChars : List Char :=
  ['+', '-', '*', '/', '%', '?', '&', '|', '<', '>', '!', '=']

/-- Whether the character occurs in operators. -/
def isOperatorChar (c : Char) : Bool :=
  c ∈ operatorChars

/-- An operator takes its own characters. -/
theorem readOperator?_symbol {c : Char} {cs rest : List Char} {symbol : String}
    (h : readOperator? c cs = some (symbol, rest)) :
    c :: cs = symbol.toList ++ rest ∧ ∀ d ∈ symbol.toList, isOperatorChar d = true := by
  unfold readOperator? at h
  split at h
  case h_10 =>
    split at h
    · next hc =>
      cases h
      rw [String.toList_singleton]
      exact ⟨rfl, List.forall_mem_singleton.2 (decide_eq_true hc)⟩
    · cases h
  all_goals
    cases h
    exact ⟨rfl, List.all_eq_true.1 (by decide)⟩

/-! ### Lexemes -/

/-- Of which characters a lexeme is spelled. -/
inductive Shaped : List Char → Lexeme → Prop where
  | word {c : Char} {cs : List Char} (hstart : isIdentifierStart c = true)
    (hparts : ∀ d ∈ cs, isIdentifierPart d = true) : Shaped (c :: cs) (.ofWord (String.ofList (c :: cs)))
  | numeral {w : List Char} (hw : ∀ d ∈ w, isNumeralChar d = true) : Shaped w (.ofNumeral w)
  | mark {c : Char} (hc : (c = '.' || isMark c) = true) : Shaped [c] (.punctuation c)
  /-- Between quotes that are part of the value, if any stand in it. -/
  | quoted {q : Char} {inner value : List Char} (hq : (q = '\x27' || q = '\x22') = true)
    (hinner : q ∈ inner → q ∈ value) : Shaped (q :: (inner ++ [q])) (.string (String.ofList value))
  | operator {symbol : String} (hsymbol : ∀ d ∈ symbol.toList, isOperatorChar d = true) :
    Shaped symbol.toList (.operator symbol)

/-- A run of characters that ends before one rest, and holds no spaces, ends before the other. -/
theorem takeWhile_alike {p : Char → Bool} (hspace : ∀ c, isSpace c = true → p c = false) {cs rest' : List Char}
    (hrest : StartsAlike (cs.dropWhile p) rest') :
    (cs.takeWhile p ++ rest').takeWhile p = cs.takeWhile p ∧ (cs.takeWhile p ++ rest').dropWhile p = rest' := by
  have hall : ∀ c ∈ cs.takeWhile p, p c = true := fun c hc => List.mem_takeWhile_imp hc
  have hnone : ∀ c ∈ rest'.head?, p c = false := by
    apply hrest.not hspace
    intro c hc
    have hnot := List.head?_dropWhile_not p cs
    rw [Option.mem_def.1 hc] at hnot
    simpa using hnot
  rw [List.takeWhile_append_of_pos hall, List.dropWhile_append_of_pos hall]
  cases rest' with
  | nil => simp
  | cons d rest' => simp [hnone d rfl]

/-- The characters `cs` down to `rest` are read after `c` as the lexeme `l`, wherever the text goes on alike. -/
def ScansTo (c : Char) (cs : List Char) (l : Lexeme) (rest : List Char) : Prop :=
  ∃ w, cs = w ++ rest ∧ Shaped (c :: w) l ∧
    ∀ rest', StartsAlike rest rest' → Lexeme.scan c (w ++ rest') = ⟨l, rest', 0⟩

section scanning

variable {c : Char} {cs rest : List Char} {l : Lexeme} {overrun : Nat}

/-- A word is cut off in the same way before rests that start alike. -/
theorem scansTo_word (hstart : isIdentifierStart c = true) (h : Lexeme.scan c cs = ⟨l, rest, overrun⟩) :
    ScansTo c cs l rest := by
  have hscan : ∀ ds, Lexeme.scan c ds = ⟨.ofWord (String.ofList (c :: ds.takeWhile isIdentifierPart)),
      ds.dropWhile isIdentifierPart, 0⟩ := fun ds => if_pos hstart
  rw [hscan] at h
  cases h
  refine ⟨cs.takeWhile isIdentifierPart, List.takeWhile_append_dropWhile.symm,
    .word hstart fun d hd => List.mem_takeWhile_imp hd, fun rest' hrest => ?_⟩
  obtain ⟨htake, hdrop⟩ := takeWhile_alike not_isIdentifierPart_of_isSpace hrest
  rw [hscan, htake, hdrop]

/-- Whether a numeral starts with `c`, where `cs` follows: with a digit, or with a point and a digit. -/
def startsNumeral (c : Char) (cs : List Char) : Bool :=
  isDigit c || (c = '.' && cs.head?.any isDigit)

/-- A numeral is cut off in the same way before rests that start alike. -/
theorem scansTo_numeral (hstart : ¬isIdentifierStart c = true) (hnumeral : startsNumeral c cs = true)
    (h : Lexeme.scan c cs = ⟨l, rest, overrun⟩) : ScansTo c cs l rest := by
  have hfirst : (isDigit c || c = '.') = true := by
    rw [startsNumeral, Bool.or_eq_true, Bool.and_eq_true] at hnumeral
    exact Bool.or_eq_true_iff.2 (hnumeral.imp_right And.left)
  have hspan : ∀ ds, spanNumeral (c :: ds) = (c :: (spanNumeral ds).1, (spanNumeral ds).2) := spanNumeral_digit hfirst
  have hscan : ∀ ds, startsNumeral c ds = true →
      Lexeme.scan c ds = ⟨.ofNumeral (c :: (spanNumeral ds).1), (spanNumeral ds).2, 0⟩ := by
    intro ds hds
    refine ((if_neg hstart).trans (if_pos hds)).trans ?_
    rw [hspan]
  rw [hscan cs hnumeral] at h
  cases h
  obtain ⟨hcut, halike⟩ := spanNumeral_alike cs
  have hchars := isNumeralChar_spanNumeral (c :: cs)
  rw [hspan] at hchars
  refine ⟨(spanNumeral cs).1, hcut.symm, .numeral hchars, fun rest' hrest => ?_⟩
  rw [hscan, halike rest' hrest]
  -- The digit after a point belongs to the numeral.
  rw [startsNumeral, Bool.or_eq_true, Bool.and_eq_true] at hnumeral ⊢
  refine hnumeral.imp_right fun ⟨hpoint, hdigit⟩ => ⟨hpoint, ?_⟩
  cases cs with
  | nil => cases hdigit
  | cons d ds =>
    have hd : isDigit d = true := hdigit
    rw [spanNumeral_digit (by rw [hd, Bool.true_or])]
    exact hd

/-- A mark is read by itself, and so is a point that starts no numeral. -/
theorem scansTo_mark (hstart : ¬isIdentifierStart c = true) (hnumeral : ¬startsNumeral c cs = true)
    (hmark : (c = '.' || isMark c) = true) (h : Lexeme.scan c cs = ⟨l, rest, overrun⟩) :
    ScansTo c cs l rest := by
  have hscan : ∀ ds, ¬startsNumeral c ds = true → Lexeme.scan c ds = ⟨.punctuation c, ds, 0⟩ := by
    intro ds hds
    exact (if_neg hstart).trans ((if_neg hds).trans (if_pos hmark))
  rw [hscan cs hnumeral] at h
  cases h
  refine ⟨[], rfl, .mark hmark, fun rest' hrest => hscan rest' ?_⟩
  simp only [startsNumeral, Bool.or_eq_true, Bool.and_eq_true, not_or, not_and] at hnumeral ⊢
  refine ⟨hnumeral.1, fun hpoint hdigit => hnumeral.2 hpoint ?_⟩
  obtain ⟨d, hd, hdigit⟩ := (Option.any_eq_true ..).1 hdigit
  rcases hrest d hd with hspace | hmem
  · have hnot : ∀ d, isSpace d = true → isDigit d = false := forall_isSpace_not (by decide)
    rw [hnot d hspace] at hdigit
    cases hdigit
  · exact (Option.any_eq_true ..).2 ⟨d, hmem, hdigit⟩

/-- What is no word, numeral or mark is a string or an operator. -/
theorem scan_other (hstart : ¬isIdentifierStart c = true) (hdigit : ¬isDigit c = true)
    (hmark : ¬(c = '.' || isMark c) = true) (ds : List Char) :
    Lexeme.scan c ds = if c = '\x27' || c = '\x22' then
      match readQuoted c ds with
      | .closed value rest => ⟨.string (String.ofList value), rest, 0⟩
      | .unclosed dangling => ⟨.fault .openQuote, [], if dangling then 1 else 0⟩
    else match readOperator? c ds with
      | some (symbol, rest) => ⟨.operator symbol, rest, 0⟩
      | none => ⟨.fault (.unexpected c), ds, 0⟩ := by
  have hnumeral : ¬startsNumeral c ds = true := by
    rw [Bool.or_eq_true, decide_eq_true_eq, not_or] at hmark
    simp [startsNumeral, hdigit, hmark.1]
  exact (if_neg hstart).trans ((if_neg hnumeral).trans (if_neg hmark))

/-- A string that is closed is cut off in the same way before any rest. -/
theorem scansTo_quote (hstart : ¬isIdentifierStart c = true) (hdigit : ¬isDigit c = true)
    (hmark : ¬(c = '.' || isMark c) = true) (hquote : (c = '\x27' || c = '\x22') = true)
    (h : Lexeme.scan c cs = ⟨l, rest, overrun⟩) (hfault : l.isFault = false) : ScansTo c cs l rest := by
  unfold ScansTo
  simp only [scan_other hstart hdigit hmark, hquote, if_true] at h ⊢
  cases hread : readQuoted c cs with
  | closed value rest₀ =>
    rw [hread] at h
    cases h
    have hunescape : unescape c = c := by
      rw [Bool.or_eq_true, decide_eq_true_eq, decide_eq_true_eq] at hquote
      rcases hquote with rfl | rfl <;> rfl
    obtain ⟨inner, rfl, hmem, halike⟩ := readQuoted_alike hunescape hread
    refine ⟨inner ++ [c], by simp, .quoted hquote hmem, fun rest' _ => ?_⟩
    rw [List.append_assoc, List.singleton_append, halike rest']
  | unclosed dangling =>
    rw [hread] at h
    cases h
    cases hfault

/-- An operator is cut off in the same way before rests that start alike. -/
theorem scansTo_operator (hstart : ¬isIdentifierStart c = true) (hdigit : ¬isDigit c = true)
    (hmark : ¬(c = '.' || isMark c) = true) (hquote : ¬(c = '\x27' || c = '\x22') = true)
    (h : Lexeme.scan c cs = ⟨l, rest, overrun⟩) (hfault : l.isFault = false) : ScansTo c cs l rest := by
  unfold ScansTo
  simp only [scan_other hstart hdigit hmark, if_neg hquote] at h ⊢
  cases hread : readOperator? c cs with
  | some found =>
    rw [hread] at h
    cases h
    obtain ⟨w, rfl, halike⟩ := readOperator?_alike hread
    obtain ⟨hsymbol, hchars⟩ := readOperator?_symbol hread
    have hshaped : Shaped (c :: w) (.operator found.1) := by
      rw [← List.cons_append] at hsymbol
      rw [List.append_cancel_right hsymbol]
      exact .operator hchars
    refine ⟨w, rfl, hshaped, fun rest' hrest => ?_⟩
    rw [halike rest' hrest]
  | none =>
    rw [hread] at h
    cases h
    cases hfault

/-- Every lexeme is read off the front of a text, and is the same wherever the text goes on alike. -/
theorem scansTo_of_scan (h : Lexeme.scan c cs = ⟨l, rest, overrun⟩) (hfault : l.isFault = false) :
    ScansTo c cs l rest := by
  by_cases hstart : isIdentifierStart c = true
  · exact scansTo_word hstart h
  by_cases hnumeral : startsNumeral c cs = true
  · exact scansTo_numeral hstart hnumeral h
  by_cases hmark : (c = '.' || isMark c) = true
  · exact scansTo_mark hstart hnumeral hmark h
  have hdigit : ¬isDigit c = true := fun hdigit => hnumeral (by rw [startsNumeral, hdigit, Bool.true_or])
  by_cases hquote : (c = '\x27' || c = '\x22') = true
  · exact scansTo_quote hstart hdigit hmark hquote h hfault
  · exact scansTo_operator hstart hdigit hmark hquote h hfault

end scanning

/-- A word that is read as a lexeme is read as it wherever the text goes on alike. -/
theorem Spells.alike {w rest rest' : List Char} {l : Lexeme} (h : Spells w l rest) (hrest : StartsAlike rest rest') :
    Spells w l rest' := by
  obtain ⟨c, cs, rfl, hspace, hfault, hscan⟩ := h
  obtain ⟨w, hcut, -, halike⟩ := scansTo_of_scan hscan hfault
  obtain rfl := List.append_cancel_right hcut
  exact ⟨c, cs, rfl, hspace, hfault, halike rest' hrest⟩

/-- What spells a lexeme has the shape of such lexemes. -/
theorem Spells.shaped {w rest : List Char} {l : Lexeme} (h : Spells w l rest) : Shaped w l := by
  obtain ⟨c, cs, rfl, hspace, hfault, hscan⟩ := h
  obtain ⟨w, hcut, hshaped, -⟩ := scansTo_of_scan hscan hfault
  rwa [List.append_cancel_right hcut]

/-- A lexeme is spelled by the characters that it takes off the front of a text. -/
theorem spells_scan {c : Char} {cs : List Char} (hc : isSpace c = false)
    (hfault : (Lexeme.scan c cs).lexeme.isFault = false) :
    ∃ w, c :: cs = w ++ (Lexeme.scan c cs).rest ∧
      Spells w (Lexeme.scan c cs).lexeme (Lexeme.scan c cs).rest ∧ (Lexeme.scan c cs).overrun = 0 := by
  cases hscan : Lexeme.scan c cs with
  | mk l rest overrun =>
    rw [hscan] at hfault
    obtain ⟨w, rfl, -, halike⟩ := scansTo_of_scan hscan hfault
    have hsame := halike rest fun d hd => .inr hd
    refine ⟨c :: w, rfl, ⟨c, w, rfl, hc, hfault, hsame⟩, ?_⟩
    rw [hscan] at hsame
    exact congrArg Scanned.overrun hsame

/-! ### The texts of tokens -/

/-- Spaces in front change nothing in the lexemes. -/
theorem Lexes.spaces {gap cs : List Char} {ls : List Lexeme} (hgap : ∀ c ∈ gap, isSpace c = true)
    (h : Lexes cs ls) : Lexes (gap ++ cs) ls := by
  induction gap with
  | nil => exact h
  | cons c gap ih =>
    rw [List.forall_mem_cons] at hgap
    exact .space hgap.1 (ih hgap.2)

/-- The characters of a text that the token covers. -/
def Token.slice (t : Token) (input : String) : String :=
  String.ofList ((sliceBytes t.start t.stop input.toList).getD [])

/-- The characters are made of words and spaces; each word is read as the lexeme beside it. -/
inductive Spelled : List Char → List (String × Lexeme) → Prop where
  | nil : Spelled [] []
  | space {c : Char} {cs : List Char} {ws : List (String × Lexeme)} (hc : isSpace c = true) (h : Spelled cs ws) :
    Spelled (c :: cs) ws
  | cons {w : String} {l : Lexeme} {rest : List Char} {ws : List (String × Lexeme)}
    (hw : Spells w.toList l rest) (h : Spelled rest ws) : Spelled (w.toList ++ rest) ((w, l) :: ws)

/-- One more lexeme with the characters that spell it. -/
theorem Spelled.cons_ofList {w rest : List Char} {l : Lexeme} {ws : List (String × Lexeme)} (hw : Spells w l rest)
    (h : Spelled rest ws) : Spelled (w ++ rest) ((String.ofList w, l) :: ws) := by
  have hcons := Spelled.cons (w := String.ofList w) (by rwa [String.toList_ofList]) h
  rwa [String.toList_ofList] at hcons

/-- Spaces in front change nothing in what is spelled. -/
theorem Spelled.spaces {gap cs : List Char} {ws : List (String × Lexeme)} (hgap : ∀ c ∈ gap, isSpace c = true)
    (h : Spelled cs ws) : Spelled (gap ++ cs) ws := by
  induction gap with
  | nil => exact h
  | cons c gap ih =>
    rw [List.forall_mem_cons] at hgap
    exact .space hgap.1 (ih hgap.2)

/-- A text is nothing but spaces, or something stands after its first spaces. -/
theorem spaces_or_start (cs : List Char) : (∀ c ∈ cs, isSpace c = true) ∨
    ∃ gap c rest, cs = gap ++ c :: rest ∧ (∀ d ∈ gap, isSpace d = true) ∧ isSpace c = false := by
  induction cs with
  | nil => exact .inl nofun
  | cons c cs ih =>
    by_cases hc : isSpace c = true
    · rcases ih with hall | ⟨gap, d, rest, rfl, hgap, hd⟩
      · exact .inl (List.forall_mem_cons.2 ⟨hc, hall⟩)
      · exact .inr ⟨c :: gap, d, rest, rfl, List.forall_mem_cons.2 ⟨hc, hgap⟩, hd⟩
    · exact .inr ⟨[], c, cs, rfl, nofun, Bool.eq_false_of_not_eq_true hc⟩

/-- Nothing but spaces gives no tokens. -/
theorem scanTokens_spaces {cs : List Char} (h : ∀ c ∈ cs, isSpace c = true) (total fuel : Nat) :
    scanTokens total (fuel + 1) cs = [] := by
  rw [scanTokens, List.dropWhile_eq_nil_iff.2 h]

/-- The first token is the lexeme after the first spaces, and the others follow unless it is a fault. -/
theorem scanTokens_start {gap : List Char} {c : Char} (rest : List Char) (hgap : ∀ d ∈ gap, isSpace d = true)
    (hc : isSpace c = false) (total fuel : Nat) : scanTokens total (fuel + 1) (gap ++ c :: rest) =
      ⟨(Lexeme.scan c rest).lexeme, total - byteLength (c :: rest),
        total - byteLength (Lexeme.scan c rest).rest + (Lexeme.scan c rest).overrun⟩ ::
      if (Lexeme.scan c rest).lexeme.isFault then [] else scanTokens total fuel (Lexeme.scan c rest).rest := by
  rw [scanTokens, List.dropWhile_append_of_pos hgap, List.dropWhile_cons_of_neg (by simp [hc])]
  simp only
  split <;> rfl

/-- A place in a text, told by how much of it is left. -/
theorem byteLength_sub_of_cut {cs before rest : List Char} (hcut : cs = before ++ rest) :
    byteLength cs - byteLength rest = byteLength before := by
  rw [hcut, byteLength_append, Nat.add_sub_cancel_right]

/-- A token that takes `w` off what is left of a text covers it. -/
theorem slice_of_cut {input : String} {before w rest : List Char} (l : Lexeme)
    (hcut : input.toList = before ++ (w ++ rest)) :
    (⟨l, byteLength input.toList - byteLength (w ++ rest), byteLength input.toList - byteLength rest⟩ : Token).slice
      input = String.ofList w := by
  rw [Token.slice, byteLength_sub_of_cut hcut, byteLength_sub_of_cut (hcut.trans (List.append_assoc ..).symm), hcut,
    sliceBytes_append]
  rfl

/-- The tokens of what is left of a text cover words of it. -/
theorem spelled_scanTokens {input : String} (fuel : Nat) : ∀ (before : List Char) {cs : List Char},
    input.toList = before ++ cs → cs.length < fuel →
    (∀ t ∈ scanTokens (byteLength input.toList) fuel cs, t.lexeme.isFault = false) →
    Spelled cs ((scanTokens (byteLength input.toList) fuel cs).map fun t => (t.slice input, t.lexeme)) := by
  induction fuel with
  | zero =>
    intro before cs _ hfuel
    cases hfuel
  | succ fuel ih =>
    intro before cs hcut hfuel hfaults
    rcases spaces_or_start cs with hspaces | ⟨gap, c, cs, rfl, hgap, hc⟩
    · rw [scanTokens_spaces hspaces, ← List.append_nil cs]
      exact .spaces hspaces .nil
    · rw [scanTokens_start cs hgap hc] at hfaults ⊢
      obtain ⟨hfault, hfaults⟩ := List.forall_mem_cons.1 hfaults
      rw [hfault] at hfaults ⊢
      obtain ⟨w, hw, hspells, hoverrun⟩ := spells_scan hc hfault
      rw [hw, ← List.append_assoc] at hcut
      have hlength : (Lexeme.scan c cs).rest.length < fuel := by
        obtain ⟨d, ds, rfl, -⟩ := hspells
        have hsame := congrArg List.length hw
        simp only [List.length_append, List.length_cons] at hsame hfuel
        omega
      have hrest := ih _ (hcut.trans (List.append_assoc ..).symm) hlength hfaults
      rw [List.map_cons, hoverrun, Nat.add_zero, hw, slice_of_cut _ hcut]
      exact .spaces hgap (.cons_ofList hspells hrest)

/-- The tokens of a text without faults cover the words that it is made of. -/
theorem spelled_tokens {input : String} (h : ∀ t ∈ tokens input, t.lexeme.isFault = false) :
    Spelled input.toList ((tokens input).map fun t => (t.slice input, t.lexeme)) :=
  spelled_scanTokens _ [] rfl (Nat.lt_succ_self _) h

end ViewTemplate.Expression
