import ViewTemplate.Expression.Equality
import ViewTemplate.Proofs.Expression.InStep
import ViewTemplate.Proofs.Expression.Interpolations
import ViewTemplate.Proofs.Expression.Spelling

/-!
# Cutting what can be read

Text with interpolations is cut before its expressions are read, by a search that knows braces and quotation marks
but no escapes.  It finds the end of every expression text that can be read, unless a string in it holds the
quotation mark that it is written with: braces outside strings are closed in an expression, and a string ends for
the search at the first mark like the one that opens it.

* `depthAfter` — how many braces are open after some lexemes; `isBraced_closesBraces` — an expression closes its own.
* `Token.holdsOwnQuote` — a string in which its own quotation mark is escaped.
* `closeSegment_spelled` — the search passes over the words of a text, and counts the braces among them.
* `splitInterpolation_readable` — texts that can be read are cut as they stand, if none is such a string.
-/

namespace ViewTemplate.Expression

open ViewTemplate.Text

/-! ### Braces -/

/-- How many braces are open after the lexeme, if `depth` are before it; none is closed that is not open. -/
def Lexeme.depthAfter (depth : Nat) (l : Lexeme) : Option Nat :=
  if l = .punctuation '\x7b' then some (depth + 1)
  else if l = .punctuation '\x7d' then
    match depth with
    | 0 => none
    | depth + 1 => some depth
  else some depth

/-- How many braces are open after the lexemes, if `depth` are before them. -/
def depthAfter (depth : Nat) (ls : List Lexeme) : Option Nat :=
  ls.foldlM Lexeme.depthAfter depth

/-- The depth behind lexemes is found one by one. -/
theorem depthAfter_cons (depth : Nat) (l : Lexeme) (ls : List Lexeme) :
    depthAfter depth (l :: ls) = (l.depthAfter depth).bind fun d => depthAfter d ls :=
  List.foldlM_cons

/-- The depth behind lexemes that are put together. -/
theorem depthAfter_append (depth : Nat) (v w : List Lexeme) :
    depthAfter depth (v ++ w) = (depthAfter depth v).bind fun d => depthAfter d w :=
  List.foldlM_append

/-- Whether the lexeme is a brace. -/
def Lexeme.isBrace (l : Lexeme) : Bool :=
  l = .punctuation '\x7b' || l = .punctuation '\x7d'

/-- What is no brace leaves the depth. -/
theorem Lexeme.depthAfter_of_not_isBrace {l : Lexeme} (h : l.isBrace = false) (depth : Nat) :
    l.depthAfter depth = some depth := by
  rw [Lexeme.isBrace, Bool.or_eq_false_iff, decide_eq_false_iff_not, decide_eq_false_iff_not] at h
  unfold Lexeme.depthAfter
  rw [if_neg h.1, if_neg h.2]

/-- A simple lexeme is no brace. -/
theorem Lexeme.not_isBrace_of_isSimple {l : Lexeme} (h : l.isSimple = true) : l.isBrace = false := by
  cases l with
  | punctuation c => simpa [Lexeme.isBrace, Lexeme.isSimple] using h
  | _ => rfl

/-- The braces in the lexemes are closed. -/
def ClosesBraces (ls : List Lexeme) : Prop :=
  ∀ depth, depthAfter depth ls = some depth

/-- Words whose braces are closed make a class of the kind that readings go in step on. -/
theorem isBraced_closesBraces : Grammar.IsBraced ClosesBraces where
  nil := fun _ => rfl
  append := by
    intro v w hv hw depth
    rw [depthAfter_append, hv depth]
    exact hw depth
  simple := by
    intro l hl depth
    rw [depthAfter_cons, Lexeme.depthAfter_of_not_isBrace (Lexeme.not_isBrace_of_isSimple hl)]
    rfl
  braces := by
    intro w hw depth
    have hopen : (Lexeme.punctuation '\x7b').depthAfter depth = some (depth + 1) := rfl
    rw [depthAfter_cons, hopen, Option.bind_some, depthAfter_append, hw (depth + 1)]
    rfl

/-- No lexeme is a fault. -/
def NoneFaulty (ls : List Lexeme) : Prop :=
  ∀ l ∈ ls, l.isFault = false

/-- Words without faults make a class of the kind that readings go in step on. -/
theorem isBraced_noneFaulty : Grammar.IsBraced NoneFaulty where
  nil := nofun
  append := by
    intro v w hv hw
    exact List.forall_mem_append.2 ⟨hv, hw⟩
  simple := by
    intro l hl
    refine List.forall_mem_singleton.2 ?_
    cases l with
    | fault cause => cases hl
    | _ => rfl
  braces := by
    intro w hw
    refine List.forall_mem_cons.2 ⟨rfl, List.forall_mem_append.2 ⟨hw, ?_⟩⟩
    exact List.forall_mem_singleton.2 rfl

/-! ### Words -/

/-- Whether the token is a string that holds the quotation mark it is written with. -/
def Token.holdsOwnQuote (t : Token) (input : String) : Bool :=
  match t.lexeme with
  | .string value => (t.slice input).toList.head?.any (· ∈ value.toList)
  | _ => false

/-- What numerals are made of is inert. -/
theorem isInert_of_isNumeralChar {c : Char} (h : isNumeralChar c = true) : isInert c = true := by
  simp only [isNumeralChar, isNumeralPart, Bool.or_eq_true, decide_eq_true_eq, or_assoc] at h
  rcases h with hdigit | rfl | rfl | rfl | rfl | rfl
  · exact isInert_of_isIdentifierPart (by simp [isIdentifierPart, hdigit])
  all_goals rfl

/-- A word is no brace. -/
theorem not_isBrace_ofWord (word : String) : (Lexeme.ofWord word).isBrace = false := by
  unfold Lexeme.ofWord
  split <;> rfl

/-- A numeral is no brace. -/
theorem not_isBrace_ofNumeral (numeral : List Char) : (Lexeme.ofNumeral numeral).isBrace = false := by
  unfold Lexeme.ofNumeral
  split <;> rfl

/-- A lexeme is spelled between quotation marks, as a brace, or without any mark that the search looks for. -/
theorem Shaped.quoted_or_brace_or_inert {w : List Char} {l : Lexeme} (h : Shaped w l) :
    (∃ q inner value, isQuote q = true ∧ (q ∈ inner → q ∈ value) ∧ w = q :: (inner ++ [q]) ∧
      l = .string (String.ofList value)) ∨
    (∃ c, w = [c] ∧ l = .punctuation c ∧ (c = '\x7b' ∨ c = '\x7d')) ∨
    (w.all isInert = true ∧ l.isBrace = false) := by
  cases h with
  | @word c cs hstart hparts =>
    refine .inr (.inr ⟨?_, not_isBrace_ofWord _⟩)
    rw [List.all_eq_true]
    intro d hd
    apply isInert_of_isIdentifierPart
    rcases List.mem_cons.1 hd with rfl | hd
    · simp [isIdentifierPart, hstart]
    · exact hparts d hd
  | numeral hw =>
    refine .inr (.inr ⟨?_, not_isBrace_ofNumeral _⟩)
    exact List.all_eq_true.2 fun d hd => isInert_of_isNumeralChar (hw d hd)
  | @mark c hc =>
    by_cases hbrace : c = '\x7b' ∨ c = '\x7d'
    · exact .inr (.inl ⟨c, rfl, rfl, hbrace⟩)
    · refine .inr (.inr ⟨?_, by simpa [Lexeme.isBrace] using hbrace⟩)
      simp only [isMark, Bool.or_eq_true, decide_eq_true_eq, or_assoc] at hc
      rcases hc with rfl | rfl | rfl | rfl | rfl | rfl | rfl | rfl | rfl | rfl <;>
        first | rfl | exact absurd (by decide) hbrace
  | @quoted q inner value hq hinner =>
    refine .inl ⟨q, inner, value, ?_, hinner, rfl, rfl⟩
    rw [isQuote, hq, Bool.true_or]
  | operator hsymbol =>
    have hall : operatorChars.all isInert = true := by decide
    refine .inr (.inr ⟨List.all_eq_true.2 fun d hd => ?_, rfl⟩)
    exact List.all_eq_true.1 hall d (of_decide_eq_true (hsymbol d hd))

/-- A string that does not hold its own quotation mark is passed over. -/
theorem closeSegment_string {q : Char} {inner : List Char} (hq : isQuote q = true) (hinner : q ∉ inner) (depth : Nat)
    (rest : List Char) : closeSegment none depth ((q :: (inner ++ [q])) ++ rest) =
      (closeSegment none depth rest).map fun found => ((q :: (inner ++ [q])) ++ found.1, found.2) := by
  rw [List.cons_append, List.append_assoc, List.singleton_append, closeSegment.eq_def]
  simp only [hq, if_true]
  rw [closeSegment_quoted depth rest inner hinner, consSegment, Option.map_map]
  simp only [Function.comp_def, List.cons_append, List.append_assoc, List.nil_append]

/-- The search passes over the spelling of a lexeme, and counts its braces. -/
theorem closeSegment_shaped {w rest : List Char} {l : Lexeme} (h : Shaped w l) {depth depth' : Nat}
    (hdepth : l.depthAfter depth = some depth')
    (hquote : ∀ q value, w.head? = some q → l = .string value → q ∉ value.toList) :
    closeSegment none depth (w ++ rest) =
      (closeSegment none depth' rest).map fun found => (w ++ found.1, found.2) := by
  rcases h.quoted_or_brace_or_inert with ⟨q, inner, value, hq, hinner, rfl, rfl⟩ | ⟨c, rfl, rfl, hc⟩ | ⟨hinert, hbrace⟩
  · cases hdepth
    apply closeSegment_string hq
    intro hmem
    exact hquote q _ rfl rfl (String.toList_ofList ▸ hinner hmem)
  · rcases hc with rfl | rfl
    · cases hdepth
      rw [List.singleton_append, closeSegment.eq_def]
      rfl
    · cases depth with
      | zero => cases hdepth
      | succ depth =>
        cases hdepth
        rw [List.singleton_append, closeSegment.eq_def]
        rfl
  · rw [Lexeme.depthAfter_of_not_isBrace hbrace] at hdepth
    cases hdepth
    exact closeSegment_append hinert depth rest

/-- The search passes over a text made of words, and counts the braces among them. -/
theorem closeSegment_spelled {cs : List Char} {ws : List (String × Lexeme)} (h : Spelled cs ws)
    (hquotes : ∀ w ∈ ws, ∀ q value, w.1.toList.head? = some q → w.2 = .string value → q ∉ value.toList) :
    ∀ {depth depth' : Nat} (rest : List Char), depthAfter depth (ws.map Prod.snd) = some depth' →
      closeSegment none depth (cs ++ rest) =
        (closeSegment none depth' rest).map fun found => (cs ++ found.1, found.2) := by
  induction h with
  | nil =>
    intro depth depth' rest hdepth
    cases hdepth
    simp
  | @space c cs ws hc h ih =>
    intro depth depth' rest hdepth
    have hinert : ∀ c, isSpace c = true → isInert c = true := forall_isSpace (by decide)
    rw [List.cons_append, closeSegment_inert (hinert c hc), ih hquotes rest hdepth, consSegment, Option.map_map]
    rfl
  | @cons w l cs ws hw h ih =>
    intro depth depth' rest hdepth
    obtain ⟨hquote, hquotes⟩ := List.forall_mem_cons.1 hquotes
    rw [List.map_cons, depthAfter_cons] at hdepth
    obtain ⟨depth₁, hfirst, hdepth⟩ := Option.bind_eq_some_iff.1 hdepth
    rw [List.append_assoc, closeSegment_shaped hw.shaped hfirst hquote, ih hquotes rest hdepth, Option.map_map]
    simp only [Function.comp_def, List.append_assoc]

/-! ### Whole texts -/

/-- The search passes over every text that can be read, if no string in it holds its own quotation mark. -/
theorem passes_of_parse {text : String} {e : Expression} (h : parse text = .ok e)
    (hquotes : ∀ t ∈ tokens text, t.holdsOwnQuote text = false) : Passes text := by
  have hfaults : ∀ t ∈ tokens text, t.lexeme.isFault = false :=
    List.forall_mem_map.1 (lexemes_of_parse isBraced_noneFaulty h)
  have hbraces : ClosesBraces ((tokens text).map Token.lexeme) := lexemes_of_parse isBraced_closesBraces h
  intro depth rest
  refine closeSegment_spelled (spelled_tokens hfaults) ?_ rest ?_
  · refine List.forall_mem_map.2 fun t ht => ?_
    intro q value hhead hlexeme hmem
    dsimp only at hhead hlexeme
    have hholds := hquotes t ht
    simp [Token.holdsOwnQuote, hlexeme, hhead, hmem] at hholds
  · rw [List.map_map]
    exact hbraces depth

/-- Without a dollar sign and a backslash a part stands for itself. -/
theorem isVerbatim_of_notMem {cs : List Char} (hdollar : '$' ∉ cs) (hslash : '\\' ∉ cs) : isVerbatim cs = true := by
  fun_induction isVerbatim cs with
  | case1 a b cs ih =>
    rw [List.mem_cons, not_or] at hdollar hslash
    rw [ih hdollar.2 hslash.2]
    simp [Ne.symm hdollar.1, Ne.symm hslash.1]
  | case2 => rfl

/-- Text is cut into its parts and the texts of its expressions, if these can be read and no string in them holds the
quotation mark that it is written with. -/
theorem splitInterpolation_readable {parts texts : List String} (hlength : parts.length = texts.length + 1)
    (hparts : ∀ part ∈ parts, '$' ∉ part.toList ∧ '\\' ∉ part.toList)
    (htexts : ∀ text ∈ texts, ∃ e, read text = .ok e)
    (hquotes : ∀ text ∈ texts, ∀ t ∈ tokens text, t.holdsOwnQuote text = false) :
    splitInterpolation (weave parts texts) = .ok ⟨parts, texts⟩ := by
  apply splitInterpolation_weave hlength
  · intro part hpart
    exact isVerbatim_of_notMem (hparts part hpart).1 (hparts part hpart).2
  · intro part hpart hlast
    exact (hparts part ((List.dropLast_sublist parts).mem hpart)).2 (List.mem_of_getLast? hlast)
  · intro text htext
    obtain ⟨e, he⟩ := htexts text htext
    exact passes_of_parse (mapError_eq_ok.1 he) (hquotes text htext)

/-- An object with a string in it that holds a brace and an apostrophe. -/
def quotedBrace : String :=
  "\x7bx: \"it's \x7d\"\x7d.x"

/-- The theorem at an object with a string in it that holds a closing brace. -/
theorem splitInterpolation_readable_quotedBrace :
    (∀ part ∈ ["a ", " b"], '$' ∉ part.toList ∧ '\\' ∉ part.toList) ∧
    (∀ text ∈ [quotedBrace], ∃ e, read text = .ok e) ∧
    (∀ text ∈ [quotedBrace], ∀ t ∈ tokens text, t.holdsOwnQuote text = false) ∧
    splitInterpolation (weave ["a ", " b"] [quotedBrace]) = .ok ⟨["a ", " b"], [quotedBrace]⟩ := by
  have hparts : ∀ part ∈ ["a ", " b"], '$' ∉ part.toList ∧ '\\' ∉ part.toList := by decide
  have htexts : ∀ text ∈ [quotedBrace], ∃ e, read text = .ok e := by
    refine List.forall_mem_singleton.2 ?_
    obtain ⟨e, he, -⟩ := exists_eq_ok (x := read quotedBrace) (f := fun _ => ()) (b := ()) (by decide +kernel)
    exact ⟨e, he⟩
  have hquotes : ∀ text ∈ [quotedBrace], ∀ t ∈ tokens text, t.holdsOwnQuote text = false := by decide +kernel
  exact ⟨hparts, htexts, hquotes, splitInterpolation_readable rfl hparts htexts hquotes⟩

/-- A string can be read that holds the quotation mark it is written with, but the search takes it for open. -/
theorem splitInterpolation_ownQuote : read "'\\''" = .ok (.string "'") ∧
    splitInterpolation (weave ["", ""] ["'\\''"]) = .error (.openInterpolation 0) := by
  constructor
  · exact toOption_eq_some.1 (by decide +kernel)
  · rfl

end ViewTemplate.Expression
