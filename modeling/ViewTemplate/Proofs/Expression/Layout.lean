import ViewTemplate.Proofs.Expression.Canonical

/-!
# The text of a canonical expression

The text of a canonical expression is made of its lexemes: no two of them run into each other, and none is
cut.  What follows a part of the text is a break, which no word and no numeral goes on with; only a point
needs care, since a numeral does go on with it.

* `Laid` — a text is made of lexemes wherever a break follows.
* `laid_render` — the text of a canonical expression is.
-/

namespace ViewTemplate.Expression

open ViewTemplate.Text

/-! ### What follows a part of a text -/

/-- The marks that may follow a part of a text. -/
def breakMarks : List Char :=
  ['(', '[', ')', ']', '\x7d', ',', ':']

/-- The characters that end every word and every numeral. -/
def breaks : List Char :=
  ' ' :: breakMarks

/-- A break follows, or nothing, or a point where there may be one. -/
def Ends (point : Bool) (rest : List Char) : Prop :=
  ∀ c ∈ rest.head?, c ∈ breaks ∨ c = '.' ∧ point = true

/-- Nothing ends any lexeme. -/
theorem ends_nil (point : Bool) : Ends point [] := by
  intro c hc
  cases hc

/-- A character at which lexemes break ends any lexeme. -/
theorem ends_cons {c : Char} (hc : c ∈ breaks) (point : Bool) (rest : List Char) :
    Ends point (c :: rest) := by
  rintro d ⟨⟩
  exact .inl hc

/-- A blank ends any lexeme. -/
theorem ends_blank (point : Bool) (rest : List Char) : Ends point (' ' :: rest) :=
  ends_cons List.mem_cons_self point rest

/-- A mark at which lexemes break ends any lexeme. -/
theorem ends_mark {c : Char} (hc : c ∈ breakMarks) (point : Bool) (rest : List Char) :
    Ends point (c :: rest) :=
  ends_cons (List.mem_cons_of_mem ' ' hc) point rest

/-- A point ends what a point may follow. -/
theorem ends_point (rest : List Char) : Ends true ('.' :: rest) := by
  rintro d ⟨⟩
  exact .inr ⟨rfl, rfl⟩

/-- What ends a lexeme that no point may follow ends any other. -/
theorem Ends.of_false {rest : List Char} (h : Ends false rest) (point : Bool) : Ends point rest :=
  fun c hc => (h c hc).imp id fun hpoint => nomatch hpoint.2

/-- What ends a lexeme is no part of a word. -/
theorem Ends.not_part {point : Bool} {rest : List Char} (h : Ends point rest) :
    ∀ c ∈ rest.head?, isIdentifierPart c = false := by
  intro c hc
  have hall : breaks.all (!isIdentifierPart ·) = true := by decide
  rcases h c hc with hbreak | ⟨rfl, -⟩
  · simpa using List.all_eq_true.1 hall c hbreak
  · rfl

/-- What ends a lexeme that no point may follow is no part of a numeral. -/
theorem Ends.not_numeral {rest : List Char} (h : Ends false rest) :
    ∀ c ∈ rest.head?, (isDigit c || c = '.') = false ∧ (c = 'e' || c = 'E') = false := by
  intro c hc
  have hall : breaks.all (fun d => !(isDigit d || d = '.') && !(d = 'e' || d = 'E')) = true := by decide
  rcases h c hc with hbreak | ⟨-, hfalse⟩
  · simpa using List.all_eq_true.1 hall c hbreak
  · cases hfalse

/-! ### Texts made of lexemes -/

/-- Wherever a break follows, the text is made of the lexemes. -/
def Laid (text : String) (ks : List Lexeme) (point : Bool) : Prop :=
  ∀ ⦃rest ls⦄, Ends point rest → Lexes rest ls → Lexes (text.toList ++ rest) (ks ++ ls)

/-- A punctuation mark is a lexeme by itself. -/
theorem Lexes.mark {c : Char} {rest : List Char} {ls : List Lexeme} (hc : isMark c = true)
    (h : Lexes rest ls) : Lexes (c :: rest) (.punctuation c :: ls) :=
  .cons (spells_mark hc rest) h

/-- A word is a lexeme where something ends it. -/
theorem Lexes.word {name : String} {rest : List Char} {ls : List Lexeme} {point : Bool}
    (hname : IsWordText name) (hrest : Ends point rest) (h : Lexes rest ls) : Lexes (name.toList ++ rest) (.ofWord name :: ls) :=
  .cons (spells_word hname hrest.not_part) h

/-- A point and a name after it. -/
theorem Lexes.member {name : String} {rest : List Char} {ls : List Lexeme} {point : Bool}
    (hname : IsWordText name) (hrest : Ends point rest) (h : Lexes rest ls) :
    Lexes ('.' :: (name.toList ++ rest)) (.punctuation '.' :: .ofWord name :: ls) := by
  refine .cons (w := ['.']) (spells_point ?_) (h.word hname hrest)
  obtain ⟨c, cs, hchars, hstart, -⟩ := hname
  rw [hchars]
  rintro d ⟨⟩
  by_contra hdigit
  have := (isSpace_isIdentifierStart_of_isDigit (Bool.not_eq_false _ ▸ hdigit)).2
  rw [hstart] at this
  cases this

/-- A symbol with a blank before and after it. -/
theorem Lexes.symbol {symbol : String} {rest : List Char} {ls : List Lexeme} (hsymbol : symbol ∈ symbols)
    (h : Lexes rest ls) : Lexes (' ' :: (symbol.toList ++ ' ' :: rest)) (.operator symbol :: ls) :=
  .space rfl (.cons (spells_symbol hsymbol rest) (.space rfl h))

/-- A mark after a text. -/
theorem Laid.mark {text : String} {ks ls : List Lexeme} {point : Bool} {c : Char} {rest : List Char}
    (h : Laid text ks point) (hc : c ∈ breakMarks) (hlexes : Lexes rest ls) :
    Lexes (text.toList ++ c :: rest) (ks ++ .punctuation c :: ls) := by
  have hall : breakMarks.all isMark = true := by decide
  exact h (ends_mark hc _ _) (hlexes.mark (List.all_eq_true.1 hall c hc))

/-- A symbol after a text, with a blank before and after it. -/
theorem Laid.symbol {text symbol : String} {ks ls : List Lexeme} {point : Bool} {rest : List Char}
    (h : Laid text ks point) (hsymbol : symbol ∈ symbols) (hlexes : Lexes rest ls) :
    Lexes (text.toList ++ ' ' :: (symbol.toList ++ ' ' :: rest)) (ks ++ .operator symbol :: ls) :=
  h (ends_blank _ _) (hlexes.symbol hsymbol)

/-- A keyword is a word. -/
theorem isWordText_of_mem_keywords {word : String} (h : word ∈ keywords) :
    IsWordText word ∧ Lexeme.ofWord word = .keyword word := by
  refine ⟨?_, if_pos h⟩
  simp only [keywords, List.mem_cons, List.not_mem_nil, or_false] at h
  rcases h with rfl | rfl | rfl | rfl | rfl | rfl | rfl | rfl | rfl | rfl <;>
    exact ⟨_, _, rfl, rfl, List.all_eq_true.1 (by decide)⟩

/-- A keyword is a lexeme where something ends it. -/
theorem Lexes.keyword {word : String} {rest : List Char} {ls : List Lexeme} {point : Bool}
    (hword : word ∈ keywords) (hrest : Ends point rest) (h : Lexes rest ls) : Lexes (word.toList ++ rest) (.keyword word :: ls) := by
  obtain ⟨hchars, hlexeme⟩ := isWordText_of_mem_keywords hword
  rw [← hlexeme]
  exact h.word hchars hrest

/-- A binary operator with a blank before and after it. -/
theorem Lexes.binaryOperator {operation : String} {rest : List Char} {ls : List Lexeme}
    (hoperation : (precedence? operation).isSome = true) (h : Lexes rest ls) :
    Lexes (' ' :: (operation.toList ++ ' ' :: rest)) (operatorLexeme operation :: ls) := by
  unfold operatorLexeme
  split
  · next hword => exact .space rfl (.keyword hword (ends_blank false _) (.space rfl h))
  · next hword =>
    refine .symbol ?_ h
    unfold precedence? at hoperation
    split at hoperation <;> first | decide | exact absurd (by decide) hword | cases hoperation

/-- A unary operator before an operand. -/
theorem Lexes.unaryOperator {operation : String} {rest : List Char} {ls : List Lexeme}
    (hoperation : operation ∈ ["!", "-", "+", "typeof", "void"]) (h : Lexes rest ls) (hls : Opens ls) :
    Lexes (operation.toList ++ ((unarySeparator operation).toList ++ rest))
      (operatorLexeme operation :: ls) := by
  obtain ⟨l, ls, rfl, hl⟩ := hls
  have hhead := h.head?_ne_equals hl
  simp only [List.mem_cons, List.not_mem_nil, or_false] at hoperation
  rcases hoperation with rfl | rfl | rfl | rfl | rfl
  · exact .cons (spells_sign (by decide) hhead) h
  · exact .cons (spells_sign (by decide) hhead) h
  · exact .cons (spells_sign (by decide) hhead) h
  · exact .keyword (by decide) (ends_blank false _) (.space rfl h)
  · exact .keyword (by decide) (ends_blank false _) (.space rfl h)

/-! ### Scopes -/

/-- The steps outward after the first one, with a point before each. -/
def parentChars : Nat → List Char
  | 0 => []
  | n + 1 => '.' :: ("$parent".toList ++ parentChars n)

/-- A chain of `$parent` is the first word and then the others behind points. -/
theorem toList_intercalate_parents :
    ∀ n, (".".intercalate (List.replicate (n + 1) "$parent")).toList = "$parent".toList ++ parentChars n
  | 0 => by rw [List.replicate_one, String.intercalate_singleton, parentChars, List.append_nil]
  | n + 1 => by
    rw [List.replicate_succ, List.replicate_succ, String.intercalate_cons_cons, ← List.replicate_succ,
      String.toList_append, String.toList_append, toList_intercalate_parents n, parentChars,
      List.append_assoc]
    rfl

/-- Another `$parent` behind a point ends a word as well. -/
theorem ends_parentChars {rest : List Char} (hrest : Ends true rest) : ∀ n, Ends true (parentChars n ++ rest)
  | 0 => hrest
  | _ + 1 => ends_point _

/-- Each further `$parent` is two lexemes: its point and its word. -/
theorem lexes_parentChars {rest : List Char} {ls : List Lexeme} (hrest : Ends true rest) (h : Lexes rest ls) :
    ∀ n, Lexes (parentChars n ++ rest) (parentLexemes n ++ ls)
  | 0 => h
  | n + 1 => by
    obtain ⟨hchars, hlexeme⟩ := isWordText_of_mem_keywords (show "$parent" ∈ keywords by decide)
    have hmember := (lexes_parentChars hrest h n).member hchars (ends_parentChars hrest n)
    rw [hlexeme] at hmember
    rw [parentChars, List.cons_append, List.append_assoc]
    exact hmember

/-- The words for a scope are laid out as their lexemes. -/
theorem laid_scopeText (ancestor : Nat) : Laid (scopeText ancestor) (scopeLexemes ancestor) true := by
  intro rest ls hrest h
  cases ancestor with
  | zero => exact h.keyword (by decide) hrest
  | succ n =>
    rw [scopeText, if_neg (Nat.succ_ne_zero n), toList_intercalate_parents, List.append_assoc]
    exact (lexes_parentChars hrest h n).keyword (by decide) (ends_parentChars hrest n)

/-- A name with the words for its scope is laid out as its lexemes. -/
theorem laid_scopedName {name : String} {ancestor : Nat} (hname : IsScopeName name ancestor) :
    Laid (scopedName name ancestor) (scopedLexemes name ancestor) true := by
  intro rest ls hrest h
  unfold IsScopeName at hname
  unfold scopedName scopedLexemes
  split
  · next hzero =>
    rw [if_pos hzero] at hname
    exact h.word hname.isWordText.1 hrest
  · next hzero =>
    rw [if_neg hzero] at hname
    rw [String.toList_append, String.toList_append, List.append_assoc, List.append_assoc, List.append_assoc]
    exact laid_scopeText ancestor (ends_point _) (h.member hname.1.isWordText hrest)

/-! ### Operands and lists -/

/-- Whether a point may follow the expression where it stands without parentheses. -/
def isTight (e : Expression) : Bool :=
  e.takesMember && !e.isCompound

/-- An operand is laid out as its lexemes, with parentheses on both sides or on neither. -/
theorem Laid.operand {e : Expression} (h : Laid (render e) (lexemes e) e.isTight) :
    Laid (operandText e (render e)) (operandLexemes e (lexemes e)) e.takesMember := by
  intro rest ls hrest hlexes
  unfold operandText operandLexemes
  split
  · rw [String.toList_append, String.toList_append, List.append_assoc, List.append_assoc, List.cons_append,
      List.append_assoc]
    exact .mark rfl (h.mark (by decide) hlexes)
  · next hcompound =>
    have htight : e.isTight = e.takesMember := by simp [isTight, hcompound]
    exact h (htight ▸ hrest) hlexes

/-- A binary operand is laid out as its lexemes, with parentheses on both sides or on neither. -/
theorem Laid.binaryOperand {e : Expression} (h : Laid (render e) (lexemes e) e.isTight) (outer : Nat)
    (onRight : Bool) : Laid (binaryOperandText e (render e) outer onRight)
      (binaryOperandLexemes e (lexemes e) outer onRight) false := by
  intro rest ls hrest hlexes
  unfold binaryOperandText binaryOperandLexemes
  split
  · exact h (hrest.of_false _) hlexes
  · exact h.operand (hrest.of_false _) hlexes

/-- Texts with commas between them. -/
theorem laid_intercalate : ∀ items : List (String × List Lexeme), (∀ i ∈ items, Laid i.1 i.2 false) →
    Laid (", ".intercalate (items.map (·.1))) (commaLexemes (items.map (·.2))) false
  | [], _, rest, ls, _, hlexes => hlexes
  | [i], hitems, rest, ls, hrest, hlexes => by
    simp only [List.map_cons, List.map_nil, String.intercalate_singleton, commaLexemes,
      List.intercalate_singleton]
    exact hitems i List.mem_cons_self hrest hlexes
  | i :: j :: items, hitems, rest, ls, hrest, hlexes => by
    have ih := laid_intercalate (j :: items) fun k hk => hitems k (List.mem_cons_of_mem i hk)
    simp only [List.map_cons, String.intercalate_cons_cons, commaLexemes, List.intercalate_cons_cons,
      String.toList_append, List.append_assoc] at ih ⊢
    exact (hitems i List.mem_cons_self).mark (by decide) (.space rfl (ih hrest hlexes))

/-- Arguments behind colons end what stands before them. -/
theorem ends_colonText {rest : List Char} (texts : List String) (hrest : Ends false rest) :
    Ends false ((colonText texts).toList ++ rest) := by
  cases texts with
  | nil => exact hrest
  | cons text texts =>
    simp only [colonText, List.map_cons, String.join_cons, String.toList_append, List.append_assoc]
    exact ends_mark (by decide) _ _

/-- Texts with a colon before each. -/
theorem laid_colonText : ∀ items : List (String × List Lexeme), (∀ i ∈ items, Laid i.1 i.2 false) →
    Laid (colonText (items.map (·.1))) (colonLexemes (items.map (·.2))) false
  | [], _, rest, ls, _, hlexes => hlexes
  | i :: items, hitems, rest, ls, hrest, hlexes => by
    have ih := laid_colonText items fun k hk => hitems k (List.mem_cons_of_mem i hk)
    have hitem := hitems i List.mem_cons_self (ends_colonText _ hrest) (ih hrest hlexes)
    simp only [colonText, colonLexemes, List.map_cons, String.join_cons, String.toList_append,
      List.append_assoc, List.flatMap_cons, List.cons_append] at hitem ⊢
    exact hitem.mark rfl

/-- The texts of expressions beside their lexemes. -/
theorem map_render_lexemes (es : List Expression) :
    renderAll es = (es.map fun e => (render e, lexemes e)).map (·.1) ∧
      lexemesAll es = (es.map fun e => (render e, lexemes e)).map (·.2) := by
  rw [renderAll_eq_map, lexemesAll_eq_map, List.map_map, List.map_map]
  exact ⟨rfl, rfl⟩

/-- Expressions that are laid out are so as arguments, where no point follows. -/
theorem laid_pairs {es : List Expression} (h : ∀ e ∈ es, Laid (render e) (lexemes e) e.isTight) :
    ∀ i ∈ es.map fun e => (render e, lexemes e), Laid i.1 i.2 false := by
  intro i hi
  obtain ⟨e, he, rfl⟩ := List.mem_map.1 hi
  exact fun rest ls hrest hlexes => h e he (hrest.of_false _) hlexes

/-- The arguments of a call, or the elements of an array. -/
theorem laid_arguments {es : List Expression} (h : ∀ e ∈ es, Laid (render e) (lexemes e) e.isTight) :
    Laid (", ".intercalate (renderAll es)) (commaLexemes (lexemesAll es)) false := by
  rw [(map_render_lexemes es).1, (map_render_lexemes es).2]
  exact laid_intercalate _ (laid_pairs h)

/-- The name and the arguments of a converter or a behavior. -/
theorem laid_resource {name : String} {es : List Expression} (hname : IsMemberName name)
    (h : ∀ e ∈ es, Laid (render e) (lexemes e) e.isTight) :
    Laid (name ++ colonText (renderAll es)) (.ofWord name :: colonLexemes (lexemesAll es)) false := by
  intro rest ls hrest hlexes
  have hargs : Laid (colonText (renderAll es)) (colonLexemes (lexemesAll es)) false := by
    rw [(map_render_lexemes es).1, (map_render_lexemes es).2]
    exact laid_colonText _ (laid_pairs h)
  rw [String.toList_append, List.append_assoc]
  exact (hargs hrest hlexes).word hname.isWordText (ends_colonText _ hrest)

/-- The entries of an object. -/
theorem laid_entries {keys : List String} {es : List Expression} (hkeys : ∀ k ∈ keys, IsMemberName k)
    (h : ∀ e ∈ es, Laid (render e) (lexemes e) e.isTight) :
    Laid (", ".intercalate ((keys.zip (renderAll es)).map fun (k, v) => k ++ ": " ++ v))
      (entryLexemes keys (lexemesAll es)) false := by
  have hitems := laid_intercalate ((keys.zip es).map fun (k, e) =>
    (k ++ ": " ++ render e, .ofWord k :: .punctuation ':' :: lexemes e)) ?_
  · rw [renderAll_eq_map, lexemesAll_eq_map, entryLexemes, List.zip_map_right, List.zip_map_right]
    simpa only [List.map_map, Function.comp_def, Prod.map, id] using hitems
  · intro i hi rest ls hrest hlexes
    obtain ⟨⟨k, e⟩, hmem, rfl⟩ := List.mem_map.1 hi
    obtain ⟨hk, he⟩ := List.of_mem_zip hmem
    simp only [String.toList_append, List.append_assoc]
    have hvalue := h e he (hrest.of_false _) hlexes
    exact Lexes.word (hkeys k hk).isWordText (ends_mark (by decide) false _) (.mark rfl (.space rfl hvalue))

/-! ### Whole expressions -/

/-- The text of a canonical expression is made of its lexemes. -/
theorem laid_render {e : Expression} (h : Canonical e) : Laid (render e) (lexemes e) e.isTight := by
  -- In each text every part is followed by a break, and behind the last one there is the break that is given.
  induction h with
  | accessThis ancestor =>
    intro rest ls hrest hlexes
    exact laid_scopeText _ (hrest.of_false _) hlexes
  | accessScope hname => exact laid_scopedName hname
  | accessMember hobject hshape hname ih =>
    intro rest ls hrest hlexes
    simp only [render, lexemes, String.toList_append, List.append_assoc]
    exact ih.operand (hshape ▸ ends_point _) (hlexes.member hname.isWordText hrest)
  | accessKeyed hobject hshape hkey ih ihkey =>
    intro rest ls hrest hlexes
    simp only [render, lexemes, String.toList_append, List.append_assoc, List.cons_append]
    exact ih.operand.mark (by decide) (ihkey.mark (by decide) hlexes)
  | callScope hname hargs hplain ih =>
    intro rest ls hrest hlexes
    simp only [render, lexemes, String.toList_append, List.append_assoc, List.cons_append]
    exact (laid_scopedName hname).mark (by decide) ((laid_arguments ih).mark (by decide) hlexes)
  | callMember hobject hshape hname hargs hplain ih ihargs =>
    intro rest ls hrest hlexes
    simp only [render, lexemes, String.toList_append, List.append_assoc, List.cons_append]
    have hcall := ((laid_arguments ihargs).mark (show ')' ∈ breakMarks by decide) hlexes).mark (c := '(') rfl
    exact ih.operand (hshape ▸ ends_point _) (hcall.member hname.isWordText (ends_mark (by decide) false _))
  | callFunction hfunc hshape hargs hplain ih ihargs =>
    intro rest ls hrest hlexes
    simp only [render, lexemes, String.toList_append, List.append_assoc, List.cons_append]
    exact ih.operand.mark (by decide) ((laid_arguments ihargs).mark (by decide) hlexes)
  | null =>
    intro rest ls hrest hlexes
    exact hlexes.keyword (by decide) hrest
  | undefined =>
    intro rest ls hrest hlexes
    exact hlexes.keyword (by decide) hrest
  | boolean value =>
    intro rest ls hrest hlexes
    cases value <;> exact hlexes.keyword (by decide) hrest
  | string value =>
    intro rest ls hrest hlexes
    exact .cons (spells_quoted value rest) hlexes
  | number hsign hfinite =>
    intro rest ls hrest hlexes
    exact .cons (spells_number hsign hfinite hrest.not_numeral) hlexes
  | arrayLiteral helements hplain ih =>
    intro rest ls hrest hlexes
    simp only [render, lexemes, String.toList_append, List.append_assoc, List.cons_append]
    exact .mark rfl ((laid_arguments ih).mark (by decide) hlexes)
  | objectLiteral hlength hkeys hvalues hplain ih =>
    intro rest ls hrest hlexes
    simp only [render, objectText, lexemes, String.toList_append, List.append_assoc, List.cons_append]
    exact .mark rfl ((laid_entries hkeys ih).mark (by decide) hlexes)
  | unary hoperation hoperand ih =>
    intro rest ls hrest hlexes
    simp only [render, lexemes, String.toList_append, List.append_assoc, List.cons_append]
    exact .unaryOperator hoperation (ih.operand (hrest.of_false _) hlexes)
      (((opens_lexemes hoperand).operand _).append _)
  | binary hoperation hleft hright ihleft ihright =>
    intro rest ls hrest hlexes
    simp only [render, lexemes, String.toList_append, List.append_assoc, List.cons_append]
    exact ihleft.binaryOperand _ _ (ends_blank _ _)
      (.binaryOperator hoperation (ihright.binaryOperand _ _ hrest hlexes))
  | conditional hcondition hyes hplainYes hno hplainNo ih ihyes ihno =>
    intro rest ls hrest hlexes
    simp only [render, lexemes, String.toList_append, List.append_assoc, List.cons_append]
    have hno' := (ihno (Ends.of_false hrest _) hlexes).space (c := ' ') rfl
    have hyes' := ihyes (ends_blank _ _) (.space rfl (hno'.mark (c := ':') rfl))
    exact ih.operand.symbol (show "?" ∈ symbols by decide) hyes'
  | assign htarget hassignable hvalue hplain ih ihvalue =>
    intro rest ls hrest hlexes
    simp only [render, lexemes, String.toList_append, List.append_assoc, List.cons_append]
    exact ih.symbol (show "=" ∈ symbols by decide) (ihvalue (Ends.of_false hrest _) hlexes)
  | valueConverter hexpression hshape hname hargs hplain ih ihargs =>
    intro rest ls hrest hlexes
    have hresource := laid_resource hname ihargs hrest hlexes
    simp only [render, lexemes, String.toList_append, List.append_assoc, List.cons_append] at hresource ⊢
    exact ih.symbol (show "|" ∈ symbols by decide) hresource
  | bindingBehavior hexpression hname hargs hplain ih ihargs =>
    intro rest ls hrest hlexes
    have hresource := laid_resource hname ihargs hrest hlexes
    simp only [render, lexemes, String.toList_append, List.append_assoc, List.cons_append] at hresource ⊢
    exact ih.symbol (show "&" ∈ symbols by decide) hresource

/-- The tokens of the text of a canonical expression are its lexemes. -/
theorem map_lexeme_tokens_render {e : Expression} (h : Canonical e) :
    (tokens (render e)).map Token.lexeme = lexemes e := by
  refine map_lexeme_tokens ?_
  have hlexes := laid_render h (ends_nil _) .nil
  rwa [List.append_nil, List.append_nil] at hlexes

end ViewTemplate.Expression
