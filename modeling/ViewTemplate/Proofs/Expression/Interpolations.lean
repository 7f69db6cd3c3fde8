import ViewTemplate.Expression.Reader
import ViewTemplate.Proofs.Expression.Canonical
import ViewTemplate.Proofs.Results

/-!
# Text with interpolations

What is woven from parts and the texts of expressions is cut into these again.  The search for the brace that
closes an expression passes over the expression's text, if every brace and every quotation mark is closed in
it; a part is taken as it stands, if it holds no mark that is read otherwise.

* `Passes` — the search passes over a text; `passes_render` — over that of an expression whose strings hold no
  apostrophe.
* `isVerbatim` — a part stands for itself; `splitInterpolation_weave` — what is woven is cut as it was.
* `wellCut_splitInterpolation` — how a text that was cut is made up.
-/

namespace ViewTemplate.Expression

open ViewTemplate.Text

/-! ### The search for the closing brace -/

/-- The search for the closing brace passes over the text. -/
def Passes (text : String) : Prop :=
  ∀ depth rest, closeSegment none depth (text.toList ++ rest) =
    (closeSegment none depth rest).map fun found => (text.toList ++ found.1, found.2)

/-- A character that the search takes no notice of. -/
def isInert (c : Char) : Bool :=
  !isQuote c && c ≠ '\x7b' && c ≠ '\x7d'

/-- Two texts that pass, one behind the other, pass. -/
theorem Passes.append {s t : String} (hs : Passes s) (ht : Passes t) : Passes (s ++ t) := by
  intro depth rest
  rw [String.toList_append, List.append_assoc, hs, ht, Option.map_map]
  simp only [Function.comp_def, List.append_assoc]

/-- An inert character belongs to the segment, whatever its depth. -/
theorem closeSegment_inert {c : Char} (hc : isInert c = true) (depth : Nat) (cs : List Char) :
    closeSegment none depth (c :: cs) = consSegment c (closeSegment none depth cs) := by
  simp only [isInert, Bool.and_eq_true, Bool.not_eq_true', decide_eq_true_eq] at hc
  obtain ⟨⟨hquote, hopen⟩, hclose⟩ := hc
  rw [closeSegment.eq_def]
  simp [hquote, hopen, hclose]

/-- Inert characters belong to the segment, whatever its depth. -/
theorem closeSegment_append {cs : List Char} (h : cs.all isInert = true) (depth : Nat) (rest : List Char) :
    closeSegment none depth (cs ++ rest) =
      (closeSegment none depth rest).map fun found => (cs ++ found.1, found.2) := by
  induction cs with
  | nil => simp
  | cons c cs ih =>
    rw [List.all_cons, Bool.and_eq_true] at h
    rw [List.cons_append, closeSegment_inert h.1, ih h.2, consSegment, Option.map_map]
    simp only [Function.comp_def, List.cons_append]

/-- A text of inert characters passes. -/
theorem passes_of_all {text : String} (h : text.toList.all isInert = true) : Passes text :=
  fun depth rest => closeSegment_append h depth rest

/-- Braces around a text open one level and close it again. -/
theorem Passes.braces {text : String} (h : Passes text) : Passes ("\x7b" ++ text ++ "\x7d") := by
  intro depth rest
  have hchars : ("\x7b" ++ text ++ "\x7d").toList = '\x7b' :: (text.toList ++ ['\x7d']) := by
    simp
  have hclose : closeSegment none (depth + 1) ('\x7d' :: rest) =
      consSegment '\x7d' (closeSegment none depth rest) := by
    rw [closeSegment.eq_def]
    rfl
  rw [hchars, List.cons_append, closeSegment.eq_def]
  simp only [show isQuote '\x7b' = false from rfl, Bool.false_eq_true, if_false, if_true, List.append_assoc,
    List.singleton_append]
  rw [h, hclose, consSegment, consSegment, Option.map_map, Option.map_map]
  simp only [Function.comp_def, List.cons_append, List.append_assoc, List.nil_append]

/-- Up to its closing mark a quoted text is passed over. -/
theorem closeSegment_quoted {q : Char} (depth : Nat) (rest : List Char) : ∀ cs : List Char, q ∉ cs →
    closeSegment (some q) depth (cs ++ q :: rest) =
      (closeSegment none depth rest).map fun found => (cs ++ q :: found.1, found.2)
  | [], _ => by
    rw [List.nil_append, closeSegment.eq_def]
    simp [consSegment]
  | c :: cs, hcs => by
    rw [List.mem_cons, not_or] at hcs
    rw [List.cons_append, closeSegment.eq_def]
    simp only [if_neg (Ne.symm hcs.1), closeSegment_quoted depth rest cs hcs.2, consSegment, Option.map_map,
      Function.comp_def, List.cons_append]

/-- Escaping puts no apostrophe in where there is none. -/
theorem notMem_escaped {cs : List Char} (h : '\x27' ∉ cs) : '\x27' ∉ cs.flatMap escapeChar := by
  intro hmem
  obtain ⟨c, hc, hmem⟩ := List.mem_flatMap.1 hmem
  have hne : c ≠ '\x27' := fun heq => h (heq ▸ hc)
  unfold escapeChar at hmem
  split at hmem
  · simp [Ne.symm hne] at hmem
  · exact hne (List.mem_singleton.1 hmem).symm

/-- A string without an apostrophe passes in quotation marks, braces and all. -/
theorem passes_quoted {value : String} (h : '\x27' ∉ value.toList) : Passes (quoted value) := by
  intro depth rest
  have hchars : (quoted value).toList = '\x27' :: (value.toList.flatMap escapeChar ++ ['\x27']) := by
    simp [quoted]
  rw [hchars, List.cons_append, closeSegment.eq_def]
  simp only [show isQuote '\x27' = true from rfl, if_true, List.append_assoc, List.singleton_append]
  rw [closeSegment_quoted depth rest _ (notMem_escaped h), consSegment, Option.map_map]
  simp only [Function.comp_def, List.cons_append, List.append_assoc, List.nil_append]

/-- A text that is passed over ends at the brace after it. -/
theorem Passes.closeSegment {text : String} (h : Passes text) (rest : List Char) :
    Expression.closeSegment none 0 (text.toList ++ '\x7d' :: rest) = some (text.toList, rest) := by
  have hclose : Expression.closeSegment none 0 ('\x7d' :: rest) = some ([], rest) := by
    rw [Expression.closeSegment.eq_def]
    rfl
  rw [h, hclose, Option.map_some, List.append_nil]

/-! ### The texts of expressions -/

mutual

/-- The strings in an expression. -/
def strings : Expression → List String
  | .accessThis _ | .accessScope .. | .bindingIdentifier _ => []
  | .accessMember object _ => strings object
  | .accessKeyed object key => strings object ++ strings key
  | .callScope _ args _ => stringsAll args
  | .callMember object _ args => strings object ++ stringsAll args
  | .callFunction func args => strings func ++ stringsAll args
  | .literal (.string value) => [value]
  | .literal _ => []
  | .arrayLiteral es | .arrayPattern es | .objectLiteral _ es | .objectPattern _ es => stringsAll es
  | .unary _ operand => strings operand
  | .binary _ left right => strings left ++ strings right
  | .conditional condition yes no => strings condition ++ (strings yes ++ strings no)
  | .assign target value => strings target ++ strings value
  | .valueConverter e _ args | .bindingBehavior e _ args => strings e ++ stringsAll args
  | .interpolation _ es => stringsAll es
  | .iteration declared iterable => strings declared ++ strings iterable

/-- The strings in several expressions. -/
def stringsAll : List Expression → List String
  | [] => []
  | e :: es => strings e ++ stringsAll es

end

/-- The strings of several expressions are those of each. -/
theorem stringsAll_eq_flatMap (es : List Expression) : stringsAll es = es.flatMap strings := by
  induction es with
  | nil => rfl
  | cons e es ih => rw [stringsAll, ih, List.flatMap_cons]

/-- None of the strings holds an apostrophe. -/
def Unmarked (ss : List String) : Prop :=
  ∀ s ∈ ss, '\x27' ∉ s.toList

/-- Strings are unmarked together exactly if they are so apart. -/
theorem Unmarked.append_iff {ss ts : List String} : Unmarked (ss ++ ts) ↔ Unmarked ss ∧ Unmarked ts :=
  List.forall_mem_append

/-- What holds of unmarked expressions holds of each of several. -/
theorem unmarked_each {es : List Expression} {P : Expression → Prop} (hes : Unmarked (stringsAll es))
    (h : ∀ e ∈ es, Unmarked (strings e) → P e) : ∀ e ∈ es, P e := by
  intro e he
  apply h e he
  intro s hs
  rw [stringsAll_eq_flatMap] at hes
  exact hes s (List.mem_flatMap.2 ⟨e, he, hs⟩)

/-- What words are made of is inert. -/
theorem isInert_of_isIdentifierPart {c : Char} (h : isIdentifierPart c = true) : isInert c = true := by
  by_contra hinert
  simp only [isInert, isQuote, Bool.and_eq_true, Bool.not_eq_true', Bool.or_eq_false_iff, decide_eq_true_eq,
    decide_eq_false_iff_not, not_and_or, not_not] at hinert
  rcases hinert with ((((rfl | rfl) | rfl) | rfl) | rfl) <;> revert h <;> decide

/-- A word passes. -/
theorem IsWordText.passes {s : String} (h : IsWordText s) : Passes s := by
  obtain ⟨c, cs, hchars, hstart, hparts⟩ := h
  apply passes_of_all
  apply List.all_eq_true.2
  intro d hd
  apply isInert_of_isIdentifierPart
  rw [hchars] at hd
  rcases List.mem_cons.1 hd with rfl | hd
  · simp [isIdentifierPart, hstart]
  · exact hparts d hd

/-- The name of a member passes. -/
theorem IsMemberName.passes {s : String} (h : IsMemberName s) : Passes s :=
  h.isWordText.passes

/-- A name of a scope may be the name of a member. -/
theorem IsScopeName.isMemberName {name : String} {ancestor : Nat} (h : IsScopeName name ancestor) :
    IsMemberName name := by
  unfold IsScopeName at h
  split at h
  · exact .inl h
  · exact h.1

/-- A binary operator passes. -/
theorem passes_binaryOperator {operation : String} (h : (precedence? operation).isSome = true) :
    Passes operation := by
  apply passes_of_all
  unfold precedence? at h
  split at h <;> first | decide | cases h

/-- A unary operator passes with what separates it from its operand. -/
theorem passes_unaryOperator {operation : String} (h : operation ∈ ["!", "-", "+", "typeof", "void"]) :
    Passes (operation ++ unarySeparator operation) := by
  apply passes_of_all
  simp only [List.mem_cons, List.not_mem_nil, or_false] at h
  rcases h with rfl | rfl | rfl | rfl | rfl <;> decide

/-- A finite number without a sign passes. -/
theorem passes_number {x : Number} (hsign : x.negative = false) (hfinite : x.isInfinite = false) :
    Passes x.text := by
  obtain ⟨d, hnumeral, -⟩ := Number.numeral_text hsign hfinite
  obtain ⟨-, hall⟩ := hnumeral.chars
  apply passes_of_all
  apply List.all_eq_true.2
  intro c hc
  rcases Bool.or_eq_true .. ▸ hall c hc with hdigit | hpoint
  · exact isInert_of_isIdentifierPart (by simp [isIdentifierPart, hdigit])
  · rw [of_decide_eq_true hpoint]
    rfl

/-- Texts that pass do so with separators between them, if the separator passes. -/
theorem passes_intercalate {sep : String} (hsep : Passes sep) :
    ∀ texts : List String, (∀ t ∈ texts, Passes t) → Passes (sep.intercalate texts)
  | [], _ => passes_of_all rfl
  | [t], ht => by
    rw [String.intercalate_singleton]
    exact ht t List.mem_cons_self
  | t :: u :: texts, ht => by
    have ih := passes_intercalate hsep (u :: texts) fun v hv => ht v (List.mem_cons_of_mem t hv)
    rw [String.intercalate_cons_cons]
    exact ((ht t List.mem_cons_self).append hsep).append ih

/-- The chain of words for a scope passes. -/
theorem passes_scopeText (ancestor : Nat) : Passes (scopeText ancestor) := by
  unfold scopeText
  split
  · exact passes_of_all (by decide)
  · apply passes_intercalate (passes_of_all (by decide))
    intro t ht
    rw [List.eq_of_mem_replicate ht]
    exact passes_of_all (by decide)

/-- A name passes with the words for its scope. -/
theorem passes_scopedName {name : String} {ancestor : Nat} (h : IsScopeName name ancestor) :
    Passes (scopedName name ancestor) := by
  unfold scopedName
  split
  · exact h.isMemberName.passes
  · exact ((passes_scopeText ancestor).append (passes_of_all (by decide))).append h.isMemberName.passes

/-- The text of an operand passes with or without parentheses. -/
theorem Passes.operandText {text : String} (h : Passes text) (e : Expression) :
    Passes (operandText e text) := by
  unfold Expression.operandText
  split
  · exact ((passes_of_all (by decide)).append h).append (passes_of_all (by decide))
  · exact h

/-- The text of a binary operand passes with or without parentheses. -/
theorem Passes.binaryOperandText {text : String} (h : Passes text) (e : Expression) (outer : Nat)
    (onRight : Bool) : Passes (binaryOperandText e text outer onRight) := by
  unfold Expression.binaryOperandText
  split
  · exact h
  · exact h.operandText e

/-- The arguments of a call, or the elements of an array, in their brackets. -/
theorem passes_arguments {args : List Expression} (h : ∀ e ∈ args, Passes (render e)) :
    Passes (", ".intercalate (renderAll args)) := by
  apply passes_intercalate (passes_of_all (by decide))
  rw [renderAll_eq_map]
  exact List.forall_mem_map.2 h

/-- The arguments of a converter or a behavior. -/
theorem passes_colonText {args : List Expression} (h : ∀ e ∈ args, Passes (render e)) :
    Passes (colonText (renderAll args)) := by
  induction args with
  | nil => exact passes_of_all rfl
  | cons e es ih =>
    have hes := ih fun d hd => h d (List.mem_cons_of_mem e hd)
    rw [colonText] at hes
    rw [renderAll, colonText, List.map_cons, String.join_cons]
    exact ((passes_of_all (by decide)).append (h e List.mem_cons_self)).append hes

/-- An object in its braces. -/
theorem passes_objectText {keys : List String} {values : List Expression}
    (hkeys : ∀ k ∈ keys, IsMemberName k) (h : ∀ e ∈ values, Passes (render e)) :
    Passes (objectText keys (renderAll values)) := by
  rw [objectText]
  refine Passes.braces (passes_intercalate (passes_of_all (by decide)) _ ?_)
  intro t ht
  obtain ⟨⟨k, v⟩, hmem, rfl⟩ := List.mem_map.1 ht
  obtain ⟨hk, hv⟩ := List.of_mem_zip hmem
  rw [renderAll_eq_map] at hv
  obtain ⟨e, he, rfl⟩ := List.mem_map.1 hv
  exact ((hkeys k hk).passes.append (passes_of_all (by decide))).append (h e he)

/-- The search passes over the text of an expression whose strings hold no apostrophe. -/
theorem passes_render {e : Expression} (h : Canonical e) (hstrings : Unmarked (strings e)) :
    Passes (render e) := by
  have inert : ∀ {s : String}, s.toList.all isInert = true → Passes s := passes_of_all
  -- Marks and words are inert, and an operand is passed over in parentheses as it is without.
  induction h with
  | accessThis ancestor => exact passes_scopeText ancestor
  | accessScope hname => exact passes_scopedName hname
  | accessMember hobject hshape hname ih =>
    rw [render]
    exact (((ih hstrings).operandText _).append (inert (by decide))).append hname.passes
  | accessKeyed hobject hshape hkey ih ihkey =>
    obtain ⟨hobj, hkeys⟩ := Unmarked.append_iff.1 hstrings
    rw [render]
    exact ((((ih hobj).operandText _).append (inert (by decide))).append (ihkey hkeys)).append
      (inert (by decide))
  | callScope hname hargs hplain ih =>
    have hall := passes_arguments (unmarked_each hstrings ih)
    rw [render]
    exact (((passes_scopedName hname).append (inert (by decide))).append hall).append (inert (by decide))
  | callMember hobject hshape hname hargs hplain ih ihargs =>
    obtain ⟨hobj, hstrings⟩ := Unmarked.append_iff.1 hstrings
    have hall := passes_arguments (unmarked_each hstrings ihargs)
    rw [render]
    exact ((((((ih hobj).operandText _).append (inert (by decide))).append hname.passes).append
      (inert (by decide))).append hall).append (inert (by decide))
  | callFunction hfunc hshape hargs hplain ih ihargs =>
    obtain ⟨hobj, hstrings⟩ := Unmarked.append_iff.1 hstrings
    have hall := passes_arguments (unmarked_each hstrings ihargs)
    rw [render]
    exact ((((ih hobj).operandText _).append (inert (by decide))).append hall).append (inert (by decide))
  | null => exact inert (by decide)
  | undefined => exact inert (by decide)
  | boolean value => cases value <;> exact inert (by decide)
  | string value => exact passes_quoted (hstrings value List.mem_cons_self)
  | number hsign hfinite => exact passes_number hsign hfinite
  | arrayLiteral helements hplain ih =>
    have hall := passes_arguments (unmarked_each hstrings ih)
    rw [render]
    exact ((inert (by decide)).append hall).append (inert (by decide))
  | objectLiteral hlength hkeys hvalues hplain ih =>
    rw [render]
    exact passes_objectText hkeys (unmarked_each hstrings ih)
  | unary hoperation hoperand ih =>
    rw [render]
    exact (passes_unaryOperator hoperation).append ((ih hstrings).operandText _)
  | binary hoperation hleft hright ihleft ihright =>
    obtain ⟨hl, hr⟩ := Unmarked.append_iff.1 hstrings
    rw [render]
    exact (((((ihleft hl).binaryOperandText _ _ _).append (inert (by decide))).append
      (passes_binaryOperator hoperation)).append (inert (by decide))).append
      ((ihright hr).binaryOperandText _ _ _)
  | conditional hcondition hyes hplainYes hno hplainNo ih ihyes ihno =>
    obtain ⟨hc, hbranches⟩ := Unmarked.append_iff.1 hstrings
    obtain ⟨hy, hn⟩ := Unmarked.append_iff.1 hbranches
    rw [render]
    exact (((((ih hc).operandText _).append (inert (by decide))).append (ihyes hy)).append
      (inert (by decide))).append (ihno hn)
  | assign htarget hassignable hvalue hplain ih ihvalue =>
    obtain ⟨ht, hv⟩ := Unmarked.append_iff.1 hstrings
    rw [render]
    exact ((ih ht).append (inert (by decide))).append (ihvalue hv)
  | valueConverter hexpression hshape hname hargs hplain ih ihargs =>
    obtain ⟨he, hargs⟩ := Unmarked.append_iff.1 hstrings
    rw [render]
    exact (((ih he).append (inert (by decide))).append hname.passes).append
      (passes_colonText (unmarked_each hargs ihargs))
  | bindingBehavior hexpression hname hargs hplain ih ihargs =>
    obtain ⟨he, hargs⟩ := Unmarked.append_iff.1 hstrings
    rw [render]
    exact (((ih he).append (inert (by decide))).append hname.passes).append
      (passes_colonText (unmarked_each hargs ihargs))

/-! ### Cutting what was woven -/

/-- Whether a part of a text stands for itself: it opens no expression, and no backslash escapes anything. -/
def isVerbatim : List Char → Bool
  | a :: b :: cs => !(a = '\\' && b = '$') && !(a = '$' && b = '\x7b') && isVerbatim (b :: cs)
  | _ => true

/-- A character that neither opens an interpolation nor escapes one belongs to the part. -/
theorem splitChars_char (total fuel : Nat) {c : Char} {cs : List Char}
    (hescape : c = '\\' → cs.head? ≠ some '$') (hopen : c = '$' → cs.head? ≠ some '\x7b') :
    splitChars total (fuel + 1) (c :: cs) = (splitChars total fuel cs).map (·.push c) := by
  rw [splitChars]
  · rintro ds rfl rfl
    exact hescape rfl rfl
  · rintro ds rfl rfl
    exact hopen rfl rfl

/-- Segments with a text in front of the first part. -/
def Segments.pushAll (cs : List Char) (s : Segments) : Segments :=
  cs.foldr Segments.push s

/-- Characters are put in front of the first part. -/
theorem pushAll_cons (cs : List Char) (part : String) (parts texts : List String) :
    Segments.pushAll cs ⟨part :: parts, texts⟩ = ⟨(String.ofList cs ++ part) :: parts, texts⟩ := by
  induction cs with
  | nil => simp [Segments.pushAll]
  | cons c cs ih =>
    rw [Segments.pushAll] at ih
    have hchars : String.ofList (c :: cs) ++ part = String.singleton c ++ (String.ofList cs ++ part) := by
      apply String.toList_inj.1
      simp
    rw [Segments.pushAll, List.foldr_cons, ih, hchars]
    rfl

/-- A part is taken as it stands, where the text ends or an expression opens after it. -/
theorem splitChars_part (total fuel : Nat) {rest : List Char} (hrest : ∀ c ∈ rest.head?, c = '$') :
    ∀ cs : List Char, isVerbatim cs = true → (rest ≠ [] → cs.getLast? ≠ some '\\') →
      splitChars total (fuel + cs.length) (cs ++ rest) =
        (splitChars total fuel rest).map (Segments.pushAll cs)
  | [], _, _ => by
    simp only [List.nil_append, List.length_nil, Nat.add_zero]
    cases splitChars total fuel rest <;> rfl
  | [c], _, hlast => by
    have hescape : c = '\\' → rest.head? ≠ some '$' := by
      rintro rfl hhead
      exact hlast (by rintro rfl; cases hhead) rfl
    have hopen : c = '$' → rest.head? ≠ some '\x7b' := by
      intro _ hhead
      exact absurd (hrest _ hhead) (by decide)
    rw [List.singleton_append, List.length_singleton, splitChars_char total fuel hescape hopen]
    rfl
  | c :: d :: cs, hverbatim, hlast => by
    simp only [isVerbatim, Bool.and_eq_true, Bool.not_eq_true', Bool.and_eq_false_iff,
      decide_eq_false_iff_not] at hverbatim
    obtain ⟨⟨hescape, hopen⟩, hverbatim⟩ := hverbatim
    have ih := splitChars_part total fuel hrest (d :: cs) hverbatim (by simpa using hlast)
    rw [List.cons_append, List.length_cons, ← Nat.add_assoc,
      splitChars_char total _ (by grind) (by grind), ih]
    cases splitChars total fuel rest <;> rfl

/-- Between `${` and `}`, a text that passes is one segment. -/
theorem splitChars_open (total fuel : Nat) {text : String} (h : Passes text) (rest : List Char) :
    splitChars total (fuel + 1) ('$' :: '\x7b' :: (text.toList ++ '\x7d' :: rest)) =
      (splitChars total fuel rest).map fun s => ⟨"" :: s.parts, text :: s.expressions⟩ := by
  rw [splitChars, h.closeSegment rest]
  simp only [String.ofList_toList]

/-- No part but the last ends in a backslash. -/
def NoneEscapes (parts : List String) : Prop :=
  ∀ part ∈ parts.dropLast, part.toList.getLast? ≠ some '\\'

/-- A further part in front of the others escapes no opening if it does not end in a backslash. -/
theorem NoneEscapes.cons {part : String} {parts : List String} (h : NoneEscapes parts)
    (hpart : parts ≠ [] → part.toList.getLast? ≠ some '\\') : NoneEscapes (part :: parts) := by
  intro p hp
  by_cases hparts : parts = []
  · subst hparts
    cases hp
  · rw [List.dropLast_cons_of_ne_nil hparts] at hp
    rcases List.mem_cons.1 hp with rfl | hp
    · exact hpart hparts
    · exact h p hp

/-- Where no part escapes the opening behind it, neither does the first nor any of the others. -/
theorem NoneEscapes.of_cons {part : String} {parts : List String} (h : NoneEscapes (part :: parts)) :
    NoneEscapes parts ∧ (parts ≠ [] → part.toList.getLast? ≠ some '\\') := by
  constructor
  · intro p hp
    apply h
    rw [List.dropLast_cons_of_ne_nil (List.ne_nil_of_mem ((List.dropLast_sublist parts).mem hp))]
    exact List.mem_cons_of_mem part hp
  · intro hparts
    apply h
    rw [List.dropLast_cons_of_ne_nil hparts]
    exact List.mem_cons_self

/-- A part with the expression behind it stands in front of the others. -/
theorem toList_weave_cons (part text : String) (parts texts : List String) :
    (weave (part :: parts) (text :: texts)).toList =
      part.toList ++ '$' :: '\x7b' :: (text.toList ++ '\x7d' :: (weave parts texts).toList) := by
  simp [weave]

/-- What is woven from parts that stand for themselves and texts that are passed over is cut into these. -/
theorem splitChars_weave (total : Nat) : ∀ (parts texts : List String) (fuel : Nat),
    parts.length = texts.length + 1 → (∀ part ∈ parts, isVerbatim part.toList = true) → NoneEscapes parts →
    (∀ text ∈ texts, Passes text) → (weave parts texts).toList.length < fuel →
    splitChars total fuel (weave parts texts).toList = .ok ⟨parts, texts⟩
  | [], _, _, hlength, _, _, _, _ => by simp at hlength
  | _ :: _ :: _, [], _, hlength, _, _, _, _ => by simp at hlength
  | [part], [], fuel, _, hverbatim, _, _, hfuel => by
    have hweave : (weave [part] []).toList = part.toList ++ [] := by simp [weave]
    rw [hweave] at hfuel ⊢
    obtain ⟨m, rfl⟩ : ∃ m, fuel = m + 1 + part.toList.length := by
      rw [List.append_nil] at hfuel
      exact ⟨fuel - part.toList.length - 1, by omega⟩
    rw [splitChars_part total (m + 1) (by simp) part.toList (hverbatim part List.mem_cons_self) (absurd rfl),
      splitChars, Except.map, pushAll_cons, String.ofList_toList, String.append_empty]
  | part :: parts, text :: texts, fuel, hlength, hverbatim, hescapes, hpasses, hfuel => by
    have hparts : parts ≠ [] := by
      rintro rfl
      simp at hlength
    rw [toList_weave_cons] at hfuel ⊢
    simp only [List.length_append, List.length_cons] at hfuel hlength
    obtain ⟨m, rfl⟩ : ∃ m, fuel = m + 1 + part.toList.length := ⟨fuel - part.toList.length - 1, by omega⟩
    obtain ⟨hescapes, hlast⟩ := hescapes.of_cons
    obtain ⟨hpart, hverbatim⟩ := List.forall_mem_cons.1 hverbatim
    obtain ⟨htext, hpasses⟩ := List.forall_mem_cons.1 hpasses
    have ih := splitChars_weave total parts texts m (by omega) hverbatim hescapes hpasses (by omega)
    rw [splitChars_part total (m + 1) (by simp) part.toList hpart fun _ => hlast hparts,
      splitChars_open total m htext, ih, Except.map, Except.map, pushAll_cons, String.ofList_toList,
      String.append_empty]

/-- What is woven is cut as it was. -/
theorem splitInterpolation_weave {parts texts : List String} (hlength : parts.length = texts.length + 1)
    (hverbatim : ∀ part ∈ parts, isVerbatim part.toList = true) (hescapes : NoneEscapes parts)
    (hpasses : ∀ text ∈ texts, Passes text) :
    splitInterpolation (weave parts texts) = .ok ⟨parts, texts⟩ :=
  splitChars_weave _ parts texts _ hlength hverbatim hescapes hpasses (Nat.lt_succ_self _)

/-- An opening is found behind any characters. -/
theorem opensInterpolation_append (cs ds : List Char) :
    opensInterpolation (cs ++ '$' :: '\x7b' :: ds) = true := by
  induction cs with
  | nil => simp [opensInterpolation]
  | cons c cs ih =>
    cases cs with
    | nil => simp [opensInterpolation]
    | cons d cs =>
      rw [List.cons_append] at ih ⊢
      rw [List.cons_append, opensInterpolation, ih, Bool.or_true]

/-- With one expression at least, the text has an interpolation. -/
theorem hasInterpolation_weave (part text : String) (parts texts : List String) :
    hasInterpolation (weave (part :: parts) (text :: texts)) = true := by
  rw [hasInterpolation, toList_weave_cons]
  exact opensInterpolation_append _ _

/-! ### What was cut -/

/-- How the segments of a text are made up: there is a part between every two expressions, and no backslash
stands right before an expression, where it would escape it. -/
structure WellCut (cs : List Char) (s : Segments) : Prop where
  length : s.parts.length = s.expressions.length + 1
  escapes : NoneEscapes s.parts
  /-- An empty part before an expression: the expression opens at once. -/
  opens : s.expressions ≠ [] → s.parts.head? = some "" → cs.head? = some '$'

/-- A character before a text goes to its first part, if it does not escape an expression there. -/
theorem WellCut.push {c : Char} {cs : List Char} {s : Segments} (h : WellCut cs s)
    (hc : c = '\\' → cs.head? ≠ some '$') (ds : List Char) : WellCut ds (s.push c) := by
  obtain ⟨_ | ⟨part, parts⟩, texts⟩ := s
  · exact absurd h.length (by simp)
  · obtain ⟨hparts, hpart⟩ := h.escapes.of_cons
    refine ⟨by simpa [Segments.push] using h.length, hparts.cons ?_, ?_⟩
    · intro hne hlast
      rw [String.toList_append, String.toList_singleton, List.singleton_append] at hlast
      cases hchars : part.toList with
      | nil =>
        -- The part before was empty, so an expression opens right after the character.
        have htexts : texts ≠ [] := by
          rintro rfl
          exact hne (by simpa using h.length)
        have hempty : part = "" := String.toList_inj.1 hchars
        rw [hchars] at hlast
        exact hc (by simpa using hlast) (h.opens htexts (by rw [hempty]; rfl))
      | cons d cs =>
        rw [hchars, List.getLast?_cons_cons, ← hchars] at hlast
        exact hpart hne hlast
    · intro _ hhead
      simp [Segments.push] at hhead

/-- The splitting of characters gives one part more than expressions, and only parts that can be. -/
theorem wellCut_splitChars (total : Nat) : ∀ (fuel : Nat) (cs : List Char) {s : Segments},
    splitChars total fuel cs = .ok s → WellCut cs s := by
  intro fuel cs
  fun_induction splitChars total fuel cs with
  | case1 => intro s h; cases h
  | case2 =>
    intro s h
    cases h
    exact ⟨rfl, nofun, absurd rfl⟩
  | case3 fuel cs ih =>
    intro s h
    obtain ⟨s', hs', rfl⟩ := map_eq_ok.1 h
    exact (ih hs').push (absurd · (by decide)) _
  | case4 fuel cs hclose => intro s h; cases h
  | case5 fuel cs inside rest hclose ih =>
    intro s h
    obtain ⟨s', hs', rfl⟩ := map_eq_ok.1 h
    obtain ⟨hlength, hescapes, -⟩ := ih hs'
    exact ⟨by simpa using hlength, hescapes.cons (by simp), by simp⟩
  | case6 fuel c cs hescape hopen ih =>
    intro s h
    obtain ⟨s', hs', rfl⟩ := map_eq_ok.1 h
    refine (ih hs').push ?_ _
    rintro rfl hhead
    obtain ⟨ds, rfl⟩ := List.head?_eq_some_iff.1 hhead
    exact hescape ds rfl rfl

/-- How a text that was cut is made up. -/
theorem wellCut_splitInterpolation {input : String} {s : Segments} (h : splitInterpolation input = .ok s) :
    s.parts.length = s.expressions.length + 1 ∧ NoneEscapes s.parts :=
  have hcut := wellCut_splitChars _ _ _ h
  ⟨hcut.length, hcut.escapes⟩

end ViewTemplate.Expression
