import ViewTemplate.Expression.Equality
import ViewTemplate.Proofs.Expression.Interpolations
import ViewTemplate.Proofs.Expression.Iterations

/-!
# Expressions whose text says the same again

Not every expression that is read is read again from its text.  The printer puts parentheses around compound
operands only, and not around the object of an access, a function or an argument, where some other shapes need
them too; it leaves out `$this.`, writes keys without quotation marks, and parts of a text without escapes.
Where none of that is in the way, the text of what was read denotes it, whatever kind of text it was.

* `restates`, `restatesWhole` — the check of a tree that nothing of that is in the way.
* `canonical_of_restates` — a readable expression that passes is canonical.
* `standard_render` — what is read is read again from its text.
-/

namespace ViewTemplate.Expression

open ViewTemplate.Text

/-! ### The check -/

/-- Whether the characters are those of a word. -/
def isWord : List Char → Bool
  | [] => false
  | c :: cs => isIdentifierStart c && cs.all isIdentifierPart

/-- What passes the check for words is a word. -/
theorem isWordText_of_isWord {s : String} (h : isWord s.toList = true) : IsWordText s := by
  cases hchars : s.toList with
  | nil =>
    rw [hchars] at h
    cases h
  | cons c cs =>
    rw [hchars, isWord, Bool.and_eq_true] at h
    exact ⟨c, cs, hchars, h.1, List.all_eq_true.1 h.2⟩

/-- Whether a name of the scope `ancestor` levels outward is one where it stands: in the scope itself it is
written alone, and a keyword is read otherwise there. -/
def namesScope (name : String) (ancestor : Nat) : Bool :=
  ancestor ≠ 0 || name ∉ keywords

mutual

/-- Whether the text of the expression says the same again.  The check asks a little more than it has to: an object
may have only words as keys, although a numeral that prints as itself (`{1: a}`) is read back too.  Numerals are
no names of members, and such an object is not canonical. -/
def restates : Expression → Bool
  | .accessThis _ => true
  | .accessScope name ancestor => namesScope name ancestor
  | .accessMember object _ => object.takesMember && restates object
  | .accessKeyed object key => object.takesKey && restates object && restates key
  | .callScope name args ancestor => namesScope name ancestor && restateArguments args
  | .callMember object _ args => object.takesMember && restates object && restateArguments args
  | .callFunction func args => func.takesArguments && restates func && restateArguments args
  | .literal (.number x) => !x.isInfinite
  | .literal _ => true
  | .arrayLiteral elements => restateArguments elements
  | .objectLiteral keys values => keys.all (isWord ·.toList) && restateArguments values
  | .unary _ operand => restates operand
  | .binary _ left right => restates left && restates right
  | .conditional condition yes no =>
    restates condition && (yes.isPlain && restates yes) && (no.isPlain && restates no)
  | .assign target value => restates target && (value.isPlain && restates value)
  | .valueConverter expression _ args =>
    expression.takesConverter && restates expression && restateArguments args
  | .bindingBehavior expression _ args => restates expression && restateArguments args
  | _ => false

/-- Whether the texts of several arguments say the same again. -/
def restateArguments : List Expression → Bool
  | [] => true
  | e :: es => e.isPlain && restates e && restateArguments es

end

/-- Arguments pass exactly if each of them is plain and passes. -/
theorem restateArguments_iff {es : List Expression} :
    restateArguments es = true ↔ ∀ e ∈ es, e.isPlain = true ∧ restates e = true := by
  induction es with
  | nil => exact ⟨fun _ => nofun, fun _ => rfl⟩
  | cons e es ih => rw [restateArguments, Bool.and_eq_true, Bool.and_eq_true, ih, List.forall_mem_cons]

/-- A name that passes where it stands is one of the scope. -/
theorem isScopeName_of_namesScope {name : String} {ancestor : Nat} (hname : IsMemberName name)
    (hparent : name ≠ "$parent") (h : namesScope name ancestor = true) : IsScopeName name ancestor := by
  unfold IsScopeName
  split
  · next hzero =>
    have hkeyword : name ∉ keywords := by simpa [namesScope, hzero] using h
    exact isIdentifier_of_isWordText hname.isWordText hkeyword
  · exact ⟨hname, hparent⟩

/-- What holds of expressions that pass holds of the arguments that do, and these are plain. -/
theorem restateArguments_each {es : List Expression} {P : Expression → Prop} (h : restateArguments es = true)
    (hes : ∀ e ∈ es, restates e = true → P e) : (∀ e ∈ es, P e) ∧ ∀ e ∈ es, e.isPlain = true := by
  rw [restateArguments_iff] at h
  exact ⟨fun e he => hes e he (h e he).2, fun e he => (h e he).1⟩

/-- A readable expression that passes the check is canonical. -/
theorem canonical_of_restates {e : Expression} (h : Readable e) (hrestates : restates e = true) :
    Canonical e := by
  induction h with
  | accessThis ancestor => exact .accessThis ancestor
  | accessScope ancestor hname hparent => exact .accessScope (isScopeName_of_namesScope hname hparent hrestates)
  | accessMember hobject hname ih =>
    obtain ⟨hshape, hrest⟩ := Bool.and_eq_true_iff.1 hrestates
    exact .accessMember (ih hrest) hshape hname
  | accessKeyed hobject hkey ih ihkey =>
    simp only [restates, Bool.and_eq_true] at hrestates
    obtain ⟨⟨hshape, hobject'⟩, hkey'⟩ := hrestates
    exact .accessKeyed (ih hobject') hshape (ihkey hkey')
  | callScope ancestor hname hparent hargs ih =>
    obtain ⟨hscope, hrest⟩ := Bool.and_eq_true_iff.1 hrestates
    obtain ⟨hcanonical, hplain⟩ := restateArguments_each hrest ih
    exact .callScope (isScopeName_of_namesScope hname hparent hscope) hcanonical hplain
  | callMember hobject hname hargs ih ihargs =>
    simp only [restates, Bool.and_eq_true] at hrestates
    obtain ⟨⟨hshape, hobject'⟩, hrest⟩ := hrestates
    obtain ⟨hcanonical, hplain⟩ := restateArguments_each hrest ihargs
    exact .callMember (ih hobject') hshape hname hcanonical hplain
  | callFunction hfunc hargs ih ihargs =>
    simp only [restates, Bool.and_eq_true] at hrestates
    obtain ⟨⟨hshape, hfunc'⟩, hrest⟩ := hrestates
    obtain ⟨hcanonical, hplain⟩ := restateArguments_each hrest ihargs
    exact .callFunction (ih hfunc') hshape hcanonical hplain
  | @literal value hvalue =>
    cases value with
    | undefined => exact .undefined
    | null => exact .null
    | boolean value => exact .boolean value
    | number x => exact .number (hvalue x rfl) (by simpa [restates] using hrestates)
    | string value => exact .string value
  | arrayLiteral helements ih =>
    obtain ⟨hcanonical, hplain⟩ := restateArguments_each hrestates ih
    exact .arrayLiteral hcanonical hplain
  | objectLiteral hlength hvalues ih =>
    obtain ⟨hkeys, hrest⟩ := Bool.and_eq_true_iff.1 hrestates
    obtain ⟨hcanonical, hplain⟩ := restateArguments_each hrest ih
    refine .objectLiteral hlength ?_ hcanonical hplain
    intro k hk
    exact isMemberName_of_isWordText (isWordText_of_isWord (List.all_eq_true.1 hkeys k hk))
  | unary hoperation hoperand ih => exact .unary hoperation (ih hrestates)
  | binary hoperation hleft hright ihleft ihright =>
    obtain ⟨hl, hr⟩ := Bool.and_eq_true_iff.1 hrestates
    exact .binary hoperation (ihleft hl) (ihright hr)
  | conditional hcondition hyes hno ih ihyes ihno =>
    simp only [restates, Bool.and_eq_true] at hrestates
    obtain ⟨⟨hc, hplainYes, hy⟩, hplainNo, hn⟩ := hrestates
    exact .conditional (ih hc) (ihyes hy) hplainYes (ihno hn) hplainNo
  | assign htarget hassignable hvalue ih ihvalue =>
    simp only [restates, Bool.and_eq_true] at hrestates
    obtain ⟨ht, hplain, hv⟩ := hrestates
    exact .assign (ih ht) hassignable (ihvalue hv) hplain
  | valueConverter hexpression hname hargs ih ihargs =>
    simp only [restates, Bool.and_eq_true] at hrestates
    obtain ⟨⟨hshape, he⟩, hrest⟩ := hrestates
    obtain ⟨hcanonical, hplain⟩ := restateArguments_each hrest ihargs
    exact .valueConverter (ih he) hshape hname hcanonical hplain
  | bindingBehavior hexpression hname hargs ih ihargs =>
    obtain ⟨he, hrest⟩ := Bool.and_eq_true_iff.1 hrestates
    obtain ⟨hcanonical, hplain⟩ := restateArguments_each hrest ihargs
    exact .bindingBehavior (ih he) hname hcanonical hplain

/-! ### Texts of every kind -/

/-- The name, if the expression declares one. -/
def declaredName? : Expression → Option String
  | .bindingIdentifier name => some name
  | _ => none

/-- The names that a declaration declares. -/
def declaredNames : Expression → List String
  | .arrayPattern es | .objectPattern _ es => es.filterMap declaredName?
  | e => e.declaredName?.toList

/-- Whether the text of an expression of any kind says the same again.  Between interpolations the parts stand
for themselves, and no string holds an apostrophe, since the search for the closing brace goes by the
quotation marks alone.  The names of an iteration are no keywords. -/
def restatesWhole : Expression → Bool
  | .interpolation parts es => parts.all (isVerbatim ·.toList) && es.all restates &&
    (stringsAll es).all (!·.toList.contains '\x27')
  | .iteration declared iterable => (declaredNames declared).all (· ∉ keywords) && restates iterable
  | e => restates e

/-- Of what the grammar of expressions gives, the check of whole values is that of expressions. -/
theorem restatesWhole_eq {e : Expression} (h : Readable e) : restatesWhole e = restates e := by
  cases h <;> rfl

/-- The names in the expression of a declaration are those that it declares. -/
theorem declaredNames_expression (d : Declaration) : declaredNames d.expression = d.names := by
  cases d with
  | single name => rfl
  | array names =>
    rw [Declaration.expression, declaredNames, List.filterMap_map]
    exact List.filterMap_some
  | object entries =>
    rw [Declaration.expression, declaredNames, List.filterMap_map, Declaration.names, ← List.filterMap_eq_map]
    rfl

/-- A declaration that was read is canonical, if no name in it is a keyword. -/
theorem Declaration.IsReadable.isCanonical {d : Declaration} (h : d.IsReadable)
    (hnames : (declaredNames d.expression).all (· ∉ keywords) = true) : d.IsCanonical := by
  refine ⟨h.nonempty, h.keys, ?_⟩
  intro name hname
  rw [declaredNames_expression] at hnames
  apply isIdentifier_of_isWordText (h.names name hname).isWordText
  exact of_decide_eq_true (List.all_eq_true.1 hnames name hname)

/-- To read a text is to parse it, as far as results go. -/
theorem read_eq_ok {input : String} {e : Expression} : read input = .ok e ↔ parse input = .ok e :=
  mapError_eq_ok

/-- Texts that are read give an expression each, and all are readable. -/
theorem readAll_eq_ok {inputs : List String} {es : List Expression} (h : readAll inputs = .ok es) :
    es.length = inputs.length ∧ ∀ e ∈ es, Readable e := by
  induction inputs generalizing es with
  | nil =>
    cases h
    exact ⟨rfl, nofun⟩
  | cons input inputs ih =>
    rw [readAll] at h
    obtain ⟨e, he, h⟩ := bind_eq_ok.1 h
    obtain ⟨es', hes, h⟩ := bind_eq_ok.1 h
    cases h
    obtain ⟨hlength, hall⟩ := ih hes
    exact ⟨by rw [List.length_cons, List.length_cons, hlength],
      List.forall_mem_cons.2 ⟨readable_parse (read_eq_ok.1 he), hall⟩⟩

/-- Canonical expressions are read from their texts. -/
theorem readAll_renderAll {es : List Expression} (h : ∀ e ∈ es, Canonical e) :
    readAll (renderAll es) = .ok es := by
  induction es with
  | nil => rfl
  | cons e es ih =>
    obtain ⟨he, hes⟩ := List.forall_mem_cons.1 h
    rw [renderAll, readAll, read_eq_ok.2 (parse_render he), ih hes]
    rfl

/-- What is read from a text with interpolations. -/
theorem readInterpolation_eq_ok {input : String} {e : Expression}
    (h : readInterpolation input = .ok (some e)) :
    ∃ parts es, e = .interpolation parts es ∧ es ≠ [] ∧ parts.length = es.length + 1 ∧ NoneEscapes parts ∧
      ∀ e ∈ es, Readable e := by
  unfold readInterpolation at h
  split at h
  · obtain ⟨segments, hsegments, h⟩ := bind_eq_ok.1 h
    obtain ⟨hlength, hescapes⟩ := wellCut_splitInterpolation (mapError_eq_ok.1 hsegments)
    split at h
    · cases h
    · next hne =>
      obtain ⟨es, hes, h⟩ := bind_eq_ok.1 h
      cases h
      obtain ⟨hes', hreadable⟩ := readAll_eq_ok hes
      refine ⟨segments.parts, es, rfl, ?_, by rw [hlength, hes'], hescapes, hreadable⟩
      rintro rfl
      exact hne (List.isEmpty_iff_length_eq_zero.2 hes'.symm)
  · cases h

/-- The text of an interpolation denotes it. -/
theorem readInterpolation_weave {parts : List String} {es : List Expression} (hne : es ≠ [])
    (hlength : parts.length = es.length + 1) (hverbatim : ∀ part ∈ parts, isVerbatim part.toList = true)
    (hescapes : NoneEscapes parts) (hes : ∀ e ∈ es, Canonical e) (hstrings : Unmarked (stringsAll es)) :
    readInterpolation (weave parts (renderAll es)) = .ok (some (.interpolation parts es)) := by
  have hpasses : ∀ text ∈ renderAll es, Passes text := by
    rw [renderAll_eq_map]
    exact List.forall_mem_map.2 (unmarked_each hstrings fun e he => passes_render (hes e he))
  have hsplit := splitInterpolation_weave (by rw [hlength, renderAll_eq_map, List.length_map]) hverbatim
    hescapes hpasses
  have hopens : hasInterpolation (weave parts (renderAll es)) = true := by
    obtain ⟨part, parts, rfl⟩ := List.exists_cons_of_length_eq_add_one hlength
    obtain ⟨e, es, rfl⟩ := List.exists_cons_of_ne_nil hne
    exact hasInterpolation_weave part (render e) parts (renderAll es)
  have hmarks : (renderAll es).isEmpty = false := by
    rw [renderAll_eq_map, List.isEmpty_map]
    simpa using hne
  rw [readInterpolation, if_pos hopens, hsplit]
  simp only [Except.mapError, bind, Except.bind, hmarks, readAll_renderAll hes]
  rfl

/-- What is read from a text of any kind is read again from its own text, if it passes the check. -/
theorem standard_render {kind : ExpressionKind} {input : String} {e : Expression}
    (h : ExpressionReader.standard input kind = .ok (some e)) (hrestates : restatesWhole e = true) :
    ExpressionReader.standard (render e) kind = .ok (some e) := by
  have hplain : ∀ {input : String}, (read input).map some = .ok (some e) →
      (read (render e)).map some = .ok (some e) := by
    intro input h
    obtain ⟨e', he, heq⟩ := map_eq_ok.1 h
    cases heq
    have hreadable := readable_parse (read_eq_ok.1 he)
    rw [restatesWhole_eq hreadable] at hrestates
    exact map_eq_ok.2 ⟨e, read_eq_ok.2 (parse_render (canonical_of_restates hreadable hrestates)), rfl⟩
  cases kind with
  | interpolation =>
    obtain ⟨parts, es, rfl, hne, hlength, hescapes, hreadable⟩ := readInterpolation_eq_ok h
    simp only [restatesWhole, Bool.and_eq_true, List.all_eq_true] at hrestates
    obtain ⟨⟨hverbatim, hes⟩, hstrings⟩ := hrestates
    refine readInterpolation_weave hne hlength hverbatim hescapes ?_ ?_
    · intro e he
      exact canonical_of_restates (hreadable e he) (hes e he)
    · intro s hs
      simpa using hstrings s hs
  | iteration =>
    obtain ⟨e', he, heq⟩ := map_eq_ok.1 h
    cases heq
    obtain ⟨d, iterable, hd, hiterable, rfl⟩ := parseIteration_eq_ok (mapError_eq_ok.1 he)
    obtain ⟨hnames, hrest⟩ := Bool.and_eq_true_iff.1 hrestates
    have hcanonical := canonical_of_restates hiterable hrest
    exact map_eq_ok.2 ⟨_, mapError_eq_ok.2 (parseIteration_render (hd.isCanonical hnames) hcanonical), rfl⟩
  | plain => exact hplain h
  | property => exact hplain h
  | function => exact hplain h

/-- Two expressions between parts of a text: one with a converter and a behavior, one with braces of its own. -/
def total : Expression :=
  .interpolation ["Total: ", " of ", ""]
    [.bindingBehavior
      (.valueConverter
        (.binary "*" (.binary "+" (.accessMember (.accessScope "item" 0) "in") (.number (.ofDecimal ⟨15, -1⟩)))
          (.callMember (.accessKeyed (.accessThis 0) (.string "x")) "get" [.unary "-" (.number .zero)]))
        "currency" [.string "short"])
      "throttle" [.number .zero],
    .objectLiteral ["a", "b"] [.accessScope "a" 0, .arrayLiteral [.accessScope "c" 0]]]

/-- The same with other blanks and quotation marks, and with a key that stands alone. -/
def totalText : String :=
  "Total: $\x7b (item.in+1.5)*$this[\x22x\x22].get(- 0) | currency:'short' & throttle:0 \x7d of " ++
    "$\x7b\x7ba, b: [c]\x7d\x7d"

/-- The theorem at an interpolation with two expressions. -/
theorem standard_render_total :
    ExpressionReader.standard totalText .interpolation = .ok (some total) ∧ restatesWhole total = true ∧
      ExpressionReader.standard (render total) .interpolation = .ok (some total) := by
  have hread : ExpressionReader.standard totalText .interpolation = .ok (some total) :=
    toOption_eq_some.1 (by decide +kernel)
  have hrestates : restatesWhole total = true := by decide +kernel
  exact ⟨hread, hrestates, standard_render hread hrestates⟩

/-- A member of what a unary operation gives. -/
def negatedMember : Expression :=
  .accessMember (.unary "-" (.accessScope "a" 0)) "b"

/-- Without the parentheses around its object, the member is read before the operation. -/
theorem standard_render_negatedMember :
    ExpressionReader.standard "(-a).b" .plain = .ok (some negatedMember) ∧
      ExpressionReader.standard (render negatedMember) .plain ≠ .ok (some negatedMember) := by
  have hread : ExpressionReader.standard (render negatedMember) .plain =
      .ok (some (.unary "-" (.accessMember (.accessScope "a" 0) "b"))) :=
    toOption_eq_some.1 (by decide +kernel)
  refine ⟨toOption_eq_some.1 (by decide +kernel), ?_⟩
  rw [hread]
  exact nofun

end ViewTemplate.Expression
