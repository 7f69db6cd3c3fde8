import ViewTemplate.Expression.Parser
import ViewTemplate.Proofs.Expression.Layout
import ViewTemplate.Proofs.Expression.Shapes
import ViewTemplate.Proofs.Results

/-!
# Expressions that were read

What can be said of every expression that a text denotes: its names are words, its operators are those of the
grammar, and its numbers have no sign.  Every level of the grammar keeps that, one step at a time, so all of
them do for any bound on the steps.

* `Lexeme.IsProper` — what the scanner gives; `isProper_tokens`.
* `Readable` — what the grammar gives.
* `Grammar.SoundAt` — with a given bound on the steps; `Grammar.SoundAt.succ`, `Grammar.soundAt`.
* `readable_parse` — for whole texts.
-/

namespace ViewTemplate.Expression

open ViewTemplate.Text

/-! ### Words -/

/-- A text of the characters of a word is read as that word. -/
theorem tokens_of_isWordText {s : String} (h : IsWordText s) :
    tokens s = [⟨.ofWord s, 0, byteLength s.toList⟩] := by
  have hspells : Spells s.toList (.ofWord s) [] := spells_word h nofun
  obtain ⟨c, cs, hchars, hspace, hfault, hscan⟩ := hspells
  rw [List.append_nil] at hscan
  have hdrop : (c :: cs).dropWhile isSpace = c :: cs := List.dropWhile_cons_of_neg (by simp [hspace])
  unfold tokens
  rw [hchars]
  simp only [List.length_cons, scanTokens, hdrop, hscan, hfault]
  simp [byteLength_nil]

/-- A word that is no keyword is an identifier. -/
theorem isIdentifier_of_isWordText {s : String} (h : IsWordText s) (hs : s ∉ keywords) : IsIdentifier s := by
  refine ⟨s, ?_⟩
  rw [tokens_of_isWordText h, Lexeme.ofWord, if_neg hs]

/-- Every word may be the name of a member, keywords too. -/
theorem isMemberName_of_isWordText {s : String} (h : IsWordText s) : IsMemberName s := by
  by_cases hs : s ∈ keywords
  · refine .inr ⟨s, ?_⟩
    rw [tokens_of_isWordText h, Lexeme.ofWord, if_pos hs]
  · exact .inl (isIdentifier_of_isWordText h hs)

/-- An identifier is no keyword. -/
theorem IsIdentifier.notMem_keywords {s : String} (h : IsIdentifier s) : s ∉ keywords := by
  intro hs
  have hword := h.isWordText.2
  rw [Lexeme.ofWord, if_pos hs] at hword
  cases hword

/-- An identifier is not `$parent`, which is a keyword. -/
theorem IsIdentifier.ne_parent {s : String} (h : IsIdentifier s) : s ≠ "$parent" := by
  rintro rfl
  exact h.notMem_keywords (by decide)

/-! ### Tokens -/

/-- What the scanner gives: identifiers and keywords are words, and numbers have no sign. -/
def Lexeme.IsProper : Lexeme → Prop
  | .identifier name => IsIdentifier name
  | .keyword word => word ∈ keywords
  | .number _ x => x.negative = false
  | _ => True

/-- The lexeme of a word is proper. -/
theorem isProper_ofWord {s : String} (h : IsWordText s) : (Lexeme.ofWord s).IsProper := by
  unfold Lexeme.ofWord
  split
  · assumption
  · next hs => exact isIdentifier_of_isWordText h hs

/-- The lexeme of a numeral is proper: its number has no sign. -/
theorem isProper_ofNumeral (numeral : List Char) : (Lexeme.ofNumeral numeral).IsProper := by
  unfold Lexeme.ofNumeral
  split
  · next x hread =>
    obtain ⟨d, -, rfl⟩ := Option.map_eq_some_iff.1 hread
    rfl
  · trivial

/-- Whatever is scanned at a character is proper. -/
theorem isProper_scan (c : Char) (cs : List Char) : (Lexeme.scan c cs).lexeme.IsProper := by
  unfold Lexeme.scan
  split
  · next hstart =>
    refine isProper_ofWord ⟨c, cs.takeWhile isIdentifierPart, String.toList_ofList, hstart, ?_⟩
    intro d hd
    exact List.mem_takeWhile_imp hd
  · split
    · exact isProper_ofNumeral _
    · split
      · trivial
      · split
        · split <;> trivial
        · split <;> trivial

/-- All tokens that are scanned in a text are proper. -/
theorem isProper_scanTokens (total : Nat) : (fuel : Nat) → ∀ (cs : List Char), ∀ t ∈ scanTokens total fuel cs,
    t.lexeme.IsProper
  | 0, _, _, ht => absurd ht List.not_mem_nil
  | fuel + 1, cs, t, ht => by
    simp only [scanTokens] at ht
    split at ht
    · exact absurd ht List.not_mem_nil
    · next c rest _ =>
      split at ht
      · rw [List.mem_singleton.1 ht]
        exact isProper_scan c rest
      · rcases List.mem_cons.1 ht with rfl | ht
        · exact isProper_scan c rest
        · exact isProper_scanTokens total fuel _ t ht

/-- The tokens of a text are proper. -/
theorem isProper_tokens (input : String) : ∀ t ∈ tokens input, t.lexeme.IsProper :=
  isProper_scanTokens _ _ _

/-! ### Readable expressions -/

/-- What can be said of an expression that was read.  A word after `$this.` is a name of the scope, also if it is
a keyword, but `$parent` is not. -/
inductive Readable : Expression → Prop where
  | accessThis (ancestor : Nat) : Readable (.accessThis ancestor)
  | accessScope {name : String} (ancestor : Nat) (hname : IsMemberName name) (hparent : name ≠ "$parent") :
    Readable (.accessScope name ancestor)
  | accessMember {object : Expression} {name : String} (hobject : Readable object) (hname : IsMemberName name) :
    Readable (.accessMember object name)
  | accessKeyed {object key : Expression} (hobject : Readable object) (hkey : Readable key) :
    Readable (.accessKeyed object key)
  | callScope {name : String} {args : List Expression} (ancestor : Nat) (hname : IsMemberName name)
    (hparent : name ≠ "$parent") (hargs : ∀ e ∈ args, Readable e) : Readable (.callScope name args ancestor)
  | callMember {object : Expression} {name : String} {args : List Expression} (hobject : Readable object)
    (hname : IsMemberName name) (hargs : ∀ e ∈ args, Readable e) : Readable (.callMember object name args)
  | callFunction {func : Expression} {args : List Expression} (hfunc : Readable func)
    (hargs : ∀ e ∈ args, Readable e) : Readable (.callFunction func args)
  | literal {value : Literal} (hvalue : ∀ x, value = .number x → x.negative = false) : Readable (.literal value)
  | arrayLiteral {elements : List Expression} (helements : ∀ e ∈ elements, Readable e) :
    Readable (.arrayLiteral elements)
  | objectLiteral {keys : List String} {values : List Expression} (hlength : keys.length = values.length)
    (hvalues : ∀ e ∈ values, Readable e) : Readable (.objectLiteral keys values)
  | unary {operation : String} {operand : Expression}
    (hoperation : operation ∈ ["!", "-", "+", "typeof", "void"]) (hoperand : Readable operand) :
    Readable (.unary operation operand)
  | binary {operation : String} {left right : Expression} (hoperation : (precedence? operation).isSome = true)
    (hleft : Readable left) (hright : Readable right) : Readable (.binary operation left right)
  | conditional {condition yes no : Expression} (hcondition : Readable condition) (hyes : Readable yes)
    (hno : Readable no) : Readable (.conditional condition yes no)
  | assign {target value : Expression} (htarget : Readable target) (hassignable : target.isAssignable = true)
    (hvalue : Readable value) : Readable (.assign target value)
  | valueConverter {expression : Expression} {name : String} {args : List Expression}
    (hexpression : Readable expression) (hname : IsMemberName name) (hargs : ∀ e ∈ args, Readable e) :
    Readable (.valueConverter expression name args)
  | bindingBehavior {expression : Expression} {name : String} {args : List Expression}
    (hexpression : Readable expression) (hname : IsMemberName name) (hargs : ∀ e ∈ args, Readable e) :
    Readable (.bindingBehavior expression name args)

/-- A string written out is readable. -/
theorem Readable.string (value : String) : Readable (.string value) := by
  apply Readable.literal
  intro x hx
  cases hx

namespace Grammar

/-! ### Single tokens -/

/-- The tokens are proper. -/
def AllProper (ts : List Token) : Prop :=
  ∀ t ∈ ts, t.lexeme.IsProper

/-- From proper tokens only such results are read, and the tokens that are left are proper. -/
def Keeps {α : Type} (read : Read α) (P : α → Prop) : Prop :=
  ∀ ⦃ts a rest⦄, AllProper ts → read ts = .ok (a, rest) → P a ∧ AllProper rest

/-- A rule that always fails keeps to any condition. -/
theorem Keeps.of_error {α : Type} {read : Read α} {P : α → Prop} {cause : Cause}
    (h : ∀ ts, read ts = .error cause) : Keeps read P := by
  intro ts a rest _ hread
  rw [h ts] at hread
  cases hread

/-- A rule that keeps to a condition keeps to what follows from it. -/
theorem Keeps.mono {α : Type} {read : Read α} {P Q : α → Prop} (h : Keeps read P) (hPQ : ∀ a, P a → Q a) :
    Keeps read Q :=
  fun _ _ _ hts hread => (h hts hread).imp_left (hPQ _)

/-- What is read first keeps to its condition, and the rest goes on from there. -/
theorem Keeps.of_bind {α β : Type} {read : Read α} {P : α → Prop} (hread : Keeps read P) {ts : List Token}
    (hts : AllProper ts) {f : α × List Token → Except Cause β} {b : β} (h : (read ts >>= f) = .ok b) :
    ∃ a rest, P a ∧ AllProper rest ∧ f (a, rest) = .ok b := by
  obtain ⟨⟨a, rest⟩, ha, hf⟩ := bind_eq_ok.1 h
  obtain ⟨hP, hrest⟩ := hread hts ha
  exact ⟨a, rest, hP, hrest, hf⟩

/-- Proper tokens stay proper when a punctuation mark is skipped. -/
theorem skipMark?_keeps {c : Char} {ts rest : List Token} (hts : AllProper ts)
    (h : skipMark? c ts = some rest) : AllProper rest := by
  unfold skipMark? at h
  split at h
  · next t ts =>
    split at h
    · cases h
      exact fun t ht => hts t (List.mem_cons_of_mem _ ht)
    · cases h
  · cases h

/-- Proper tokens stay proper when an operator is skipped. -/
theorem skipOperator?_keeps {symbol : String} {ts rest : List Token} (hts : AllProper ts)
    (h : skipOperator? symbol ts = some rest) : AllProper rest := by
  unfold skipOperator? at h
  split at h
  · next t ts =>
    split at h
    · cases h
      exact fun t ht => hts t (List.mem_cons_of_mem _ ht)
    · cases h
  · cases h

/-- Proper tokens stay proper behind a mark that was expected. -/
theorem expectMark_keeps {c : Char} {ts rest : List Token} (hts : AllProper ts)
    (h : expectMark c ts = .ok rest) : AllProper rest := by
  unfold expectMark at h
  split at h
  · next hskip =>
    cases h
    exact skipMark?_keeps hts hskip
  · cases h

/-- What is read behind a mark that was expected is read from proper tokens. -/
theorem expectMark_of_bind {β : Type} {c : Char} {ts : List Token} (hts : AllProper ts)
    {f : List Token → Except Cause β} {b : β} (h : (expectMark c ts >>= f) = .ok b) :
    ∃ rest, AllProper rest ∧ f rest = .ok b := by
  obtain ⟨rest, hrest, hf⟩ := bind_eq_ok.1 h
  exact ⟨rest, expectMark_keeps hts hrest, hf⟩

/-- A word is a name of a member. -/
theorem isMemberName_of_word? {t : Token} {name : String} (ht : t.lexeme.IsProper) (h : t.word? = some name) :
    IsMemberName name := by
  unfold Token.word? at h
  split at h
  · next hlexeme =>
    cases h
    rw [hlexeme] at ht
    exact .inl ht
  · next hlexeme =>
    cases h
    rw [hlexeme] at ht
    exact isMemberName_of_isWordText (isWordText_of_mem_keywords ht).1
  · cases h

/-- A word other than the keyword `$parent` is spelled otherwise. -/
theorem ne_parent_of_word? {t : Token} {name : String} (ht : t.lexeme.IsProper)
    (hkeyword : t.isKeyword "$parent" = false) (h : t.word? = some name) : name ≠ "$parent" := by
  unfold Token.word? at h
  split at h
  · next hlexeme =>
    cases h
    rw [hlexeme] at ht
    exact IsIdentifier.ne_parent ht
  · next hlexeme =>
    cases h
    rintro rfl
    rw [Token.isKeyword, hlexeme] at hkeyword
    simp at hkeyword
  · cases h

/-- An identifier that stands for a key is the key. -/
theorem isIdentifier_of_identifier? {t : Token} {name key : String} (ht : t.lexeme.IsProper)
    (h : t.identifier? = some name) (hkey : objectKey? t = some key) : IsIdentifier key := by
  unfold Token.identifier? at h
  split at h
  · next hlexeme =>
    rw [objectKey?, hlexeme] at hkey
    cases hkey
    rwa [hlexeme] at ht
  · cases h

/-- A word that was expected is the name of a member. -/
theorem expectWord_keeps : Keeps expectWord IsMemberName := by
  intro ts name rest hts h
  cases ts with
  | nil => cases h
  | cons t ts =>
    obtain ⟨ht, hts⟩ := List.forall_mem_cons.1 hts
    rw [expectWord] at h
    split at h
    · next hword =>
      cases h
      exact ⟨isMemberName_of_word? ht hword, hts⟩
    · cases h

/-- A token that is taken for a binary operator has a precedence. -/
theorem binaryOperator?_isSome {t : Token} {operation : String} {power : Nat}
    (h : binaryOperator? t = some (operation, power)) : (precedence? operation).isSome = true := by
  unfold binaryOperator? at h
  split at h
  · obtain ⟨p, hp, heq⟩ := Option.map_eq_some_iff.1 h
    cases heq
    rw [hp]
    rfl
  · obtain ⟨p, hp, heq⟩ := Option.map_eq_some_iff.1 h
    cases heq
    rw [hp]
    rfl
  · cases h

/-- A token that is taken for a unary operator is one of the five. -/
theorem unaryOperator?_mem {t : Token} {operation : String} (h : unaryOperator? t = some operation) :
    operation ∈ ["!", "-", "+", "typeof", "void"] := by
  unfold unaryOperator? at h
  split at h
  · split at h
    · next hmem =>
      cases h
      exact List.mem_append_left ["typeof", "void"] hmem
    · cases h
  · split at h
    · next hmem =>
      cases h
      exact List.mem_append_right ["!", "-", "+"] hmem
    · cases h
  · cases h

/-- After a chain of `$parent` no further one follows. -/
def NoParent (ts : List Token) : Prop :=
  ∀ dot t rest, ts = dot :: t :: rest → dot.isPunctuation '.' = true → t.isKeyword "$parent" = false

/-- Behind a chain of `$parent` the tokens are proper, and no further `$parent` follows. -/
theorem parentChain_keeps (ts : List Token) (hts : AllProper ts) :
    AllProper (parentChain ts).2 ∧ NoParent (parentChain ts).2 := by
  fun_induction parentChain ts with
  | case1 dot parent ts hchain count rest heq ih =>
    have hrest := ih fun t ht => hts t (List.mem_cons_of_mem _ (List.mem_cons_of_mem _ ht))
    rwa [heq] at hrest
  | case2 dot parent ts hchain =>
    refine ⟨hts, ?_⟩
    rintro _ _ _ ⟨⟩ hdot
    rw [hdot, Bool.true_and] at hchain
    simpa using hchain
  | case3 ts hshort =>
    refine ⟨hts, ?_⟩
    rintro dot t rest rfl
    exact absurd rfl (hshort dot t rest)

/-! ### The levels of the grammar -/

/-- What holds of every item holds of all that are separated by commas; there is at least one. -/
theorem separated_keeps {α : Type} {item : Nat → Read α} {separated : Nat → Read (List α)} {P : α → Prop}
    (hdef : Separates item separated) {n : Nat} (hitem : Keeps (item n) P)
    (hmore : Keeps (separated n) fun as => ∀ a ∈ as, P a) :
    Keeps (separated (n + 1)) fun as => as ≠ [] ∧ ∀ a ∈ as, P a := by
  intro ts as rest hts h
  rw [hdef] at h
  obtain ⟨a, ts₁, ha, hts₁, h⟩ := hitem.of_bind hts h
  dsimp only at h
  split at h
  · cases h
    exact ⟨⟨List.cons_ne_nil _ _, List.forall_mem_singleton.2 ha⟩, hts₁⟩
  · next ts₂ hskip =>
    obtain ⟨bs, ts₃, hbs, hts₃, h⟩ := hmore.of_bind (skipMark?_keeps hts₁ hskip) h
    cases h
    exact ⟨⟨List.cons_ne_nil _ _, List.forall_mem_cons.2 ⟨ha, hbs⟩⟩, hts₃⟩

/-- What holds of all that are separated by commas holds of what is enclosed in marks. -/
theorem enclosed_keeps {α : Type} {close : Char} {separated enclosed : Nat → Read (List α)} {P : α → Prop}
    (hdef : Encloses close separated enclosed) {n : Nat} (hmore : Keeps (separated n) fun as => ∀ a ∈ as, P a) :
    Keeps (enclosed (n + 1)) fun as => ∀ a ∈ as, P a := by
  intro ts as rest hts h
  rw [hdef] at h
  split at h
  · next hskip =>
    cases h
    exact ⟨List.forall_mem_nil _, skipMark?_keeps hts hskip⟩
  · obtain ⟨bs, ts₁, hbs, hts₁, h⟩ := hmore.of_bind hts h
    obtain ⟨ts₂, hts₂, h⟩ := expectMark_of_bind hts₁ h
    cases h
    exact ⟨hbs, hts₂⟩

/-- What every link keeps, a chain of names with arguments keeps. -/
theorem appended_keeps {symbol : String} {build : Expression → String → List Expression → Expression}
    {after : Nat → Expression → Read Expression} (hdef : Appends symbol build after)
    (hbuild : ∀ {e name args}, Readable e → IsMemberName name → (∀ a ∈ args, Readable a) →
      Readable (build e name args))
    {n : Nat} (hargs : Keeps (colonArguments n) (∀ e ∈ ·, Readable e))
    (hmore : ∀ {e}, Readable e → Keeps (after n e) Readable) {e : Expression} (he : Readable e) :
    Keeps (after (n + 1) e) Readable := by
  intro ts e' rest hts h
  rw [hdef] at h
  split at h
  · cases h
    exact ⟨he, hts⟩
  · next ts₁ hskip =>
    obtain ⟨name, ts₂, hname, hts₂, h⟩ := expectWord_keeps.of_bind (skipOperator?_keeps hts hskip) h
    obtain ⟨args, ts₃, hargs', hts₃, h⟩ := hargs.of_bind hts₂ h
    exact hmore (hbuild he hname hargs') hts₃ h

/-- With `n` steps at most, every level of the grammar gives readable expressions. -/
structure SoundAt (n : Nat) : Prop where
  behaviors : Keeps (behaviors n) Readable
  behaviorsAfter : ∀ {e}, Readable e → Keeps (behaviorsAfter n e) Readable
  converters : Keeps (converters n) Readable
  convertersAfter : ∀ {e}, Readable e → Keeps (convertersAfter n e) Readable
  colonArguments : Keeps (colonArguments n) (∀ e ∈ ·, Readable e)
  assignment : Keeps (assignment n) Readable
  conditional : Keeps (conditional n) Readable
  binary : ∀ least, Keeps (binary n least) Readable
  binaryAfter : ∀ least {left}, Readable left → Keeps (binaryAfter n least left) Readable
  unary : Keeps (unary n) Readable
  postfixed : Keeps (postfixed n) Readable
  postfixesAfter : ∀ {e}, Readable e → Keeps (postfixesAfter n e) Readable
  elements : ∀ close, Keeps (elements n close) (∀ e ∈ ·, Readable e)
  commaSeparated : Keeps (commaSeparated n) (∀ e ∈ ·, Readable e)
  scopeName : ∀ {name} ancestor, IsMemberName name → name ≠ "$parent" →
    Keeps (scopeName n name ancestor) Readable
  scopeAccess : ∀ ancestor {ts e rest}, AllProper ts → NoParent ts →
    scopeAccess n ancestor ts = .ok (e, rest) → Readable e ∧ AllProper rest
  primary : Keeps (primary n) Readable
  objectEntries : Keeps (objectEntries n) (∀ entry ∈ ·, Readable entry.2)
  entriesSeparated : Keeps (entriesSeparated n) (∀ entry ∈ ·, Readable entry.2)
  objectEntry : Keeps (objectEntry n) (fun entry => Readable entry.2)

/-- Without steps every level fails, and so is sound. -/
theorem soundAt_zero : SoundAt 0 where
  behaviors := .of_error Grammar.behaviors.eq_1
  behaviorsAfter _ := .of_error (Grammar.behaviorsAfter.eq_1 _)
  converters := .of_error Grammar.converters.eq_1
  convertersAfter _ := .of_error (Grammar.convertersAfter.eq_1 _)
  colonArguments := .of_error Grammar.colonArguments.eq_1
  assignment := .of_error Grammar.assignment.eq_1
  conditional := .of_error Grammar.conditional.eq_1
  binary _ := .of_error (Grammar.binary.eq_1 _)
  binaryAfter _ _ _ := .of_error (Grammar.binaryAfter.eq_1 _ _)
  unary := .of_error Grammar.unary.eq_1
  postfixed := .of_error Grammar.postfixed.eq_1
  postfixesAfter _ := .of_error (Grammar.postfixesAfter.eq_1 _)
  elements _ := .of_error (Grammar.elements.eq_1 _)
  commaSeparated := .of_error Grammar.commaSeparated.eq_1
  scopeName _ _ _ := .of_error (Grammar.scopeName.eq_1 _ _)
  scopeAccess ancestor ts e rest _ _ h := by
    rw [Grammar.scopeAccess] at h
    cases h
  primary := .of_error Grammar.primary.eq_1
  objectEntries := .of_error Grammar.objectEntries.eq_1
  entriesSeparated := .of_error Grammar.entriesSeparated.eq_1
  objectEntry := .of_error Grammar.objectEntry.eq_1

namespace SoundAt

variable {n : Nat} (ih : SoundAt n)
include ih

/-- An expression with behaviors: its converters first, and then the behaviors. -/
theorem succ_behaviors : Keeps (Grammar.behaviors (n + 1)) Readable := by
  intro ts e rest hts h
  rw [Grammar.behaviors] at h
  obtain ⟨e', ts', he, hts', h⟩ := ih.converters.of_bind hts h
  exact ih.behaviorsAfter he hts' h

/-- An expression with converters: an assignment first, and then the converters. -/
theorem succ_converters : Keeps (Grammar.converters (n + 1)) Readable := by
  intro ts e rest hts h
  rw [Grammar.converters] at h
  obtain ⟨e', ts', he, hts', h⟩ := ih.assignment.of_bind hts h
  exact ih.convertersAfter he hts' h

/-- Arguments behind colons, one after the other. -/
theorem succ_colonArguments : Keeps (Grammar.colonArguments (n + 1)) (∀ e ∈ ·, Readable e) := by
  intro ts args rest hts h
  rw [Grammar.colonArguments] at h
  split at h
  · cases h
    exact ⟨List.forall_mem_nil _, hts⟩
  · next ts₁ hskip =>
    obtain ⟨arg, ts₂, harg, hts₂, h⟩ := ih.assignment.of_bind (skipMark?_keeps hts hskip) h
    obtain ⟨others, ts₃, hothers, hts₃, h⟩ := ih.colonArguments.of_bind hts₂ h
    cases h
    exact ⟨List.forall_mem_cons.2 ⟨harg, hothers⟩, hts₃⟩

/-- An assignment, whose target may be assigned to, or what stands alone. -/
theorem succ_assignment : Keeps (Grammar.assignment (n + 1)) Readable := by
  intro ts e rest hts h
  rw [Grammar.assignment] at h
  obtain ⟨target, ts₁, htarget, hts₁, h⟩ := ih.conditional.of_bind hts h
  dsimp only at h
  split at h
  · cases h
    exact ⟨htarget, hts₁⟩
  · next ts₂ hskip =>
    split at h
    · next hassignable =>
      obtain ⟨value, ts₃, hvalue, hts₃, h⟩ := ih.assignment.of_bind (skipOperator?_keeps hts₁ hskip) h
      cases h
      exact ⟨.assign htarget hassignable hvalue, hts₃⟩
    · cases h

/-- A conditional, whose branches are assignments, or what stands alone. -/
theorem succ_conditional : Keeps (Grammar.conditional (n + 1)) Readable := by
  intro ts e rest hts h
  rw [Grammar.conditional] at h
  obtain ⟨condition, ts₁, hcondition, hts₁, h⟩ := (ih.binary 1).of_bind hts h
  dsimp only at h
  split at h
  · cases h
    exact ⟨hcondition, hts₁⟩
  · next ts₂ hskip =>
    obtain ⟨yes, ts₃, hyes, hts₃, h⟩ := ih.assignment.of_bind (skipOperator?_keeps hts₁ hskip) h
    obtain ⟨ts₄, hts₄, h⟩ := expectMark_of_bind hts₃ h
    obtain ⟨no, ts₅, hno, hts₅, h⟩ := ih.assignment.of_bind hts₄ h
    cases h
    exact ⟨.conditional hcondition hyes hno, hts₅⟩

/-- Operands and operators from some precedence on: the first operand, and then the rest. -/
theorem succ_binary (least : Nat) : Keeps (Grammar.binary (n + 1) least) Readable := by
  intro ts e rest hts h
  rw [Grammar.binary] at h
  obtain ⟨left, ts', hleft, hts', h⟩ := ih.unary.of_bind hts h
  exact ih.binaryAfter least hleft hts' h

/-- A further operator has a precedence, and both of its operands are readable. -/
theorem succ_binaryAfter (least : Nat) {left : Expression} (hleft : Readable left) :
    Keeps (Grammar.binaryAfter (n + 1) least left) Readable := by
  intro ts e rest hts h
  rw [Grammar.binaryAfter.eq_def] at h
  dsimp only at h
  split at h
  · cases h
    exact ⟨hleft, hts⟩
  · next t us =>
    split at h
    · cases h
      exact ⟨hleft, hts⟩
    · next operation power hoperator =>
      split at h
      · cases h
        exact ⟨hleft, hts⟩
      · obtain ⟨right, ts₁, hright, hts₁, h⟩ :=
          (ih.binary (power + 1)).of_bind (List.forall_mem_cons.1 hts).2 h
        exact ih.binaryAfter least (.binary (binaryOperator?_isSome hoperator) hleft hright) hts₁ h

/-- A sign before an operand is one of the five. -/
theorem succ_unary : Keeps (Grammar.unary (n + 1)) Readable := by
  intro ts e rest hts h
  rw [Grammar.unary.eq_def] at h
  dsimp only at h
  split at h
  · exact ih.postfixed hts h
  · next t us =>
    split at h
    · exact ih.postfixed hts h
    · next operation hoperator =>
      obtain ⟨operand, ts₁, hoperand, hts₁, h⟩ := ih.unary.of_bind (List.forall_mem_cons.1 hts).2 h
      cases h
      exact ⟨.unary (unaryOperator?_mem hoperator) hoperand, hts₁⟩

/-- A primary expression first, and then accesses and calls. -/
theorem succ_postfixed : Keeps (Grammar.postfixed (n + 1)) Readable := by
  intro ts e rest hts h
  rw [Grammar.postfixed] at h
  obtain ⟨e', ts', he, hts', h⟩ := ih.primary.of_bind hts h
  exact ih.postfixesAfter he hts' h

/-- Accesses and calls: of a member by its name, by a key, or with arguments. -/
theorem succ_postfixesAfter {e : Expression} (he : Readable e) :
    Keeps (Grammar.postfixesAfter (n + 1) e) Readable := by
  intro ts e' rest hts h
  rw [Grammar.postfixesAfter] at h
  split at h
  · next ts₁ hpoint =>
    obtain ⟨name, ts₂, hname, hts₂, h⟩ := expectWord_keeps.of_bind (skipMark?_keeps hts hpoint) h
    dsimp only at h
    split at h
    · next ts₃ hcall =>
      obtain ⟨args, ts₄, hargs, hts₄, h⟩ := (ih.elements ')').of_bind (skipMark?_keeps hts₂ hcall) h
      exact ih.postfixesAfter (.callMember he hname hargs) hts₄ h
    · exact ih.postfixesAfter (.accessMember he hname) hts₂ h
  · next ts₁ hbracket _ =>
    obtain ⟨key, ts₂, hkey, hts₂, h⟩ := ih.behaviors.of_bind (skipMark?_keeps hts hbracket) h
    obtain ⟨ts₃, hts₃, h⟩ := expectMark_of_bind hts₂ h
    exact ih.postfixesAfter (.accessKeyed he hkey) hts₃ h
  · next ts₁ hcall _ _ =>
    obtain ⟨args, ts₂, hargs, hts₂, h⟩ := (ih.elements ')').of_bind (skipMark?_keeps hts hcall) h
    exact ih.postfixesAfter (.callFunction he hargs) hts₂ h
  · cases h
    exact ⟨he, hts⟩

/-- A name of a scope, or a call of it; no such name is `$parent`. -/
theorem succ_scopeName {name : String} (ancestor : Nat) (hname : IsMemberName name)
    (hparent : name ≠ "$parent") : Keeps (Grammar.scopeName (n + 1) name ancestor) Readable := by
  intro ts e rest hts h
  rw [Grammar.scopeName] at h
  split at h
  · cases h
    exact ⟨.accessScope ancestor hname hparent, hts⟩
  · next ts₁ hcall =>
    obtain ⟨args, ts₂, hargs, hts₂, h⟩ := (ih.elements ')').of_bind (skipMark?_keeps hts hcall) h
    cases h
    exact ⟨.callScope ancestor hname hparent hargs, hts₂⟩

/-- What follows `$this` or a chain of `$parent`, where no further `$parent` follows. -/
theorem succ_scopeAccess (ancestor : Nat) {ts : List Token} {e : Expression} {rest : List Token}
    (hts : AllProper ts) (hnone : NoParent ts) (h : Grammar.scopeAccess (n + 1) ancestor ts = .ok (e, rest)) :
    Readable e ∧ AllProper rest := by
  rw [Grammar.scopeAccess.eq_def] at h
  dsimp only at h
  split at h
  · next dot t us =>
    obtain ⟨-, hrest⟩ := List.forall_mem_cons.1 hts
    obtain ⟨ht, hus⟩ := List.forall_mem_cons.1 hrest
    split at h
    · next name hdot hword =>
      have hkeyword := hnone dot t us rfl hdot
      exact ih.scopeName ancestor (isMemberName_of_word? ht hword) (ne_parent_of_word? ht hkeyword hword) hus h
    · cases h
      exact ⟨.accessThis ancestor, hts⟩
  · cases h
    exact ⟨.accessThis ancestor, hts⟩

/-- A primary expression, by its first lexeme. -/
theorem succ_primary : Keeps (Grammar.primary (n + 1)) Readable := by
  intro ts e rest hts h
  cases ts with
  | nil =>
    rw [Grammar.primary] at h
    cases h
  | cons t us =>
    obtain ⟨ht, hus⟩ := List.forall_mem_cons.1 hts
    rw [Grammar.primary] at h
    split at h
    · cases h
    · next numeral x hlexeme =>
      cases h
      rw [hlexeme] at ht
      exact ⟨.literal fun y hy => by cases hy; exact ht, hus⟩
    · cases h
      exact ⟨.string _, hus⟩
    · next name hlexeme =>
      rw [hlexeme] at ht
      exact ih.scopeName 0 (.inl ht) (IsIdentifier.ne_parent ht) hus h
    · cases h
    · next word hlexeme =>
      split at h
      · next value hvalue =>
        cases h
        refine ⟨.literal fun x hx => ?_, hus⟩
        subst hx
        unfold keywordLiteral? at hvalue
        split at hvalue <;> cases hvalue
      · have hchain := parentChain_keeps us hus
        split at h
        · exact ih.scopeAccess _ hchain.1 hchain.2 h
        · split at h
          · exact ih.scopeAccess _ hchain.1 hchain.2 h
          · cases h
    · next c hlexeme =>
      split at h
      · obtain ⟨e', ts₁, he, hts₁, h⟩ := ih.behaviors.of_bind hus h
        obtain ⟨ts₂, hts₂, h⟩ := expectMark_of_bind hts₁ h
        cases h
        exact ⟨he, hts₂⟩
      · split at h
        · obtain ⟨es, ts₁, hes, hts₁, h⟩ := (ih.elements ']').of_bind hus h
          cases h
          exact ⟨.arrayLiteral hes, hts₁⟩
        · split at h
          · obtain ⟨entries, ts₁, hentries, hts₁, h⟩ := ih.objectEntries.of_bind hus h
            cases h
            exact ⟨.objectLiteral (by simp) (List.forall_mem_map.2 hentries), hts₁⟩
          · cases h

/-- A key with its value, or an identifier that is both. -/
theorem succ_objectEntry : Keeps (Grammar.objectEntry (n + 1)) (fun entry => Readable entry.2) := by
  intro ts entry rest hts h
  cases ts with
  | nil =>
    rw [Grammar.objectEntry] at h
    cases h
  | cons t us =>
    obtain ⟨ht, hus⟩ := List.forall_mem_cons.1 hts
    rw [Grammar.objectEntry] at h
    split at h
    · cases h
    · next key hkey =>
      split at h
      · next ts₁ hskip =>
        obtain ⟨value, ts₂, hvalue, hts₂, h⟩ := ih.assignment.of_bind (skipMark?_keeps hus hskip) h
        cases h
        exact ⟨hvalue, hts₂⟩
      · split at h
        · next name hidentifier =>
          cases h
          have hkey' := isIdentifier_of_identifier? ht hidentifier hkey
          exact ⟨.accessScope 0 (.inl hkey') hkey'.ne_parent, hus⟩
        · cases h

/-- One more step keeps every level sound. -/
theorem succ : SoundAt (n + 1) where
  behaviors := ih.succ_behaviors
  behaviorsAfter := appended_keeps appends_behaviorsAfter .bindingBehavior ih.colonArguments ih.behaviorsAfter
  converters := ih.succ_converters
  convertersAfter := appended_keeps appends_convertersAfter .valueConverter ih.colonArguments ih.convertersAfter
  colonArguments := ih.succ_colonArguments
  assignment := ih.succ_assignment
  conditional := ih.succ_conditional
  binary := ih.succ_binary
  binaryAfter := ih.succ_binaryAfter
  unary := ih.succ_unary
  postfixed := ih.succ_postfixed
  postfixesAfter := ih.succ_postfixesAfter
  elements close := enclosed_keeps (encloses_elements close) ih.commaSeparated
  commaSeparated := (separated_keeps separates_commaSeparated ih.assignment ih.commaSeparated).mono fun _ h => h.2
  scopeName := ih.succ_scopeName
  scopeAccess := ih.succ_scopeAccess
  primary := ih.succ_primary
  objectEntries := enclosed_keeps encloses_objectEntries ih.entriesSeparated
  entriesSeparated := (separated_keeps separates_entriesSeparated ih.objectEntry ih.entriesSeparated).mono fun _ h => h.2
  objectEntry := ih.succ_objectEntry

end SoundAt

/-- Every level of the grammar is sound, whatever bounds its steps. -/
theorem soundAt (n : Nat) : SoundAt n := by
  induction n with
  | zero => exact soundAt_zero
  | succ n ih => exact ih.succ

end Grammar

/-! ### Whole texts -/

open Grammar in
/-- A text denotes a readable expression. -/
theorem readable_parse {input : String} {e : Expression} (h : parse input = .ok e) : Readable e := by
  have hproper := isProper_tokens input
  unfold parse at h
  split at h
  · cases h
    exact .string ""
  · next t ts htokens =>
    rw [htokens] at hproper
    obtain ⟨⟨e', rest⟩, he, h⟩ := bind_eq_ok.1 h
    obtain ⟨_, _, h⟩ := bind_eq_ok.1 h
    cases h
    exact ((soundAt _).behaviors hproper he).1

end ViewTemplate.Expression
