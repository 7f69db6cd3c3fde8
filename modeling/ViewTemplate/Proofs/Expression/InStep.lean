import Mathlib.Data.List.Forall2
import ViewTemplate.Proofs.Expression.Iterations

/-!
# Reading by lexemes

The grammar looks at the lexemes of the tokens and never at their places, and every lexeme that it takes is one that
it knows.  Both are said at once of two lists of tokens with the same lexemes: reading goes in step on them.

* `Alike` — two lists of tokens have the same lexemes.
* `IsBraced` — a class of words that holds what is written without braces and, with a word, the word in braces.
* `InStep` — two readings both fail, or give the same and leave alike tokens behind, having taken a word of a class.
* `inStepAt` — every level of the grammar goes in step.
* `parse_alike`, `parseIteration_alike` — texts with the same lexemes are read alike; `lexemes_of_parse` — the lexemes
  of an expression are a word of every class with braces.
-/

namespace ViewTemplate.Expression

/-- Whether a lexeme is neither a fault nor a brace. -/
def Lexeme.isSimple : Lexeme → Bool
  | .punctuation c => c ≠ '\x7b' && c ≠ '\x7d'
  | .fault _ => false
  | _ => true

namespace Grammar

/-! ### Tokens with the same lexemes -/

/-- The tokens have the same lexemes, whatever their places. -/
abbrev Alike (ts ts' : List Token) : Prop :=
  List.Forall₂ (fun t t' => t.lexeme = t'.lexeme) ts ts'

/-- Tokens are alike where they have the same lexemes. -/
theorem alike_iff_map {ts ts' : List Token} : Alike ts ts' ↔ ts.map Token.lexeme = ts'.map Token.lexeme := by
  rw [← List.forall₂_eq_eq_eq, List.forall₂_map_left_iff, List.forall₂_map_right_iff]

/-- A class of words that holds every simple lexeme, and the braces around each of its words. -/
structure IsBraced (P : List Lexeme → Prop) : Prop where
  nil : P []
  append : ∀ {v w}, P v → P w → P (v ++ w)
  simple : ∀ {l : Lexeme}, l.isSimple = true → P [l]
  braces : ∀ {w}, P w → P (.punctuation '\x7b' :: (w ++ [.punctuation '\x7d']))

/-- A word of the class with the brace that closes it. -/
def Closing (P : List Lexeme → Prop) (w : List Lexeme) : Prop :=
  ∃ v, P v ∧ w = v ++ [.punctuation '\x7d']

/-- Two readings of tokens that start with `ts` both fail, or give the same and leave alike tokens behind; what they
take is a word of the class. -/
inductive InStep {α : Type} (P : List Lexeme → Prop) (ts : List Token) :
    Except Cause (α × List Token) → Except Cause (α × List Token) → Prop where
  | ok (a : α) (used : List Token) {rest rest' : List Token} (hts : ts = used ++ rest)
    (hused : P (used.map Token.lexeme)) (hrest : Alike rest rest') : InStep P ts (.ok (a, rest)) (.ok (a, rest'))
  | error (cause cause' : Cause) : InStep P ts (.error cause) (.error cause')

namespace InStep

variable {α β : Type} {P Q R : List Lexeme → Prop} {ts : List Token}

/-- Nothing more is taken. -/
theorem done (hP : IsBraced P) (a : α) {ts' : List Token} (h : Alike ts ts') :
    InStep P ts (.ok (a, ts)) (.ok (a, ts')) :=
  .ok a [] rfl hP.nil h

/-- Tokens are taken first. -/
theorem after (used : List Token) {rest : List Token} {r r' : Except Cause (α × List Token)} (h : InStep Q rest r r')
    (hused : ∀ {w}, Q w → R (used.map Token.lexeme ++ w)) : InStep R (used ++ rest) r r' := by
  cases h with
  | ok a used' hts hw hrest =>
    subst hts
    refine .ok a (used ++ used') (List.append_assoc ..).symm ?_ hrest
    rw [List.map_append]
    exact hused hw
  | error cause cause' => exact .error cause cause'

/-- A simple token is taken first. -/
theorem take (hP : IsBraced P) {t : Token} (ht : t.lexeme.isSimple = true)
    {r r' : Except Cause (α × List Token)} (h : InStep P ts r r') : InStep P (t :: ts) r r' :=
  h.after [t] (hP.append (hP.simple ht))

/-- One reading goes on from where another ends. -/
theorem bind_of {r r' : Except Cause (α × List Token)} {k k' : α × List Token → Except Cause (β × List Token)}
    (h : InStep P ts r r') (hPQ : ∀ {v w}, P v → Q w → R (v ++ w))
    (hk : ∀ a rest rest', Alike rest rest' → InStep Q rest (k (a, rest)) (k' (a, rest'))) :
    InStep R ts (r >>= k) (r' >>= k') := by
  cases h with
  | ok a used hts hused hrest =>
    subst hts
    exact (hk a _ _ hrest).after used (hPQ hused)
  | error cause cause' => exact .error cause cause'

/-- Readings go in step one after the other, if the second does from wherever the first has stopped. -/
theorem bind (hP : IsBraced P) {r r' : Except Cause (α × List Token)}
    {k k' : α × List Token → Except Cause (β × List Token)} (h : InStep P ts r r')
    (hk : ∀ a rest rest', Alike rest rest' → InStep P rest (k (a, rest)) (k' (a, rest'))) :
    InStep P ts (r >>= k) (r' >>= k') :=
  h.bind_of hP.append hk

/-- A brace is taken first, and closed by what is taken after it. -/
theorem braces (hP : IsBraced P) {t : Token} (ht : t.lexeme = .punctuation '\x7b')
    {r r' : Except Cause (α × List Token)} (h : InStep (Closing P) ts r r') : InStep P (t :: ts) r r' := by
  refine h.after [t] ?_
  rintro w ⟨v, hv, rfl⟩
  rw [List.map_singleton, ht]
  exact hP.braces hv

/-- The closing brace is taken last. -/
theorem close {r r' : Except Cause (α × List Token)} {k k' : α × List Token → Except Cause (β × List Token)}
    (h : InStep P ts r r') (hk : ∀ a rest rest', Alike rest rest' →
      InStep (· = [.punctuation '\x7d']) rest (k (a, rest)) (k' (a, rest'))) :
    InStep (Closing P) ts (r >>= k) (r' >>= k') := by
  refine h.bind_of ?_ hk
  rintro v w hv rfl
  exact ⟨v, hv, rfl⟩

end InStep

/-! ### Single tokens -/

section single

variable {α : Type} {P Q R : List Lexeme → Prop} {t t' : Token} {ts ts' : List Token}

/-- The rule `skip` takes the next token, if its lexeme is `l`. -/
structure Skips (l : Lexeme) (skip : List Token → Option (List Token)) : Prop where
  nil : skip [] = none
  cons : ∀ t us, skip (t :: us) = if t.lexeme = l then some us else none

/-- A lexeme that is skipped in front of tokens is skipped in front of alike tokens as well. -/
theorem Skips.alike {l : Lexeme} {skip : List Token → Option (List Token)} (hskip : Skips l skip) (h : Alike ts ts') :
    (skip ts = none ∧ skip ts' = none) ∨
    ∃ t us us', ts = t :: us ∧ t.lexeme = l ∧ Alike us us' ∧ skip ts = some us ∧ skip ts' = some us' := by
  cases h with
  | nil => exact .inl ⟨hskip.nil, hskip.nil⟩
  | @cons t t' us us' ht hus =>
    rw [hskip.cons, hskip.cons, ← ht]
    by_cases hl : t.lexeme = l
    · rw [if_pos hl, if_pos hl]
      exact .inr ⟨t, us, us', rfl, hl, hus, rfl, rfl⟩
    · rw [if_neg hl, if_neg hl]
      exact .inl ⟨rfl, rfl⟩

/-- To skip a punctuation mark is to skip its lexeme. -/
theorem skips_skipMark? (c : Char) : Skips (.punctuation c) (skipMark? c) where
  nil := rfl
  cons t us := by simp [skipMark?, Token.isPunctuation]

/-- To skip an operator is to skip its lexeme. -/
theorem skips_skipOperator? (symbol : String) : Skips (.operator symbol) (skipOperator? symbol) where
  nil := rfl
  cons t us := by simp [skipOperator?, Token.isOperator]

/-- Whether a token is a certain punctuation mark depends on its lexeme only. -/
theorem isPunctuation_congr (h : t.lexeme = t'.lexeme) (c : Char) : t'.isPunctuation c = t.isPunctuation c := by
  rw [Token.isPunctuation, Token.isPunctuation, h]

/-- Whether a token is a certain keyword depends on its lexeme only. -/
theorem isKeyword_congr (h : t.lexeme = t'.lexeme) (word : String) : t'.isKeyword word = t.isKeyword word := by
  rw [Token.isKeyword, Token.isKeyword, h]

/-- The word that a token is depends on its lexeme only. -/
theorem word?_congr (h : t.lexeme = t'.lexeme) : t'.word? = t.word? := by
  rw [Token.word?, Token.word?, h]

/-- The identifier that a token is depends on its lexeme only. -/
theorem identifier?_congr (h : t.lexeme = t'.lexeme) : t'.identifier? = t.identifier? := by
  rw [Token.identifier?, Token.identifier?, h]

/-- Two failures go in step, also at different places and with different messages. -/
theorem fail_inStep (issue issue' : Issue) (us us' : List Token) :
    InStep (α := α) P ts (fail issue us) (fail issue' us') :=
  .error _ _

/-- The mark is taken, and reading goes on after it. -/
theorem expectMark_bind_of {c : Char} (hc : ∀ {w}, Q w → R (.punctuation c :: w)) (h : Alike ts ts')
    {k k' : List Token → Except Cause (α × List Token)}
    (hk : ∀ us us', Alike us us' → InStep Q us (k us) (k' us')) :
    InStep R ts (expectMark c ts >>= k) (expectMark c ts' >>= k') := by
  rw [expectMark, expectMark]
  rcases (skips_skipMark? c).alike h with ⟨hskip, hskip'⟩ | ⟨t, us, us', rfl, ht, hus, hskip, hskip'⟩
  · rw [hskip, hskip']
    exact .error _ _
  · rw [hskip, hskip']
    refine (hk us us' hus).after [t] ?_
    rw [List.map_singleton, ht]
    exact hc

/-- A punctuation mark other than a brace is expected in step. -/
theorem expectMark_bind (hP : IsBraced P) {c : Char} (hc : (Lexeme.punctuation c).isSimple = true)
    (h : Alike ts ts') {k k' : List Token → Except Cause (α × List Token)}
    (hk : ∀ us us', Alike us us' → InStep P us (k us) (k' us')) :
    InStep P ts (expectMark c ts >>= k) (expectMark c ts' >>= k') :=
  expectMark_bind_of (hP.append (hP.simple hc)) h hk

/-- A closing brace is expected in step; it is what closes the object before it. -/
theorem expectMark_close (a : α) (h : Alike ts ts') : InStep (· = [.punctuation '\x7d']) ts
    (expectMark '\x7d' ts >>= fun rest => .ok (a, rest)) (expectMark '\x7d' ts' >>= fun rest => .ok (a, rest)) := by
  refine expectMark_bind_of (Q := (· = [])) ?_ h fun us us' hus => ?_
  · rintro w rfl
    rfl
  · exact .ok a [] rfl rfl hus

/-- A word is neither a brace nor a fault. -/
theorem isSimple_of_word? {name : String} (h : t.word? = some name) : t.lexeme.isSimple = true := by
  unfold Token.word? at h
  split at h
  · next hlexeme => rw [hlexeme]; rfl
  · next hlexeme => rw [hlexeme]; rfl
  · cases h

/-- An identifier is neither a brace nor a fault. -/
theorem isSimple_of_identifier? {name : String} (h : t.identifier? = some name) : t.lexeme.isSimple = true := by
  unfold Token.identifier? at h
  split at h
  · next hlexeme => rw [hlexeme]; rfl
  · cases h

/-- A word is expected in step. -/
theorem expectWord_inStep (hP : IsBraced P) (h : Alike ts ts') : InStep P ts (expectWord ts) (expectWord ts') := by
  cases h with
  | nil => exact fail_inStep _ _ _ _
  | @cons t t' us us' ht hus =>
    rw [expectWord, expectWord, word?_congr ht]
    cases hword : t.word? with
    | none => exact fail_inStep _ _ _ _
    | some name => exact (InStep.done hP name hus).take hP (isSimple_of_word? hword)

/-- A binary operator is neither a brace nor a fault. -/
theorem isSimple_of_binaryOperator? {found : String × Nat} (h : binaryOperator? t = some found) :
    t.lexeme.isSimple = true := by
  unfold binaryOperator? at h
  split at h
  · next hlexeme => rw [hlexeme]; rfl
  · next hlexeme => rw [hlexeme]; rfl
  · cases h

/-- A unary operator is neither a brace nor a fault. -/
theorem isSimple_of_unaryOperator? {operation : String} (h : unaryOperator? t = some operation) :
    t.lexeme.isSimple = true := by
  unfold unaryOperator? at h
  split at h
  · next hlexeme => rw [hlexeme]; rfl
  · next hlexeme => rw [hlexeme]; rfl
  · cases h

/-- The key of an object is neither a brace nor a fault. -/
theorem isSimple_of_objectKey? {key : String} (h : objectKey? t = some key) : t.lexeme.isSimple = true := by
  unfold objectKey? at h
  split at h
  · next hlexeme => rw [hlexeme]; rfl
  · next hlexeme => rw [hlexeme]; rfl
  · next hlexeme => rw [hlexeme]; rfl
  · next hlexeme => rw [hlexeme]; rfl
  · cases h

/-- A chain of `$parent` is taken alike, and reading goes on after it. -/
theorem parentChain_inStep (hP : IsBraced P) {k : Nat → Read α} (h : Alike ts ts')
    (hk : ∀ count us us', Alike us us' → InStep P us (k count us) (k count us')) :
    InStep P ts (k (parentChain ts).1 (parentChain ts).2) (k (parentChain ts').1 (parentChain ts').2) := by
  fun_induction parentChain ts generalizing ts' k with
  | case1 dot parent ts hchain count rest heq ih =>
    rcases h with _ | @⟨_, dot', _, _, hdot, _ | @⟨_, parent', _, us', hparent, h⟩⟩
    obtain ⟨hpoint, hkeyword⟩ := Bool.and_eq_true_iff.1 hchain
    have hmore := ih (k := fun count => k (count + 1)) h fun count => hk (count + 1)
    rw [heq] at hmore
    rw [parentChain, isPunctuation_congr hdot, isKeyword_congr hparent, if_pos hchain]
    refine (hmore.take hP ?_).take hP ?_
    · rw [of_decide_eq_true hkeyword]
      rfl
    · rw [of_decide_eq_true hpoint]
      rfl
  | case2 dot parent ts hchain =>
    rcases h with _ | @⟨_, dot', _, _, hdot, _ | @⟨_, parent', _, us', hparent, h⟩⟩
    rw [parentChain, isPunctuation_congr hdot, isKeyword_congr hparent, if_neg hchain]
    exact hk 0 _ _ (.cons hdot (.cons hparent h))
  | case3 ts hshort =>
    rcases h with _ | @⟨dot, dot', _, _, hdot, _ | @⟨parent, parent', us, us', hparent, h⟩⟩
    · exact hk 0 _ _ .nil
    · exact hk 0 _ _ (.cons hdot .nil)
    · exact absurd rfl (hshort dot parent us)

end single

/-! ### The levels of the grammar -/

/-- Readings of alike tokens go in step. -/
def GoesInStep {α : Type} (P : List Lexeme → Prop) (read : Read α) : Prop :=
  ∀ ⦃ts ts'⦄, Alike ts ts' → InStep P ts (read ts) (read ts')

/-- A rule that always fails goes in step. -/
theorem GoesInStep.of_error {α : Type} {P : List Lexeme → Prop} {read : Read α} {cause : Cause}
    (h : ∀ ts, read ts = .error cause) : GoesInStep P read := by
  intro ts ts' _
  rw [h ts, h ts']
  exact .error cause cause

/-- What is read with commas between goes in step, if each item does. -/
theorem separated_inStep {P : List Lexeme → Prop} (hP : IsBraced P) {α : Type} {item : Nat → Read α}
    {separated : Nat → Read (List α)} (hdef : Separates item separated) {n : Nat} (hitem : GoesInStep P (item n))
    (hmore : GoesInStep P (separated n)) : GoesInStep P (separated (n + 1)) := by
  intro ts ts' h
  rw [hdef, hdef]
  refine (hitem h).bind hP fun a us us' hus => ?_
  dsimp only
  rcases (skips_skipMark? ',').alike hus with ⟨hskip, hskip'⟩ | ⟨t, vs, vs', rfl, ht, hvs, hskip, hskip'⟩
  · rw [hskip, hskip']
    exact .done hP [a] hus
  · rw [hskip, hskip']
    refine .take hP (by rw [ht]; rfl) ((hmore hvs).bind hP fun as ws ws' hws => ?_)
    exact .done hP (a :: as) hws

/-- Names with arguments behind an operator go in step, if their arguments do and what follows them. -/
theorem appended_inStep {P : List Lexeme → Prop} (hP : IsBraced P) {symbol : String}
    {build : Expression → String → List Expression → Expression} {after : Nat → Expression → Read Expression}
    (hdef : Appends symbol build after) {n : Nat} (hargs : GoesInStep P (colonArguments n))
    (hmore : ∀ e, GoesInStep P (after n e)) (e : Expression) : GoesInStep P (after (n + 1) e) := by
  intro ts ts' h
  rw [hdef, hdef]
  rcases (skips_skipOperator? symbol).alike h with ⟨hskip, hskip'⟩ | ⟨t, us, us', rfl, ht, hus, hskip, hskip'⟩
  · rw [hskip, hskip']
    exact .done hP e h
  · rw [hskip, hskip']
    refine .take hP (by rw [ht]; rfl) ((expectWord_inStep hP hus).bind hP fun name vs vs' hvs => ?_)
    refine (hargs hvs).bind hP fun args ws ws' hws => ?_
    exact hmore _ hws

/-- With `n` steps at most, every level of the grammar goes in step. -/
structure InStepAt (P : List Lexeme → Prop) (n : Nat) : Prop where
  behaviors : GoesInStep P (behaviors n)
  behaviorsAfter : ∀ e, GoesInStep P (behaviorsAfter n e)
  converters : GoesInStep P (converters n)
  convertersAfter : ∀ e, GoesInStep P (convertersAfter n e)
  colonArguments : GoesInStep P (colonArguments n)
  assignment : GoesInStep P (assignment n)
  conditional : GoesInStep P (conditional n)
  binary : ∀ least, GoesInStep P (binary n least)
  binaryAfter : ∀ least left, GoesInStep P (binaryAfter n least left)
  unary : GoesInStep P (unary n)
  postfixed : GoesInStep P (postfixed n)
  postfixesAfter : ∀ e, GoesInStep P (postfixesAfter n e)
  elements : ∀ close, (Lexeme.punctuation close).isSimple = true → GoesInStep P (elements n close)
  commaSeparated : GoesInStep P (commaSeparated n)
  scopeName : ∀ name ancestor, GoesInStep P (scopeName n name ancestor)
  scopeAccess : ∀ ancestor, GoesInStep P (scopeAccess n ancestor)
  primary : GoesInStep P (primary n)
  objectEntries : GoesInStep (Closing P) (objectEntries n)
  entriesSeparated : GoesInStep P (entriesSeparated n)
  objectEntry : GoesInStep P (objectEntry n)

/-- Without steps every level fails, and so goes in step. -/
theorem inStepAt_zero (P : List Lexeme → Prop) : InStepAt P 0 where
  behaviors := .of_error Grammar.behaviors.eq_1
  behaviorsAfter _ := .of_error (Grammar.behaviorsAfter.eq_1 _)
  converters := .of_error Grammar.converters.eq_1
  convertersAfter _ := .of_error (Grammar.convertersAfter.eq_1 _)
  colonArguments := .of_error Grammar.colonArguments.eq_1
  assignment := .of_error Grammar.assignment.eq_1
  conditional := .of_error Grammar.conditional.eq_1
  binary _ := .of_error (Grammar.binary.eq_1 _)
  binaryAfter _ _ := .of_error (Grammar.binaryAfter.eq_1 _ _)
  unary := .of_error Grammar.unary.eq_1
  postfixed := .of_error Grammar.postfixed.eq_1
  postfixesAfter _ := .of_error (Grammar.postfixesAfter.eq_1 _)
  elements _ _ := .of_error (Grammar.elements.eq_1 _)
  commaSeparated := .of_error Grammar.commaSeparated.eq_1
  scopeName _ _ := .of_error (Grammar.scopeName.eq_1 _ _)
  scopeAccess _ := .of_error (Grammar.scopeAccess.eq_1 _)
  primary := .of_error Grammar.primary.eq_1
  objectEntries := .of_error Grammar.objectEntries.eq_1
  entriesSeparated := .of_error Grammar.entriesSeparated.eq_1
  objectEntry := .of_error Grammar.objectEntry.eq_1

namespace InStepAt

variable {P : List Lexeme → Prop} {n : Nat} (hP : IsBraced P) (ih : InStepAt P n)
include hP ih

/-- An expression with behaviors: its converters first, and then the behaviors. -/
theorem succ_behaviors : GoesInStep P (Grammar.behaviors (n + 1)) := by
  intro ts ts' h
  rw [Grammar.behaviors, Grammar.behaviors]
  refine (ih.converters h).bind hP fun e us us' hus => ?_
  exact ih.behaviorsAfter e hus

/-- Further behaviors of an expression. -/
theorem succ_behaviorsAfter (e : Expression) : GoesInStep P (Grammar.behaviorsAfter (n + 1) e) :=
  appended_inStep hP appends_behaviorsAfter ih.colonArguments ih.behaviorsAfter e

/-- An expression with converters: an assignment first, and then the converters. -/
theorem succ_converters : GoesInStep P (Grammar.converters (n + 1)) := by
  intro ts ts' h
  rw [Grammar.converters, Grammar.converters]
  refine (ih.assignment h).bind hP fun e us us' hus => ?_
  exact ih.convertersAfter e hus

/-- Further converters of an expression. -/
theorem succ_convertersAfter (e : Expression) : GoesInStep P (Grammar.convertersAfter (n + 1) e) :=
  appended_inStep hP appends_convertersAfter ih.colonArguments ih.convertersAfter e

/-- Arguments behind colons, one after the other. -/
theorem succ_colonArguments : GoesInStep P (Grammar.colonArguments (n + 1)) := by
  intro ts ts' h
  rw [Grammar.colonArguments, Grammar.colonArguments]
  rcases (skips_skipMark? ':').alike h with ⟨hskip, hskip'⟩ | ⟨t, us, us', rfl, ht, hus, hskip, hskip'⟩
  · rw [hskip, hskip']
    exact .done hP [] h
  · rw [hskip, hskip']
    refine .take hP (by rw [ht]; rfl) ((ih.assignment hus).bind hP fun arg vs vs' hvs => ?_)
    refine (ih.colonArguments hvs).bind hP fun args ws ws' hws => ?_
    exact .done hP (arg :: args) hws

/-- An assignment is refused in step where its target cannot be assigned to. -/
theorem succ_assignment : GoesInStep P (Grammar.assignment (n + 1)) := by
  intro ts ts' h
  rw [Grammar.assignment, Grammar.assignment]
  refine (ih.conditional h).bind hP fun target us us' hus => ?_
  dsimp only
  rcases (skips_skipOperator? "=").alike hus with ⟨hskip, hskip'⟩ | ⟨t, vs, vs', rfl, ht, hvs, hskip, hskip'⟩
  · rw [hskip, hskip']
    exact .done hP target hus
  · rw [hskip, hskip']
    by_cases hassignable : target.isAssignable = true
    · simp only [if_pos hassignable]
      refine .take hP (by rw [ht]; rfl) ((ih.assignment hvs).bind hP fun value ws ws' hws => ?_)
      exact .done hP _ hws
    · simp only [if_neg hassignable]
      exact fail_inStep _ _ _ _

/-- A conditional with its mark and its colon. -/
theorem succ_conditional : GoesInStep P (Grammar.conditional (n + 1)) := by
  intro ts ts' h
  rw [Grammar.conditional, Grammar.conditional]
  refine (ih.binary 1 h).bind hP fun condition us us' hus => ?_
  dsimp only
  rcases (skips_skipOperator? "?").alike hus with ⟨hskip, hskip'⟩ | ⟨t, vs, vs', rfl, ht, hvs, hskip, hskip'⟩
  · rw [hskip, hskip']
    exact .done hP condition hus
  · rw [hskip, hskip']
    refine .take hP (by rw [ht]; rfl) ((ih.assignment hvs).bind hP fun yes ws ws' hws => ?_)
    refine expectMark_bind hP rfl hws fun xs xs' hxs => ?_
    refine (ih.assignment hxs).bind hP fun no ys ys' hys => ?_
    exact .done hP _ hys

/-- Operands and operators from some precedence on: the first operand, and then the rest. -/
theorem succ_binary (least : Nat) : GoesInStep P (Grammar.binary (n + 1) least) := by
  intro ts ts' h
  rw [Grammar.binary, Grammar.binary]
  refine (ih.unary h).bind hP fun left us us' hus => ?_
  exact ih.binaryAfter least left hus

/-- The next operator is taken or left in step, since its precedence depends on its lexeme. -/
theorem succ_binaryAfter (least : Nat) (left : Expression) :
    GoesInStep P (Grammar.binaryAfter (n + 1) least left) := by
  intro ts ts' h
  cases h with
  | nil =>
    rw [Grammar.binaryAfter]
    exact .done hP left .nil
  | @cons t t' us us' ht hus =>
    have hsame : binaryOperator? t' = binaryOperator? t := by rw [binaryOperator?, ← ht, binaryOperator?]
    rw [Grammar.binaryAfter, Grammar.binaryAfter, hsame]
    cases hoperator : binaryOperator? t with
    | none => exact .done hP left (.cons ht hus)
    | some found =>
      dsimp only
      by_cases hpower : found.2 < least
      · simp only [if_pos hpower]
        exact .done hP left (.cons ht hus)
      · simp only [if_neg hpower]
        refine .take hP (isSimple_of_binaryOperator? hoperator) ?_
        refine (ih.binary _ hus).bind hP fun right vs vs' hvs => ?_
        exact ih.binaryAfter least _ hvs

/-- Signs before an operand. -/
theorem succ_unary : GoesInStep P (Grammar.unary (n + 1)) := by
  intro ts ts' h
  cases h with
  | nil =>
    rw [Grammar.unary]
    exact ih.postfixed .nil
  | @cons t t' us us' ht hus =>
    have hsame : unaryOperator? t' = unaryOperator? t := by rw [unaryOperator?, ← ht, unaryOperator?]
    rw [Grammar.unary, Grammar.unary, hsame]
    cases hoperator : unaryOperator? t with
    | none => exact ih.postfixed (.cons ht hus)
    | some operation =>
      refine .take hP (isSimple_of_unaryOperator? hoperator) ?_
      refine (ih.unary hus).bind hP fun operand vs vs' hvs => ?_
      exact .done hP _ hvs

/-- A primary expression first, and then accesses and calls. -/
theorem succ_postfixed : GoesInStep P (Grammar.postfixed (n + 1)) := by
  intro ts ts' h
  rw [Grammar.postfixed, Grammar.postfixed]
  refine (ih.primary h).bind hP fun e us us' hus => ?_
  exact ih.postfixesAfter e hus

/-- A list up to its closing mark. -/
theorem succ_elements (close : Char) (hclose : (Lexeme.punctuation close).isSimple = true) :
    GoesInStep P (Grammar.elements (n + 1) close) := by
  intro ts ts' h
  rw [Grammar.elements, Grammar.elements]
  rcases (skips_skipMark? close).alike h with ⟨hskip, hskip'⟩ | ⟨t, us, us', rfl, ht, hus, hskip, hskip'⟩
  · rw [hskip, hskip']
    refine (ih.commaSeparated h).bind hP fun es us us' hus => ?_
    refine expectMark_bind hP hclose hus fun vs vs' hvs => ?_
    exact .done hP es hvs
  · rw [hskip, hskip']
    exact .take hP (by rw [ht]; exact hclose) (.done hP [] hus)

/-- Accesses and calls: the three marks that lead on are tried in one order on both sides. -/
theorem succ_postfixesAfter (e : Expression) : GoesInStep P (Grammar.postfixesAfter (n + 1) e) := by
  intro ts ts' h
  rw [Grammar.postfixesAfter, Grammar.postfixesAfter]
  rcases (skips_skipMark? '.').alike h with ⟨hpoint, hpoint'⟩ | ⟨t, us, us', rfl, ht, hus, hskip, hskip'⟩
  · rcases (skips_skipMark? '[').alike h with ⟨hbracket, hbracket'⟩ | ⟨t, us, us', rfl, ht, hus, hskip, hskip'⟩
    · rcases (skips_skipMark? '(').alike h with ⟨hcall, hcall'⟩ | ⟨t, us, us', rfl, ht, hus, hskip, hskip'⟩
      · rw [hpoint, hpoint', hbracket, hbracket', hcall, hcall']
        exact .done hP e h
      · rw [hpoint, hpoint', hbracket, hbracket', hskip, hskip']
        refine .take hP (by rw [ht]; rfl) ((ih.elements ')' rfl hus).bind hP fun args vs vs' hvs => ?_)
        exact ih.postfixesAfter _ hvs
    · rw [hpoint, hpoint', hskip, hskip']
      refine .take hP (by rw [ht]; rfl) ((ih.behaviors hus).bind hP fun key vs vs' hvs => ?_)
      refine expectMark_bind hP rfl hvs fun ws ws' hws => ?_
      exact ih.postfixesAfter _ hws
  · rw [hskip, hskip']
    refine .take hP (by rw [ht]; rfl) ((expectWord_inStep hP hus).bind hP fun name vs vs' hvs => ?_)
    dsimp only
    rcases (skips_skipMark? '(').alike hvs with ⟨hcall, hcall'⟩ | ⟨t, ws, ws', rfl, ht, hws, hcall, hcall'⟩
    · rw [hcall, hcall']
      exact ih.postfixesAfter _ hvs
    · rw [hcall, hcall']
      refine .take hP (by rw [ht]; rfl) ((ih.elements ')' rfl hws).bind hP fun args xs xs' hxs => ?_)
      exact ih.postfixesAfter _ hxs

/-- Expressions with commas between them. -/
theorem succ_commaSeparated : GoesInStep P (Grammar.commaSeparated (n + 1)) :=
  separated_inStep hP separates_commaSeparated ih.assignment ih.commaSeparated

/-- A name of a scope, or a call of it. -/
theorem succ_scopeName (name : String) (ancestor : Nat) :
    GoesInStep P (Grammar.scopeName (n + 1) name ancestor) := by
  intro ts ts' h
  rw [Grammar.scopeName, Grammar.scopeName]
  rcases (skips_skipMark? '(').alike h with ⟨hskip, hskip'⟩ | ⟨t, us, us', rfl, ht, hus, hskip, hskip'⟩
  · rw [hskip, hskip']
    exact .done hP _ h
  · rw [hskip, hskip']
    refine .take hP (by rw [ht]; rfl) ((ih.elements ')' rfl hus).bind hP fun args vs vs' hvs => ?_)
    exact .done hP _ hvs

/-- What follows `$this` or a chain of `$parent`. -/
theorem succ_scopeAccess (ancestor : Nat) : GoesInStep P (Grammar.scopeAccess (n + 1) ancestor) := by
  intro ts ts' h
  rcases h with _ | @⟨dot, dot', _, _, hdot, _ | @⟨t, t', us, us', ht, hus⟩⟩
  · simp only [Grammar.scopeAccess]
    exact .done hP _ .nil
  · simp only [Grammar.scopeAccess]
    exact .done hP _ (.cons hdot .nil)
  · rw [Grammar.scopeAccess, Grammar.scopeAccess, isPunctuation_congr hdot, word?_congr ht]
    cases hdots : dot.isPunctuation '.' with
    | false => exact .done hP _ (.cons hdot (.cons ht hus))
    | true =>
      cases hname : t.word? with
      | none => exact .done hP _ (.cons hdot (.cons ht hus))
      | some name =>
        have hmore := (ih.scopeName name ancestor hus).take hP (isSimple_of_word? hname)
        exact hmore.take hP (by rw [of_decide_eq_true hdots]; rfl)

/-- A primary expression, by its first lexeme; only an object takes a brace. -/
theorem succ_primary : GoesInStep P (Grammar.primary (n + 1)) := by
  intro ts ts' h
  cases h with
  | nil =>
    rw [Grammar.primary]
    exact fail_inStep _ _ _ _
  | @cons t t' us us' ht hus =>
    rw [Grammar.primary, Grammar.primary, ← ht]
    cases hlexeme : t.lexeme with
    | fault cause => exact .error _ _
    | number numeral x => exact .take hP (by rw [hlexeme]; rfl) (.done hP _ hus)
    | string s => exact .take hP (by rw [hlexeme]; rfl) (.done hP _ hus)
    | identifier name => exact .take hP (by rw [hlexeme]; rfl) (ih.scopeName name 0 hus)
    | operator symbol => exact fail_inStep _ _ _ _
    | keyword word =>
      have hsimple : t.lexeme.isSimple = true := by rw [hlexeme]; rfl
      dsimp only
      cases keywordLiteral? word with
      | some value => exact .take hP hsimple (.done hP _ hus)
      | none =>
        dsimp only
        split
        · exact .take hP hsimple (parentChain_inStep hP hus fun count vs vs' hvs => ih.scopeAccess count hvs)
        · split
          · exact .take hP hsimple
              (parentChain_inStep hP hus fun count vs vs' hvs => ih.scopeAccess (count + 1) hvs)
          · exact fail_inStep _ _ _ _
    | punctuation c =>
      dsimp only
      split
      · next hc =>
        refine .take hP (by rw [hlexeme, hc]; rfl) ((ih.behaviors hus).bind hP fun e vs vs' hvs => ?_)
        refine expectMark_bind hP rfl hvs fun ws ws' hws => ?_
        exact .done hP e hws
      · split
        · next hc =>
          refine .take hP (by rw [hlexeme, hc]; rfl) ((ih.elements ']' rfl hus).bind hP fun es vs vs' hvs => ?_)
          exact .done hP _ hvs
        · split
          · next hc =>
            refine .braces hP (by rw [hlexeme, hc]) ?_
            refine (ih.objectEntries hus).bind_of (Q := (· = [])) ?_ fun entries vs vs' hvs => ?_
            · rintro v w hv rfl
              rwa [List.append_nil]
            · exact .ok _ [] rfl rfl hvs
          · exact fail_inStep _ _ _ _

/-- The entries of an object close the brace that was opened before them. -/
theorem succ_objectEntries : GoesInStep (Closing P) (Grammar.objectEntries (n + 1)) := by
  intro ts ts' h
  rw [Grammar.objectEntries, Grammar.objectEntries]
  rcases (skips_skipMark? '\x7d').alike h with ⟨hskip, hskip'⟩ | ⟨t, us, us', rfl, ht, hus, hskip, hskip'⟩
  · rw [hskip, hskip']
    refine (ih.entriesSeparated h).close fun entries us us' hus => ?_
    exact expectMark_close entries hus
  · rw [hskip, hskip']
    refine .ok [] [t] rfl ⟨[], hP.nil, ?_⟩ hus
    rw [List.map_singleton, ht, List.nil_append]

/-- Entries of an object with commas between them. -/
theorem succ_entriesSeparated : GoesInStep P (Grammar.entriesSeparated (n + 1)) :=
  separated_inStep hP separates_entriesSeparated ih.objectEntry ih.entriesSeparated

/-- A key with its value, or a name that is both. -/
theorem succ_objectEntry : GoesInStep P (Grammar.objectEntry (n + 1)) := by
  intro ts ts' h
  cases h with
  | nil =>
    rw [Grammar.objectEntry]
    exact fail_inStep _ _ _ _
  | @cons t t' us us' ht hus =>
    have hsame : objectKey? t' = objectKey? t := by rw [objectKey?, ← ht, objectKey?]
    rw [Grammar.objectEntry, Grammar.objectEntry, hsame, identifier?_congr ht]
    cases hkey : objectKey? t with
    | none => exact fail_inStep _ _ _ _
    | some key =>
      dsimp only
      rcases (skips_skipMark? ':').alike hus with ⟨hskip, hskip'⟩ | ⟨colon, vs, vs', rfl, hcolon, hvs, hskip, hskip'⟩
      · rw [hskip, hskip']
        dsimp only
        split
        · exact .take hP (isSimple_of_objectKey? hkey) (.done hP _ hus)
        · exact fail_inStep _ _ _ _
      · rw [hskip, hskip']
        refine .take hP (isSimple_of_objectKey? hkey) (.take hP (by rw [hcolon]; rfl) ?_)
        refine (ih.assignment hvs).bind hP fun value ws ws' hws => ?_
        exact .done hP _ hws

/-- One more step keeps every level in step. -/
theorem succ : InStepAt P (n + 1) where
  behaviors := ih.succ_behaviors hP
  behaviorsAfter := ih.succ_behaviorsAfter hP
  converters := ih.succ_converters hP
  convertersAfter := ih.succ_convertersAfter hP
  colonArguments := ih.succ_colonArguments hP
  assignment := ih.succ_assignment hP
  conditional := ih.succ_conditional hP
  binary := ih.succ_binary hP
  binaryAfter := ih.succ_binaryAfter hP
  unary := ih.succ_unary hP
  postfixed := ih.succ_postfixed hP
  postfixesAfter := ih.succ_postfixesAfter hP
  elements := ih.succ_elements hP
  commaSeparated := ih.succ_commaSeparated hP
  scopeName := ih.succ_scopeName hP
  scopeAccess := ih.succ_scopeAccess hP
  primary := ih.succ_primary hP
  objectEntries := ih.succ_objectEntries hP
  entriesSeparated := ih.succ_entriesSeparated hP
  objectEntry := ih.succ_objectEntry hP

end InStepAt

/-- Every level of the grammar goes in step, whatever bounds its steps. -/
theorem inStepAt {P : List Lexeme → Prop} (hP : IsBraced P) (n : Nat) : InStepAt P n := by
  induction n with
  | zero => exact inStepAt_zero P
  | succ n ih => exact ih.succ hP

/-! ### The declaration of an iteration -/

section declaration

variable {P : List Lexeme → Prop} (hP : IsBraced P)
include hP

/-- A declared name. -/
theorem bindingName_inStep : GoesInStep P bindingName := by
  intro ts ts' h
  cases h with
  | nil => exact fail_inStep _ _ _ _
  | @cons t t' us us' ht hus =>
    rw [bindingName, bindingName, identifier?_congr ht]
    cases hname : t.identifier? with
    | none => exact fail_inStep _ _ _ _
    | some name => exact .take hP (isSimple_of_identifier? hname) (.done hP _ hus)

/-- Names that are declared from an array. -/
theorem bindingNames_inStep (n : Nat) : GoesInStep P (bindingNames n) := by
  induction n with
  | zero => exact .of_error bindingNames.eq_1
  | succ n ih => exact separated_inStep hP separates_bindingNames (bindingName_inStep hP) ih

/-- A name that is declared from an object, perhaps under another key. -/
theorem bindingEntry_inStep : GoesInStep P bindingEntry := by
  intro ts ts' h
  rw [bindingEntry, bindingEntry]
  refine (expectWord_inStep hP h).bind hP fun key us us' hus => ?_
  dsimp only
  rcases (skips_skipMark? ':').alike hus with ⟨hskip, hskip'⟩ | ⟨t, vs, vs', rfl, ht, hvs, hskip, hskip'⟩
  · rw [hskip, hskip']
    exact .done hP _ hus
  · rw [hskip, hskip']
    refine .take hP (by rw [ht]; rfl) ((bindingName_inStep hP hvs).bind hP fun value ws ws' hws => ?_)
    exact .done hP _ hws

/-- Names that are declared from an object. -/
theorem bindingEntries_inStep (n : Nat) : GoesInStep P (bindingEntries n) := by
  induction n with
  | zero => exact .of_error bindingEntries.eq_1
  | succ n ih => exact separated_inStep hP separates_bindingEntries (bindingEntry_inStep hP) ih

/-- The declaration of an iteration, whatever its form. -/
theorem declaration_inStep (n : Nat) : GoesInStep P (declaration n) := by
  intro ts ts' h
  rw [declaration, declaration]
  rcases (skips_skipMark? '[').alike h with ⟨hskip, hskip'⟩ | ⟨t, us, us', rfl, ht, hus, hskip, hskip'⟩
  · rcases (skips_skipMark? '\x7b').alike h with ⟨hbrace, hbrace'⟩ | ⟨t, us, us', rfl, ht, hus, hbrace, hbrace'⟩
    · rw [hskip, hskip', hbrace, hbrace']
      exact bindingName_inStep hP h
    · rw [hskip, hskip', hbrace, hbrace']
      refine .braces hP ht ((bindingEntries_inStep hP n hus).close fun entries vs vs' hvs => ?_)
      exact expectMark_close _ hvs
  · rw [hskip, hskip']
    refine .take hP (by rw [ht]; rfl) ((bindingNames_inStep hP n hus).bind hP fun es vs vs' hvs => ?_)
    refine expectMark_bind hP rfl hvs fun ws ws' hws => ?_
    exact .done hP _ hws

end declaration

/-! ### Whole texts -/

/-- The end is found exactly where no token is left. -/
theorem expectEnd_eq_ok {input : String} {ts : List Token} : expectEnd input ts = .ok () ↔ ts = [] := by
  constructor
  · intro h
    unfold expectEnd at h
    split at h
    · rfl
    · split at h <;> cases h
  · rintro rfl
    rfl

/-- Reads to the end of the tokens. -/
def toEnd {α : Type} (input : String) (r : Except Cause (α × List Token)) : Except Cause α := do
  let (a, rest) ← r
  expectEnd input rest
  .ok a

/-- A reading up to the end succeeds exactly if it leaves no token. -/
theorem toEnd_eq_ok {α : Type} {input : String} {r : Except Cause (α × List Token)} {a : α} :
    toEnd input r = .ok a ↔ r = .ok (a, []) := by
  constructor
  · intro h
    obtain ⟨⟨b, rest⟩, hr, h⟩ := bind_eq_ok.1 h
    obtain ⟨_, hend, h⟩ := bind_eq_ok.1 h
    cases h
    rw [hr, expectEnd_eq_ok.1 hend]
  · rintro rfl
    rfl

namespace InStep

variable {α : Type} {P : List Lexeme → Prop} {ts : List Token} {r r' : Except Cause (α × List Token)}

/-- Both readings get to the end with the same result, or none does. -/
theorem toOption_toEnd (h : InStep P ts r r') (input input' : String) :
    (toEnd input r).toOption = (toEnd input' r').toOption := by
  apply Option.ext
  intro a
  rw [toOption_eq_some, toOption_eq_some, toEnd_eq_ok, toEnd_eq_ok]
  cases h with
  | error cause cause' => simp
  | ok b used hts hused hrest =>
    constructor
    · intro h
      cases h
      rw [List.forall₂_nil_left_iff.1 hrest]
    · intro h
      cases h
      rw [List.forall₂_nil_right_iff.1 hrest]

/-- All tokens together are a word of the class, if they are read to the end. -/
theorem of_toEnd (h : InStep P ts r r') {input : String} {a : α} (hend : toEnd input r = .ok a) :
    P (ts.map Token.lexeme) := by
  rw [toEnd_eq_ok] at hend
  subst hend
  cases h with
  | ok a used hts hused hrest => rwa [hts, List.append_nil]

end InStep

end Grammar

open Grammar

/-- A text is read by the loosest level of the grammar up to the end; an empty one is an empty string. -/
theorem parse_eq_toEnd (input : String) : parse input = if tokens input = [] then .ok (.string "")
    else toEnd input (behaviors (stepBound (tokens input)) (tokens input)) := by
  unfold parse
  split
  · next htokens => rw [htokens, if_pos rfl]
  · next t ts htokens =>
    rw [htokens, if_neg (List.cons_ne_nil t ts)]
    rfl

/-- An iteration without the end of its text. -/
def iterationOf (ts : List Token) : Except Cause (Expression × List Token) := do
  let (declared, rest) ← declaration (stepBound ts) ts
  let rest ← expectOf rest
  let (iterable, rest) ← behaviors (stepBound ts) rest
  .ok (.iteration declared iterable, rest)

/-- An iteration is read up to the end. -/
theorem parseIteration_eq_toEnd (input : String) : parseIteration input = toEnd input (iterationOf (tokens input)) := by
  simp only [parseIteration, iterationOf, toEnd, bind_assoc]
  rfl

/-- Reading an iteration goes in step. -/
theorem iterationOf_inStep {P : List Lexeme → Prop} (hP : IsBraced P) : GoesInStep P iterationOf := by
  intro ts ts' h
  have hbound : stepBound ts' = stepBound ts := by rw [stepBound, ← h.length_eq, stepBound]
  rw [iterationOf, iterationOf, hbound]
  refine (declaration_inStep hP _ h).bind hP fun declared us us' hus => ?_
  dsimp only
  cases hus with
  | nil => exact .error _ _
  | @cons t t' vs vs' ht hvs =>
    rw [expectOf, expectOf, identifier?_congr ht]
    by_cases hof : t.identifier? = some "of"
    · rw [if_pos hof, if_pos hof]
      refine .take hP (isSimple_of_identifier? hof) ?_
      refine ((inStepAt hP _).behaviors hvs).bind hP fun iterable ws ws' hws => ?_
      exact .done hP _ hws
    · rw [if_neg hof, if_neg hof]
      exact .error _ _

/-- The class of all words. -/
theorem isBraced_true : IsBraced fun _ => True where
  nil := trivial
  append _ _ := trivial
  simple _ := trivial
  braces _ := trivial

/-- Two texts with the same lexemes are both read as the same expression, or both are none. -/
theorem parse_alike {input input' : String} (h : Alike (tokens input) (tokens input')) :
    (parse input).toOption = (parse input').toOption := by
  have hbound : stepBound (tokens input') = stepBound (tokens input) := by
    rw [stepBound, ← h.length_eq, stepBound]
  rw [parse_eq_toEnd, parse_eq_toEnd, hbound]
  by_cases hnone : tokens input = []
  · rw [if_pos hnone, if_pos (List.forall₂_nil_left_iff.1 (hnone ▸ h))]
  · have hnone' : tokens input' ≠ [] := fun heq => hnone (List.forall₂_nil_right_iff.1 (heq ▸ h))
    rw [if_neg hnone, if_neg hnone']
    exact ((inStepAt isBraced_true _).behaviors h).toOption_toEnd input input'

/-- Two texts with the same lexemes are both read as the same iteration, or both are none. -/
theorem parseIteration_alike {input input' : String} (h : Alike (tokens input) (tokens input')) :
    (parseIteration input).toOption = (parseIteration input').toOption := by
  rw [parseIteration_eq_toEnd, parseIteration_eq_toEnd]
  exact (iterationOf_inStep isBraced_true h).toOption_toEnd input input'

/-- The lexemes of an expression text are a word of every class. -/
theorem lexemes_of_parse {P : List Lexeme → Prop} (hP : IsBraced P) {input : String} {e : Expression}
    (h : parse input = .ok e) : P ((tokens input).map Token.lexeme) := by
  rw [parse_eq_toEnd] at h
  by_cases hnone : tokens input = []
  · rw [hnone]
    exact hP.nil
  · rw [if_neg hnone] at h
    have hsame : Alike (tokens input) (tokens input) := alike_iff_map.2 rfl
    exact ((inStepAt hP _).behaviors hsame).of_toEnd h

end ViewTemplate.Expression
