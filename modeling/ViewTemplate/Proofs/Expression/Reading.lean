import ViewTemplate.Expression.Parser
import ViewTemplate.Proofs.Expression.Canonical

/-!
# Reading lexemes

What the levels of the grammar make of tokens with given lexemes.  A level reads either its whole expression
(`Reads`) or the first part of a chain, which the rest of the level goes on with (`Leads`).  Both say how many
steps suffice: sixteen for each lexeme, and a few more for the level.

* `Reads`, `Leads` — reading lexemes as an expression, or as the start of a chain.
* `Leads.extend` — one more link of a chain.
* `ReadsAt` — an expression is read at a level; `ReadsAt.succ` — then it is read at the next one.
-/

namespace ViewTemplate.Expression.Grammar

open ViewTemplate.Text

/-! ### Tokens ahead -/

/-- The next token, if there is one, is one of these lexemes. -/
def Next (allowed : List Lexeme) (us : List Token) : Prop :=
  ∀ t ∈ us.head?, t.lexeme ∈ allowed

/-- The first token is the next one. -/
theorem next_cons {allowed : List Lexeme} {t : Token} (h : t.lexeme ∈ allowed) (us : List Token) :
    Next allowed (t :: us) := by
  rintro u ⟨⟩
  exact h

/-- What may come next may do so among more lexemes. -/
theorem Next.mono {allowed allowed' : List Lexeme} {us : List Token} (h : Next allowed us)
    (hsub : allowed ⊆ allowed') : Next allowed' us :=
  fun t ht => hsub (h t ht)

/-- A punctuation mark that comes next is skipped. -/
theorem skipMark?_cons {t : Token} {c : Char} (h : t.lexeme = .punctuation c) (us : List Token) :
    skipMark? c (t :: us) = some us := by
  simp [skipMark?, Token.isPunctuation, h]

/-- An operator that comes next is skipped. -/
theorem skipOperator?_cons {t : Token} {symbol : String} (h : t.lexeme = .operator symbol) (us : List Token) :
    skipOperator? symbol (t :: us) = some us := by
  simp [skipOperator?, Token.isOperator, h]

/-- Nothing is skipped where another lexeme or none comes next. -/
theorem skipMark?_eq_none {c : Char} {us : List Token} (h : ∀ t ∈ us.head?, t.lexeme ≠ .punctuation c) :
    skipMark? c us = none := by
  cases us with
  | nil => rfl
  | cons t us => simp [skipMark?, Token.isPunctuation, h t rfl]

/-- No operator is skipped where another lexeme or none comes next. -/
theorem skipOperator?_eq_none {symbol : String} {us : List Token}
    (h : ∀ t ∈ us.head?, t.lexeme ≠ .operator symbol) : skipOperator? symbol us = none := by
  cases us with
  | nil => rfl
  | cons t us => simp [skipOperator?, Token.isOperator, h t rfl]

/-- A mark that may not come next is not skipped. -/
theorem Next.skipMark? {allowed : List Lexeme} {us : List Token} (h : Next allowed us) {c : Char}
    (hc : .punctuation c ∉ allowed) : Grammar.skipMark? c us = none :=
  skipMark?_eq_none fun t ht heq => hc (heq ▸ h t ht)

/-- An operator that may not come next is not skipped. -/
theorem Next.skipOperator? {allowed : List Lexeme} {us : List Token} (h : Next allowed us) {symbol : String}
    (hsymbol : .operator symbol ∉ allowed) : Grammar.skipOperator? symbol us = none :=
  skipOperator?_eq_none fun t ht heq => hsymbol (heq ▸ h t ht)

/-- A mark that is expected and comes next is read. -/
theorem expectMark_cons {t : Token} {c : Char} (h : t.lexeme = .punctuation c) (us : List Token) :
    expectMark c (t :: us) = .ok us := by
  rw [expectMark, skipMark?_cons h]

/-- The lexeme of a word is that word. -/
theorem word?_eq {t : Token} {name : String} (h : t.lexeme = .ofWord name) : t.word? = some name := by
  unfold Lexeme.ofWord at h
  split at h <;> simp [Token.word?, h]

/-- A word that comes next is read where one is expected. -/
theorem expectWord_cons {t : Token} {name : String} (h : t.lexeme = .ofWord name) (us : List Token) :
    expectWord (t :: us) = .ok (name, us) := by
  rw [expectWord, word?_eq h]

/-! ### Reading an expression, or the start of a chain -/

/-- Tokens of the lexemes `ls` are read as `a`, wherever `Follow` holds of the tokens after them. -/
def Reads {α : Type} (read : Nat → Read α) (slack : Nat) (ls : List Lexeme) (a : α)
    (Follow : List Token → Prop) : Prop :=
  ∀ ⦃n ts us⦄, ts.map Token.lexeme = ls → Follow us → 16 * ls.length + slack ≤ n →
    read n (ts ++ us) = .ok (a, us)

/-- Tokens of the lexemes `ls` are read as the start `e` of a chain: the level goes on after `e` with as many
steps as are asked for. -/
def Leads (read : Nat → Read Expression) (after : Nat → Expression → Read Expression) (slack : Nat)
    (ls : List Lexeme) (e : Expression) (Follow : List Token → Prop) : Prop :=
  ∀ ⦃k n ts us⦄, ts.map Token.lexeme = ls → Follow us → k + 16 * ls.length + slack ≤ n →
    ∃ m, k ≤ m ∧ read n (ts ++ us) = after m e us

/-- One step of a rule is left to be taken. -/
theorem Reads.of_succ {α : Type} {read : Nat → Read α} {slack : Nat} {ls : List Lexeme} {a : α}
    {Follow : List Token → Prop}
    (h : ∀ ⦃n ts us⦄, ts.map Token.lexeme = ls → Follow us → 16 * ls.length + slack ≤ n →
      read (n + 1) (ts ++ us) = .ok (a, us)) : Reads read (slack + 1) ls a Follow := by
  intro n ts us hts hus hn
  obtain ⟨n, rfl⟩ : ∃ n', n = n' + 1 := ⟨n - 1, by omega⟩
  exact h hts hus (by omega)

section chains

variable {read : Nat → Read Expression} {after : Nat → Expression → Read Expression} {slack : Nat}
variable {ls : List Lexeme} {e : Expression} {Follow : List Token → Prop}

/-- One step leads to the start of a chain. -/
theorem Leads.of_succ
    (h : ∀ ⦃n ts us⦄, ts.map Token.lexeme = ls → Follow us → 16 * ls.length + slack ≤ n →
      read (n + 1) (ts ++ us) = after n e us) : Leads read after (slack + 1) ls e Follow := by
  intro k n ts us hts hus hn
  obtain ⟨n, rfl⟩ : ∃ n', n = n' + 1 := ⟨n - 1, by omega⟩
  exact ⟨n, by omega, h hts hus (by omega)⟩

/-- A chain is complete where nothing follows that it goes on with. -/
theorem Leads.complete {n : Nat} {ts us : List Token} (h : Leads read after slack ls e Follow)
    (hts : ts.map Token.lexeme = ls) (hus : Follow us)
    (hend : ∀ m, after (m + 1) e us = .ok (e, us)) (hn : 16 * ls.length + slack + 1 ≤ n) :
    read n (ts ++ us) = .ok (e, us) := by
  obtain ⟨m, hm, heq⟩ := h (k := 1) (n := n) hts hus (by omega)
  obtain ⟨m, rfl⟩ : ∃ m', m = m' + 1 := ⟨m - 1, by omega⟩
  rw [heq, hend]

/-- A chain goes on with one more link. -/
theorem Leads.extend {ls' : List Lexeme} {e' : Expression} {Follow' : List Token → Prop}
    (h : Leads read after slack ls e Follow) (hne : ls' ≠ [])
    (hfollow : ∀ ⦃ts us⦄, ts.map Token.lexeme = ls' → Follow' us → Follow (ts ++ us))
    (hlink : ∀ ⦃m ts us⦄, ts.map Token.lexeme = ls' → Follow' us → 16 * ls'.length ≤ m + 1 →
      after (m + 1) e (ts ++ us) = after m e' us) :
    Leads read after slack (ls ++ ls') e' Follow' := by
  intro k n ts us hts hus hn
  obtain ⟨ts, ts', rfl, hts, hts'⟩ := List.map_eq_append_iff.1 hts
  have hpos := List.length_pos_iff.2 hne
  rw [List.length_append] at hn
  -- The steps for the link are kept back while the chain before it is read.
  obtain ⟨m, hm, heq⟩ := h (k := k + 16 * ls'.length) hts (hfollow hts' hus) (n := n) (by omega)
  obtain ⟨m, rfl⟩ : ∃ m', m = m' + 1 := ⟨m - 1, by omega⟩
  refine ⟨m, by omega, ?_⟩
  rw [List.append_assoc, heq, hlink hts' hus (by omega)]

end chains

/-! ### What may follow at each level -/

/-- What ends an expression in brackets. -/
def closings : List Lexeme :=
  [.punctuation ')', .punctuation ']']

/-- What may follow a behavior: another one. -/
def behaviorFollow : List Lexeme :=
  .operator "&" :: closings

/-- What may follow a converter: another one, or a behavior. -/
def converterFollow : List Lexeme :=
  .operator "|" :: behaviorFollow

/-- What may follow an assignment: also the next argument, value or entry. -/
def assignmentFollow : List Lexeme :=
  .punctuation ',' :: .punctuation ':' :: .punctuation '\x7d' :: converterFollow

/-- What may follow a conditional: also an assignment to it. -/
def conditionalFollow : List Lexeme :=
  .operator "=" :: assignmentFollow

/-- What may follow a condition: also its branches. -/
def conditionFollow : List Lexeme :=
  .operator "?" :: conditionalFollow

/-- No access and no call follows. -/
def NoPostfix (us : List Token) : Prop :=
  ∀ t ∈ us.head?, t.lexeme ∉ [.punctuation '.', .punctuation '[', .punctuation '(']

/-- No binary operator of more than the given power follows. -/
def BindsAtMost (p : Nat) (us : List Token) : Prop :=
  ∀ t ∈ us.head?, ∀ o ∈ binaryOperator? t, o.2 ≤ p

/-- What must not follow the expression: a point after a scope, a parenthesis after a name. -/
def MayPrecede : Expression → List Token → Prop
  | .accessThis _, us => skipMark? '.' us = none
  | .accessScope .., us | .accessMember .., us => skipMark? '(' us = none
  | _, _ => True

/-- What may follow a condition leads on to no access and no call. -/
theorem Next.noPostfix {us : List Token} (h : Next conditionFollow us) : NoPostfix us := by
  intro t ht hmem
  have hall : ∀ l ∈ conditionFollow,
      l ∉ [Lexeme.punctuation '.', .punctuation '[', .punctuation '('] := by decide
  exact hall _ (h t ht) hmem

/-- What may follow a condition is no binary operator. -/
theorem Next.bindsAtMost {us : List Token} (h : Next conditionFollow us) (p : Nat) : BindsAtMost p us := by
  intro t ht o ho
  have hl := h t ht
  simp only [conditionFollow, conditionalFollow, assignmentFollow, converterFollow, behaviorFollow, closings,
    List.mem_cons, List.not_mem_nil, or_false] at hl
  rcases hl with hl | hl | hl | hl | hl | hl | hl | hl | hl <;> simp [binaryOperator?, hl, precedence?] at ho

/-- None of the three marks that lead on is there. -/
theorem NoPostfix.skipMark? {us : List Token} (h : NoPostfix us) {c : Char}
    (hc : .punctuation c ∈ [Lexeme.punctuation '.', .punctuation '[', .punctuation '(']) :
    Grammar.skipMark? c us = none :=
  skipMark?_eq_none fun t ht heq => h t ht (heq ▸ hc)

/-- What leads on to no access and no call may follow any expression. -/
theorem NoPostfix.mayPrecede {us : List Token} (h : NoPostfix us) (e : Expression) : MayPrecede e us := by
  unfold MayPrecede
  split
  · exact h.skipMark? (by decide)
  · exact h.skipMark? (by decide)
  · exact h.skipMark? (by decide)
  · trivial

/-! ### Where a chain ends -/

/-- Accesses and calls are at their end where nothing leads on. -/
theorem postfixesAfter_end {us : List Token} (h : NoPostfix us) (m : Nat) (e : Expression) :
    postfixesAfter (m + 1) e us = .ok (e, us) := by
  simp only [postfixesAfter, h.skipMark? (show Lexeme.punctuation '.' ∈ _ by decide),
    h.skipMark? (show Lexeme.punctuation '[' ∈ _ by decide),
    h.skipMark? (show Lexeme.punctuation '(' ∈ _ by decide)]

/-- Operands and operators are at their end before an operator that binds too loosely. -/
theorem binaryAfter_end {us : List Token} {p least : Nat} (h : BindsAtMost p us) (hp : p < least) (m : Nat)
    (e : Expression) : binaryAfter (m + 1) least e us = .ok (e, us) := by
  cases us with
  | nil => rw [binaryAfter]
  | cons t us =>
    simp only [binaryAfter]
    cases ho : binaryOperator? t with
    | none => rfl
    | some o =>
      have := h t rfl o ho
      simp only
      rw [if_pos (by omega)]

/-! ### The levels of an expression -/

/-- The level at which the printer's text of an expression is read: `0` for a primary expression with accesses
and calls, then unary and binary operations, conditionals and assignments, converters and behaviors.  At level
`3` is what may be assigned to; a conditional may not. -/
def level : Expression → Nat
  | .unary .. => 1
  | .binary .. => 2
  | .conditional .. | .assign .. => 4
  | .valueConverter .. => 5
  | .bindingBehavior .. => 6
  | _ => 0

/-- The power at which the operators of an expression bind; above every power, if there are none. -/
def bindingPower : Expression → Nat
  | .binary operation _ _ => power operation
  | _ => 7

/-- The lexemes are read as the start of a chain of accesses and calls. -/
def LeadsPostfix (ls : List Lexeme) (e : Expression) : Prop :=
  Leads unary postfixesAfter 0 ls e (MayPrecede e)

/-- The lexemes are read as the start of a chain of binary operations that bind at power `p`. -/
def LeadsBinary (ls : List Lexeme) (e : Expression) (p : Nat) : Prop :=
  ∀ least, least ≤ p → Leads (binary · least) (binaryAfter · least) 2 ls e
    fun us => NoPostfix us ∧ BindsAtMost p us

/-- The lexemes of an expression are read as the expression at the given level. -/
def ReadsAt (e : Expression) : Nat → Prop
  | 0 => LeadsPostfix (lexemes e) e
  | 1 => Reads unary 1 (lexemes e) e NoPostfix
  | 2 => 1 ≤ bindingPower e ∧ LeadsBinary (lexemes e) e (bindingPower e)
  | 3 => Reads conditional 4 (lexemes e) e (Next conditionalFollow)
  | 4 => Reads assignment 5 (lexemes e) e (Next assignmentFollow)
  | 5 => Leads converters convertersAfter 6 (lexemes e) e (Next converterFollow)
  | _ => Leads behaviors behaviorsAfter 8 (lexemes e) e (Next behaviorFollow)

/-- A chain of accesses and calls is an operand without signs. -/
theorem LeadsPostfix.reads_unary {ls : List Lexeme} {e : Expression} (h : LeadsPostfix ls e) :
    Reads unary 1 ls e NoPostfix := by
  intro n ts us hts hus hn
  exact Leads.complete h hts (hus.mayPrecede e) (fun m => postfixesAfter_end hus m e) hn

/-- An operand begins a chain of binary operations. -/
theorem Reads.leadsBinary {ls : List Lexeme} {e : Expression} (h : Reads unary 1 ls e NoPostfix) (p : Nat) :
    LeadsBinary ls e p := by
  intro least hleast
  apply Leads.of_succ
  intro n ts us hts hus hn
  simp only [binary, h hts hus.1 hn]
  rfl

/-- A chain of binary operations is complete where no operator of its own power follows. -/
theorem LeadsBinary.read {ls : List Lexeme} {e : Expression} {p q least n : Nat} {ts us : List Token}
    (h : LeadsBinary ls e p) (hleast : least ≤ p) (hq : q < least) (hts : ts.map Token.lexeme = ls)
    (hends : NoPostfix us) (hbinds : BindsAtMost q us) (hn : 16 * ls.length + 3 ≤ n) :
    binary n least (ts ++ us) = .ok (e, us) := by
  have hloose : BindsAtMost p us := fun t ht o ho => Nat.le_trans (hbinds t ht o ho) (by omega)
  have hread := (h least hleast).complete hts ⟨hends, hloose⟩ (fun m => binaryAfter_end hbinds hq m e) hn
  exact hread

/-- Binary operations without a mark behind them stand for a conditional. -/
theorem LeadsBinary.reads_conditional {ls : List Lexeme} {e : Expression} {p : Nat} (hp : 1 ≤ p)
    (h : LeadsBinary ls e p) : Reads conditional 4 ls e (Next conditionalFollow) := by
  apply Reads.of_succ
  intro n ts us hts hus hn
  have hnext : Next conditionFollow us := hus.mono (List.subset_cons_self _ _)
  have hread : binary n 1 (ts ++ us) = .ok (e, us) :=
    h.read hp Nat.zero_lt_one hts hnext.noPostfix (hnext.bindsAtMost 0) hn
  have hbranches : skipOperator? "?" us = none := hus.skipOperator? (by decide)
  simp only [conditional, hread]
  simp only [bind, Except.bind, hbranches]

/-- A conditional without an operator behind it stands for an assignment. -/
theorem Reads.reads_assignment {ls : List Lexeme} {e : Expression}
    (h : Reads conditional 4 ls e (Next conditionalFollow)) :
    Reads assignment 5 ls e (Next assignmentFollow) := by
  apply Reads.of_succ
  intro n ts us hts hus hn
  have hvalue : skipOperator? "=" us = none := hus.skipOperator? (by decide)
  simp only [assignment, h hts (hus.mono (List.subset_cons_self _ _)) hn]
  simp only [bind, Except.bind, hvalue]

/-- An assignment begins a chain of converters. -/
theorem Reads.leads_converters {ls : List Lexeme} {e : Expression}
    (h : Reads assignment 5 ls e (Next assignmentFollow)) :
    Leads converters convertersAfter 6 ls e (Next converterFollow) := by
  apply Leads.of_succ
  intro n ts us hts hus hn
  simp only [converters, h hts (hus.mono (by decide)) hn]
  rfl

/-- An expression with converters begins a chain of behaviors. -/
theorem Leads.leads_behaviors {ls : List Lexeme} {e : Expression}
    (h : Leads converters convertersAfter 6 ls e (Next converterFollow)) :
    Leads behaviors behaviorsAfter 8 ls e (Next behaviorFollow) := by
  apply Leads.of_succ
  intro n ts us hts hus hn
  have hconverter : skipOperator? "|" us = none := hus.skipOperator? (by decide)
  have hend : ∀ m, convertersAfter (m + 1) e us = .ok (e, us) := by
    intro m
    simp only [convertersAfter, hconverter]
  have hread : converters n (ts ++ us) = .ok (e, us) :=
    h.complete hts (hus.mono (List.subset_cons_self _ _)) hend hn
  simp only [behaviors, hread]
  rfl

/-- What is read at a level is read at the next one. -/
theorem ReadsAt.succ {e : Expression} :
    ∀ {i : Nat}, (i = 1 → 1 ≤ bindingPower e) → ReadsAt e i → ReadsAt e (i + 1)
  | 0, _, h => h.reads_unary
  | 1, hpower, h => ⟨hpower rfl, h.leadsBinary _⟩
  | 2, _, h => h.2.reads_conditional h.1
  | 3, _, h => h.reads_assignment
  | 4, _, h => h.leads_converters
  | 5, _, h => h.leads_behaviors
  | _ + 6, _, h => h

end ViewTemplate.Expression.Grammar
