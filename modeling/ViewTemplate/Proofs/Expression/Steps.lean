import ViewTemplate.Proofs.Expression.InStep

/-!
# The bound on steps

The grammar is read with a bound on the number of nested steps, and sixteen steps for each token are always enough:
from one token that is taken to the next no more levels are entered.  So an expression is never refused because the
bound was too small.

* `Settles` — a reading ends, with a result or for a reason of its own.
* `Suffices` — so many steps suffice for a rule; `stepsAt` — for every level of the grammar.
* `parse_ne_outOfSteps`, `parseIteration_ne_outOfSteps` — the bound on whole texts suffices.
-/

namespace ViewTemplate.Expression

namespace Grammar

/-! ### Readings that end -/

/-- A reading gives a result and leaves `bound` tokens at most, or fails for another reason than its steps. -/
inductive Settles {α : Type} (bound : Nat) : Except Cause (α × List Token) → Prop where
  | ok (a : α) {rest : List Token} (hrest : rest.length ≤ bound) : Settles bound (.ok (a, rest))
  | error {cause : Cause} (hcause : cause ≠ .outOfSteps) : Settles bound (.error cause)

section settles

variable {α β : Type} {bound bound' : Nat} {ts : List Token}

/-- A reading that leaves few tokens leaves no more than a higher bound. -/
theorem Settles.mono {r : Except Cause (α × List Token)} (h : Settles bound r) (hle : bound ≤ bound') :
    Settles bound' r := by
  rcases h with ⟨a, hrest⟩ | hcause
  · exact .ok a (hrest.trans hle)
  · exact .error hcause

/-- One reading goes on from where another ends. -/
theorem Settles.bind {r : Except Cause (α × List Token)} {k : α × List Token → Except Cause (β × List Token)}
    (h : Settles bound r) (hk : ∀ a rest, rest.length ≤ bound → Settles bound' (k (a, rest))) :
    Settles bound' (r >>= k) := by
  rcases h with ⟨a, hrest⟩ | hcause
  · exact hk a _ hrest
  · exact .error hcause

/-- A failure at a token is no lack of steps. -/
theorem fail_settles (issue : Issue) (us : List Token) : Settles (α := α) bound (fail issue us) := by
  apply Settles.error
  intro h
  cases h

/-- What is skipped is one token. -/
theorem Skips.length_eq {l : Lexeme} {skip : List Token → Option (List Token)} (hskip : Skips l skip)
    {us : List Token} (h : skip ts = some us) : ts.length = us.length + 1 := by
  rcases ts with _ | ⟨t, ts⟩
  · rw [hskip.nil] at h
    cases h
  · rw [hskip.cons] at h
    split at h
    · cases h
      rfl
    · cases h

/-- A punctuation mark is one token. -/
theorem length_of_skipMark? {c : Char} {us : List Token} (h : skipMark? c ts = some us) :
    ts.length = us.length + 1 :=
  (skips_skipMark? c).length_eq h

/-- An operator is one token. -/
theorem length_of_skipOperator? {symbol : String} {us : List Token} (h : skipOperator? symbol ts = some us) :
    ts.length = us.length + 1 :=
  (skips_skipOperator? symbol).length_eq h

/-- A reading settles behind a mark that was expected, or the mark is missing. -/
theorem expectMark_settles {c : Char} {k : List Token → Except Cause (α × List Token)}
    (hk : ∀ us, ts.length = us.length + 1 → Settles bound (k us)) : Settles bound (expectMark c ts >>= k) := by
  unfold expectMark
  split
  · next us hskip => exact hk us (length_of_skipMark? hskip)
  · exact fail_settles _ _

/-- A word that is expected is one token. -/
theorem expectWord_settles (ts : List Token) : Settles (ts.length - 1) (expectWord ts) := by
  unfold expectWord
  split
  · exact fail_settles _ _
  · split
    · exact .ok _ le_rfl
    · exact fail_settles _ _

/-- A chain of `$parent` leaves no more tokens than there were. -/
theorem length_parentChain (ts : List Token) : (parentChain ts).2.length ≤ ts.length := by
  fun_induction parentChain ts with
  | case1 dot parent ts hchain count rest heq ih =>
    rw [heq] at ih
    simp only [List.length_cons] at ih ⊢
    omega
  | case2 => exact le_rfl
  | case3 => exact le_rfl

end settles

/-! ### Steps that suffice -/

/-- With `n` steps the rule settles on all tokens that are few enough: there are sixteen steps for each token and
`slack` more.  If it gives a result, it takes `used` tokens at least. -/
def Suffices {α : Type} (slack used n : Nat) (read : Read α) : Prop :=
  ∀ ⦃ts⦄, 16 * ts.length + slack ≤ n → Settles (ts.length - used) (read ts)

/-- Without steps no tokens are few enough, so there is nothing to show of any rule. -/
theorem suffices_zero {α : Type} {slack : Nat} (used : Nat) (hslack : 0 < slack) (read : Read α) :
    Suffices slack used 0 read := by
  intro ts h
  omega

/-- Items with commas between them, if the steps suffice for each. -/
theorem separated_suffices {α : Type} {item : Nat → Read α} {separated : Nat → Read (List α)}
    (hdef : Separates item separated) {slack n : Nat} (hitem : Suffices slack 1 n (item n))
    (hmore : Suffices (slack + 1) 0 n (separated n)) : Suffices (slack + 1) 0 (n + 1) (separated (n + 1)) := by
  intro ts hn
  rw [hdef]
  refine (hitem (by omega)).bind fun a us hus => ?_
  dsimp only
  split
  · exact .ok _ (by omega)
  · next vs hskip =>
    have hlength := length_of_skipMark? hskip
    refine (hmore (by omega)).bind fun as ws hws => ?_
    dsimp only
    exact .ok _ (by omega)

/-- What is enclosed in marks, if the steps suffice for what is between them. -/
theorem enclosed_suffices {α : Type} {close : Char} {separated enclosed : Nat → Read (List α)}
    (hdef : Encloses close separated enclosed) {slack n : Nat} (hmore : Suffices slack 0 n (separated n)) :
    Suffices (slack + 1) 0 (n + 1) (enclosed (n + 1)) := by
  intro ts hn
  rw [hdef]
  split
  · next us hskip =>
    have hlength := length_of_skipMark? hskip
    exact .ok _ (by omega)
  · refine (hmore (by omega)).bind fun as us hus => ?_
    refine expectMark_settles fun vs hvs => ?_
    exact .ok _ (by omega)

/-- Names with arguments behind `symbol`, if the steps suffice for the arguments. -/
theorem appended_suffices {symbol : String} {build : Expression → String → List Expression → Expression}
    {after : Nat → Expression → Read Expression} (hdef : Appends symbol build after) {n : Nat}
    (hargs : Suffices 1 0 n (colonArguments n)) (hmore : ∀ e, Suffices 1 0 n (after n e)) (e : Expression) :
    Suffices 1 0 (n + 1) (after (n + 1) e) := by
  intro ts hn
  rw [hdef]
  split
  · exact .ok e le_rfl
  · next us hskip =>
    have hlength := length_of_skipOperator? hskip
    refine (expectWord_settles us).bind fun name vs hvs => ?_
    refine (hargs (by omega)).bind fun args ws hws => ?_
    exact (hmore _ (by omega)).mono (by omega)

/-- With `n` steps, these suffice for every level of the grammar.  A level needs one step more than the next tighter
one, and whoever takes a token first has sixteen steps to spare. -/
structure StepsAt (n : Nat) : Prop where
  behaviors : Suffices 8 1 n (behaviors n)
  behaviorsAfter : ∀ e, Suffices 1 0 n (behaviorsAfter n e)
  converters : Suffices 7 1 n (converters n)
  convertersAfter : ∀ e, Suffices 1 0 n (convertersAfter n e)
  colonArguments : Suffices 1 0 n (colonArguments n)
  assignment : Suffices 6 1 n (assignment n)
  conditional : Suffices 5 1 n (conditional n)
  binary : ∀ least, Suffices 4 1 n (binary n least)
  binaryAfter : ∀ least left, Suffices 1 0 n (binaryAfter n least left)
  unary : Suffices 3 1 n (unary n)
  postfixed : Suffices 2 1 n (postfixed n)
  postfixesAfter : ∀ e, Suffices 1 0 n (postfixesAfter n e)
  elements : ∀ close, Suffices 8 0 n (elements n close)
  commaSeparated : Suffices 7 0 n (commaSeparated n)
  scopeName : ∀ name ancestor, Suffices 1 0 n (scopeName n name ancestor)
  scopeAccess : ∀ ancestor, Suffices 1 0 n (scopeAccess n ancestor)
  primary : Suffices 1 1 n (primary n)
  objectEntries : Suffices 3 0 n (objectEntries n)
  entriesSeparated : Suffices 2 0 n (entriesSeparated n)
  objectEntry : Suffices 1 1 n (objectEntry n)

/-- Without steps there is nothing to show of any level. -/
theorem stepsAt_zero : StepsAt 0 := by
  constructor
  all_goals
    intros
    exact suffices_zero _ (by omega) _

namespace StepsAt

variable {n : Nat} (ih : StepsAt n)
include ih

/-- An expression with behaviors takes one step more than one with converters. -/
theorem succ_behaviors : Suffices 8 1 (n + 1) (Grammar.behaviors (n + 1)) := by
  intro ts hn
  rw [Grammar.behaviors]
  refine (ih.converters (by omega)).bind fun e us hus => ?_
  exact (ih.behaviorsAfter e (by omega)).mono (by omega)

/-- An expression with converters takes one step more than an assignment. -/
theorem succ_converters : Suffices 7 1 (n + 1) (Grammar.converters (n + 1)) := by
  intro ts hn
  rw [Grammar.converters]
  refine (ih.assignment (by omega)).bind fun e us hus => ?_
  exact (ih.convertersAfter e (by omega)).mono (by omega)

/-- Arguments behind colons: each colon pays for its argument. -/
theorem succ_colonArguments : Suffices 1 0 (n + 1) (Grammar.colonArguments (n + 1)) := by
  intro ts hn
  rw [Grammar.colonArguments]
  split
  · exact .ok _ le_rfl
  · next us hskip =>
    have hlength := length_of_skipMark? hskip
    refine (ih.assignment (by omega)).bind fun arg vs hvs => ?_
    refine (ih.colonArguments (by omega)).bind fun args ws hws => ?_
    exact .ok _ (by omega)

/-- An assignment takes one step more than a conditional; its operator pays for the value. -/
theorem succ_assignment : Suffices 6 1 (n + 1) (Grammar.assignment (n + 1)) := by
  intro ts hn
  rw [Grammar.assignment]
  refine (ih.conditional (by omega)).bind fun target us hus => ?_
  dsimp only
  split
  · exact .ok _ hus
  · next vs hskip =>
    have hlength := length_of_skipOperator? hskip
    by_cases hassignable : target.isAssignable = true
    · rw [if_pos hassignable]
      refine (ih.assignment (by omega)).bind fun value ws hws => ?_
      dsimp only
      exact .ok _ (by omega)
    · rw [if_neg hassignable]
      exact fail_settles _ _

/-- A conditional takes one step more than a binary operation; its marks pay for the branches. -/
theorem succ_conditional : Suffices 5 1 (n + 1) (Grammar.conditional (n + 1)) := by
  intro ts hn
  rw [Grammar.conditional]
  refine (ih.binary 1 (by omega)).bind fun condition us hus => ?_
  dsimp only
  split
  · exact .ok _ hus
  · next vs hskip =>
    have hlength := length_of_skipOperator? hskip
    refine (ih.assignment (by omega)).bind fun yes ws hws => ?_
    dsimp only
    refine expectMark_settles fun xs hxs => ?_
    refine (ih.assignment (by omega)).bind fun no ys hys => ?_
    dsimp only
    exact .ok _ (by omega)

/-- A binary operation takes one step more than its first operand. -/
theorem succ_binary (least : Nat) : Suffices 4 1 (n + 1) (Grammar.binary (n + 1) least) := by
  intro ts hn
  rw [Grammar.binary]
  refine (ih.unary (by omega)).bind fun left us hus => ?_
  exact (ih.binaryAfter least left (by omega)).mono (by omega)

/-- A further operator pays for the operand on its right. -/
theorem succ_binaryAfter (least : Nat) (left : Expression) :
    Suffices 1 0 (n + 1) (Grammar.binaryAfter (n + 1) least left) := by
  intro ts hn
  rcases ts with _ | ⟨t, us⟩
  · rw [Grammar.binaryAfter]
    exact .ok _ le_rfl
  rw [List.length_cons] at hn
  rw [Grammar.binaryAfter]
  split
  · exact .ok _ le_rfl
  · next operation power hoperator =>
    by_cases hpower : power < least
    · rw [if_pos hpower]
      exact .ok _ le_rfl
    · rw [if_neg hpower]
      -- The operator is taken, which leaves steps for a whole operand and for the operators after it.
      refine (ih.binary _ (by omega)).bind fun right vs hvs => ?_
      exact (ih.binaryAfter least _ (by omega)).mono (by rw [List.length_cons]; omega)

/-- A sign pays for its operand. -/
theorem succ_unary : Suffices 3 1 (n + 1) (Grammar.unary (n + 1)) := by
  intro ts hn
  rcases ts with _ | ⟨t, us⟩
  · rw [Grammar.unary]
    exact ih.postfixed (by omega)
  rw [Grammar.unary]
  split
  · exact ih.postfixed (by omega)
  · rw [List.length_cons] at hn ⊢
    refine (ih.unary (by omega)).bind fun operand vs hvs => ?_
    dsimp only
    exact .ok _ (by omega)

/-- Accesses and calls take one step more than a primary expression. -/
theorem succ_postfixed : Suffices 2 1 (n + 1) (Grammar.postfixed (n + 1)) := by
  intro ts hn
  rw [Grammar.postfixed]
  refine (ih.primary (by omega)).bind fun e us hus => ?_
  exact (ih.postfixesAfter e (by omega)).mono (by omega)

/-- A point, a bracket or a parenthesis pays for what it leads to. -/
theorem succ_postfixesAfter (e : Expression) : Suffices 1 0 (n + 1) (Grammar.postfixesAfter (n + 1) e) := by
  intro ts hn
  rw [Grammar.postfixesAfter]
  -- Whatever follows, a mark is taken before the loosest level starts again.
  split
  · next us hskip =>
    have hlength := length_of_skipMark? hskip
    refine (expectWord_settles us).bind fun name vs hvs => ?_
    dsimp only
    split
    · next ws hcall =>
      have hlength' := length_of_skipMark? hcall
      refine (ih.elements ')' (by omega)).bind fun args xs hxs => ?_
      dsimp only
      exact (ih.postfixesAfter _ (by omega)).mono (by omega)
    · exact (ih.postfixesAfter _ (by omega)).mono (by omega)
  · next us hskip _ =>
    have hlength := length_of_skipMark? hskip
    refine (ih.behaviors (by omega)).bind fun key vs hvs => ?_
    dsimp only
    refine expectMark_settles fun ws hws => ?_
    exact (ih.postfixesAfter _ (by omega)).mono (by omega)
  · next us hskip _ _ =>
    have hlength := length_of_skipMark? hskip
    refine (ih.elements ')' (by omega)).bind fun args vs hvs => ?_
    exact (ih.postfixesAfter _ (by omega)).mono (by omega)
  · exact .ok _ le_rfl

/-- The parenthesis of a call pays for its arguments. -/
theorem succ_scopeName (name : String) (ancestor : Nat) :
    Suffices 1 0 (n + 1) (Grammar.scopeName (n + 1) name ancestor) := by
  intro ts hn
  rw [Grammar.scopeName]
  split
  · exact .ok _ le_rfl
  · next us hskip =>
    have hlength := length_of_skipMark? hskip
    refine (ih.elements ')' (by omega)).bind fun args vs hvs => ?_
    exact .ok _ (by omega)

/-- A point and a name pay for the call that may follow. -/
theorem succ_scopeAccess (ancestor : Nat) : Suffices 1 0 (n + 1) (Grammar.scopeAccess (n + 1) ancestor) := by
  intro ts hn
  rcases ts with _ | ⟨dot, _ | ⟨t, us⟩⟩
  · rw [Grammar.scopeAccess]
    · exact .ok _ le_rfl
    · simp
  · rw [Grammar.scopeAccess]
    · exact .ok _ le_rfl
    · simp
  rw [List.length_cons, List.length_cons] at hn
  rw [Grammar.scopeAccess]
  split
  · exact (ih.scopeName _ ancestor (by omega)).mono (by simp only [List.length_cons]; omega)
  · exact .ok _ le_rfl

/-- The first token of a primary expression pays for all that it opens. -/
theorem succ_primary : Suffices 1 1 (n + 1) (Grammar.primary (n + 1)) := by
  intro ts hn
  rcases ts with _ | ⟨t, us⟩
  · rw [Grammar.primary]
    exact fail_settles _ _
  rw [List.length_cons] at hn
  -- The chain of parents is read without any steps, but it may take tokens.
  have hchain := length_parentChain us
  rw [Grammar.primary, List.length_cons, Nat.add_sub_cancel]
  split
  · exact .error (by simp)
  · exact .ok _ le_rfl
  · exact .ok _ le_rfl
  · exact ih.scopeName _ 0 (by omega)
  · exact fail_settles _ _
  · split
    · exact .ok _ le_rfl
    · split
      · exact (ih.scopeAccess _ (by omega)).mono (by omega)
      · split
        · exact (ih.scopeAccess _ (by omega)).mono (by omega)
        · exact fail_settles _ _
  · split
    · refine (ih.behaviors (by omega)).bind fun e vs hvs => ?_
      refine expectMark_settles fun ws hws => ?_
      exact .ok _ (by omega)
    · split
      · refine (ih.elements ']' (by omega)).bind fun es vs hvs => ?_
        exact .ok _ (by omega)
      · split
        · refine (ih.objectEntries (by omega)).bind fun entries vs hvs => ?_
          exact .ok _ (by omega)
        · exact fail_settles _ _

/-- A key and its colon pay for the value. -/
theorem succ_objectEntry : Suffices 1 1 (n + 1) (Grammar.objectEntry (n + 1)) := by
  intro ts hn
  rcases ts with _ | ⟨t, us⟩
  · rw [Grammar.objectEntry]
    exact fail_settles _ _
  rw [List.length_cons] at hn
  rw [Grammar.objectEntry, List.length_cons, Nat.add_sub_cancel]
  split
  · exact fail_settles _ _
  · split
    · next vs hskip =>
      have hlength := length_of_skipMark? hskip
      refine (ih.assignment (by omega)).bind fun value ws hws => ?_
      exact .ok _ (by omega)
    · split
      · exact .ok _ le_rfl
      · exact fail_settles _ _

/-- One step more: what suffices for each level suffices for the next looser one. -/
theorem succ : StepsAt (n + 1) where
  behaviors := ih.succ_behaviors
  behaviorsAfter := appended_suffices appends_behaviorsAfter ih.colonArguments ih.behaviorsAfter
  converters := ih.succ_converters
  convertersAfter := appended_suffices appends_convertersAfter ih.colonArguments ih.convertersAfter
  colonArguments := ih.succ_colonArguments
  assignment := ih.succ_assignment
  conditional := ih.succ_conditional
  binary := ih.succ_binary
  binaryAfter := ih.succ_binaryAfter
  unary := ih.succ_unary
  postfixed := ih.succ_postfixed
  postfixesAfter := ih.succ_postfixesAfter
  elements close := enclosed_suffices (encloses_elements close) ih.commaSeparated
  commaSeparated := separated_suffices separates_commaSeparated ih.assignment ih.commaSeparated
  scopeName := ih.succ_scopeName
  scopeAccess := ih.succ_scopeAccess
  primary := ih.succ_primary
  objectEntries := enclosed_suffices encloses_objectEntries ih.entriesSeparated
  entriesSeparated := separated_suffices separates_entriesSeparated ih.objectEntry ih.entriesSeparated
  objectEntry := ih.succ_objectEntry

end StepsAt

/-- Sixteen steps for each token and a few more suffice for every level of the grammar. -/
theorem stepsAt (n : Nat) : StepsAt n := by
  induction n with
  | zero => exact stepsAt_zero
  | succ n ih => exact ih.succ

/-! ### The declaration of an iteration -/

/-- A declared name is one token. -/
theorem bindingName_settles (ts : List Token) : Settles (ts.length - 1) (bindingName ts) := by
  unfold bindingName
  split
  · exact fail_settles _ _
  · split
    · exact .ok _ le_rfl
    · exact fail_settles _ _

/-- A name that is declared from an object is one token, or three with its key. -/
theorem bindingEntry_settles (ts : List Token) : Settles (ts.length - 1) (bindingEntry ts) := by
  rw [bindingEntry]
  refine (expectWord_settles ts).bind fun key us hus => ?_
  dsimp only
  split
  · next vs hskip =>
    have hlength := length_of_skipMark? hskip
    refine (bindingName_settles vs).bind fun value ws hws => ?_
    dsimp only
    exact .ok _ (by omega)
  · exact .ok _ hus

/-- One step is enough for an item that takes none. -/
theorem declared_suffices {α : Type} {item : Read α} {separated : Nat → Read (List α)}
    (hdef : Separates (fun _ => item) separated) (hitem : ∀ ts, Settles (ts.length - 1) (item ts)) (n : Nat) :
    Suffices 1 0 n (separated n) := by
  induction n with
  | zero => exact suffices_zero 0 Nat.one_pos _
  | succ n ih => exact separated_suffices hdef (fun ts _ => hitem ts) ih

/-- Sixteen steps for each token are enough for a declaration. -/
theorem declaration_settles {n : Nat} {ts : List Token} (hn : 16 * ts.length ≤ n) :
    Settles ts.length (declaration n ts) := by
  rw [declaration]
  split
  · next us _ hskip =>
    have hlength := length_of_skipMark? hskip
    refine (declared_suffices separates_bindingNames bindingName_settles n (by omega)).bind fun es vs hvs => ?_
    refine expectMark_settles fun ws hws => ?_
    exact .ok _ (by omega)
  · next us _ hskip =>
    have hlength := length_of_skipMark? hskip
    refine (declared_suffices separates_bindingEntries bindingEntry_settles n (by omega)).bind fun es vs hvs => ?_
    refine expectMark_settles fun ws hws => ?_
    exact .ok _ (by omega)
  · exact (bindingName_settles ts).mono (Nat.sub_le _ _)

end Grammar

/-! ### Whole texts -/

open Grammar

/-- To expect the end takes no steps. -/
theorem expectEnd_ne_outOfSteps (input : String) (ts : List Token) : expectEnd input ts ≠ .error .outOfSteps := by
  unfold expectEnd
  intro hend
  split at hend
  · cases hend
  · split at hend <;> cases hend

/-- A text is not refused for the end of its steps, if its tokens are not. -/
theorem toEnd_ne_outOfSteps {α : Type} {bound : Nat} {r : Except Cause (α × List Token)} (h : Settles bound r)
    (input : String) : toEnd input r ≠ .error .outOfSteps := by
  intro hend
  rcases h with ⟨a, hrest⟩ | hcause
  · rename_i rest
    have hnone := expectEnd_ne_outOfSteps input rest
    change (expectEnd input rest >>= fun _ => Except.ok a) = _ at hend
    rcases hexpect : expectEnd input rest with cause | u
    · rw [hexpect] at hend hnone
      cases hend
      exact hnone rfl
    · rw [hexpect] at hend
      cases hend
  · cases hend
    exact hcause rfl

/-- The bound on the steps of an expression is never too small. -/
theorem parse_ne_outOfSteps (input : String) : parse input ≠ .error .outOfSteps := by
  rw [parse_eq_toEnd]
  split
  · exact nofun
  · exact toEnd_ne_outOfSteps ((stepsAt _).behaviors (by rw [stepBound]; omega)) input

/-- The steps that are given to an iteration suffice for it. -/
theorem iterationOf_settles (ts : List Token) : Settles ts.length (iterationOf ts) := by
  rw [iterationOf]
  refine (declaration_settles (by rw [stepBound]; omega)).bind fun declared us hus => ?_
  rcases us with _ | ⟨t, us⟩
  · refine .error fun hcause => ?_
    cases hcause
  · rw [List.length_cons] at hus
    dsimp only [expectOf]
    by_cases hof : t.identifier? = some "of"
    · rw [if_pos hof]
      refine ((stepsAt _).behaviors (by rw [stepBound]; omega)).bind fun iterable vs hvs => ?_
      dsimp only
      exact .ok _ (by omega)
    · rw [if_neg hof]
      refine .error fun hcause => ?_
      cases hcause

/-- The bound on the steps of an iteration is never too small. -/
theorem parseIteration_ne_outOfSteps (input : String) : parseIteration input ≠ .error .outOfSteps := by
  rw [parseIteration_eq_toEnd]
  exact toEnd_ne_outOfSteps (iterationOf_settles _) input

end ViewTemplate.Expression
