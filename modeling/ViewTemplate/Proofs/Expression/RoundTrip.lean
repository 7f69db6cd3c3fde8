import ViewTemplate.Expression.Reader
import ViewTemplate.Proofs.Expression.Layout
import ViewTemplate.Proofs.Expression.Productions

/-!
# Reading what was written

A canonical expression is read back from its text.  The text is made of the expression's lexemes, and the
grammar reads these at the level of the expression: by induction over the expression, one production for each
of its shapes.

* `readsAt_level` — the lexemes of a canonical expression are read at its level.
* `read_render` — the text of a canonical expression denotes it.
-/

namespace ViewTemplate.Expression

open ViewTemplate.Text

namespace Grammar

/-! ### Levels -/

/-- The power of an operator is its precedence. -/
theorem power_eq {operation : String} {p : Nat} (hp : precedence? operation = some p) :
    power operation = p := by
  rw [power, hp, Option.getD_some]

/-- There are six precedences. -/
theorem precedence?_bounds {operation : String} {p : Nat} (hp : precedence? operation = some p) :
    1 ≤ p ∧ p < 7 := by
  unfold precedence? at hp
  split at hp <;> cases hp <;> decide

/-- Every canonical expression binds somehow. -/
theorem bindingPower_pos {e : Expression} (h : Canonical e) : 1 ≤ bindingPower e := by
  cases h with
  | binary hoperation hleft hright =>
    obtain ⟨p, hp⟩ := Option.isSome_iff_exists.1 hoperation
    rw [bindingPower, power_eq hp]
    exact (precedence?_bounds hp).1
  | _ => simp [bindingPower]

/-- What is read at a level is read at every later one. -/
theorem ReadsAt.mono {e : Expression} (he : Canonical e) {i : Nat} (h : ReadsAt e i) :
    ∀ {j : Nat}, i ≤ j → ReadsAt e j := by
  intro j hij
  induction hij with
  | refl => exact h
  | step _ ih => exact ih.succ fun _ => bindingPower_pos he

/-- A plain expression needs no looser level than that of an assignment. -/
theorem level_le_of_isPlain {e : Expression} (h : e.isPlain = true) : level e ≤ 4 := by
  cases e <;> simp_all [level, isPlain]

/-- What may take a converter needs no looser level than that of converters. -/
theorem level_le_of_takesConverter {e : Expression} (h : e.takesConverter = true) : level e ≤ 5 := by
  cases e <;> simp_all [level, takesConverter]

/-- Every expression has one of the seven levels. -/
theorem level_le_six (e : Expression) : level e ≤ 6 := by
  cases e <;> simp [level]

/-- What may be assigned to needs no looser level than that of a condition. -/
theorem level_le_of_isAssignable {e : Expression} (h : e.isAssignable = true) : level e ≤ 3 := by
  cases e <;> simp_all [level, isAssignable]

/-- An operand that is not compound needs no looser level than that of signs. -/
theorem level_le_one {e : Expression} (h : e.isCompound = false) : level e ≤ 1 := by
  cases e <;> simp_all [level, isCompound]

/-- What is not compound and may take a key stands at the tightest level. -/
theorem level_eq_zero {e : Expression} (h : e.isCompound = false) (hkey : e.takesKey = true) :
    level e = 0 := by
  cases e <;> simp_all [level, isCompound, takesKey]

/-! ### Operands -/

/-- An expression in brackets is read up to the closing one. -/
theorem ReadsAt.reads_behaviors {e : Expression} (h : ReadsAt e 6) :
    Reads behaviors 9 (lexemes e) e (Next closings) := by
  intro n ts us hts hus hn
  have hbehavior : skipOperator? "&" us = none := hus.skipOperator? (by decide)
  have hend : ∀ m, behaviorsAfter (m + 1) e us = .ok (e, us) := by
    intro m
    simp only [behaviorsAfter, hbehavior]
  exact Leads.complete h hts (hus.mono (List.subset_cons_self _ _)) hend hn

/-- An operand that may take a key, in parentheses if it is compound, begins a chain of accesses. -/
theorem leadsPostfix_operand {e : Expression} (he : Canonical e) (h : ReadsAt e (level e))
    (hkey : e.takesKey = true) : LeadsPostfix (operandLexemes e (lexemes e)) e := by
  unfold operandLexemes
  split
  · exact leadsPostfix_parenthesized (h.mono he (level_le_six e)).reads_behaviors
  · next hcompound =>
    rw [level_eq_zero (Bool.not_eq_true _ ▸ hcompound) hkey] at h
    exact h

/-- An operand, in parentheses if it is compound, is read as one. -/
theorem reads_operand {e : Expression} (he : Canonical e) (h : ReadsAt e (level e)) :
    Reads unary 1 (operandLexemes e (lexemes e)) e NoPostfix := by
  unfold operandLexemes
  split
  · exact (leadsPostfix_parenthesized (h.mono he (level_le_six e)).reads_behaviors).reads_unary
  · next hcompound => exact h.mono he (level_le_one (Bool.not_eq_true _ ▸ hcompound))

/-- An operand of a binary operator binds no looser than the operator, and on the right of it tighter. -/
theorem leadsBinary_operand {e : Expression} (he : Canonical e) (h : ReadsAt e (level e)) {p : Nat}
    (hp : p < 7) (onRight : Bool) : ∃ q, LeadsBinary (binaryOperandLexemes e (lexemes e) p onRight) e q ∧ p ≤ q ∧
      (onRight = true → p < q) := by
  unfold binaryOperandLexemes
  split
  · next htight =>
    cases e with
    | binary operation left right =>
      have htight' : p < power operation ∨ p = power operation ∧ onRight = false := by
        simpa [bindsTighter] using htight
      refine ⟨power operation, h.2, by omega, fun honRight => ?_⟩
      rcases htight' with hlt | ⟨-, hleft⟩
      · exact hlt
      · rw [honRight] at hleft
        cases hleft
    | _ => cases htight
  · exact ⟨7, (reads_operand he h).leadsBinary 7, by omega, fun _ => hp⟩

/-! ### Whole expressions -/

/-- What may take a member may take a key. -/
theorem takesKey_of_takesMember {e : Expression} (h : e.takesMember = true) : e.takesKey = true := by
  cases e <;> simp_all [takesMember, takesKey]

/-- What may take arguments may take a key. -/
theorem takesKey_of_takesArguments {e : Expression} (h : e.takesArguments = true) : e.takesKey = true := by
  cases e <;> simp_all [takesArguments, takesKey]

/-- Plain arguments are read where arguments are. -/
theorem readsAt_arguments {es : List Expression} (hes : ∀ e ∈ es, Canonical e)
    (hplain : ∀ e ∈ es, e.isPlain = true) (h : ∀ e ∈ es, ReadsAt e (level e)) :
    (∀ e ∈ es, Opens (lexemes e)) ∧ ∀ e ∈ es, ReadsAt e 4 := by
  refine ⟨fun e he => opens_lexemes (hes e he), ?_⟩
  intro e he
  exact (h e he).mono (hes e he) (level_le_of_isPlain (hplain e he))

/-- The lexemes of a canonical expression are read at its level. -/
theorem readsAt_level {e : Expression} (h : Canonical e) : ReadsAt e (level e) := by
  induction h with
  | accessThis ancestor => exact leadsPostfix_this ancestor
  | accessScope hname => exact leadsPostfix_name hname
  | accessMember hobject hshape hname ih =>
    exact (leadsPostfix_operand hobject ih (takesKey_of_takesMember hshape)).member hshape _
  | accessKeyed hobject hshape hkey ih ihkey =>
    exact (leadsPostfix_operand hobject ih hshape).key (ihkey.mono hkey (level_le_six _)).reads_behaviors
  | callScope hname hargs hplain ih =>
    obtain ⟨hopens, hreads⟩ := readsAt_arguments hargs hplain ih
    exact leadsPostfix_callName hname hopens hreads
  | callMember hobject hshape hname hargs hplain ih ihargs =>
    obtain ⟨hopens, hreads⟩ := readsAt_arguments hargs hplain ihargs
    exact (leadsPostfix_operand hobject ih (takesKey_of_takesMember hshape)).callMember hshape _ hopens hreads
  | callFunction hfunc hshape hargs hplain ih ihargs =>
    obtain ⟨hopens, hreads⟩ := readsAt_arguments hargs hplain ihargs
    exact (leadsPostfix_operand hfunc ih (takesKey_of_takesArguments hshape)).call hshape hopens hreads
  | null => exact leadsPostfix_literal .null
  | undefined => exact leadsPostfix_literal .undefined
  | boolean value => exact leadsPostfix_literal (.boolean value)
  | string value => exact leadsPostfix_literal (.string value)
  | number hsign hfinite => exact leadsPostfix_literal (.number _)
  | arrayLiteral helements hplain ih =>
    obtain ⟨hopens, hreads⟩ := readsAt_arguments helements hplain ih
    exact leadsPostfix_array hopens hreads
  | objectLiteral hlength hkeys hvalues hplain ih =>
    obtain ⟨-, hreads⟩ := readsAt_arguments hvalues hplain ih
    exact leadsPostfix_object hlength hreads
  | unary hoperation hoperand ih => exact reads_unary_operation hoperation (reads_operand hoperand ih)
  | @binary operation left right hoperation hleft hright ihleft ihright =>
    obtain ⟨p, hp⟩ := Option.isSome_iff_exists.1 hoperation
    obtain ⟨hpos, hlt⟩ := precedence?_bounds hp
    -- The left operand may bind as tight as the operator, and the right one has to bind tighter.
    obtain ⟨q, hleads, hq, -⟩ := leadsBinary_operand hleft ihleft hlt false
    obtain ⟨r, hleads', -, hr⟩ := leadsBinary_operand hright ihright hlt true
    have hoperation := leadsBinary_operation hp hleads hq hleads' (hr rfl)
    rw [← power_eq hp] at hpos hoperation
    exact ⟨hpos, hoperation⟩
  | conditional hcondition hyes hplainYes hno hplainNo ih ihyes ihno =>
    exact reads_conditional ((reads_operand hcondition ih).leadsBinary 1) (Nat.le_refl 1)
      (ihyes.mono hyes (level_le_of_isPlain hplainYes)) (ihno.mono hno (level_le_of_isPlain hplainNo))
  | assign htarget hassignable hvalue hplain ih ihvalue =>
    exact reads_assign (ih.mono htarget (level_le_of_isAssignable hassignable)) hassignable
      (ihvalue.mono hvalue (level_le_of_isPlain hplain))
  | valueConverter hexpression hshape hname hargs hplain ih ihargs =>
    exact leads_converter (ih.mono hexpression (level_le_of_takesConverter hshape)) _
      (readsAt_arguments hargs hplain ihargs).2
  | bindingBehavior hexpression hname hargs hplain ih ihargs =>
    exact leads_behavior (ih.mono hexpression (level_le_six _)) _ (readsAt_arguments hargs hplain ihargs).2

end Grammar

open Grammar in
/-- A text with the lexemes of a canonical expression denotes it. -/
theorem parse_of_lexemes {e : Expression} (h : Canonical e) {input : String}
    (hlexemes : (tokens input).map Token.lexeme = lexemes e) : parse input = .ok e := by
  have hread := ((readsAt_level h).mono h (level_le_six e)).reads_behaviors
  obtain ⟨l, ls, hls, -⟩ := opens_lexemes h
  cases htokens : tokens input with
  | nil =>
    rw [htokens, hls] at hlexemes
    cases hlexemes
  | cons t ts =>
    rw [htokens] at hlexemes
    have hlength : (t :: ts).length = (lexemes e).length := by rw [← hlexemes, List.length_map]
    have hsteps : 16 * (lexemes e).length + 9 ≤ stepBound (t :: ts) := by
      rw [stepBound, hlength]
      omega
    have hbehaviors : behaviors (stepBound (t :: ts)) (t :: ts) = .ok (e, []) := by
      have hnext : Next closings [] := fun u hu => nomatch hu
      have hall := hread hlexemes hnext hsteps
      rwa [List.append_nil] at hall
    rw [parse, htokens]
    simp only [parseTokens, hbehaviors]
    rfl

/-- A canonical expression is read from its text. -/
theorem parse_render {e : Expression} (h : Canonical e) : parse (render e) = .ok e :=
  parse_of_lexemes h (map_lexeme_tokens_render h)

/-- The text of a canonical expression denotes it: reading undoes writing. -/
theorem read_render {e : Expression} (h : Canonical e) : read (render e) = .ok e := by
  rw [read, parse_render h]
  rfl

/-- An expression with a converter and a behavior around nested operations. -/
def shownPrice : Expression :=
  .bindingBehavior
    (.valueConverter
      (.conditional (.unary "!" (.unary "typeof" (.accessScope "total" 1)))
        (.binary "*" (.binary "+" (.accessMember (.accessScope "item" 0) "in") (.number (.ofDecimal ⟨15, -1⟩)))
          (.callMember (.accessKeyed (.accessThis 0) (.string "it's")) "get" [.unary "-" (.number .zero)]))
        (.assign (.accessScope "last" 0) (.objectLiteral ["null"] [.arrayLiteral [.literal .null]])))
      "currency" [.string "short"])
    "throttle" [.number .zero]

/-- The example is canonical. -/
theorem canonical_shownPrice : Canonical shownPrice := by
  have hzero : Canonical (.number .zero) := .number rfl (by decide +kernel)
  have hcondition : Canonical (.unary "!" (.unary "typeof" (.accessScope "total" 1))) :=
    .unary (by decide) (.unary (by decide) (.accessScope ⟨.inl ⟨"total", by decide +kernel⟩, by decide⟩))
  have hsum : Canonical (.binary "+" (.accessMember (.accessScope "item" 0) "in")
      (.number (.ofDecimal ⟨15, -1⟩))) :=
    .binary rfl
      (.accessMember (.accessScope ⟨"item", by decide +kernel⟩) rfl (.inr ⟨"in", by decide +kernel⟩))
      (.number rfl (by decide +kernel))
  have hcall : Canonical (.callMember (.accessKeyed (.accessThis 0) (.string "it's")) "get"
      [.unary "-" (.number .zero)]) :=
    .callMember (.accessKeyed (.accessThis 0) rfl (.string _)) rfl (.inl ⟨"get", by decide +kernel⟩)
      (by simpa using .unary (by decide) hzero) (by simp [isPlain])
  have hassign : Canonical (.assign (.accessScope "last" 0)
      (.objectLiteral ["null"] [.arrayLiteral [.literal .null]])) :=
    .assign (.accessScope ⟨"last", by decide +kernel⟩) rfl
      (.objectLiteral rfl (by simpa using .inr ⟨"null", by decide +kernel⟩)
        (by simpa using .arrayLiteral (by simpa using .null) (by simp [isPlain])) (by simp [isPlain])) rfl
  exact .bindingBehavior
    (.valueConverter (.conditional hcondition (.binary rfl hsum hcall) rfl hassign rfl) rfl
      (.inl ⟨"currency", by decide +kernel⟩) (by simpa using .string _) (by simp [isPlain, Expression.string]))
    (.inl ⟨"throttle", by decide +kernel⟩) (by simpa using hzero) (by simp [isPlain, Expression.number])

/-- The theorem at an expression of most kinds, with its text. -/
theorem read_render_shownPrice :
    render shownPrice = "!typeof $parent.total ? (item.in + 1.5) * $this['it\\'s'].get(-0)" ++
      " : last = \x7bnull: [null]\x7d | currency:'short' & throttle:0" ∧
    read (render shownPrice) = .ok shownPrice :=
  ⟨by decide +kernel, read_render canonical_shownPrice⟩

end ViewTemplate.Expression
