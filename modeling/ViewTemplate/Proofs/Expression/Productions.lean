import ViewTemplate.Proofs.Expression.Reading
import ViewTemplate.Proofs.Expression.Shapes

/-!
# The productions of the grammar

One lemma for each way in which an expression is put together: what the grammar reads, given what it reads
of the parts.

* `reads_elements`, `reads_objectEntries`, `reads_colonArguments` — lists of expressions.
* `LeadsPostfix.member`, `leadsBinary_operation`, `leads_converter`, … — links of a chain.
* `leadsPostfix_of_primary` — what starts a chain of accesses and calls.
-/

namespace ViewTemplate.Expression.Grammar

open ViewTemplate.Text

/-! ### Tokens of given lexemes -/

/-- The token of a last lexeme. -/
theorem map_eq_append_singleton {ts : List Token} {ls : List Lexeme} {l : Lexeme}
    (h : ts.map Token.lexeme = ls ++ [l]) :
    ∃ ts' t, ts = ts' ++ [t] ∧ ts'.map Token.lexeme = ls ∧ t.lexeme = l := by
  obtain ⟨ts', ts'', rfl, hfst, hsnd⟩ := List.map_eq_append_iff.1 h
  obtain ⟨t, us, rfl, ht, hnil⟩ := List.map_eq_cons_iff.1 hsnd
  obtain rfl := List.map_eq_nil_iff.1 hnil
  exact ⟨ts', t, rfl, hfst, ht⟩

/-- Items with commas between them open as the first of them does. -/
theorem opens_commaLexemes {ls : List Lexeme} {items : List (List Lexeme)} (h : Opens ls) :
    Opens (commaLexemes (ls :: items)) := by
  cases items with
  | nil =>
    rw [commaLexemes, List.intercalate_singleton]
    exact h
  | cons i items =>
    rw [commaLexemes, List.intercalate_cons_cons, List.append_assoc]
    exact h.append _

/-- What opens an expression closes no list. -/
theorem skipMark?_of_opens {ls : List Lexeme} {close : Char} {ts : List Token} (h : Opens ls)
    (hclose : close ∈ [')', ']', '\x7d']) (hts : ts.map Token.lexeme = ls) (us : List Token) :
    skipMark? close (ts ++ us) = none := by
  obtain ⟨l, ls, rfl, hl⟩ := h
  obtain ⟨t, ts, rfl, ht, -⟩ := List.map_eq_cons_iff.1 hts
  refine skipMark?_eq_none ?_
  rintro u ⟨⟩ heq
  rw [← ht, heq] at hl
  simp only [List.mem_cons, List.not_mem_nil, or_false] at hclose
  rcases hclose with rfl | rfl | rfl <;> cases hl

/-! ### Lists -/

/-- Items with commas between them. -/
theorem reads_separated {α : Type} {item : Nat → Read α} {separated : Nat → Read (List α)}
    (hdef : Separates item separated) {close : Char} (hclose : close ∈ [')', ']', '\x7d']) :
    ∀ {items : List (List Lexeme × α)}, items ≠ [] →
      (∀ i ∈ items, Reads item 5 i.1 i.2 (Next assignmentFollow)) →
      Reads separated 6 (commaLexemes (items.map (·.1))) (items.map (·.2)) (Next [.punctuation close])
  | [], hne, _ => absurd rfl hne
  | [i], _, hitems => by
    simp only [List.map_cons, List.map_nil, commaLexemes, List.intercalate_singleton]
    apply Reads.of_succ
    intro n ts us hts hus hn
    have hcomma : skipMark? ',' us = none := by
      refine hus.skipMark? ?_
      simp only [List.mem_cons, List.not_mem_nil, or_false] at hclose
      rcases hclose with rfl | rfl | rfl <;> decide
    have hfollow : Next assignmentFollow us := by
      refine hus.mono ?_
      simp only [List.mem_cons, List.not_mem_nil, or_false] at hclose
      rcases hclose with rfl | rfl | rfl <;> decide
    rw [hdef, hitems i List.mem_cons_self hts hfollow hn]
    simp only [bind, Except.bind, hcomma]
  | i :: j :: items, _, hitems => by
    have ih := reads_separated hdef hclose (List.cons_ne_nil j items)
      fun k hk => hitems k (List.mem_cons_of_mem i hk)
    simp only [List.map_cons, commaLexemes, List.intercalate_cons_cons, List.append_assoc,
      List.singleton_append] at ih ⊢
    apply Reads.of_succ
    intro n ts us hts hus hn
    obtain ⟨ts, ts', rfl, hfst, hsnd⟩ := List.map_eq_append_iff.1 hts
    obtain ⟨t, ts', rfl, ht, hts'⟩ := List.map_eq_cons_iff.1 hsnd
    rw [List.length_append, List.length_cons] at hn
    have hfirst : item n (ts ++ t :: (ts' ++ us)) = .ok (i.2, t :: (ts' ++ us)) :=
      hitems i List.mem_cons_self hfst (next_cons (by rw [ht]; decide) _) (by omega)
    have hothers := ih (n := n) hts' hus (by omega)
    rw [List.append_assoc, List.cons_append, hdef, hfirst]
    simp only [bind, Except.bind, skipMark?_cons ht, hothers]

/-- Items with commas between them, up to the closing mark. -/
theorem reads_enclosed {α : Type} {item : Nat → Read α} {separated enclosed : Nat → Read (List α)}
    {close : Char} (hseparated : Separates item separated) (henclosed : Encloses close separated enclosed)
    (hclose : close ∈ [')', ']', '\x7d']) (items : List (List Lexeme × α)) (hopens : ∀ i ∈ items, Opens i.1)
    (hitems : ∀ i ∈ items, Reads item 5 i.1 i.2 (Next assignmentFollow)) :
    Reads enclosed 7 (commaLexemes (items.map (·.1)) ++ [.punctuation close]) (items.map (·.2))
      fun _ => True := by
  apply Reads.of_succ
  intro n ts us hts hus hn
  obtain ⟨ts, t, rfl, hitemTokens, ht⟩ := map_eq_append_singleton hts
  rw [List.length_append, List.length_singleton] at hn
  rw [List.append_assoc, List.singleton_append, henclosed]
  cases items with
  | nil =>
    obtain rfl : ts = [] := List.map_eq_nil_iff.1 hitemTokens
    rw [List.nil_append, skipMark?_cons ht]
    rfl
  | cons i items =>
    have hskip : skipMark? close (ts ++ t :: us) = none :=
      skipMark?_of_opens (opens_commaLexemes (hopens i List.mem_cons_self)) hclose hitemTokens _
    have hread := reads_separated hseparated hclose (List.cons_ne_nil i items) hitems (n := n) hitemTokens
      (next_cons (by rw [ht]; exact List.mem_cons_self) us) (by omega)
    rw [hskip, hread]
    simp only [bind, Except.bind, expectMark_cons ht]

/-- The arguments of a call, or the elements of an array. -/
theorem reads_elements {es : List Expression} {close : Char} (hclose : close ∈ [')', ']'])
    (hopens : ∀ e ∈ es, Opens (lexemes e)) (hes : ∀ e ∈ es, ReadsAt e 4) :
    Reads (elements · close) 7 (commaLexemes (lexemesAll es) ++ [.punctuation close]) es fun _ => True := by
  have h := reads_enclosed separates_commaSeparated (encloses_elements close)
    (List.mem_append_left ['\x7d'] hclose) (es.map fun e => (lexemes e, e)) ?_ ?_
  · rw [lexemesAll_eq_map]
    simpa only [List.map_map, Function.comp_def, List.map_id'] using h
  · intro i hi
    obtain ⟨e, he, rfl⟩ := List.mem_map.1 hi
    exact hopens e he
  · intro i hi
    obtain ⟨e, he, rfl⟩ := List.mem_map.1 hi
    exact hes e he

/-- A key with its value. -/
theorem reads_objectEntry {k : String} {e : Expression} (h : ReadsAt e 4) :
    Reads objectEntry 5 (.ofWord k :: .punctuation ':' :: lexemes e) (k, e) (Next assignmentFollow) := by
  apply Reads.of_succ
  intro n ts us hts hus hn
  obtain ⟨t, ts, rfl, ht, hts⟩ := List.map_eq_cons_iff.1 hts
  obtain ⟨u, ts, rfl, hu, hts⟩ := List.map_eq_cons_iff.1 hts
  rw [List.length_cons, List.length_cons] at hn
  have hkey : objectKey? t = some k := by
    unfold Lexeme.ofWord at ht
    split at ht <;> simp [objectKey?, ht]
  have hvalue : assignment n (ts ++ us) = .ok (e, us) := h hts hus (by omega)
  simp only [List.cons_append, objectEntry, hkey, skipMark?_cons hu, hvalue]
  rfl

/-- The entries of an object. -/
theorem reads_objectEntries {keys : List String} {es : List Expression} (hes : ∀ e ∈ es, ReadsAt e 4) :
    Reads objectEntries 7 (entryLexemes keys (lexemesAll es) ++ [.punctuation '\x7d']) (keys.zip es)
      fun _ => True := by
  have h := reads_enclosed separates_entriesSeparated encloses_objectEntries (by decide)
    ((keys.zip es).map fun (k, e) => (.ofWord k :: .punctuation ':' :: lexemes e, (k, e))) ?_ ?_
  · rw [lexemesAll_eq_map, entryLexemes, List.zip_map_right]
    simpa only [List.map_map, Function.comp_def, Prod.map, id, List.map_id'] using h
  · intro i hi
    obtain ⟨⟨k, e⟩, -, rfl⟩ := List.mem_map.1 hi
    exact ⟨_, _, rfl, opens_ofWord k⟩
  · intro i hi
    obtain ⟨⟨k, e⟩, hmem, rfl⟩ := List.mem_map.1 hi
    exact reads_objectEntry (hes e (List.of_mem_zip hmem).2)

/-- Arguments with a colon before each. -/
theorem reads_colonArguments : ∀ {es : List Expression}, (∀ e ∈ es, ReadsAt e 4) →
    Reads colonArguments 6 (colonLexemes (lexemesAll es)) es (Next converterFollow)
  | [], _ => by
    apply Reads.of_succ
    intro n ts us hts hus hn
    obtain rfl := List.map_eq_nil_iff.1 hts
    simp only [List.nil_append, colonArguments, hus.skipMark? (show Lexeme.punctuation ':' ∉ _ by decide)]
  | e :: es, hes => by
    have ih := reads_colonArguments fun d hd => hes d (List.mem_cons_of_mem e hd)
    simp only [lexemesAll, colonLexemes, List.flatMap_cons, List.cons_append] at ih ⊢
    apply Reads.of_succ
    intro n ts us hts hus hn
    obtain ⟨t, ts, rfl, ht, hts⟩ := List.map_eq_cons_iff.1 hts
    obtain ⟨ts, ts', rfl, harg, hothers⟩ := List.map_eq_append_iff.1 hts
    rw [List.length_cons, List.length_append] at hn
    have hfollow : Next assignmentFollow (ts' ++ us) := by
      cases es with
      | nil =>
        obtain rfl := List.map_eq_nil_iff.1 hothers
        exact hus.mono (by decide)
      | cons d es =>
        simp only [lexemesAll, List.flatMap_cons, List.cons_append] at hothers
        obtain ⟨u, ts', rfl, hu, -⟩ := List.map_eq_cons_iff.1 hothers
        exact next_cons (by rw [hu]; decide) _
    have harg' : assignment n (ts ++ (ts' ++ us)) = .ok (e, ts' ++ us) :=
      hes e List.mem_cons_self harg hfollow (by omega)
    have hothers' : colonArguments n (ts' ++ us) = .ok (es, us) := ih hothers hus (by omega)
    simp only [List.cons_append, List.append_assoc, colonArguments, skipMark?_cons ht, harg']
    simp only [bind, Except.bind, hothers']

/-! ### Accesses and calls -/

/-- A point may follow what takes a member. -/
theorem mayPrecede_point {e : Expression} {t : Token} (he : e.takesMember = true)
    (ht : t.lexeme = .punctuation '.') (us : List Token) : MayPrecede e (t :: us) := by
  have hcall : skipMark? '(' (t :: us) = none := by simp [skipMark?, Token.isPunctuation, ht]
  cases e <;> first | exact hcall | trivial

/-- A bracket may follow whatever it follows. -/
theorem mayPrecede_key {e : Expression} {t : Token} (ht : t.lexeme = .punctuation '[') (us : List Token) :
    MayPrecede e (t :: us) := by
  have hcall : skipMark? '(' (t :: us) = none := by simp [skipMark?, Token.isPunctuation, ht]
  have hpoint : skipMark? '.' (t :: us) = none := by simp [skipMark?, Token.isPunctuation, ht]
  cases e <;> first | exact hcall | exact hpoint | trivial

/-- A parenthesis may follow what takes arguments. -/
theorem mayPrecede_call {e : Expression} {t : Token} (he : e.takesArguments = true)
    (ht : t.lexeme = .punctuation '(') (us : List Token) : MayPrecede e (t :: us) := by
  have hpoint : skipMark? '.' (t :: us) = none := by simp [skipMark?, Token.isPunctuation, ht]
  cases e <;> first | exact hpoint | trivial

/-- A member of an object. -/
theorem LeadsPostfix.member {ls : List Lexeme} {e : Expression} (h : LeadsPostfix ls e)
    (he : e.takesMember = true) (name : String) :
    LeadsPostfix (ls ++ [.punctuation '.', .ofWord name]) (.accessMember e name) := by
  refine Leads.extend h (by simp) (fun ts us hts hus => ?_) (fun m ts us hts hus hm => ?_)
  · obtain ⟨t, ts, rfl, ht, hts⟩ := List.map_eq_cons_iff.1 hts
    exact mayPrecede_point he ht _
  · obtain ⟨t, ts, rfl, ht, hts⟩ := List.map_eq_cons_iff.1 hts
    obtain ⟨u, ts, rfl, hu, hts⟩ := List.map_eq_cons_iff.1 hts
    obtain rfl := List.map_eq_nil_iff.1 hts
    have hcall : skipMark? '(' us = none := hus
    simp only [List.cons_append, List.nil_append, postfixesAfter, skipMark?_cons ht, expectWord_cons hu]
    simp only [bind, Except.bind, hcall]

/-- A call of a member of an object. -/
theorem LeadsPostfix.callMember {ls : List Lexeme} {e : Expression} (h : LeadsPostfix ls e)
    (he : e.takesMember = true) (name : String) {es : List Expression} (hopens : ∀ d ∈ es, Opens (lexemes d))
    (hes : ∀ d ∈ es, ReadsAt d 4) :
    LeadsPostfix (ls ++ .punctuation '.' :: .ofWord name :: .punctuation '(' ::
      (commaLexemes (lexemesAll es) ++ [.punctuation ')'])) (.callMember e name es) := by
  refine Leads.extend h (by simp) (fun ts us hts hus => ?_) (fun m ts us hts hus hm => ?_)
  · obtain ⟨t, ts, rfl, ht, hts⟩ := List.map_eq_cons_iff.1 hts
    exact mayPrecede_point he ht _
  · obtain ⟨t, ts, rfl, ht, hts⟩ := List.map_eq_cons_iff.1 hts
    obtain ⟨u, ts, rfl, hu, hts⟩ := List.map_eq_cons_iff.1 hts
    obtain ⟨v, ts, rfl, hv, hts⟩ := List.map_eq_cons_iff.1 hts
    simp only [List.length_cons] at hm
    have hargs : elements m ')' (ts ++ us) = .ok (es, us) :=
      reads_elements (by decide) hopens hes hts trivial (by omega)
    simp only [List.cons_append, postfixesAfter, skipMark?_cons ht, expectWord_cons hu]
    simp only [bind, Except.bind, skipMark?_cons hv, hargs]

/-- A keyed access. -/
theorem LeadsPostfix.key {ls : List Lexeme} {e key : Expression} (h : LeadsPostfix ls e)
    (hkey : Reads behaviors 9 (lexemes key) key (Next closings)) :
    LeadsPostfix (ls ++ .punctuation '[' :: (lexemes key ++ [.punctuation ']'])) (.accessKeyed e key) := by
  refine Leads.extend h (by simp) (fun ts us hts hus => ?_) (fun m ts us hts hus hm => ?_)
  · obtain ⟨t, ts, rfl, ht, hts⟩ := List.map_eq_cons_iff.1 hts
    exact mayPrecede_key ht _
  · obtain ⟨t, ts, rfl, ht, hts⟩ := List.map_eq_cons_iff.1 hts
    obtain ⟨ts, u, rfl, hts, hu⟩ := map_eq_append_singleton hts
    simp only [List.length_cons, List.length_append] at hm
    have hread : behaviors m (ts ++ u :: us) = .ok (key, u :: us) :=
      hkey hts (next_cons (by rw [hu]; decide) us) (by omega)
    have hpoint : skipMark? '.' (t :: (ts ++ u :: us)) = none := by simp [skipMark?, Token.isPunctuation, ht]
    simp only [List.cons_append, List.append_assoc, List.nil_append, postfixesAfter, hpoint,
      skipMark?_cons ht, hread]
    simp only [bind, Except.bind, expectMark_cons hu]

/-- A call of what an expression denotes. -/
theorem LeadsPostfix.call {ls : List Lexeme} {e : Expression} (h : LeadsPostfix ls e)
    (he : e.takesArguments = true) {es : List Expression} (hopens : ∀ d ∈ es, Opens (lexemes d))
    (hes : ∀ d ∈ es, ReadsAt d 4) :
    LeadsPostfix (ls ++ .punctuation '(' :: (commaLexemes (lexemesAll es) ++ [.punctuation ')']))
      (.callFunction e es) := by
  refine Leads.extend h (by simp) (fun ts us hts hus => ?_) (fun m ts us hts hus hm => ?_)
  · obtain ⟨t, ts, rfl, ht, hts⟩ := List.map_eq_cons_iff.1 hts
    exact mayPrecede_call he ht _
  · obtain ⟨t, ts, rfl, ht, hts⟩ := List.map_eq_cons_iff.1 hts
    simp only [List.length_cons] at hm
    have hargs : elements m ')' (ts ++ us) = .ok (es, us) :=
      reads_elements (by decide) hopens hes hts trivial (by omega)
    have hpoint : skipMark? '.' (t :: (ts ++ us)) = none := by simp [skipMark?, Token.isPunctuation, ht]
    have hkey : skipMark? '[' (t :: (ts ++ us)) = none := by simp [skipMark?, Token.isPunctuation, ht]
    simp only [List.cons_append, postfixesAfter, hpoint, hkey, skipMark?_cons ht, hargs]
    rfl

/-! ### Converters and behaviors -/

/-- A name with arguments behind an operator: one more link of a chain of converters or of behaviors. -/
theorem leads_appended {read : Nat → Read Expression} {after : Nat → Expression → Read Expression} {slack : Nat}
    {symbol : String} {build : Expression → String → List Expression → Expression} {allowed : List Lexeme}
    (hdef : Appends symbol build after) (hsymbol : .operator symbol ∈ allowed) (hallowed : allowed ⊆ converterFollow)
    {ls : List Lexeme} {e : Expression} (h : Leads read after slack ls e (Next allowed)) (name : String)
    {es : List Expression} (hes : ∀ d ∈ es, ReadsAt d 4) :
    Leads read after slack (ls ++ .operator symbol :: .ofWord name :: colonLexemes (lexemesAll es))
      (build e name es) (Next allowed) := by
  refine Leads.extend h (by simp) (fun ts us hts hus => ?_) (fun m ts us hts hus hm => ?_)
  · obtain ⟨t, ts, rfl, ht, hts⟩ := List.map_eq_cons_iff.1 hts
    exact next_cons (by rwa [ht]) _
  · obtain ⟨t, ts, rfl, ht, hts⟩ := List.map_eq_cons_iff.1 hts
    obtain ⟨u, ts, rfl, hu, hts⟩ := List.map_eq_cons_iff.1 hts
    simp only [List.length_cons] at hm
    have hargs : colonArguments m (ts ++ us) = .ok (es, us) :=
      reads_colonArguments hes hts (hus.mono hallowed) (by omega)
    simp only [List.cons_append, hdef m, skipOperator?_cons ht, expectWord_cons hu]
    simp only [bind, Except.bind, hargs]

/-- A converter of an expression. -/
theorem leads_converter {ls : List Lexeme} {e : Expression}
    (h : Leads converters convertersAfter 6 ls e (Next converterFollow)) (name : String)
    {es : List Expression} (hes : ∀ d ∈ es, ReadsAt d 4) :
    Leads converters convertersAfter 6 (ls ++ .operator "|" :: .ofWord name :: colonLexemes (lexemesAll es))
      (.valueConverter e name es) (Next converterFollow) :=
  leads_appended appends_convertersAfter List.mem_cons_self (List.Subset.refl _) h name hes

/-- A behavior of an expression. -/
theorem leads_behavior {ls : List Lexeme} {e : Expression}
    (h : Leads behaviors behaviorsAfter 8 ls e (Next behaviorFollow)) (name : String)
    {es : List Expression} (hes : ∀ d ∈ es, ReadsAt d 4) :
    Leads behaviors behaviorsAfter 8 (ls ++ .operator "&" :: .ofWord name :: colonLexemes (lexemesAll es))
      (.bindingBehavior e name es) (Next behaviorFollow) :=
  leads_appended appends_behaviorsAfter List.mem_cons_self (List.subset_cons_self _ _) h name hes

/-! ### Operations -/

/-- The lexeme of an operator with a precedence is taken for that operator. -/
theorem binaryOperator?_eq {t : Token} {operation : String} {p : Nat}
    (ht : t.lexeme = operatorLexeme operation) (hp : precedence? operation = some p) : binaryOperator? t = some (operation, p) := by
  unfold operatorLexeme at ht
  split at ht <;> simp [binaryOperator?, ht, hp]

/-- An operator leads on to no access and no call. -/
theorem noPostfix_operator {t : Token} {operation : String} (ht : t.lexeme = operatorLexeme operation)
    (us : List Token) : NoPostfix (t :: us) := by
  rintro u ⟨⟩
  rw [ht]
  unfold operatorLexeme
  split <;> simp

/-- A binary operation, whose left operand binds no looser and whose right operand binds tighter. -/
theorem leadsBinary_operation {ls rs : List Lexeme} {left right : Expression} {operation : String}
    {p q r : Nat} (hp : precedence? operation = some p) (hleft : LeadsBinary ls left q) (hq : p ≤ q)
    (hright : LeadsBinary rs right r) (hr : p < r) :
    LeadsBinary (ls ++ operatorLexeme operation :: rs) (.binary operation left right) p := by
  intro least hleast
  refine Leads.extend (hleft least (by omega)) (by simp) (fun ts us hts hus => ?_)
    (fun m ts us hts hus hm => ?_)
  · obtain ⟨t, ts, rfl, ht, hts⟩ := List.map_eq_cons_iff.1 hts
    refine ⟨noPostfix_operator ht _, ?_⟩
    rintro u ⟨⟩ o ho
    rw [binaryOperator?_eq ht hp] at ho
    cases ho
    exact hq
  · obtain ⟨t, ts, rfl, ht, hts⟩ := List.map_eq_cons_iff.1 hts
    rw [List.length_cons] at hm
    have hoperand : binary m (p + 1) (ts ++ us) = .ok (right, us) :=
      hright.read hr (Nat.lt_succ_self p) hts hus.1 hus.2 (by omega)
    simp only [List.cons_append, binaryAfter, binaryOperator?_eq ht hp]
    rw [if_neg (by omega), hoperand]
    rfl

/-- A unary operation. -/
theorem reads_unary_operation {ls : List Lexeme} {operand : Expression} {operation : String}
    (hoperation : operation ∈ ["!", "-", "+", "typeof", "void"]) (h : Reads unary 1 ls operand NoPostfix) :
    Reads unary 1 (operatorLexeme operation :: ls) (.unary operation operand) NoPostfix := by
  apply Reads.of_succ
  intro n ts us hts hus hn
  obtain ⟨t, ts, rfl, ht, hts⟩ := List.map_eq_cons_iff.1 hts
  rw [List.length_cons] at hn
  have hoperator : unaryOperator? t = some operation := by
    simp only [List.mem_cons, List.not_mem_nil, or_false] at hoperation
    rcases hoperation with rfl | rfl | rfl | rfl | rfl <;> rw [unaryOperator?, ht] <;> decide
  have hoperand : unary n (ts ++ us) = .ok (operand, us) := h hts hus (by omega)
  simp only [List.cons_append, unary, hoperator, hoperand]
  rfl

/-- A conditional. -/
theorem reads_conditional {ls : List Lexeme} {condition yes no : Expression} {p : Nat}
    (hcondition : LeadsBinary ls condition p) (hp : 1 ≤ p) (hyes : ReadsAt yes 4) (hno : ReadsAt no 4) :
    Reads assignment 5 (ls ++ .operator "?" :: (lexemes yes ++ .punctuation ':' :: lexemes no))
      (.conditional condition yes no) (Next assignmentFollow) := by
  intro n ts us hts hus hn
  obtain ⟨cs, ts, rfl, hcs, hts⟩ := List.map_eq_append_iff.1 hts
  obtain ⟨t, ts, rfl, ht, hts⟩ := List.map_eq_cons_iff.1 hts
  obtain ⟨ys, ts, rfl, hys, hts⟩ := List.map_eq_append_iff.1 hts
  obtain ⟨u, ns, rfl, hu, hns⟩ := List.map_eq_cons_iff.1 hts
  simp only [List.length_append, List.length_cons] at hn
  obtain ⟨n, rfl⟩ : ∃ n', n = n' + 2 := ⟨n - 2, by omega⟩
  have hnext : Next conditionFollow (t :: (ys ++ u :: (ns ++ us))) := next_cons (by rw [ht]; decide) _
  have hread : binary n 1 (cs ++ t :: (ys ++ u :: (ns ++ us))) =
      .ok (condition, t :: (ys ++ u :: (ns ++ us))) :=
    hcondition.read hp Nat.zero_lt_one hcs hnext.noPostfix (hnext.bindsAtMost 0) (by omega)
  have hyes' : assignment n (ys ++ u :: (ns ++ us)) = .ok (yes, u :: (ns ++ us)) :=
    hyes hys (next_cons (by rw [hu]; decide) _) (by omega)
  have hno' : assignment n (ns ++ us) = .ok (no, us) := hno hns hus (by omega)
  have hvalue : skipOperator? "=" us = none := hus.skipOperator? (by decide)
  simp only [List.append_assoc, List.cons_append, assignment, conditional, hread]
  simp only [bind, Except.bind, skipOperator?_cons ht, hyes', expectMark_cons hu, hno', hvalue]

/-- An assignment. -/
theorem reads_assign {target value : Expression} (htarget : ReadsAt target 3)
    (hassignable : target.isAssignable = true) (hvalue : ReadsAt value 4) :
    Reads assignment 5 (lexemes target ++ .operator "=" :: lexemes value) (.assign target value)
      (Next assignmentFollow) := by
  apply Reads.of_succ
  intro n ts us hts hus hn
  obtain ⟨cs, ts, rfl, hcs, hts⟩ := List.map_eq_append_iff.1 hts
  obtain ⟨t, vs, rfl, ht, hvs⟩ := List.map_eq_cons_iff.1 hts
  simp only [List.length_append, List.length_cons] at hn
  have hread : conditional n (cs ++ t :: (vs ++ us)) = .ok (target, t :: (vs ++ us)) :=
    htarget hcs (next_cons (by rw [ht]; decide) _) (by omega)
  have hvalue' : assignment n (vs ++ us) = .ok (value, us) := hvalue hvs hus (by omega)
  simp only [List.append_assoc, List.cons_append, assignment, hread]
  simp only [bind, Except.bind, skipOperator?_cons ht, hassignable, if_true, hvalue']

/-! ### Primary expressions -/

/-- A primary expression starts a chain of accesses and calls. -/
theorem leadsPostfix_of_primary {l : Lexeme} {ls : List Lexeme} {e : Expression}
    (hl : ∀ t : Token, t.lexeme = l → unaryOperator? t = none)
    (hprimary : ∀ ⦃n t ts us⦄, t.lexeme = l → ts.map Token.lexeme = ls → MayPrecede e us →
      16 * ls.length + 13 ≤ n → primary (n + 1) (t :: (ts ++ us)) = .ok (e, us)) :
    LeadsPostfix (l :: ls) e := by
  intro k n ts us hts hus hn
  obtain ⟨t, ts, rfl, ht, hts⟩ := List.map_eq_cons_iff.1 hts
  rw [List.length_cons] at hn
  obtain ⟨n, rfl⟩ : ∃ n', n = n' + 3 := ⟨n - 3, by omega⟩
  have hread : primary (n + 1) (t :: (ts ++ us)) = .ok (e, us) := hprimary ht hts hus (by omega)
  refine ⟨n + 1, by omega, ?_⟩
  simp only [List.cons_append, unary, hl t ht, postfixed, hread]
  rfl

/-- An expression in parentheses. -/
theorem leadsPostfix_parenthesized {ls : List Lexeme} {e : Expression}
    (h : Reads behaviors 9 ls e (Next closings)) :
    LeadsPostfix (.punctuation '(' :: (ls ++ [.punctuation ')'])) e := by
  refine leadsPostfix_of_primary (fun t ht => by simp [unaryOperator?, ht]) fun n t ts us ht hts hus hn => ?_
  obtain ⟨ts, u, rfl, hts, hu⟩ := map_eq_append_singleton hts
  rw [List.length_append, List.length_singleton] at hn
  have hread : behaviors n (ts ++ u :: us) = .ok (e, u :: us) :=
    h hts (next_cons (by rw [hu]; decide) us) (by omega)
  simp only [List.append_assoc, List.singleton_append, primary, ht, if_true, hread]
  simp only [bind, Except.bind, expectMark_cons hu]

/-- A literal other than an array or an object. -/
theorem leadsPostfix_literal (value : Literal) : LeadsPostfix [literalLexeme value] (.literal value) := by
  refine leadsPostfix_of_primary (fun t ht => ?_) fun n t ts us ht hts hus hn => ?_
  · rcases value with _ | _ | (_ | _) | _ | _ <;> simp [unaryOperator?, ht, literalLexeme]
  · obtain rfl := List.map_eq_nil_iff.1 hts
    rcases value with _ | _ | (_ | _) | _ | _ <;>
      simp [primary, ht, literalLexeme, keywordLiteral?, Expression.number, Expression.string]

/-- An array. -/
theorem leadsPostfix_array {es : List Expression} (hopens : ∀ e ∈ es, Opens (lexemes e))
    (hes : ∀ e ∈ es, ReadsAt e 4) :
    LeadsPostfix (.punctuation '[' :: (commaLexemes (lexemesAll es) ++ [.punctuation ']']))
      (.arrayLiteral es) := by
  refine leadsPostfix_of_primary (fun t ht => by simp [unaryOperator?, ht]) fun n t ts us ht hts hus hn => ?_
  have hread : elements n ']' (ts ++ us) = .ok (es, us) :=
    reads_elements (by decide) hopens hes hts trivial (by omega)
  simp only [primary, ht, hread]
  rfl

/-- An object. -/
theorem leadsPostfix_object {keys : List String} {es : List Expression} (hlength : keys.length = es.length)
    (hes : ∀ e ∈ es, ReadsAt e 4) :
    LeadsPostfix (.punctuation '\x7b' :: (entryLexemes keys (lexemesAll es) ++ [.punctuation '\x7d']))
      (.objectLiteral keys es) := by
  refine leadsPostfix_of_primary (fun t ht => by simp [unaryOperator?, ht]) fun n t ts us ht hts hus hn => ?_
  have hread : objectEntries n (ts ++ us) = .ok (keys.zip es, us) :=
    reads_objectEntries hes hts trivial (by omega)
  have hkeys : (keys.zip es).map (·.1) = keys := List.map_fst_zip (Nat.le_of_eq hlength)
  have hvalues : (keys.zip es).map (·.2) = es := List.map_snd_zip (Nat.le_of_eq hlength.symm)
  simp only [primary, ht, hread]
  simp only [bind, Except.bind, hkeys, hvalues]
  rfl

/-! ### Scopes -/

/-- Without a point there is no chain of `$parent`. -/
theorem parentChain_eq_zero {us : List Token} (h : skipMark? '.' us = none) : parentChain us = (0, us) := by
  match us with
  | [] => rfl
  | [t] => rfl
  | t :: u :: us =>
    have ht : t.isPunctuation '.' = false := by
      simpa [skipMark?] using h
    simp [parentChain, ht]

/-- Steps outward are counted one by one. -/
theorem parentChain_append {us : List Token} {count : Nat} {rest : List Token}
    (h : parentChain us = (count, rest)) : ∀ {n : Nat} {ts : List Token},
    ts.map Token.lexeme = parentLexemes n → parentChain (ts ++ us) = (n + count, rest)
  | 0, ts, hts => by
    obtain rfl := List.map_eq_nil_iff.1 hts
    simpa using h
  | n + 1, ts, hts => by
    obtain ⟨t, ts, rfl, ht, hts⟩ := List.map_eq_cons_iff.1 hts
    obtain ⟨u, ts, rfl, hu, hts⟩ := List.map_eq_cons_iff.1 hts
    have ih := parentChain_append h hts
    simp [parentChain, Token.isPunctuation, Token.isKeyword, ht, hu, ih]
    omega

/-- Without a point the scope itself is meant. -/
theorem scopeAccess_this {us : List Token} (h : skipMark? '.' us = none) (n ancestor : Nat) :
    scopeAccess (n + 1) ancestor us = .ok (.accessThis ancestor, us) := by
  match us with
  | [] => simp only [scopeAccess]
  | [t] => simp only [scopeAccess]
  | t :: u :: us =>
    have ht : t.isPunctuation '.' = false := by
      simpa [skipMark?] using h
    simp only [scopeAccess, ht]

/-- A scope itself. -/
theorem leadsPostfix_this (ancestor : Nat) : LeadsPostfix (scopeLexemes ancestor) (.accessThis ancestor) := by
  cases ancestor with
  | zero =>
    refine leadsPostfix_of_primary (fun t ht => by simp [unaryOperator?, ht]) fun n t ts us ht hts hus hn => ?_
    obtain rfl := List.map_eq_nil_iff.1 hts
    obtain ⟨n, rfl⟩ : ∃ n', n = n' + 1 := ⟨n - 1, by omega⟩
    simp [primary, ht, keywordLiteral?, parentChain_eq_zero hus, scopeAccess_this hus]
  | succ count =>
    refine leadsPostfix_of_primary (fun t ht => by simp [unaryOperator?, ht]) fun n t ts us ht hts hus hn => ?_
    obtain ⟨n, rfl⟩ : ∃ n', n = n' + 1 := ⟨n - 1, by omega⟩
    have hchain := parentChain_append (parentChain_eq_zero hus) hts
    simp [primary, ht, keywordLiteral?, hchain, scopeAccess_this hus]

/-- A name of a scope, and what follows it. -/
theorem leadsPostfix_scoped {name : String} {ancestor : Nat} {ls : List Lexeme} {e : Expression}
    (hname : IsScopeName name ancestor)
    (h : ∀ ⦃n ts us⦄, ts.map Token.lexeme = ls → MayPrecede e us → 16 * ls.length + 9 ≤ n →
      scopeName n name ancestor (ts ++ us) = .ok (e, us)) :
    LeadsPostfix (scopedLexemes name ancestor ++ ls) e := by
  cases ancestor with
  | zero =>
    have hword : Lexeme.ofWord name = .identifier name := (IsIdentifier.isWordText hname).2
    rw [scopedLexemes, if_pos rfl, List.singleton_append, hword]
    refine leadsPostfix_of_primary (fun t ht => by simp [unaryOperator?, ht]) fun n t ts us ht hts hus hn => ?_
    have hread : scopeName n name 0 (ts ++ us) = .ok (e, us) := h hts hus (by omega)
    simp only [primary, ht, hread]
  | succ count =>
    obtain ⟨-, hparent⟩ : IsMemberName name ∧ name ≠ "$parent" := hname
    rw [scopedLexemes, if_neg (Nat.succ_ne_zero count), scopeLexemes, List.append_assoc, List.cons_append]
    refine leadsPostfix_of_primary (fun t ht => by simp [unaryOperator?, ht]) fun n t ts us ht hts hus hn => ?_
    obtain ⟨ps, ts, rfl, hps, hts⟩ := List.map_eq_append_iff.1 hts
    obtain ⟨u, ts, rfl, hu, hts⟩ := List.map_eq_cons_iff.1 hts
    obtain ⟨v, ts, rfl, hv, hts⟩ := List.map_eq_cons_iff.1 hts
    simp only [List.length_append, List.length_cons] at hn
    obtain ⟨n, rfl⟩ : ∃ n', n = n' + 1 := ⟨n - 1, by omega⟩
    -- The name is not `$parent`, so the steps outward end before it.
    have hkeyword : v.isKeyword "$parent" = false := by
      unfold Lexeme.ofWord at hv
      split at hv <;> simp [Token.isKeyword, hv, hparent]
    have hend : parentChain (u :: v :: (ts ++ us)) = (0, u :: v :: (ts ++ us)) := by
      simp [parentChain, hkeyword]
    have hread : scopeName n name (count + 1) (ts ++ us) = .ok (e, us) := h hts hus (by omega)
    have haccess : scopeAccess (n + 1) (count + 1) (u :: v :: (ts ++ us)) = .ok (e, us) := by
      simp only [scopeAccess, Token.isPunctuation, hu, decide_true, word?_eq hv, hread]
    simp only [List.append_assoc, List.cons_append, primary, ht, keywordLiteral?, parentChain_append hend hps]
    simpa using haccess

/-- A name of a scope. -/
theorem leadsPostfix_name {name : String} {ancestor : Nat} (hname : IsScopeName name ancestor) :
    LeadsPostfix (scopedLexemes name ancestor) (.accessScope name ancestor) := by
  rw [← List.append_nil (scopedLexemes name ancestor)]
  refine leadsPostfix_scoped hname fun n ts us hts hus hn => ?_
  obtain rfl := List.map_eq_nil_iff.1 hts
  obtain ⟨n, rfl⟩ : ∃ n', n = n' + 1 := ⟨n - 1, by omega⟩
  have hcall : skipMark? '(' us = none := hus
  simp only [List.nil_append, scopeName, hcall]

/-- A call of a name of a scope. -/
theorem leadsPostfix_callName {name : String} {ancestor : Nat} (hname : IsScopeName name ancestor)
    {es : List Expression} (hopens : ∀ e ∈ es, Opens (lexemes e)) (hes : ∀ e ∈ es, ReadsAt e 4) :
    LeadsPostfix (scopedLexemes name ancestor ++ .punctuation '(' ::
      (commaLexemes (lexemesAll es) ++ [.punctuation ')'])) (.callScope name es ancestor) := by
  refine leadsPostfix_scoped hname fun n ts us hts hus hn => ?_
  obtain ⟨t, ts, rfl, ht, hts⟩ := List.map_eq_cons_iff.1 hts
  rw [List.length_cons] at hn
  obtain ⟨n, rfl⟩ : ∃ n', n = n' + 1 := ⟨n - 1, by omega⟩
  have hread : elements n ')' (ts ++ us) = .ok (es, us) :=
    reads_elements (by decide) hopens hes hts trivial (by omega)
  simp only [List.cons_append, scopeName, skipMark?_cons ht, hread]
  rfl

end ViewTemplate.Expression.Grammar
