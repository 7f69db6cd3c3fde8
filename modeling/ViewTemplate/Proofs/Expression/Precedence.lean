import ViewTemplate.Proofs.Expression.RoundTrip
import ViewTemplate.Proofs.Expression.Spelling

/-!
# Chains of operations

What a text of operands with binary operators between them denotes.  Of the trees with these operands and operators
in order, one respects precedence: an operation on the left of another binds at least as tight, and on the right
tighter.  The tree is grown by hanging one operation after another into its right edge, and the text is read as it.

* `Chain` — operands with signs before them, and binary operators between them.
* `inOrder` — the operands and operators of a tree from left to right; `RespectsPrecedence` — how they may nest.
* `attach` — a tree with one more operation; `Chain.tree` — the tree of a chain.
* `read_chain` — the text of a chain denotes its tree, and no other respects precedence.
-/

namespace ViewTemplate.Expression

open ViewTemplate.Text

/-! ### Chains -/

/-- A unary operator and the spaces after it, which a word needs. -/
structure Sign where
  operation : String
  gap : String
  known : operation ∈ ["!", "-", "+", "typeof", "void"]
  spaces : ∀ c ∈ gap.toList, isSpace c = true
  apart : operation ∈ keywords → gap ≠ ""

/-- An identifier with signs before it. -/
structure Operand where
  signs : List Sign
  name : String
  isIdentifier : IsIdentifier name

/-- A binary operator and the operand after it. -/
structure Link where
  operation : String
  operand : Operand
  known : (precedence? operation).isSome = true

/-- An operand, and any number of operators with operands after them. -/
structure Chain where
  first : Operand
  links : List Link

/-- A sign as it stands in a text. -/
def Sign.text (s : Sign) : String :=
  s.operation ++ s.gap

/-- The signs of an operand and then its name. -/
def Operand.text (p : Operand) : String :=
  String.join (p.signs.map Sign.text) ++ p.name

/-- The first sign of an operand is the outermost operation. -/
def Operand.expression (p : Operand) : Expression :=
  p.signs.foldr (fun s e => .unary s.operation e) (.accessScope p.name 0)

/-- An operator with a blank before and after it, and its operand. -/
def Link.text (k : Link) : String :=
  " " ++ k.operation ++ " " ++ k.operand.text

/-- The operands of a chain with operators between them. -/
def Chain.text (c : Chain) : String :=
  c.first.text ++ String.join (c.links.map Link.text)

/-! ### Trees -/

/-- The operands of a tree of binary operations from left to right, each but the first with its operator. -/
def inOrder : Expression → Expression × List (String × Expression)
  | .binary operation left right =>
    ((inOrder left).1, (inOrder left).2 ++ (operation, (inOrder right).1) :: (inOrder right).2)
  | e => (e, [])

/-- The operator of a binary operation. -/
def operator? : Expression → Option String
  | .binary operation _ _ => some operation
  | _ => none

/-- In every binary operation, one on its left binds at least as tight and one on its right tighter. -/
def RespectsPrecedence : Expression → Prop
  | .binary operation left right =>
    (∀ q ∈ operator? left, power operation ≤ power q) ∧ (∀ q ∈ operator? right, power operation < power q) ∧
      RespectsPrecedence left ∧ RespectsPrecedence right
  | _ => True

/-- The operands and operators of a chain in order. -/
def Chain.inOrder (c : Chain) : Expression × List (String × Expression) :=
  (c.first.expression, c.links.map fun k => (k.operation, k.operand.expression))

/-! ### Growing a tree -/

/-- Hangs one more operation into the right edge of a tree, below all that bind looser. -/
def attach (operation : String) (operand : Expression) : Expression → Expression
  | .binary q left right =>
    if power operation ≤ power q then .binary operation (.binary q left right) operand
    else .binary q left (attach operation operand right)
  | e => .binary operation e operand

/-- No operand is a binary operation. -/
theorem operator?_operand (p : Operand) : operator? p.expression = none := by
  rcases p with ⟨_ | ⟨s, signs⟩, name, hname⟩ <;> rfl

/-- What is no binary operation is a single operand. -/
theorem inOrder_of_operator? {e : Expression} (h : operator? e = none) : inOrder e = (e, []) := by
  cases e with
  | binary operation left right => cases h
  | _ => rfl

/-- The new operation comes last. -/
theorem inOrder_attach (operation : String) {operand : Expression} (hoperand : operator? operand = none)
    (e : Expression) : inOrder (attach operation operand e) =
      ((inOrder e).1, (inOrder e).2 ++ [(operation, operand)]) := by
  fun_induction attach operation operand e with
  | case1 q left right hle =>
    rw [inOrder, inOrder_of_operator? hoperand]
  | case2 q left right hle ih =>
    rw [inOrder, ih, inOrder, List.append_assoc, List.cons_append]
  | case3 e hnot =>
    rw [inOrder, inOrder_of_operator? hoperand]

/-- The outermost operator is the new one or the old one. -/
theorem operator?_attach {operation q : String} {operand e : Expression}
    (h : q ∈ operator? (attach operation operand e)) : q = operation ∨ q ∈ operator? e := by
  fun_induction attach operation operand e with
  | case1 _ left right hle => exact .inl (Option.some.inj h).symm
  | case2 _ left right hle ih => exact .inr h
  | case3 e hnot => exact .inl (Option.some.inj h).symm

/-- What is no binary operation respects precedence. -/
theorem respectsPrecedence_of_operator? {e : Expression} (h : operator? e = none) : RespectsPrecedence e := by
  cases e with
  | binary operation left right => cases h
  | _ => trivial

/-- A tree that respects precedence does so with one more operation attached. -/
theorem RespectsPrecedence.attach (operation : String) {operand e : Expression} (hoperand : operator? operand = none)
    (h : RespectsPrecedence e) : RespectsPrecedence (attach operation operand e) := by
  have hnone : ∀ q ∈ operator? operand, power operation < power q := by
    rw [hoperand]
    exact nofun
  have hrespects := respectsPrecedence_of_operator? hoperand
  fun_induction Expression.attach operation operand e with
  | case1 q left right hle =>
    refine ⟨?_, hnone, h, hrespects⟩
    rintro _ ⟨⟩
    exact hle
  | case2 q left right hlt ih =>
    obtain ⟨hleft, hright, hrespectsLeft, hrespectsRight⟩ := h
    refine ⟨hleft, ?_, hrespectsLeft, ih hrespectsRight⟩
    -- What stands on the right now is the new operation or one that stood there.
    intro q' hq'
    rcases operator?_attach hq' with rfl | hold
    · omega
    · exact hright q' hold
  | case3 e hnot =>
    refine ⟨?_, hnone, h, hrespects⟩
    intro q hq
    cases e with
    | binary q left right => exact absurd rfl (hnot q left right)
    | _ => cases hq

/-- The tree of a chain: its operations are attached from left to right. -/
def Chain.tree (c : Chain) : Expression :=
  c.links.foldl (fun e k => attach k.operation k.operand.expression e) c.first.expression

/-- What the tree of a chain holds is the chain, and it respects precedence. -/
theorem Chain.tree_spec (c : Chain) : Expression.inOrder c.tree = c.inOrder ∧ RespectsPrecedence c.tree := by
  -- Each operation is added at the end of what is there.
  have hgrow : ∀ (links : List Link) {e : Expression}, RespectsPrecedence e →
      Expression.inOrder (links.foldl (fun e k => attach k.operation k.operand.expression e) e) =
        ((Expression.inOrder e).1,
          (Expression.inOrder e).2 ++ links.map fun k => (k.operation, k.operand.expression)) ∧
      RespectsPrecedence (links.foldl (fun e k => attach k.operation k.operand.expression e) e) := by
    intro links
    induction links with
    | nil =>
      intro e he
      exact ⟨by simp, he⟩
    | cons k links ih =>
      intro e he
      have hoperand := operator?_operand k.operand
      obtain ⟨horder, hrespects⟩ := ih (he.attach k.operation hoperand)
      rw [inOrder_attach k.operation hoperand] at horder
      refine ⟨horder.trans ?_, hrespects⟩
      simp
  have hfirst := operator?_operand c.first
  obtain ⟨horder, hrespects⟩ := hgrow c.links (respectsPrecedence_of_operator? hfirst)
  rw [inOrder_of_operator? hfirst] at horder
  exact ⟨horder, hrespects⟩

/-! ### The lexemes of a chain -/

/-- Every operand is canonical. -/
theorem Operand.canonical (p : Operand) : Canonical p.expression := by
  obtain ⟨signs, name, hname⟩ := p
  unfold Operand.expression
  induction signs with
  | nil => exact .accessScope hname
  | cons s signs ih => exact .unary s.known ih

/-- No operand is compound, so none needs parentheses. -/
theorem Operand.isCompound (p : Operand) : p.expression.isCompound = false := by
  rcases p with ⟨_ | ⟨s, signs⟩, name, hname⟩ <;> rfl

/-- The lexemes of an operand are its signs and its name. -/
theorem Operand.lexemes_expression (p : Operand) :
    lexemes p.expression = p.signs.map (operatorLexeme ·.operation) ++ [.ofWord p.name] := by
  obtain ⟨signs, name, hname⟩ := p
  induction signs with
  | nil => rfl
  | cons s signs ih =>
    have hsimple := Operand.isCompound ⟨signs, name, hname⟩
    have hlexemes : lexemes (Operand.expression ⟨s :: signs, name, hname⟩) =
        operatorLexeme s.operation :: operandLexemes (Operand.expression ⟨signs, name, hname⟩)
          (lexemes (Operand.expression ⟨signs, name, hname⟩)) := by
      rw [Operand.expression, List.foldr_cons, lexemes]
      rfl
    rw [hlexemes, operandLexemes, hsimple, ih]
    rfl

/-- The lexemes of the operands and operators of a chain. -/
def Chain.lexemes (c : Chain) : List Lexeme :=
  Expression.lexemes c.first.expression ++
    c.links.flatMap fun k => operatorLexeme k.operation :: Expression.lexemes k.operand.expression

/-- What binds tight enough stands without parentheses. -/
theorem binaryOperandLexemes_of {e : Expression} {c : Chain} (hc : inOrder e = c.inOrder) (outer : Nat) (onRight : Bool)
    (h : ∀ q ∈ operator? e, outer < power q ∨ outer = power q ∧ onRight = false) (ls : List Lexeme) :
    binaryOperandLexemes e ls outer onRight = ls := by
  unfold binaryOperandLexemes
  by_cases hbinary : operator? e = none
  · rw [inOrder_of_operator? hbinary] at hc
    obtain rfl : e = c.first.expression := congrArg Prod.fst hc
    rw [operandLexemes, c.first.isCompound]
    simp
  · cases e with
    | binary q left right =>
      have htight : bindsTighter (.binary q left right) outer onRight = true := by
        simpa [bindsTighter] using h q rfl
      rw [if_pos htight]
    | _ => exact absurd rfl hbinary

/-- The chain of a binary operation is made of those of its operands. -/
theorem exists_links_of_binary {operation : String} {left right : Expression} {c : Chain}
    (hc : inOrder (.binary operation left right) = c.inOrder) : ∃ (before after : List Link) (k : Link),
      c.links = before ++ k :: after ∧ operation = k.operation ∧ inOrder left = Chain.inOrder ⟨c.first, before⟩ ∧
      inOrder right = Chain.inOrder ⟨k.operand, after⟩ := by
  rw [inOrder, Chain.inOrder, Prod.mk.injEq] at hc
  obtain ⟨hfirst, hlinks⟩ := hc
  obtain ⟨before, more, hcut, hbefore, hmore⟩ := List.map_eq_append_iff.1 hlinks.symm
  obtain ⟨k, after, rfl, hk, hafter⟩ := List.map_eq_cons_iff.1 hmore
  rw [Prod.mk.injEq] at hk
  exact ⟨before, after, k, hcut, hk.1.symm, Prod.ext hfirst hbefore.symm, Prod.ext hk.2.symm hafter.symm⟩

/-- A tree that respects precedence is canonical, and has the lexemes of the operands and operators in it. -/
theorem canonical_of_respectsPrecedence {e : Expression} {c : Chain} (hc : inOrder e = c.inOrder)
    (h : RespectsPrecedence e) : Canonical e ∧ lexemes e = c.lexemes := by
  fun_induction inOrder e generalizing c with
  | case1 operation left right ihleft ihright =>
    obtain ⟨before, after, k, hlinks, rfl, horderLeft, horderRight⟩ := exists_links_of_binary hc
    obtain ⟨hleft, hright, hrespectsLeft, hrespectsRight⟩ := h
    obtain ⟨hcanonicalLeft, hlexemesLeft⟩ := ihleft horderLeft hrespectsLeft
    obtain ⟨hcanonicalRight, hlexemesRight⟩ := ihright horderRight hrespectsRight
    refine ⟨.binary k.known hcanonicalLeft hcanonicalRight, ?_⟩
    have hbareLeft := binaryOperandLexemes_of horderLeft (power k.operation) false
      (fun q hq => (Nat.lt_or_eq_of_le (hleft q hq)).imp_right fun heq => ⟨heq, rfl⟩) (lexemes left)
    have hbareRight := binaryOperandLexemes_of horderRight (power k.operation) true
      (fun q hq => .inl (hright q hq)) (lexemes right)
    rw [lexemes, hbareLeft, hbareRight, hlexemesLeft, hlexemesRight]
    simp [Chain.lexemes, hlinks]
  | case2 e hnot =>
    obtain ⟨hfirst, hlinks⟩ := Prod.mk.inj hc
    have hnone : c.links = [] := List.map_eq_nil_iff.1 hlinks.symm
    rw [hfirst]
    refine ⟨c.first.canonical, ?_⟩
    simp [Chain.lexemes, hnone]

/-! ### The text of a chain -/

/-- A unary operator is cut off where no equals sign follows, and no part of a word if it is one. -/
theorem spells_unaryOperator {operation : String} {rest : List Char}
    (hoperation : operation ∈ ["!", "-", "+", "typeof", "void"]) (hequals : rest.head? ≠ some '=')
    (hword : operation ∈ keywords → ∀ c ∈ rest.head?, isIdentifierPart c = false) :
    Spells operation.toList (operatorLexeme operation) rest := by
  by_cases hkeyword : operation ∈ keywords
  · obtain ⟨hchars, hlexeme⟩ := isWordText_of_mem_keywords hkeyword
    rw [operatorLexeme, if_pos hkeyword, ← hlexeme]
    exact spells_word hchars (hword hkeyword)
  · rw [operatorLexeme, if_neg hkeyword]
    simp only [List.mem_cons, List.not_mem_nil, or_false] at hoperation
    rcases hoperation with rfl | rfl | rfl | rfl | rfl
    · exact spells_sign (by decide) hequals
    · exact spells_sign (by decide) hequals
    · exact spells_sign (by decide) hequals
    · exact absurd (by decide) hkeyword
    · exact absurd (by decide) hkeyword

/-- A sign in front of what opens an expression is one lexeme more. -/
theorem Sign.lexes (s : Sign) {rest : List Char} {ls : List Lexeme} (h : Lexes rest ls) (hls : Opens ls) :
    Lexes (s.text.toList ++ rest) (operatorLexeme s.operation :: ls) := by
  have hgap : Lexes (s.gap.toList ++ rest) ls := h.spaces s.spaces
  obtain ⟨l, ls, rfl, hl⟩ := hls
  rw [Sign.text, String.toList_append, List.append_assoc]
  refine .cons (spells_unaryOperator s.known (hgap.head?_ne_equals hl) fun hkeyword => ?_) hgap
  obtain ⟨c, cs, hchars⟩ := List.exists_cons_of_ne_nil (fun hnil => s.apart hkeyword (String.toList_eq_nil_iff.1 hnil))
  rw [hchars]
  rintro d ⟨⟩
  exact not_isIdentifierPart_of_isSpace c (s.spaces c (hchars ▸ List.mem_cons_self))

/-- A sign opens an expression. -/
theorem opens_operatorLexeme {operation : String} (h : operation ∈ ["!", "-", "+", "typeof", "void"]) :
    (operatorLexeme operation).opens = true := by
  simp only [List.mem_cons, List.not_mem_nil, or_false] at h
  rcases h with rfl | rfl | rfl | rfl | rfl <;> rfl

/-- The text of an operand is made of its lexemes, where a blank follows or nothing. -/
theorem Operand.laid (p : Operand) : Laid p.text (lexemes p.expression) false := by
  intro rest ls hrest h
  rw [Operand.lexemes_expression, Operand.text, String.toList_append, List.append_assoc, List.append_assoc]
  have hname : Lexes (p.name.toList ++ rest) (.ofWord p.name :: ls) := h.word p.isIdentifier.isWordText.1 hrest
  suffices hsigns : ∀ signs : List Sign, Lexes ((String.join (signs.map Sign.text)).toList ++ (p.name.toList ++ rest))
      (signs.map (operatorLexeme ·.operation) ++ (.ofWord p.name :: ls)) ∧
      Opens (signs.map (operatorLexeme ·.operation) ++ (.ofWord p.name :: ls)) from (hsigns p.signs).1
  intro signs
  induction signs with
  | nil => exact ⟨hname, _, _, rfl, opens_ofWord p.name⟩
  | cons s signs ih =>
    refine ⟨?_, _, _, rfl, opens_operatorLexeme s.known⟩
    rw [List.map_cons, String.join_cons, String.toList_append, List.append_assoc]
    exact s.lexes ih.1 ih.2

/-- The text of a chain is made of its lexemes. -/
theorem Chain.lexes_text (c : Chain) : Lexes c.text.toList c.lexemes := by
  have hlinks : ∀ links : List Link, Ends false (String.join (links.map Link.text)).toList ∧
      Lexes (String.join (links.map Link.text)).toList
        (links.flatMap fun k => operatorLexeme k.operation :: Expression.lexemes k.operand.expression) := by
    intro links
    induction links with
    | nil => exact ⟨ends_nil false, .nil⟩
    | cons k links ih =>
      have hchars : (String.join ((k :: links).map Link.text)).toList = ' ' :: (k.operation.toList ++
          ' ' :: (k.operand.text.toList ++ (String.join (links.map Link.text)).toList)) := by
        simp [Link.text, String.join_cons]
      rw [hchars]
      exact ⟨ends_blank false _, .binaryOperator k.known (k.operand.laid ih.1 ih.2)⟩
  rw [Chain.text, String.toList_append, Chain.lexemes]
  exact c.first.laid (hlinks c.links).1 (hlinks c.links).2

/-- The text of a chain denotes the tree of its operands and operators that respects precedence, and there is but
one. -/
theorem read_chain (c : Chain) : ∃ e, read c.text = .ok e ∧ inOrder e = c.inOrder ∧ RespectsPrecedence e ∧
    ∀ e', inOrder e' = c.inOrder → RespectsPrecedence e' → e' = e := by
  have hread : ∀ e, inOrder e = c.inOrder → RespectsPrecedence e → read c.text = .ok e := by
    intro e horder hrespects
    obtain ⟨hcanonical, hlexemes⟩ := canonical_of_respectsPrecedence horder hrespects
    have hparse := parse_of_lexemes hcanonical ((map_lexeme_tokens c.lexes_text).trans hlexemes.symm)
    rw [read, hparse]
    rfl
  obtain ⟨horder, hrespects⟩ := c.tree_spec
  refine ⟨c.tree, hread _ horder hrespects, horder, hrespects, ?_⟩
  intro e' horder' hrespects'
  have hsame := (hread e' horder' hrespects').symm.trans (hread _ horder hrespects)
  exact Except.ok.inj hsame

/-- The chain of the text `a - -b * typeof c - d`. -/
def signedChain : Chain where
  first := ⟨[], "a", "a", by decide +kernel⟩
  links := [
    ⟨"-", ⟨[⟨"-", "", by decide, nofun, by decide⟩], "b", "b", by decide +kernel⟩, by decide⟩,
    ⟨"*", ⟨[⟨"typeof", " ", by decide, by simp [isSpace], by decide⟩], "c", "c", by decide +kernel⟩, by decide⟩,
    ⟨"-", ⟨[], "d", "d", by decide +kernel⟩, by decide⟩]

/-- The theorem at a chain of three operators with signs: what respects precedence is what is read. -/
theorem read_signedChain : read "a - -b * typeof c - d" = .ok (.binary "-" (.binary "-" (.accessScope "a" 0)
    (.binary "*" (.unary "-" (.accessScope "b" 0)) (.unary "typeof" (.accessScope "c" 0)))) (.accessScope "d" 0)) := by
  obtain ⟨e, hread, -, -, hunique⟩ := read_chain signedChain
  have htext : signedChain.text = "a - -b * typeof c - d" := by decide +kernel
  rw [htext] at hread
  rw [hread]
  refine congrArg Except.ok (hunique _ rfl ?_).symm
  simp [RespectsPrecedence, operator?, power, precedence?]

end ViewTemplate.Expression
