import ViewTemplate.Proofs.Expression.Lexing

/-!
# Canonical expressions

The trees that a text can denote, and the lexemes of the text that is written for one of them.  The printer
puts parentheses around operands only, so that an object, a function or an argument has to be of a shape that
is read as it stands.

* `Canonical` — the trees whose text denotes them.
* `lexemes` — the lexemes of an expression, as the printer orders them.
* `opens_lexemes` — the first of them opens an expression.
-/

namespace ViewTemplate.Expression

open ViewTemplate.Text

/-! ### Shapes -/

/-- Whether the expression reads as an object where a point follows it. -/
def takesMember : Expression → Bool
  | .unary .. | .accessThis _ | .literal (.number _) => false
  | _ => true

/-- Whether the expression reads as an object where a bracket follows it. -/
def takesKey : Expression → Bool
  | .unary .. => false
  | _ => true

/-- Whether the expression reads as a function where a parenthesis follows it. -/
def takesArguments : Expression → Bool
  | .unary .. | .accessScope .. | .accessMember .. => false
  | _ => true

/-- Whether the expression is neither a converter nor a behavior: it may stand where these are not read. -/
def isPlain : Expression → Bool
  | .valueConverter .. | .bindingBehavior .. => false
  | _ => true

/-- Whether the expression is read before a converter of it. -/
def takesConverter : Expression → Bool
  | .bindingBehavior .. => false
  | _ => true

/-- A name of the scope `ancestor` levels outward.  In the scope itself a keyword is no name, and `$parent`
after `$parent` is one more level. -/
def IsScopeName (name : String) (ancestor : Nat) : Prop :=
  if ancestor = 0 then IsIdentifier name else IsMemberName name ∧ name ≠ "$parent"

/-- The expressions that their text denotes. -/
inductive Canonical : Expression → Prop where
  | accessThis (ancestor : Nat) : Canonical (.accessThis ancestor)
  | accessScope {name : String} {ancestor : Nat} (hname : IsScopeName name ancestor) :
    Canonical (.accessScope name ancestor)
  | accessMember {object : Expression} {name : String} (hobject : Canonical object)
    (hshape : object.takesMember = true) (hname : IsMemberName name) : Canonical (.accessMember object name)
  | accessKeyed {object key : Expression} (hobject : Canonical object) (hshape : object.takesKey = true)
    (hkey : Canonical key) : Canonical (.accessKeyed object key)
  | callScope {name : String} {args : List Expression} {ancestor : Nat} (hname : IsScopeName name ancestor)
    (hargs : ∀ e ∈ args, Canonical e) (hplain : ∀ e ∈ args, e.isPlain = true) :
    Canonical (.callScope name args ancestor)
  | callMember {object : Expression} {name : String} {args : List Expression} (hobject : Canonical object)
    (hshape : object.takesMember = true) (hname : IsMemberName name) (hargs : ∀ e ∈ args, Canonical e)
    (hplain : ∀ e ∈ args, e.isPlain = true) : Canonical (.callMember object name args)
  | callFunction {func : Expression} {args : List Expression} (hfunc : Canonical func)
    (hshape : func.takesArguments = true) (hargs : ∀ e ∈ args, Canonical e)
    (hplain : ∀ e ∈ args, e.isPlain = true) : Canonical (.callFunction func args)
  | null : Canonical (.literal .null)
  | undefined : Canonical (.literal .undefined)
  | boolean (value : Bool) : Canonical (.literal (.boolean value))
  | string (value : String) : Canonical (.literal (.string value))
  | number {value : Number} (hsign : value.negative = false) (hfinite : value.isInfinite = false) :
    Canonical (.literal (.number value))
  | arrayLiteral {elements : List Expression} (helements : ∀ e ∈ elements, Canonical e)
    (hplain : ∀ e ∈ elements, e.isPlain = true) : Canonical (.arrayLiteral elements)
  | objectLiteral {keys : List String} {values : List Expression} (hlength : keys.length = values.length)
    (hkeys : ∀ k ∈ keys, IsMemberName k) (hvalues : ∀ e ∈ values, Canonical e)
    (hplain : ∀ e ∈ values, e.isPlain = true) : Canonical (.objectLiteral keys values)
  | unary {operation : String} {operand : Expression}
    (hoperation : operation ∈ ["!", "-", "+", "typeof", "void"]) (hoperand : Canonical operand) :
    Canonical (.unary operation operand)
  | binary {operation : String} {left right : Expression} (hoperation : (precedence? operation).isSome = true)
    (hleft : Canonical left) (hright : Canonical right) : Canonical (.binary operation left right)
  | conditional {condition yes no : Expression} (hcondition : Canonical condition) (hyes : Canonical yes)
    (hplainYes : yes.isPlain = true) (hno : Canonical no) (hplainNo : no.isPlain = true) :
    Canonical (.conditional condition yes no)
  | assign {target value : Expression} (htarget : Canonical target) (hassignable : target.isAssignable = true)
    (hvalue : Canonical value) (hplain : value.isPlain = true) : Canonical (.assign target value)
  | valueConverter {expression : Expression} {name : String} {args : List Expression}
    (hexpression : Canonical expression) (hshape : expression.takesConverter = true)
    (hname : IsMemberName name) (hargs : ∀ e ∈ args, Canonical e) (hplain : ∀ e ∈ args, e.isPlain = true) :
    Canonical (.valueConverter expression name args)
  | bindingBehavior {expression : Expression} {name : String} {args : List Expression}
    (hexpression : Canonical expression) (hname : IsMemberName name) (hargs : ∀ e ∈ args, Canonical e)
    (hplain : ∀ e ∈ args, e.isPlain = true) : Canonical (.bindingBehavior expression name args)

/-! ### The lexemes of an expression -/

/-- Steps outward after the first one. -/
def parentLexemes : Nat → List Lexeme
  | 0 => []
  | n + 1 => .punctuation '.' :: .keyword "$parent" :: parentLexemes n

/-- The scope `ancestor` levels outward. -/
def scopeLexemes : Nat → List Lexeme
  | 0 => [.keyword "$this"]
  | n + 1 => .keyword "$parent" :: parentLexemes n

/-- A name of the scope `ancestor` levels outward. -/
def scopedLexemes (name : String) (ancestor : Nat) : List Lexeme :=
  if ancestor = 0 then [.ofWord name] else scopeLexemes ancestor ++ [.punctuation '.', .ofWord name]

/-- The lexeme of a value that is written out. -/
def literalLexeme : Literal → Lexeme
  | .undefined => .keyword "undefined"
  | .null => .keyword "null"
  | .boolean true => .keyword "true"
  | .boolean false => .keyword "false"
  | .number x => .number x.text x
  | .string value => .string value

/-- An operator that is a word is a keyword. -/
def operatorLexeme (operation : String) : Lexeme :=
  if operation ∈ keywords then .keyword operation else .operator operation

/-- The lexemes of an operand, in parentheses if it is compound. -/
def operandLexemes (e : Expression) (ls : List Lexeme) : List Lexeme :=
  if e.isCompound then .punctuation '(' :: (ls ++ [.punctuation ')']) else ls

/-- The lexemes of a binary operand, in parentheses unless it binds tight enough. -/
def binaryOperandLexemes (e : Expression) (ls : List Lexeme) (outer : Nat) (onRight : Bool) : List Lexeme :=
  if bindsTighter e outer onRight then ls else operandLexemes e ls

/-- Arguments with commas between them. -/
def commaLexemes (args : List (List Lexeme)) : List Lexeme :=
  [.punctuation ','].intercalate args

/-- Arguments with a colon before each. -/
def colonLexemes (args : List (List Lexeme)) : List Lexeme :=
  args.flatMap (.punctuation ':' :: ·)

/-- The lexemes of the entries of an object, with colons and commas. -/
def entryLexemes (keys : List String) (values : List (List Lexeme)) : List Lexeme :=
  commaLexemes ((keys.zip values).map fun (k, v) => .ofWord k :: .punctuation ':' :: v)

mutual

/-- The lexemes of an expression; those that no text denotes have none. -/
def lexemes : Expression → List Lexeme
  | .accessThis ancestor => scopeLexemes ancestor
  | .accessScope name ancestor => scopedLexemes name ancestor
  | .accessMember object name =>
    operandLexemes object (lexemes object) ++ [.punctuation '.', .ofWord name]
  | .accessKeyed object key =>
    operandLexemes object (lexemes object) ++ .punctuation '[' :: (lexemes key ++ [.punctuation ']'])
  | .callScope name args ancestor =>
    scopedLexemes name ancestor ++ .punctuation '(' :: (commaLexemes (lexemesAll args) ++ [.punctuation ')'])
  | .callMember object name args =>
    operandLexemes object (lexemes object) ++ .punctuation '.' :: .ofWord name :: .punctuation '(' ::
      (commaLexemes (lexemesAll args) ++ [.punctuation ')'])
  | .callFunction func args =>
    operandLexemes func (lexemes func) ++ .punctuation '(' ::
      (commaLexemes (lexemesAll args) ++ [.punctuation ')'])
  | .literal value => [literalLexeme value]
  | .arrayLiteral elements =>
    .punctuation '[' :: (commaLexemes (lexemesAll elements) ++ [.punctuation ']'])
  | .objectLiteral keys values =>
    .punctuation '\x7b' :: (entryLexemes keys (lexemesAll values) ++ [.punctuation '\x7d'])
  | .unary operation operand => operatorLexeme operation :: operandLexemes operand (lexemes operand)
  | .binary operation left right =>
    binaryOperandLexemes left (lexemes left) (power operation) false ++ operatorLexeme operation ::
      binaryOperandLexemes right (lexemes right) (power operation) true
  | .conditional condition yes no =>
    operandLexemes condition (lexemes condition) ++ .operator "?" ::
      (lexemes yes ++ .punctuation ':' :: lexemes no)
  | .assign target value => lexemes target ++ .operator "=" :: lexemes value
  | .valueConverter expression name args =>
    lexemes expression ++ .operator "|" :: .ofWord name :: colonLexemes (lexemesAll args)
  | .bindingBehavior expression name args =>
    lexemes expression ++ .operator "&" :: .ofWord name :: colonLexemes (lexemesAll args)
  | _ => []

/-- The lexemes of several expressions. -/
def lexemesAll : List Expression → List (List Lexeme)
  | [] => []
  | e :: es => lexemes e :: lexemesAll es

end

/-- The lexemes of several expressions are those of each. -/
theorem lexemesAll_eq_map (es : List Expression) : lexemesAll es = es.map lexemes := by
  induction es with
  | nil => rfl
  | cons e es ih => rw [lexemesAll, ih, List.map_cons]

/-- The lexemes start as an expression may. -/
def Opens (ls : List Lexeme) : Prop :=
  ∃ l ls', ls = l :: ls' ∧ l.opens = true

/-- What opens an expression does so with more behind it. -/
theorem Opens.append {ls : List Lexeme} (h : Opens ls) (ls' : List Lexeme) : Opens (ls ++ ls') := by
  obtain ⟨l, rest, rfl, hl⟩ := h
  exact ⟨l, rest ++ ls', rfl, hl⟩

/-- An operand opens an expression with or without parentheses. -/
theorem Opens.operand {ls : List Lexeme} (e : Expression) (h : Opens ls) : Opens (operandLexemes e ls) := by
  unfold operandLexemes
  split
  · exact ⟨_, _, rfl, rfl⟩
  · exact h

/-- A binary operand opens an expression with or without parentheses. -/
theorem Opens.binaryOperand {ls : List Lexeme} (e : Expression) (outer : Nat) (onRight : Bool)
    (h : Opens ls) : Opens (binaryOperandLexemes e ls outer onRight) := by
  unfold binaryOperandLexemes
  split
  · exact h
  · exact h.operand e

/-- Every word may open an expression. -/
theorem opens_ofWord (name : String) : (Lexeme.ofWord name).opens = true := by
  unfold Lexeme.ofWord
  split <;> rfl

/-- A name with the words for its scope opens an expression. -/
theorem opens_scopedLexemes (name : String) (ancestor : Nat) : Opens (scopedLexemes name ancestor) := by
  unfold scopedLexemes
  split
  · exact ⟨_, [], rfl, opens_ofWord name⟩
  · cases ancestor <;> exact ⟨_, _, rfl, rfl⟩

/-- A canonical expression starts with one of the lexemes that open an expression. -/
theorem opens_lexemes {e : Expression} (h : Canonical e) : Opens (lexemes e) := by
  induction h with
  | accessThis ancestor => cases ancestor <;> exact ⟨_, _, rfl, rfl⟩
  | accessScope hname => exact opens_scopedLexemes _ _
  | accessMember hobject hshape hname ih => exact (ih.operand _).append _
  | accessKeyed hobject hshape hkey ih ihkey => exact (ih.operand _).append _
  | callScope hname hargs hplain ih => exact (opens_scopedLexemes _ _).append _
  | callMember hobject hshape hname hargs hplain ih ihargs => exact (ih.operand _).append _
  | callFunction hfunc hshape hargs hplain ih ihargs => exact (ih.operand _).append _
  | null => exact ⟨_, [], rfl, rfl⟩
  | undefined => exact ⟨_, [], rfl, rfl⟩
  | boolean value => cases value <;> exact ⟨_, [], rfl, rfl⟩
  | string value => exact ⟨_, [], rfl, rfl⟩
  | number hsign hfinite => exact ⟨_, [], rfl, rfl⟩
  | arrayLiteral helements hplain ih => exact ⟨_, _, rfl, rfl⟩
  | objectLiteral hlength hkeys hvalues hplain ih => exact ⟨_, _, rfl, rfl⟩
  | unary hoperation hoperand ih =>
    refine ⟨_, _, rfl, ?_⟩
    simp only [List.mem_cons, List.not_mem_nil, or_false] at hoperation
    rcases hoperation with rfl | rfl | rfl | rfl | rfl <;> rfl
  | binary hoperation hleft hright ihleft ihright => exact (ihleft.binaryOperand _ _ _).append _
  | conditional hcondition hyes hplainYes hno hplainNo ih ihyes ihno => exact (ih.operand _).append _
  | assign htarget hassignable hvalue hplain ih ihvalue => exact ih.append _
  | valueConverter hexpression hshape hname hargs hplain ih ihargs => exact ih.append _
  | bindingBehavior hexpression hname hargs hplain ih ihargs => exact ih.append _

end ViewTemplate.Expression
