import ViewTemplate.Expression.Basic
import ViewTemplate.Text.CodePoints

/-!
# Writing expressions

The text of an expression tree.  Parentheses are written around an operand that is itself an operation,
except that a binary operand of tighter precedence, or of equal precedence on the left, goes without.
-/

namespace ViewTemplate.Expression

open ViewTemplate.Text

/-! ### Names and literals -/

/-- The scope `ancestor` levels outward. -/
def scopeText (ancestor : Nat) : String :=
  if ancestor = 0 then "$this" else ".".intercalate (List.replicate ancestor "$parent")

/-- A name of the scope `ancestor` levels outward. -/
def scopedName (name : String) (ancestor : Nat) : String :=
  if ancestor = 0 then name else scopeText ancestor ++ "." ++ name

/-- A character of a string as it is written between apostrophes. -/
def escapeChar (c : Char) : List Char :=
  if c = '\\' || c = '\x27' then ['\\', c] else [c]

/-- A string between apostrophes. -/
def quoted (value : String) : String :=
  "'" ++ String.ofList (value.toList.flatMap escapeChar) ++ "'"

/-- The text of a literal. -/
def literalText : Literal → String
  | .undefined => "undefined"
  | .null => "null"
  | .boolean true => "true"
  | .boolean false => "false"
  | .number x => x.text
  | .string value => quoted value

/-! ### Operands -/

/-- Whether an operand of this shape is written in parentheses. -/
def isCompound : Expression → Bool
  | .binary .. | .conditional .. | .assign .. | .valueConverter .. | .bindingBehavior .. => true
  | _ => false

/-- The text of an operand, in parentheses if it is compound. -/
def operandText (e : Expression) (text : String) : String :=
  if e.isCompound then "(" ++ text ++ ")" else text

/-- The binding power that the printer goes by; an operator it does not know binds loosest. -/
def power (operation : String) : Nat :=
  (precedence? operation).getD 0

/-- Whether the operand of a binary operator of power `outer` is itself a binary operation that needs no
parentheses there. -/
def bindsTighter (e : Expression) (outer : Nat) (onRight : Bool) : Bool :=
  match e with
  | .binary operation _ _ => outer < power operation || (outer = power operation && !onRight)
  | _ => false

/-- The text of an operand of a binary operator. -/
def binaryOperandText (e : Expression) (text : String) (outer : Nat) (onRight : Bool) : String :=
  if bindsTighter e outer onRight then text else operandText e text

/-- What stands between a unary operator and its operand: a blank after a word. -/
def unarySeparator (operation : String) : String :=
  if operation.toList.all isAsciiLetter then " " else ""

/-! ### Lists -/

/-- The entries of an object in braces.  Keys and values are paired as far as both go. -/
def objectText (keys : List String) (values : List String) : String :=
  "\x7b" ++ ", ".intercalate ((keys.zip values).map fun (k, v) => k ++ ": " ++ v) ++ "\x7d"

/-- Arguments with a colon before each. -/
def colonText (args : List String) : String :=
  String.join (args.map (":" ++ ·))

/-- Parts with expressions between them. -/
def weave : List String → List String → String
  | [], _ => ""
  | part :: parts, [] => part ++ weave parts []
  | part :: parts, e :: es => part ++ "$\x7b" ++ e ++ "\x7d" ++ weave parts es

/-! ### Whole expressions -/

mutual

/-- The text of an expression. -/
def render : Expression → String
  | .accessThis ancestor => scopeText ancestor
  | .accessScope name ancestor => scopedName name ancestor
  | .accessMember object name => operandText object (render object) ++ "." ++ name
  | .accessKeyed object key => operandText object (render object) ++ "[" ++ render key ++ "]"
  | .callScope name args ancestor =>
    scopedName name ancestor ++ "(" ++ ", ".intercalate (renderAll args) ++ ")"
  | .callMember object name args =>
    operandText object (render object) ++ "." ++ name ++ "(" ++ ", ".intercalate (renderAll args) ++ ")"
  | .callFunction func args =>
    operandText func (render func) ++ "(" ++ ", ".intercalate (renderAll args) ++ ")"
  | .literal value => literalText value
  | .arrayLiteral elements | .arrayPattern elements =>
    "[" ++ ", ".intercalate (renderAll elements) ++ "]"
  | .objectLiteral keys values | .objectPattern keys values => objectText keys (renderAll values)
  | .unary operation operand =>
    operation ++ unarySeparator operation ++ operandText operand (render operand)
  | .binary operation left right =>
    binaryOperandText left (render left) (power operation) false ++ " " ++ operation ++ " "
      ++ binaryOperandText right (render right) (power operation) true
  | .conditional condition yes no =>
    operandText condition (render condition) ++ " ? " ++ render yes ++ " : " ++ render no
  | .assign target value => render target ++ " = " ++ render value
  | .valueConverter expression name args =>
    render expression ++ " | " ++ name ++ colonText (renderAll args)
  | .bindingBehavior expression name args =>
    render expression ++ " & " ++ name ++ colonText (renderAll args)
  | .interpolation parts expressions => weave parts (renderAll expressions)
  | .iteration declared iterable => render declared ++ " of " ++ render iterable
  | .bindingIdentifier name => name

/-- The texts of several expressions. -/
def renderAll : List Expression → List String
  | [] => []
  | e :: es => render e :: renderAll es

end

/-- The texts of several expressions are those of each. -/
theorem renderAll_eq_map (es : List Expression) : renderAll es = es.map render := by
  induction es with
  | nil => rfl
  | cons e es ih => simp [renderAll, ih]

end ViewTemplate.Expression
