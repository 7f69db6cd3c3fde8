import ViewTemplate.Number.Format

/-!
# Binding expressions

The trees that attribute values and interpolations denote.  Besides plain expressions there are three
shapes that occur only at the top of a value: interpolations, iterations (`item of items`) and the
patterns that an iteration declares.

Names and operators are texts: a tree may be built by hand with any of them, and the printer writes
whatever it finds.

How many scopes outward a name is looked up is a natural number and has no bound: in a text every level is a word
of its own (`$parent.$parent.a`), so no text asks for more levels than it has characters.
-/

namespace ViewTemplate

/-- A value written out in an expression. -/
inductive Literal where
  | undefined
  | null
  | boolean (value : Bool)
  | number (value : Number)
  | string (value : String)
  deriving DecidableEq, Inhabited

/-- A binding expression.  `ancestor` counts how many scopes outward a name is looked up, without a bound. -/
inductive Expression where
  /-- The scope itself: `$this`, or `$parent` repeated `ancestor` times. -/
  | accessThis (ancestor : Nat)
  | accessScope (name : String) (ancestor : Nat)
  | accessMember (object : Expression) (name : String)
  | accessKeyed (object : Expression) (key : Expression)
  | callScope (name : String) (args : List Expression) (ancestor : Nat)
  | callMember (object : Expression) (name : String) (args : List Expression)
  | callFunction (func : Expression) (args : List Expression)
  | literal (value : Literal)
  | arrayLiteral (elements : List Expression)
  | objectLiteral (keys : List String) (values : List Expression)
  | unary (operation : String) (operand : Expression)
  | binary (operation : String) (left : Expression) (right : Expression)
  | conditional (condition : Expression) (yes : Expression) (no : Expression)
  | assign (target : Expression) (value : Expression)
  /-- `expression | name:arg:…` -/
  | valueConverter (expression : Expression) (name : String) (args : List Expression)
  /-- `expression & name:arg:…` -/
  | bindingBehavior (expression : Expression) (name : String) (args : List Expression)
  /-- Text with expressions between its parts. -/
  | interpolation (parts : List String) (expressions : List Expression)
  /-- `declaration of iterable` -/
  | iteration (declaration : Expression) (iterable : Expression)
  | bindingIdentifier (name : String)
  | arrayPattern (elements : List Expression)
  | objectPattern (keys : List String) (values : List Expression)
  deriving Inhabited

namespace Expression

/-- A string written out. -/
def string (value : String) : Expression :=
  .literal (.string value)

/-- A number written out. -/
def number (value : Number) : Expression :=
  .literal (.number value)

/-- Whether an assignment may write to the expression. -/
def isAssignable : Expression → Bool
  | .accessScope .. | .accessMember .. | .accessKeyed .. => true
  | _ => false

/-- The binding power of a binary operator; a higher one binds tighter. -/
def precedence? : String → Option Nat
  | "??" | "||" => some 1
  | "&&" => some 2
  | "==" | "!=" | "===" | "!==" => some 3
  | "<" | ">" | "<=" | ">=" | "instanceof" | "in" => some 4
  | "+" | "-" => some 5
  | "*" | "/" | "%" => some 6
  | _ => none

end Expression

/-- What an attribute value is expected to hold. -/
inductive ExpressionKind where
  /-- A plain expression. -/
  | plain
  /-- Text that may have interpolations in it. -/
  | interpolation
  /-- The source of a property binding. -/
  | property
  /-- The source of a listener or of a call. -/
  | function
  /-- An iteration. -/
  | iteration
  deriving Repr, DecidableEq, Inhabited

end ViewTemplate
