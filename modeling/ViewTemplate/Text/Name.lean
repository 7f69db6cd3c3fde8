import ViewTemplate.Text.LowerCase

/-!
# Names

The spellings of one name in markup and in scripts.  A property `fooBar` is written `foo-bar` as an
attribute; `camelCase` and `kebabCase` go from one to the other.  An attribute name such as
`foo.bar.bind` ends in a command after its last period.
-/

namespace ViewTemplate.Text

/-- A character of a word of a dashed name: a small ASCII letter or a digit. -/
def isWordChar (c : Char) : Bool :=
  isAsciiLower c || isDigit c

/-! ### Dashed to camel case -/

/-- Camel case of what follows `dashes` dashes.  A run of dashes before a word character disappears
and the character is capitalised; any other run of dashes is kept. -/
def camelChars (dashes : Nat) : List Char → List Char
  | [] => List.replicate dashes '-'
  | c :: cs =>
    if c = '-' then camelChars (dashes + 1) cs
    else if 0 < dashes && isWordChar c then c.toUpper :: camelChars 0 cs
    else List.replicate dashes '-' ++ c :: camelChars 0 cs

/-- The name in camel case: `foo-bar` becomes `fooBar`. -/
def camelCase (name : String) : String :=
  String.ofList (camelChars 0 name.toList)

/-! ### Camel case to dashed -/

/-- Puts a dash between a word character and a capital ASCII letter that follows it. -/
def dashChars : List Char → List Char
  | a :: b :: cs =>
    if isWordChar a && isAsciiUpper b then a :: '-' :: dashChars (b :: cs)
    else a :: dashChars (b :: cs)
  | cs => cs

/-- The name with dashes and in lower case: `fooBar` becomes `foo-bar`. -/
def kebabCase (name : String) : String :=
  String.ofList (lowerChars [] (dashChars name.toList))

/-! ### The command of an attribute name -/

/-- Cuts the characters at the last period. -/
def splitLastPeriod : List Char → Option (List Char × List Char)
  | [] => none
  | c :: cs =>
    match splitLastPeriod cs with
    | some (before, after) => some (c :: before, after)
    | none => if c = '.' then some ([], cs) else none

/-- The target and the command of an attribute name: `foo.bar.bind` gives `foo.bar` and `bind`, and
`class` gives `class` and no command. -/
def splitCommand (name : String) : String × Option String :=
  match splitLastPeriod name.toList with
  | some (before, after) => (String.ofList before, some (String.ofList after))
  | none => (name, none)

/-! ### Interpolation marks -/

/-- Whether `$` followed by an opening brace occurs in the characters. -/
def opensInterpolation : List Char → Bool
  | a :: b :: cs => (a = '$' && b = '\x7b') || opensInterpolation (b :: cs)
  | _ => false

/-- Whether the text has an interpolation mark. -/
def hasInterpolation (s : String) : Bool :=
  opensInterpolation s.toList

end ViewTemplate.Text
