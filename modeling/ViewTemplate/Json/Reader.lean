import ViewTemplate.Text.Hexadecimal

/-!
# Reading JSON

JSON texts as trees.  Members of objects keep their order, and a name may occur more than once; it is for
the consumer to say what that means.  A string may be well formed as JSON and still be no text, when an
escape in it is one half of a surrogate pair; such a string is `none`.

* `Json` — a value; `Json.ofText?` — the value of a text.
* `Json.fields?` — the fields of a record, by name or by position.
-/

namespace ViewTemplate

/-- A JSON value.  Of a number only its presence is kept. -/
inductive Json where
  | null
  | bool (value : Bool)
  | number
  | string (value : Option String)
  | array (items : List Json)
  | object (members : List (Option String × Json))
  deriving Inhabited

namespace Json

open ViewTemplate.Text

/-! ### Strings -/

/-- The code that the character after a backslash stands for. -/
def escapeCode? : Char → Option Nat
  | '\x22' => some 0x22
  | '\\' => some 0x5c
  | '/' => some 0x2f
  | 'b' => some 0x8
  | 'f' => some 0xc
  | 'n' => some 0xa
  | 'r' => some 0xd
  | 't' => some 0x9
  | _ => none

/-- Reads a string up to its closing quote, as the codes of its characters and escapes. -/
def readCodes? : List Char → Option (List Nat × List Char)
  | [] => none
  | '\\' :: 'u' :: a :: b :: c :: d :: cs => do
    let code ← hexValue? [a, b, c, d]
    let (codes, rest) ← readCodes? cs
    return (code :: codes, rest)
  | '\\' :: e :: cs => do
    let code ← escapeCode? e
    let (codes, rest) ← readCodes? cs
    return (code :: codes, rest)
  | c :: cs =>
    if c = '\x22' then some ([], cs)
    else if c = '\\' || c.toNat < 0x20 then none
    else do
      let (codes, rest) ← readCodes? cs
      return (c.toNat :: codes, rest)

/-- Whether the code is the first half of a surrogate pair. -/
def isHighHalf (code : Nat) : Bool :=
  0xd800 ≤ code && code < 0xdc00

/-- Whether the code is the second half of a surrogate pair. -/
def isLowHalf (code : Nat) : Bool :=
  0xdc00 ≤ code && code < 0xe000

/-- The characters with the given codes, where two halves of a surrogate pair make one character. -/
def charsOfCodes? : List Nat → Option (List Char)
  | [] => some []
  | high :: codes =>
    if isHighHalf high then
      match codes with
      | low :: codes =>
        if isLowHalf low then
          let code := 0x10000 + (high - 0xd800) * 0x400 + (low - 0xdc00)
          (charsOfCodes? codes).map (Char.ofNat code :: ·)
        else none
      | [] => none
    else if isLowHalf high then none
    else (charsOfCodes? codes).map (Char.ofNat high :: ·)

/-- Reads a string after its opening quote. -/
def readString? (cs : List Char) : Option (Option String × List Char) := do
  let (codes, rest) ← readCodes? cs
  return ((charsOfCodes? codes).map String.ofList, rest)

/-! ### Numbers -/

/-- What follows a non-empty run of digits. -/
def skipDigits? (cs : List Char) : Option (List Char) :=
  match cs with
  | c :: cs => if isDigit c then some (cs.dropWhile isDigit) else none
  | [] => none

/-- What follows the whole part of a number, which has no needless zero at its front. -/
def skipWhole? : List Char → Option (List Char)
  | '0' :: cs => some cs
  | cs => skipDigits? cs

/-- What follows a fraction, if there is one. -/
def skipFraction? : List Char → Option (List Char)
  | '.' :: cs => skipDigits? cs
  | cs => some cs

/-- What follows an exponent, if there is one. -/
def skipExponent? : List Char → Option (List Char)
  | [] => some []
  | e :: cs =>
    if e = 'e' || e = 'E' then
      match cs with
      | '+' :: cs | '-' :: cs => skipDigits? cs
      | cs => skipDigits? cs
    else some (e :: cs)

/-- What follows a number. -/
def skipNumber? (cs : List Char) : Option (List Char) := do
  let cs := match cs with
    | '-' :: cs => cs
    | cs => cs
  let cs ← skipWhole? cs
  let cs ← skipFraction? cs
  skipExponent? cs

/-! ### Values -/

/-- A space between JSON tokens. -/
def isJsonSpace (c : Char) : Bool :=
  c = ' ' || c = '\n' || c = '\t' || c = '\r'

/-- The characters without the spaces at their front. -/
def skipJsonSpaces (cs : List Char) : List Char :=
  cs.dropWhile isJsonSpace

mutual

/-- Reads a value.  The first argument bounds the nesting of steps. -/
def readValue? : Nat → List Char → Option (Json × List Char)
  | 0, _ => none
  | n + 1, cs =>
    match skipJsonSpaces cs with
    | 'n' :: 'u' :: 'l' :: 'l' :: cs => some (.null, cs)
    | 't' :: 'r' :: 'u' :: 'e' :: cs => some (.bool true, cs)
    | 'f' :: 'a' :: 'l' :: 's' :: 'e' :: cs => some (.bool false, cs)
    | '\x22' :: cs => (readString? cs).map fun (s, cs) => (.string s, cs)
    | '[' :: cs =>
      match skipJsonSpaces cs with
      | ']' :: cs => some (.array [], cs)
      | cs => (readItems? n cs).map fun (items, cs) => (.array items, cs)
    | '\x7b' :: cs =>
      match skipJsonSpaces cs with
      | '\x7d' :: cs => some (.object [], cs)
      | cs => (readMembers? n cs).map fun (members, cs) => (.object members, cs)
    | cs => (skipNumber? cs).map fun cs => (.number, cs)

/-- Reads the items of an array, at least one, and its closing bracket. -/
def readItems? : Nat → List Char → Option (List Json × List Char)
  | 0, _ => none
  | n + 1, cs => do
    let (item, cs) ← readValue? n cs
    match skipJsonSpaces cs with
    | ',' :: cs => do
      let (items, cs) ← readItems? n cs
      return (item :: items, cs)
    | ']' :: cs => return ([item], cs)
    | _ => none

/-- Reads the members of an object, at least one, and its closing brace. -/
def readMembers? : Nat → List Char → Option (List (Option String × Json) × List Char)
  | 0, _ => none
  | n + 1, cs =>
    match skipJsonSpaces cs with
    | '\x22' :: cs => do
      let (name, cs) ← readString? cs
      match skipJsonSpaces cs with
      | ':' :: cs => do
        let (value, cs) ← readValue? n cs
        match skipJsonSpaces cs with
        | ',' :: cs => do
          let (members, cs) ← readMembers? n cs
          return ((name, value) :: members, cs)
        | '\x7d' :: cs => return ([(name, value)], cs)
        | _ => none
      | _ => none
    | _ => none

end

/-- Reads a whole text as one JSON value. -/
def ofText? (text : String) : Option Json := do
  let cs := text.toList
  let (value, rest) ← readValue? (2 * cs.length + 2) cs
  if (skipJsonSpaces rest).isEmpty then some value else none

/-! ### What a value holds -/

/-- The text of a string. -/
def text? : Json → Option String
  | .string (some s) => some s
  | _ => none

/-- The value of a Boolean. -/
def bool? : Json → Option Bool
  | .bool b => some b
  | _ => none

/-- The values of the members with the given name, in order. -/
def valuesOf (name : String) (members : List (Option String × Json)) : List Json :=
  (members.filter fun (key, _) => key = some name).map (·.2)

/-- The fields of a record with the given names: those of an object by name, those of an array by
position.  Other members are passed over.  A name that is no text, a repeated name of a field, and an item
too many make it no record. -/
def fields? (names : List String) : Json → Option (List (Option Json))
  | .array items =>
    if items.length ≤ names.length then
      some (items.map some ++ List.replicate (names.length - items.length) none)
    else none
  | .object members =>
    if members.all (·.1.isSome) && names.all (fun name => (valuesOf name members).length ≤ 1) then
      some (names.map fun name => (valuesOf name members).head?)
    else none
  | _ => none

/-- A field that has to be there. -/
def required? {α : Type} (read? : Json → Option α) (field : Option Json) : Option α :=
  field.bind read?

/-- A field with a value for when it is not there. -/
def optional? {α : Type} (read? : Json → Option α) (absent : α) : Option Json → Option α
  | some j => read? j
  | none => some absent

end Json

end ViewTemplate
