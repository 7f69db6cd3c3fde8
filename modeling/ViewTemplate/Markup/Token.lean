import ViewTemplate.Markup.Reference
import ViewTemplate.Markup.TagRules
import ViewTemplate.Source.Diagnostic
import ViewTemplate.Text.CharClass

/-!
# Tokens of markup

Markup is cut into tokens in one pass.  Before it, every line ending becomes a line feed, and the text
ends at the first NUL.  Each scanning function starts at a cursor and gives the tokens it read, what it
found wrong, and the cursor after them.

For texts and values the extent is found first and references are decoded in it afterwards: no reference
contains a character that could end the extent.

* `Lexeme`, `Token` — a word of markup, and where it stands.
* `Cursor`, `Scan` — a place with what is ahead of it, and what scanning from there gives.
* `extent` — how far a text or a value reaches.
* `scanItem` — one comment, declaration, tag or text; `tokenize` — all of a source.
-/

namespace ViewTemplate.Markup

open ViewTemplate.Source ViewTemplate.Text

/-- A word of markup, with its decoded payload. -/
inductive Lexeme where
  /-- `<name` -/
  | tagOpen (name : String)
  /-- The mark that ends a start tag. -/
  | tagOpenEnd
  /-- The mark that ends a self-closing start tag. -/
  | tagSelfClose
  /-- `</name>` -/
  | tagClose (name : String)
  | text (value : String)
  /-- The content of an element that holds no markup. -/
  | rawText (value : String)
  | commentStart
  | commentEnd
  | attributeName (name : String)
  | attributeQuote (quote : Char)
  | attributeValue (value : String)
  | docType (value : String)
  | endOfSource
  deriving Repr, DecidableEq, Inhabited

/-- A lexeme and where it stands. -/
structure Token where
  lexeme : Lexeme
  span : Span
  deriving Repr, DecidableEq, Inhabited

/-! ### Cursors -/

/-- A place in the source and the characters ahead of it. -/
structure Cursor where
  place : Location
  ahead : List Char
  deriving Repr, DecidableEq, Inhabited

namespace Cursor

/-- The cursor after the first `n` characters ahead. -/
def skip (c : Cursor) (n : Nat) : Cursor :=
  ⟨c.place.advanceAll (c.ahead.take n), c.ahead.drop n⟩

/-- The cursor after the spaces ahead. -/
def skipSpaces (c : Cursor) : Cursor :=
  c.skip (c.ahead.takeWhile isSpace).length

/-- Whether the given characters are next. -/
def startsWith (c : Cursor) (cs : List Char) : Bool :=
  cs.isPrefixOf c.ahead

/-- The span from the cursor to a later one. -/
def spanTo (c : Cursor) (d : Cursor) : Span :=
  ⟨c.place, d.place⟩

/-- The diagnostic that the next character, or the end of the source, is unexpected here. -/
def unexpected (c : Cursor) : Diagnostic :=
  let found := match c.ahead with
    | [] => "EOF"
    | ch :: _ => String.singleton ch
  { span := .point c.place, message := "Unexpected character \"" ++ found ++ "\"" }

end Cursor

/-- What scanning from a cursor gives. -/
structure Scan where
  tokens : List Token
  faults : List Diagnostic
  next : Cursor

namespace Scan

/-- Nothing read. -/
def nothing (c : Cursor) : Scan :=
  ⟨[], [], c⟩

/-- One token, from the cursor `start` to the cursor `stop`. -/
def token (lexeme : Lexeme) (start stop : Cursor) : Scan :=
  ⟨[⟨lexeme, start.spanTo stop⟩], [], stop⟩

/-- Goes on from where a scan stopped. -/
def andThen (s : Scan) (f : Cursor → Scan) : Scan :=
  let t := f s.next
  ⟨s.tokens ++ t.tokens, s.faults ++ t.faults, t.next⟩

/-- The scan with one more fault, at the cursor where it stopped. -/
def fault (s : Scan) : Scan :=
  ⟨s.tokens, s.faults ++ [s.next.unexpected], s.next⟩

end Scan

/-! ### Extents -/

/-- The number of characters before the first place where the rest satisfies `stops`. -/
def extent (stops : List Char → Bool) : List Char → Nat
  | [] => 0
  | c :: cs => if stops (c :: cs) then 0 else extent stops cs + 1

/-- Whether a tag, a comment or a declaration starts here. -/
def opensMarkup : List Char → Bool
  | '<' :: '/' :: c :: _ => isAsciiLetter c
  | '<' :: c :: _ => isAsciiLetter c || c = '!'
  | _ => false

/-- Whether a value without quotes ends here. -/
def endsUnquoted : List Char → Bool
  | '/' :: '>' :: _ => true
  | c :: _ => isSpace c || c = '>'
  | [] => true

/-- Whether two characters are the same but for the case of ASCII letters. -/
def sameIgnoringCase (a b : Char) : Bool :=
  a.toLower = b.toLower

/-- Whether `cs` starts with the characters of `name`, in any ASCII case, and the name ends there. -/
def startsWithName : (name : List Char) → List Char → Bool
  | [], [] => true
  | [], c :: _ => isNameEnd c
  | _ :: _, [] => false
  | a :: name, c :: cs => sameIgnoringCase a c && startsWithName name cs

/-- Whether the end tag of the given name starts here. -/
def closesTag (name : List Char) : List Char → Bool
  | '<' :: '/' :: cs => startsWithName name cs
  | _ => false

/-- The name ahead of the cursor in lower case, and the cursor after it. -/
def scanName (c : Cursor) : String × Cursor :=
  let name := c.ahead.takeWhile (!isNameEnd ·)
  (lowerCase (String.ofList name), c.skip name.length)

/-! ### Text, comments and declarations -/

/-- Text up to the next markup. -/
def scanText (c : Cursor) : Scan :=
  let n := extent opensMarkup c.ahead
  .token (.text (String.ofList (decode (c.ahead.take n)))) c (c.skip n)

/-- A comment; its opening mark is next.  The text of a comment is complete when its closing mark has
been read, so that its span reaches to the end of the mark. -/
def scanComment (c : Cursor) : Scan :=
  let inside := c.skip 4
  let n := extent (['-', '-', '>'].isPrefixOf ·) inside.ahead
  let after := inside.skip n
  let content := Lexeme.text (String.ofList (inside.ahead.take n))
  let opening := Scan.token .commentStart c inside
  if after.ahead.isEmpty then (opening.andThen fun _ => .token content inside after).fault
  else
    let stop := after.skip 3
    (opening.andThen fun _ => .token content inside stop).andThen fun _ =>
      .token .commentEnd after stop

/-- A declaration, up to the next closing angle bracket; its opening mark is next. -/
def scanDocType (c : Cursor) : Scan :=
  let inside := c.skip 2
  let value := inside.ahead.takeWhile (· ≠ '>')
  let after := inside.skip value.length
  let lexeme := Lexeme.docType (String.ofList value)
  if after.ahead.isEmpty then (Scan.token lexeme c after).fault
  else .token lexeme c (after.skip 1)

/-! ### Tags -/

/-- The value of an attribute, after its equals sign and spaces. -/
def scanValue (c : Cursor) : Scan :=
  match c.ahead with
  | quote :: rest =>
    if quote = '\x27' || quote = '\x22' then
      let value := rest.takeWhile (· ≠ quote)
      let inside := c.skip 1
      let after := inside.skip value.length
      let content := (Scan.token (.attributeQuote quote) c inside).andThen fun _ =>
        .token (.attributeValue (String.ofList (decode value))) inside after
      if after.ahead.isEmpty then content.fault
      else content.andThen fun after => .token (.attributeQuote quote) after (after.skip 1)
    else
      let n := extent endsUnquoted c.ahead
      .token (.attributeValue (String.ofList (decode (c.ahead.take n)))) c (c.skip n)
  | [] => .token (.attributeValue "") c c

/-- An attribute: its name, and its value if an equals sign follows. -/
def scanAttribute (c : Cursor) : Scan :=
  let (name, after) := scanName c
  (Scan.token (.attributeName name) c after).andThen fun after =>
    let equals := after.skipSpaces
    if equals.startsWith ['='] then scanValue (equals.skip 1).skipSpaces
    else .nothing equals

/-- How a start tag ended. -/
inductive TagEnd where
  | opened
  | selfClosed
  /-- The source ended first. -/
  | missing
  deriving Repr, DecidableEq, Inhabited

/-- Whether a character has no place between the attributes of a start tag. -/
def isStrayInTag (c : Char) : Bool :=
  c = '/' || c = '<' || isQuote c || c = '='

/-- The attributes of a start tag and the mark that ends it.  Every attribute and every stray character
takes a character, so `fuel` above the number of characters ahead is enough. -/
def scanAttributes : (fuel : Nat) → Cursor → Scan × TagEnd
  | 0, c => (.nothing c, .missing)
  | fuel + 1, start =>
    let c := start.skipSpaces
    match c.ahead with
    | [] => ((Scan.nothing c).fault, .missing)
    | ch :: _ =>
      if ch = '>' then (.token .tagOpenEnd c (c.skip 1), .opened)
      else if c.startsWith ['/', '>'] then (.token .tagSelfClose c (c.skip 2), .selfClosed)
      else
        let first := if isStrayInTag ch then { (Scan.nothing c).fault with next := c.skip 1 }
          else scanAttribute c
        let (rest, tagEnd) := scanAttributes fuel first.next
        (first.andThen fun _ => rest, tagEnd)

/-- The content of an element that holds no markup, up to its end tag. -/
def scanRawText (name : String) (decoded : Bool) (c : Cursor) : Scan :=
  let n := extent (closesTag name.toList) c.ahead
  let content := c.ahead.take n
  .token (.rawText (String.ofList (if decoded then decode content else content))) c (c.skip n)

/-- A start tag, and the content of the element if it holds no markup. -/
def scanTagOpen (rules : String → TagRules) (c : Cursor) : Scan :=
  let (name, after) := scanName (c.skip 1)
  let (attributes, tagEnd) := scanAttributes (after.ahead.length + 1) after
  let tag := (Scan.token (.tagOpen name) c after).andThen fun _ => attributes
  match tagEnd, (rules name).content with
  | .opened, .rawText => tag.andThen (scanRawText name false)
  | .opened, .escapableRawText => tag.andThen (scanRawText name true)
  | _, _ => tag

/-- An end tag; whatever stands between its name and its closing angle bracket is skipped. -/
def scanTagClose (c : Cursor) : Scan :=
  let (name, after) := scanName (c.skip 2)
  let after := after.skipSpaces
  let lexeme := Lexeme.tagClose name
  if after.startsWith ['>'] then .token lexeme c (after.skip 1)
  else
    let junk := (after.ahead.takeWhile (· ≠ '>')).length
    let stop := after.skip (junk + 1)
    { Scan.token lexeme c stop with faults := [after.unexpected] }

/-! ### Whole sources -/

/-- What stands at the cursor: a comment, a declaration, a tag, or text. -/
def scanItem (rules : String → TagRules) (c : Cursor) : Scan :=
  if opensMarkup c.ahead then
    if c.startsWith ['<', '!', '-', '-'] then scanComment c
    else if c.startsWith ['<', '!'] then scanDocType c
    else if c.startsWith ['<', '/'] then scanTagClose c
    else scanTagOpen rules c
  else scanText c

/-- Everything from the cursor to the end of the source.  Every item takes a character, so `fuel` above
the number of characters ahead is enough. -/
def scanAll (rules : String → TagRules) : (fuel : Nat) → Cursor → Scan
  | 0, c => .nothing c
  | fuel + 1, c =>
    match c.ahead with
    | [] => .token .endOfSource c c
    | _ :: _ => (scanItem rules c).andThen (scanAll rules fuel)

/-- The characters with every carriage return, alone or before a line feed, made a line feed. -/
def unifyLines : List Char → List Char
  | [] => []
  | '\r' :: '\n' :: cs => '\n' :: unifyLines cs
  | c :: cs => (if c = '\r' then '\n' else c) :: unifyLines cs

/-- The part of the characters before the first NUL. -/
def beforeNul (cs : List Char) : List Char :=
  cs.takeWhile (· ≠ '\x00')

/-- What tokenizing a source gives. -/
structure Tokenized where
  tokens : List Token
  faults : List Diagnostic

/-- The tokens of a source. -/
def tokenize (rules : String → TagRules) (source : String) : Tokenized :=
  let cs := beforeNul (unifyLines source.toList)
  let scan := scanAll rules (cs.length + 1) ⟨{}, cs⟩
  ⟨scan.tokens, scan.faults⟩

end ViewTemplate.Markup
