import ViewTemplate.Expression.Basic
import ViewTemplate.Text.Bytes
import ViewTemplate.Text.CharClass

/-!
# Tokens of expressions

An expression text is cut into lexemes with spaces between them.  Each reading function takes the
characters ahead and gives the lexeme together with the characters that are left, so that a token's place
is known from how much of the text is left before and after it.  The first lexeme that cannot be read is a
`fault`, and it is the last token.

* `Lexeme`, `Token` — a word of the language, and the bytes it covers.
* `Lexeme.scan` — the lexeme at the front of a text; `tokens` — all of them.
-/

namespace ViewTemplate.Expression

open ViewTemplate.Text

/-- Why a stretch of text is no lexeme. -/
inductive LexicalFault where
  /-- No lexeme starts with this character. -/
  | unexpected (c : Char)
  /-- A numeral with a second point or an exponent without digits. -/
  | badNumeral (text : String)
  /-- A string without its closing quote. -/
  | openQuote
  deriving DecidableEq, Inhabited

/-- What a fault is, without its place. -/
def LexicalFault.description : LexicalFault → String
  | .unexpected c => "Unexpected character [" ++ String.singleton c ++ "]"
  | .badNumeral text => "Invalid number [" ++ text ++ "]"
  | .openQuote => "Unterminated quote"

/-- The message for a fault that starts at byte `column` of `input`. -/
def LexicalFault.message (fault : LexicalFault) (column : Nat) (input : String) : String :=
  "Lexer Error: " ++ fault.description ++ " at column " ++ toString column ++ " in expression ["
    ++ input ++ "]"

/-- A word of the expression language. -/
inductive Lexeme where
  | punctuation (c : Char)
  | identifier (name : String)
  | keyword (word : String)
  | string (value : String)
  | operator (symbol : String)
  | number (numeral : String) (value : Number)
  | fault (cause : LexicalFault)
  deriving DecidableEq, Inhabited

/-- A lexeme and the bytes of the text that it covers. -/
structure Token where
  lexeme : Lexeme
  start : Nat
  stop : Nat
  deriving DecidableEq, Inhabited

namespace Token

/-- The text that stands for the token: the name, the symbol, the numeral, the value of a string, or
the message of a fault. -/
def text (t : Token) (input : String) : String :=
  match t.lexeme with
  | .punctuation c => String.singleton c
  | .identifier s | .keyword s | .string s | .operator s | .number s _ => s
  | .fault cause => cause.message t.start input

/-- The value of a numeral, and zero for every other token. -/
def value (t : Token) : Number :=
  match t.lexeme with
  | .number _ x => x
  | _ => .zero

/-- Whether the token is the punctuation mark `c`. -/
def isPunctuation (t : Token) (c : Char) : Bool :=
  t.lexeme = .punctuation c

/-- Whether the token is the operator `symbol`. -/
def isOperator (t : Token) (symbol : String) : Bool :=
  t.lexeme = .operator symbol

/-- Whether the token is the keyword `word`. -/
def isKeyword (t : Token) (word : String) : Bool :=
  t.lexeme = .keyword word

/-- The name, if the token is an identifier. -/
def identifier? (t : Token) : Option String :=
  match t.lexeme with
  | .identifier s => some s
  | _ => none

/-- The name, if the token is an identifier or a keyword: after a point both are names. -/
def word? (t : Token) : Option String :=
  match t.lexeme with
  | .identifier s | .keyword s => some s
  | _ => none

end Token

/-! ### Reading one lexeme -/

/-- The words that are no identifiers. -/
def keywords : List String :=
  ["null", "undefined", "true", "false", "$this", "$parent", "typeof", "void", "instanceof", "in"]

/-- The lexeme of a run of identifier characters. -/
def Lexeme.ofWord (word : String) : Lexeme :=
  if word ∈ keywords then .keyword word else .identifier word

/-- Puts characters back in front of the first of two parts. -/
def consFront (front : List Char) (cut : List Char × List Char) : List Char × List Char :=
  (front ++ cut.1, cut.2)

/-- Cuts off what looks like a numeral: digits, points, and exponent marks with their sign, in any
order. -/
def spanNumeral : List Char → List Char × List Char
  | [] => ([], [])
  | c :: cs =>
    if isDigit c || c = '.' then consFront [c] (spanNumeral cs)
    else if c = 'e' || c = 'E' then
      match cs with
      | [] => ([c], [])
      | s :: rest =>
        if s = '+' || s = '-' then consFront [c, s] (spanNumeral rest)
        else consFront [c] (spanNumeral (s :: rest))
    else ([], c :: cs)

/-- The lexeme of what looks like a numeral. -/
def Lexeme.ofNumeral (numeral : List Char) : Lexeme :=
  match Number.read? numeral with
  | some x => .number (String.ofList numeral) x
  | none => .fault (.badNumeral (String.ofList numeral))

/-- What a backslash and the next character stand for in a string. -/
def unescape : Char → Char
  | 'n' => '\n'
  | 't' => '\t'
  | 'r' => '\r'
  | c => c

/-- A string without its opening quote, as far as it goes. -/
inductive Quoted where
  /-- The value, and what follows the closing quote. -/
  | closed (value : List Char) (rest : List Char)
  /-- The text ends first; `dangling` when its last character is a backslash that escapes nothing. -/
  | unclosed (dangling : Bool)

/-- The string with one more character at its front. -/
def Quoted.push (c : Char) : Quoted → Quoted
  | .closed value rest => .closed (c :: value) rest
  | .unclosed dangling => .unclosed dangling

/-- Reads a string up to its closing quote. -/
def readQuoted (quote : Char) : List Char → Quoted
  | [] => .unclosed false
  | c :: cs =>
    if c = quote then .closed [] cs
    else if c = '\\' then
      match cs with
      | [] => .unclosed true
      | e :: rest => (readQuoted quote rest).push (unescape e)
    else (readQuoted quote cs).push c

/-- The marks that are tokens of their own. -/
def isMark (c : Char) : Bool :=
  c = '(' || c = ')' || c = '[' || c = ']' || c = '\x7b' || c = '\x7d' || c = ',' || c = ':' || c = ';'

/-- The longest operator that starts with `c`, where `cs` follows, and what it leaves. -/
def readOperator? (c : Char) (cs : List Char) : Option (String × List Char) :=
  match c, cs with
  | '?', '?' :: rest => some ("??", rest)
  | '&', '&' :: rest => some ("&&", rest)
  | '|', '|' :: rest => some ("||", rest)
  | '<', '=' :: rest => some ("<=", rest)
  | '>', '=' :: rest => some (">=", rest)
  | '!', '=' :: '=' :: rest => some ("!==", rest)
  | '!', '=' :: rest => some ("!=", rest)
  | '=', '=' :: '=' :: rest => some ("===", rest)
  | '=', '=' :: rest => some ("==", rest)
  | _, _ => if c ∈ ['+', '-', '*', '/', '%', '?', '&', '|', '<', '>', '!', '=']
      then some (String.singleton c, cs) else none

/-- A lexeme that was read.  `overrun` is one when a backslash at the very end escaped a character that
is not there. -/
structure Scanned where
  lexeme : Lexeme
  rest : List Char
  overrun : Nat := 0

/-- Reads the lexeme that starts with `c`, where `cs` follows; `c` is no space. -/
def Lexeme.scan (c : Char) (cs : List Char) : Scanned :=
  if isIdentifierStart c then
    ⟨.ofWord (String.ofList (c :: cs.takeWhile isIdentifierPart)), cs.dropWhile isIdentifierPart, 0⟩
  else if isDigit c || (c = '.' && (cs.head?.any isDigit)) then
    let (numeral, rest) := spanNumeral (c :: cs)
    ⟨.ofNumeral numeral, rest, 0⟩
  else if c = '.' || isMark c then ⟨.punctuation c, cs, 0⟩
  else if c = '\x27' || c = '\x22' then
    match readQuoted c cs with
    | .closed value rest => ⟨.string (String.ofList value), rest, 0⟩
    | .unclosed dangling => ⟨.fault .openQuote, [], if dangling then 1 else 0⟩
  else match readOperator? c cs with
    | some (symbol, rest) => ⟨.operator symbol, rest, 0⟩
    | none => ⟨.fault (.unexpected c), cs, 0⟩

/-! ### Reading all of them -/

/-- Whether a lexeme ends the reading. -/
def Lexeme.isFault : Lexeme → Bool
  | .fault _ => true
  | _ => false

/-- The tokens of `cs`, the end of a text of `total` bytes.  Every token takes a character, so `fuel`
above the number of characters is enough. -/
def scanTokens (total : Nat) : (fuel : Nat) → List Char → List Token
  | 0, _ => []
  | fuel + 1, cs =>
    match cs.dropWhile isSpace with
    | [] => []
    | c :: rest =>
      let scanned := Lexeme.scan c rest
      let token : Token := ⟨scanned.lexeme, total - byteLength (c :: rest),
        total - byteLength scanned.rest + scanned.overrun⟩
      if scanned.lexeme.isFault then [token]
      else token :: scanTokens total fuel scanned.rest

/-- The tokens of an expression text. -/
def tokens (input : String) : List Token :=
  let cs := input.toList
  scanTokens (byteLength cs) (cs.length + 1) cs

end ViewTemplate.Expression
