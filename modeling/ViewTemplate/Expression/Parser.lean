import ViewTemplate.Expression.Error

/-!
# Reading expressions

The grammar, one function for each of its levels, from the loosest to the tightest:

* `behaviors`    – `e & name:arg:…`, any number of them;
* `converters`   – `e | name:arg:…`, any number of them;
* `assignment`   – `target = e`, grouped to the right;
* `conditional`  – `c ? yes : no`;
* `binary`       – binary operators by precedence, grouped to the left;
* `unary`        – `!`, `-`, `+`, `typeof` and `void`;
* `postfixed`    – member access, keyed access and calls;
* `primary`      – names, literals and whatever stands in brackets.

Every function takes the tokens ahead and gives what it read together with the tokens that are left.  The
first argument bounds the number of nested steps; `stepBound` is enough for the tokens of a text.
-/

namespace ViewTemplate.Expression.Grammar

/-- Reading takes the tokens ahead, and gives a result and the tokens that are left. -/
abbrev Read (α : Type) := List Token → Except Cause (α × List Token)

/-- Fails with an issue at the next token. -/
def fail {α : Type} (issue : Issue) (ts : List Token) : Except Cause α :=
  .error (.grammar issue (ts.head?.map Token.start))

/-! ### Single tokens -/

/-- What follows the punctuation mark `c`, if it is next. -/
def skipMark? (c : Char) : List Token → Option (List Token)
  | t :: ts => if t.isPunctuation c then some ts else none
  | [] => none

/-- What follows the operator `symbol`, if it is next. -/
def skipOperator? (symbol : String) : List Token → Option (List Token)
  | t :: ts => if t.isOperator symbol then some ts else none
  | [] => none

/-- What follows the punctuation mark `c`, which has to be next. -/
def expectMark (c : Char) (ts : List Token) : Except Cause (List Token) :=
  match skipMark? c ts with
  | some rest => .ok rest
  | none => fail (.missing c) ts

/-- A name, which has to be next; keywords are names here. -/
def expectWord : Read String
  | [] => fail .expectedIdentifier []
  | t :: ts =>
    match t.word? with
    | some word => .ok (word, ts)
    | none => fail .expectedIdentifier (t :: ts)

/-- Succeeds if no token is left. -/
def expectEnd (input : String) : List Token → Except Cause Unit
  | [] => .ok ()
  | t :: ts =>
    match t.lexeme with
    | .fault cause => .error (.lexical cause t.start)
    | _ => fail (.unconsumed (t.text input)) (t :: ts)

/-- The operator and its binding power, if the token is a binary operator. -/
def binaryOperator? (t : Token) : Option (String × Nat) :=
  match t.lexeme with
  | .operator symbol => (precedence? symbol).map fun p => (symbol, p)
  | .keyword word => (precedence? word).map fun p => (word, p)
  | _ => none

/-- The operator, if the token is a unary operator. -/
def unaryOperator? (t : Token) : Option String :=
  match t.lexeme with
  | .operator symbol => if symbol ∈ ["!", "-", "+"] then some symbol else none
  | .keyword word => if word ∈ ["typeof", "void"] then some word else none
  | _ => none

/-- The value of a keyword that stands for one. -/
def keywordLiteral? : String → Option Literal
  | "null" => some .null
  | "undefined" => some .undefined
  | "true" => some (.boolean true)
  | "false" => some (.boolean false)
  | _ => none

/-- The name that a token stands for as the key of an object. -/
def objectKey? (t : Token) : Option String :=
  match t.lexeme with
  | .string s | .identifier s | .keyword s => some s
  | .number _ x => some x.text
  | _ => none

/-- How often `.$parent` follows, and what is left after it. -/
def parentChain : List Token → Nat × List Token
  | dot :: parent :: ts =>
    if dot.isPunctuation '.' && parent.isKeyword "$parent" then
      let (count, rest) := parentChain ts
      (count + 1, rest)
    else (0, dot :: parent :: ts)
  | ts => (0, ts)

/-! ### The levels of the grammar -/

mutual

/-- An expression with any number of behaviors. -/
def behaviors : Nat → Read Expression
  | 0, _ => .error .outOfSteps
  | n + 1, ts => do
    let (e, ts) ← converters n ts
    behaviorsAfter n e ts

/-- More behaviors of the expression `e`. -/
def behaviorsAfter : Nat → Expression → Read Expression
  | 0, _, _ => .error .outOfSteps
  | n + 1, e, ts =>
    match skipOperator? "&" ts with
    | none => .ok (e, ts)
    | some ts => do
      let (name, ts) ← expectWord ts
      let (args, ts) ← colonArguments n ts
      behaviorsAfter n (.bindingBehavior e name args) ts

/-- An expression with any number of converters. -/
def converters : Nat → Read Expression
  | 0, _ => .error .outOfSteps
  | n + 1, ts => do
    let (e, ts) ← assignment n ts
    convertersAfter n e ts

/-- More converters of the expression `e`. -/
def convertersAfter : Nat → Expression → Read Expression
  | 0, _, _ => .error .outOfSteps
  | n + 1, e, ts =>
    match skipOperator? "|" ts with
    | none => .ok (e, ts)
    | some ts => do
      let (name, ts) ← expectWord ts
      let (args, ts) ← colonArguments n ts
      convertersAfter n (.valueConverter e name args) ts

/-- Arguments with a colon before each. -/
def colonArguments : Nat → Read (List Expression)
  | 0, _ => .error .outOfSteps
  | n + 1, ts =>
    match skipMark? ':' ts with
    | none => .ok ([], ts)
    | some ts => do
      let (arg, ts) ← assignment n ts
      let (args, ts) ← colonArguments n ts
      .ok (arg :: args, ts)

/-- An assignment, or what may stand on its left. -/
def assignment : Nat → Read Expression
  | 0, _ => .error .outOfSteps
  | n + 1, ts => do
    let (target, ts) ← conditional n ts
    match skipOperator? "=" ts with
    | none => .ok (target, ts)
    | some ts =>
      if target.isAssignable then do
        let (value, ts) ← assignment n ts
        .ok (.assign target value, ts)
      else fail .notAssignable ts

/-- A conditional, or what may stand as its condition. -/
def conditional : Nat → Read Expression
  | 0, _ => .error .outOfSteps
  | n + 1, ts => do
    let (condition, ts) ← binary n 1 ts
    match skipOperator? "?" ts with
    | none => .ok (condition, ts)
    | some ts => do
      let (yes, ts) ← assignment n ts
      let ts ← expectMark ':' ts
      let (no, ts) ← assignment n ts
      .ok (.conditional condition yes no, ts)

/-- Operands joined by binary operators of precedence `least` and above. -/
def binary : Nat → (least : Nat) → Read Expression
  | 0, _, _ => .error .outOfSteps
  | n + 1, least, ts => do
    let (left, ts) ← unary n ts
    binaryAfter n least left ts

/-- More operators and operands after `left`. -/
def binaryAfter : Nat → (least : Nat) → Expression → Read Expression
  | 0, _, _, _ => .error .outOfSteps
  | n + 1, least, left, ts =>
    match ts with
    | [] => .ok (left, [])
    | t :: rest =>
      match binaryOperator? t with
      | none => .ok (left, t :: rest)
      | some (operation, power) =>
        if power < least then .ok (left, t :: rest)
        else do
          let (right, ts) ← binary n (power + 1) rest
          binaryAfter n least (.binary operation left right) ts

/-- An operand with any number of unary operators before it. -/
def unary : Nat → Read Expression
  | 0, _ => .error .outOfSteps
  | n + 1, ts =>
    match ts with
    | [] => postfixed n []
    | t :: rest =>
      match unaryOperator? t with
      | none => postfixed n (t :: rest)
      | some operation => do
        let (operand, ts) ← unary n rest
        .ok (.unary operation operand, ts)

/-- A primary expression with accesses and calls after it. -/
def postfixed : Nat → Read Expression
  | 0, _ => .error .outOfSteps
  | n + 1, ts => do
    let (e, ts) ← primary n ts
    postfixesAfter n e ts

/-- More accesses and calls after `e`. -/
def postfixesAfter : Nat → Expression → Read Expression
  | 0, _, _ => .error .outOfSteps
  | n + 1, e, ts =>
    match skipMark? '.' ts, skipMark? '[' ts, skipMark? '(' ts with
    | some ts, _, _ => do
      let (name, ts) ← expectWord ts
      match skipMark? '(' ts with
      | some ts => do
        let (args, ts) ← elements n ')' ts
        postfixesAfter n (.callMember e name args) ts
      | none => postfixesAfter n (.accessMember e name) ts
    | _, some ts, _ => do
      let (key, ts) ← behaviors n ts
      let ts ← expectMark ']' ts
      postfixesAfter n (.accessKeyed e key) ts
    | _, _, some ts => do
      let (args, ts) ← elements n ')' ts
      postfixesAfter n (.callFunction e args) ts
    | none, none, none => .ok (e, ts)

/-- Expressions with commas between them, up to the mark `close`; the opening mark has been read. -/
def elements : Nat → (close : Char) → Read (List Expression)
  | 0, _, _ => .error .outOfSteps
  | n + 1, close, ts =>
    match skipMark? close ts with
    | some ts => .ok ([], ts)
    | none => do
      let (es, ts) ← commaSeparated n ts
      let ts ← expectMark close ts
      .ok (es, ts)

/-- One or more expressions with commas between them. -/
def commaSeparated : Nat → Read (List Expression)
  | 0, _ => .error .outOfSteps
  | n + 1, ts => do
    let (e, ts) ← assignment n ts
    match skipMark? ',' ts with
    | none => .ok ([e], ts)
    | some ts => do
      let (es, ts) ← commaSeparated n ts
      .ok (e :: es, ts)

/-- A name looked up `ancestor` scopes outward, or a call of it. -/
def scopeName : Nat → (name : String) → (ancestor : Nat) → Read Expression
  | 0, _, _, _ => .error .outOfSteps
  | n + 1, name, ancestor, ts =>
    match skipMark? '(' ts with
    | none => .ok (.accessScope name ancestor, ts)
    | some ts => do
      let (args, ts) ← elements n ')' ts
      .ok (.callScope name args ancestor, ts)

/-- What follows `$this` or a chain of `$parent`: a name of that scope, or the scope itself. -/
def scopeAccess : Nat → (ancestor : Nat) → Read Expression
  | 0, _, _ => .error .outOfSteps
  | n + 1, ancestor, ts =>
    match ts with
    | dot :: t :: rest =>
      match dot.isPunctuation '.', t.word? with
      | true, some name => scopeName n name ancestor rest
      | _, _ => .ok (.accessThis ancestor, dot :: t :: rest)
    | ts => .ok (.accessThis ancestor, ts)

/-- A name, a literal, or an expression in brackets. -/
def primary : Nat → Read Expression
  | 0, _ => .error .outOfSteps
  | _ + 1, [] => fail .unexpectedEnd []
  | n + 1, t :: rest =>
    match t.lexeme with
    | .fault cause => .error (.lexical cause t.start)
    | .number _ x => .ok (.number x, rest)
    | .string s => .ok (.string s, rest)
    | .identifier name => scopeName n name 0 rest
    | .operator symbol => fail (.unexpected symbol) (t :: rest)
    | .keyword word =>
      match keywordLiteral? word with
      | some value => .ok (.literal value, rest)
      | none =>
        if word = "$this" then
          let (count, ts) := parentChain rest
          scopeAccess n count ts
        else if word = "$parent" then
          let (count, ts) := parentChain rest
          scopeAccess n (count + 1) ts
        else fail (.unexpected word) (t :: rest)
    | .punctuation c =>
      if c = '(' then do
        let (e, ts) ← behaviors n rest
        let ts ← expectMark ')' ts
        .ok (e, ts)
      else if c = '[' then do
        let (es, ts) ← elements n ']' rest
        .ok (.arrayLiteral es, ts)
      else if c = '\x7b' then do
        let (entries, ts) ← objectEntries n rest
        .ok (.objectLiteral (entries.map (·.1)) (entries.map (·.2)), ts)
      else fail (.unexpected (String.singleton c)) (t :: rest)

/-- The entries of an object up to its closing brace; the opening one has been read. -/
def objectEntries : Nat → Read (List (String × Expression))
  | 0, _ => .error .outOfSteps
  | n + 1, ts =>
    match skipMark? '\x7d' ts with
    | some ts => .ok ([], ts)
    | none => do
      let (entries, ts) ← entriesSeparated n ts
      let ts ← expectMark '\x7d' ts
      .ok (entries, ts)

/-- One or more entries with commas between them. -/
def entriesSeparated : Nat → Read (List (String × Expression))
  | 0, _ => .error .outOfSteps
  | n + 1, ts => do
    let (entry, ts) ← objectEntry n ts
    match skipMark? ',' ts with
    | none => .ok ([entry], ts)
    | some ts => do
      let (entries, ts) ← entriesSeparated n ts
      .ok (entry :: entries, ts)

/-- A key with its value.  An identifier alone is the key of its own value. -/
def objectEntry : Nat → Read (String × Expression)
  | 0, _ => .error .outOfSteps
  | _ + 1, [] => fail .badObjectKey []
  | n + 1, t :: rest =>
    match objectKey? t with
    | none => fail .badObjectKey (t :: rest)
    | some key =>
      match skipMark? ':' rest with
      | some ts => do
        let (value, ts) ← assignment n ts
        .ok ((key, value), ts)
      | none =>
        match t.identifier? with
        | some _ => .ok ((key, .accessScope key 0), rest)
        | none => fail (.missing ':') rest

end

/-! ### The declaration of an iteration -/

/-- One name that the iteration declares. -/
def bindingName : Read Expression
  | [] => fail .expectedBindingIdentifier []
  | t :: ts =>
    match t.identifier? with
    | some name => .ok (.bindingIdentifier name, ts)
    | none => fail .expectedBindingIdentifier (t :: ts)

/-- One or more declared names with commas between them. -/
def bindingNames : Nat → Read (List Expression)
  | 0, _ => .error .outOfSteps
  | n + 1, ts => do
    let (e, ts) ← bindingName ts
    match skipMark? ',' ts with
    | none => .ok ([e], ts)
    | some ts => do
      let (es, ts) ← bindingNames n ts
      .ok (e :: es, ts)

/-- A key with the name that is declared for it; a key alone declares itself. -/
def bindingEntry : Read (String × Expression) := fun ts => do
  let (key, ts) ← expectWord ts
  match skipMark? ':' ts with
  | some ts => do
    let (value, ts) ← bindingName ts
    .ok ((key, value), ts)
  | none => .ok ((key, .bindingIdentifier key), ts)

/-- One or more keys with commas between them. -/
def bindingEntries : Nat → Read (List (String × Expression))
  | 0, _ => .error .outOfSteps
  | n + 1, ts => do
    let (entry, ts) ← bindingEntry ts
    match skipMark? ',' ts with
    | none => .ok ([entry], ts)
    | some ts => do
      let (entries, ts) ← bindingEntries n ts
      .ok (entry :: entries, ts)

/-- What an iteration declares: a name, an array of names, or an object of names. -/
def declaration (n : Nat) : Read Expression := fun ts =>
  match skipMark? '[' ts, skipMark? '\x7b' ts with
  | some ts, _ => do
    let (es, ts) ← bindingNames n ts
    let ts ← expectMark ']' ts
    .ok (.arrayPattern es, ts)
  | none, some ts => do
    let (entries, ts) ← bindingEntries n ts
    let ts ← expectMark '\x7d' ts
    .ok (.objectPattern (entries.map (·.1)) (entries.map (·.2)), ts)
  | none, none => bindingName ts

end Grammar

/-! ### Whole texts -/

open Grammar

/-- A number of nested steps that suffices for the tokens: no more than ten levels are entered between
two tokens that are consumed. -/
def stepBound (ts : List Token) : Nat :=
  16 * (ts.length + 1)

/-- Reads all tokens as one expression. -/
def parseTokens (input : String) (ts : List Token) : Except Cause Expression := do
  let (e, rest) ← behaviors (stepBound ts) ts
  expectEnd input rest
  .ok e

/-- Reads a text as an expression; a text without tokens is the empty string. -/
def parse (input : String) : Except Cause Expression :=
  match tokens input with
  | [] => .ok (.string "")
  | t :: ts => parseTokens input (t :: ts)

/-- What follows the word `of`, which has to be next. -/
def expectOf : List Token → Except Cause (List Token)
  | [] => .error .missingOf
  | t :: ts => if t.identifier? = some "of" then .ok ts else .error .missingOf

/-- Reads a text as an iteration. -/
def parseIteration (input : String) : Except Cause Expression := do
  let ts := tokens input
  let (declared, rest) ← declaration (stepBound ts) ts
  let rest ← expectOf rest
  let (iterable, rest) ← behaviors (stepBound ts) rest
  expectEnd input rest
  .ok (.iteration declared iterable)

end ViewTemplate.Expression
