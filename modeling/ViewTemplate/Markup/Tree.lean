import ViewTemplate.Markup.Node
import ViewTemplate.Markup.Token

/-!
# Trees from tokens

The tree is built by one pass over the tokens.  The builder holds the elements that are still open,
innermost first, and the start tag or comment that is being put together.  An end tag closes the innermost
open element of its name and everything opened inside it; some elements end earlier, before a start tag
that cannot stand in them.

* `Builder` — the state of the pass; `Builder.step` — what one token does to it.
* `Builder.closeThrough` — what an end tag closes.
* `build`, `parseWith`, `parse` — the tree of tokens, of a source, of an HTML source.
-/

namespace ViewTemplate.Markup

open ViewTemplate.Source

/-! ### What the builder reports -/

/-- What is wrong with the nesting of tags. -/
inductive NestingFault where
  | cannotSelfClose (name : String)
  | voidEndTag (name : String)
  | unexpectedEndTag (name : String)
  | unclosed (name : String)
  deriving Repr, DecidableEq

/-- The message of a nesting fault. -/
def NestingFault.message : NestingFault → String
  | .cannotSelfClose name =>
    "Only void and custom elements can be self closed \"" ++ name ++ "\""
  | .voidEndTag name => "Void elements do not have end tags \"" ++ name ++ "\""
  | .unexpectedEndTag name =>
    "Unexpected closing tag \"" ++ name
      ++ "\". It may happen when the tag has already been closed by another tag."
  | .unclosed name => "Unclosed element \"" ++ name ++ "\""

/-- The diagnostic for a nesting fault. -/
def NestingFault.diagnostic (fault : NestingFault) (span : Span) : Diagnostic :=
  { span, message := fault.message }

/-! ### The builder -/

/-- An element that has been opened, with the children read so far. -/
structure OpenElement where
  tag : Tag
  children : List Node := []

/-- What has been read in part. -/
inductive Pending where
  | nothing
  /-- A start tag: its name, the span of its opening mark, and the attributes so far. -/
  | startTag (name : String) (span : Span) (attributes : List Attribute)
  /-- A comment: its content so far, and its span. -/
  | comment (value : String) (span : Span)

/-- The state of tree building. -/
structure Builder where
  /-- The open elements, innermost first. -/
  stack : List OpenElement := []
  roots : List Node := []
  faults : List Diagnostic := []
  pending : Pending := .nothing

namespace Builder

/-- The builder with a fault reported. -/
def report (b : Builder) (fault : NestingFault) (span : Span) : Builder :=
  { b with faults := b.faults ++ [fault.diagnostic span] }

/-- The nodes read so far at the place where the next one goes. -/
def siblings (b : Builder) : List Node :=
  match b.stack with
  | [] => b.roots
  | parent :: _ => parent.children

/-- Puts nodes in the place of those read so far where the next one goes. -/
def setSiblings (b : Builder) (nodes : List Node) : Builder :=
  match b.stack with
  | [] => { b with roots := nodes }
  | parent :: rest => { b with stack := { parent with children := nodes } :: rest }

/-- Adds a node where the next one goes. -/
def add (b : Builder) (node : Node) : Builder :=
  b.setSiblings (b.siblings ++ [node])

/-! ### Text -/

/-- Adds text after the siblings; it becomes one with a text right before it. -/
def appendText (siblings : List Node) (value : String) (span : Span) : List Node :=
  match siblings.getLast? with
  | some (.text before place) =>
    siblings.dropLast ++ [.text (before ++ value) ⟨place.start, span.stop⟩]
  | _ => siblings ++ [.text value span]

/-- Whether a line feed at the start of the next text is dropped. -/
def dropsLineFeed (rules : String → TagRules) (b : Builder) : Bool :=
  match b.stack with
  | [] => false
  | parent :: _ => parent.children.isEmpty && (rules parent.tag.name).ignoreFirstLineFeed

/-- The text without the line feed at its start, if it is to be dropped. -/
def textValue (rules : String → TagRules) (b : Builder) (value : String) : String :=
  match value.toList with
  | '\n' :: rest => if b.dropsLineFeed rules then String.ofList rest else value
  | _ => value

/-- Adds text, unless it is empty. -/
def addText (rules : String → TagRules) (b : Builder) (value : String) (span : Span) : Builder :=
  let value := b.textValue rules value
  if value.isEmpty then b else b.setSiblings (appendText b.siblings value span)

/-! ### Start tags -/

/-- Closes the innermost open element if a start tag of this name ends it. -/
def closeBefore (rules : String → TagRules) (b : Builder) (name : String) : Builder :=
  match b.stack with
  | [] => b
  | parent :: rest =>
    if (rules parent.tag.name).isClosedByChild name then
      { b with stack := rest }.add (.element parent.tag parent.children)
    else b

/-- Completes a start tag that was opened at `openSpan` and ends at `stop`. -/
def startElement (rules : String → TagRules) (b : Builder) (name : String) (openSpan : Span)
    (attributes : List Attribute) (stop : Location) (isSelfClosing : Bool) : Builder :=
  let rule := rules name
  let startSpan : Span := ⟨openSpan.start, stop⟩
  let tag : Tag :=
    { name, attributes, isSelfClosing, isVoid := rule.isVoid, span := startSpan, startSpan }
  let b :=
    if isSelfClosing && !(rule.canSelfClose || rule.isVoid || isCustomElementName name) then
      b.report (.cannotSelfClose name) openSpan
    else b
  let b := b.closeBefore rules name
  if isSelfClosing || rule.isVoid then b.add (.element { tag with endSpan := some startSpan } [])
  else { b with stack := { tag } :: b.stack }

/-- Completes whatever has been read in part. -/
def flush (rules : String → TagRules) (b : Builder) : Builder :=
  match b.pending with
  | .nothing => b
  | .startTag name span attributes =>
    { b with pending := .nothing }.startElement rules name span attributes span.stop false
  | .comment value span => { b with pending := .nothing }.add (.comment value span)

/-! ### End tags -/

/-- Closes open elements up to and including the innermost one of the given name.  `inside` is what has
been closed already and goes into the next one.  Gives the closed element, what is reported about those
inside it, and the elements that stay open. -/
def closeThrough (rules : String → TagRules) (name : String) (endSpan : Span) :
    (inside : List Node) → List OpenElement → Option (Node × List Diagnostic × List OpenElement)
  | _, [] => none
  | inside, e :: rest =>
    let children := e.children ++ inside
    if e.tag.name = name then
      let tag := { e.tag with
        endSpan := some endSpan, span := ⟨e.tag.startSpan.start, endSpan.stop⟩ }
      some (.element tag children, [], rest)
    else
      let faults := if (rules e.tag.name).closedByParent then []
        else [(NestingFault.unclosed e.tag.name).diagnostic e.tag.startSpan]
      (closeThrough rules name endSpan [.element e.tag children] rest).map
        fun (closed, later, stack) => (closed, faults ++ later, stack)

/-- Handles an end tag. -/
def endElement (rules : String → TagRules) (b : Builder) (name : String) (span : Span) : Builder :=
  if (rules name).isVoid then b.report (.voidEndTag name) span
  else match closeThrough rules name span [] b.stack with
    | none => b.report (.unexpectedEndTag name) span
    | some (closed, faults, stack) =>
      { b with stack, faults := b.faults ++ faults }.add closed

/-! ### The pass over the tokens -/

/-- The attributes with the last one changed. -/
def changeLast (f : Attribute → Attribute) (attributes : List Attribute) : List Attribute :=
  match attributes.getLast? with
  | some a => attributes.dropLast ++ [f a]
  | none => []

/-- Takes one token. -/
def step (rules : String → TagRules) (b : Builder) (t : Token) : Builder :=
  match t.lexeme, b.pending with
  | .attributeName name, .startTag tag span attributes =>
    let added : Attribute := { name, value := "", span := t.span }
    { b with pending := .startTag tag span (attributes ++ [added]) }
  | .attributeQuote _, .startTag tag span attributes =>
    let extend (a : Attribute) := { a with span := ⟨a.span.start, t.span.stop⟩ }
    { b with pending := .startTag tag span (changeLast extend attributes) }
  | .attributeValue value, .startTag tag span attributes =>
    let give (a : Attribute) :=
      { a with value, valueSpan := some t.span, span := ⟨a.span.start, t.span.stop⟩ }
    { b with pending := .startTag tag span (changeLast give attributes) }
  | .tagOpenEnd, .startTag name span attributes =>
    { b with pending := .nothing }.startElement rules name span attributes t.span.stop false
  | .tagSelfClose, .startTag name span attributes =>
    { b with pending := .nothing }.startElement rules name span attributes t.span.stop true
  | .text value, .comment _ span =>
    { b with pending := .comment value ⟨span.start, t.span.stop⟩ }
  | .commentEnd, .comment value span =>
    { b with pending := .nothing }.add (.comment value ⟨span.start, t.span.stop⟩)
  | lexeme, _ =>
    let b := b.flush rules
    match lexeme with
    | .tagOpen name => { b with pending := .startTag name t.span [] }
    | .commentStart => { b with pending := .comment "" t.span }
    | .tagClose name => b.endElement rules name t.span
    | .text value | .rawText value => b.addText rules value t.span
    | _ => b

/-- The nodes of the tree when no token is left: the elements still open end here. -/
def finish (b : Builder) : List Node :=
  let still := b.stack.foldl (fun inside e => [.element e.tag (e.children ++ inside)]) []
  b.roots ++ still

end Builder

/-! ### Whole sources -/

/-- What parsing a source gives: a tree in any case, and what is wrong with the source. -/
structure Parsed where
  nodes : List Node
  faults : List Diagnostic

/-- The tree of a list of tokens. -/
def build (rules : String → TagRules) (tokens : List Token) : Parsed :=
  let b := (tokens.foldl (Builder.step rules) {}).flush rules
  ⟨b.finish, b.faults⟩

/-- The tree of a source.  Faults of the tokens come before faults of the nesting. -/
def parseWith (rules : String → TagRules) (source : String) : Parsed :=
  let tokenized := tokenize rules source
  let built := build rules tokenized.tokens
  ⟨built.nodes, tokenized.faults ++ built.faults⟩

/-- The tree of an HTML source. -/
def parse (source : String) : Parsed :=
  parseWith TagRules.html source

end ViewTemplate.Markup
