import ViewTemplate.Text.LowerCase

/-!
# Rules of tags

How a tag name shapes the tree that is built from markup: which elements have no content, which hold
plain text, and which end without an end tag of their own.  `TagRules.html` is the table of HTML;
`TagRules.plain` treats every name alike.
-/

namespace ViewTemplate.Markup

open ViewTemplate.Text

/-- What an element may hold. -/
inductive ContentModel where
  /-- Text as it stands, up to the end tag. -/
  | rawText
  /-- Text with character references, up to the end tag. -/
  | escapableRawText
  /-- Markup. -/
  | parsable
  deriving Repr, DecidableEq, Inhabited

/-- The rules for the elements of one name. -/
structure TagRules where
  /-- Names of children before whose start tag the element ends. -/
  closedByChildren : List String := []
  content : ContentModel := .parsable
  /-- The element may end with its parent. -/
  closedByParent : Bool := false
  /-- The element has no content and no end tag. -/
  isVoid : Bool := false
  /-- A line feed right after the start tag is dropped. -/
  ignoreFirstLineFeed : Bool := false
  canSelfClose : Bool := false
  deriving Repr, DecidableEq, Inhabited

/-- Whether a tag name is one of a custom element. -/
def isCustomElementName (name : String) : Bool :=
  name.toList.contains '-'

namespace TagRules

/-- Sets whether the element is void; a void element may end with its parent and may be written as
self-closing, and no other may unless it is said afterwards. -/
def withVoid (r : TagRules) (isVoid : Bool) : TagRules :=
  { r with isVoid, closedByParent := r.closedByParent || isVoid, canSelfClose := isVoid }

/-- Adds names of children before which the element ends. -/
def withClosedByChildren (r : TagRules) (names : List String) : TagRules :=
  { r with closedByChildren := r.closedByChildren ++ names.map lowerCase }

/-- Whether the element ends before the start tag of a child with this name. -/
def isClosedByChild (r : TagRules) (name : String) : Bool :=
  r.isVoid || r.closedByChildren.contains (lowerCase name)

/-! ### Tables of rules -/

/-- The rules that hold for a name without rules of its own. -/
def standard : TagRules :=
  {}

/-- The rules of a void element. -/
def void : TagRules :=
  standard.withVoid true

/-- Every name has the same rules. -/
def plain : String → TagRules :=
  fun _ => standard

/-- The elements without content. -/
def voidNames : List String :=
  ["area", "base", "br", "col", "embed", "hr", "img", "input", "link", "meta", "param", "source",
    "track", "wbr"]

/-- The children before which a paragraph ends. -/
def paragraphClosers : List String :=
  ["address", "article", "aside", "blockquote", "div", "dl", "fieldset", "footer", "form", "h1", "h2",
    "h3", "h4", "h5", "h6", "header", "hgroup", "hr", "main", "nav", "ol", "p", "pre", "section",
    "table", "ul"]

/-- The rules of an element that ends before the given children, and with its parent. -/
def endingBefore (names : List String) : TagRules :=
  { standard with closedByChildren := names, closedByParent := true }

/-- The rules of the names that HTML singles out. -/
def special? (name : String) : Option TagRules :=
  match name with
  | "p" => some (endingBefore paragraphClosers)
  | "thead" => some { standard with closedByChildren := ["tbody", "tfoot"] }
  | "tbody" => some (endingBefore ["tbody", "tfoot"])
  | "tfoot" => some (endingBefore ["tbody"])
  | "tr" => some (endingBefore ["tr"])
  | "td" | "th" => some (endingBefore ["td", "th"])
  | "li" => some (endingBefore ["li"])
  | "dt" => some { standard with closedByChildren := ["dt", "dd"] }
  | "dd" => some (endingBefore ["dt", "dd"])
  | "optgroup" => some (endingBefore ["optgroup"])
  | "option" => some (endingBefore ["option", "optgroup"])
  | "pre" | "listing" => some { standard with ignoreFirstLineFeed := true }
  | "style" | "script" => some { standard with content := .rawText }
  | "title" => some { standard with content := .escapableRawText }
  | "textarea" => some { standard with content := .escapableRawText, ignoreFirstLineFeed := true }
  | _ => if voidNames.contains name then some void else none

/-- The rules of HTML.  A name is looked up as it stands and then in lower case; custom elements may be
written as self-closing. -/
def html (name : String) : TagRules :=
  match special? name with
  | some rules => rules
  | none =>
    let lower := lowerCase name
    match special? lower with
    | some rules => rules
    | none => if isCustomElementName lower then { standard with canSelfClose := true } else standard

end TagRules

end ViewTemplate.Markup
