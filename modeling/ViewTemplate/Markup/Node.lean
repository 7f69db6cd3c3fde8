import ViewTemplate.Source.Location
import ViewTemplate.Text.WhiteSpace

/-!
# Markup trees

Elements, texts and comments.  A `Tag` is an element without its children: its name, its attributes, and
where it was read.  Classes are the white-space separated words of the first `class` attribute.
-/

namespace ViewTemplate.Markup

open ViewTemplate.Source ViewTemplate.Text

/-- An attribute of an element. -/
structure Attribute where
  name : String
  value : String
  span : Span := {}
  valueSpan : Option Span := none
  deriving Repr, DecidableEq, Inhabited

/-- An element without its children. -/
structure Tag where
  name : String
  attributes : List Attribute := []
  isSelfClosing : Bool := false
  isVoid : Bool := false
  /-- From the start tag to the end tag, or the start tag alone. -/
  span : Span := {}
  startSpan : Span := {}
  endSpan : Option Span := none
  deriving Repr, DecidableEq, Inhabited

/-- A node of a markup tree. -/
inductive Node where
  | element (tag : Tag) (children : List Node)
  | text (value : String) (span : Span := {})
  | comment (value : String) (span : Span := {})
  deriving Inhabited

/-- An element with its children. -/
structure Element extends Tag where
  children : List Node := []
  deriving Inhabited

/-! ### Attributes -/

namespace Tag

/-- The first attribute of the given name. -/
def attribute? (t : Tag) (name : String) : Option Attribute :=
  t.attributes.find? (·.name = name)

/-- Whether there is an attribute of the given name. -/
def hasAttribute (t : Tag) (name : String) : Bool :=
  (t.attribute? name).isSome

/-- The value of the first attribute of the given name. -/
def value? (t : Tag) (name : String) : Option String :=
  (t.attribute? name).map (·.value)

/-- Whether the tag is a `template`. -/
def isTemplate (t : Tag) : Bool :=
  t.name = "template"

end Tag

/-! ### Classes -/

/-- The value of a `class` attribute with the class `c` added at its end, unless it is there. -/
def addClassName (c : String) (value : String) : String :=
  if c ∈ words value then value
  else if isBlank value then c
  else trimEnd value ++ " " ++ c

/-- The attributes with the class `c` added; without a `class` attribute one is added at the end. -/
def addClassTo (c : String) : List Attribute → List Attribute
  | [] => [{ name := "class", value := c }]
  | a :: rest =>
    if a.name = "class" then { a with value := addClassName c a.value } :: rest
    else a :: addClassTo c rest

namespace Tag

/-- The classes of the tag. -/
def classes (t : Tag) : List String :=
  match t.value? "class" with
  | some value => words value
  | none => []

/-- Whether the tag has the class `c`. -/
def hasClass (t : Tag) (c : String) : Bool :=
  t.classes.contains c

/-- The tag with the class `c` added. -/
def addClass (t : Tag) (c : String) : Tag :=
  { t with attributes := addClassTo c t.attributes }

end Tag

/-! ### Nodes -/

namespace Node

/-- The tag, if the node is an element. -/
def tag? : Node → Option Tag
  | .element tag _ => some tag
  | _ => none

/-- Whether the node is a comment or blank text. -/
def isInsignificant : Node → Bool
  | .text value _ => isBlank value
  | .comment _ _ => true
  | .element _ _ => false

end Node

/-- The element as a node. -/
def Element.toNode (e : Element) : Node :=
  .element e.toTag e.children

end ViewTemplate.Markup
