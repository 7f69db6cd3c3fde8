import ViewTemplate.Markup.Node
import ViewTemplate.Markup.TagRules

/-!
# Writing markup

Trees as HTML: attributes in double quotes, end tags for all but void elements, and the characters that
would be read as markup as references.  The text of an element that holds no markup is written as it
stands.
-/

namespace ViewTemplate.Markup

/-- A character of text as it is written. -/
def escapeTextChar : Char → String
  | '&' => "&amp;"
  | '\u00a0' => "&nbsp;"
  | '<' => "&lt;"
  | '>' => "&gt;"
  | c => String.singleton c

/-- A character of an attribute value as it is written. -/
def escapeValueChar : Char → String
  | '&' => "&amp;"
  | '\u00a0' => "&nbsp;"
  | '\x22' => "&quot;"
  | c => String.singleton c

/-- Text as it is written. -/
def escapeText (value : String) : String :=
  String.join (value.toList.map escapeTextChar)

/-- An attribute value as it is written between double quotes. -/
def escapeValue (value : String) : String :=
  String.join (value.toList.map escapeValueChar)

/-- An attribute with the blank before it. -/
def Attribute.render (a : Attribute) : String :=
  " " ++ a.name ++ "=\"" ++ escapeValue a.value ++ "\""

/-- The start tag. -/
def Tag.renderStart (t : Tag) : String :=
  "<" ++ t.name ++ String.join (t.attributes.map Attribute.render) ++ ">"

/-- The end tag. -/
def Tag.renderEnd (t : Tag) : String :=
  "</" ++ t.name ++ ">"

mutual

/-- A node as HTML; `raw` in an element that holds no markup. -/
def Node.render (raw : Bool) : Node → String
  | .text value _ => if raw then value else escapeText value
  | .comment value _ => "<!--" ++ value ++ "-->"
  | .element tag children =>
    let rules := TagRules.html tag.name
    if rules.isVoid then tag.renderStart
    else tag.renderStart ++ renderAll (rules.content ≠ .parsable) children ++ tag.renderEnd

/-- Nodes as HTML, one after the other. -/
def renderAll (raw : Bool) : List Node → String
  | [] => ""
  | node :: nodes => node.render raw ++ renderAll raw nodes

end

/-- A list of nodes as HTML. -/
def renderNodes (nodes : List Node) : String :=
  renderAll false nodes

/-- An element as HTML. -/
def Element.render (e : Element) : String :=
  e.toNode.render false

end ViewTemplate.Markup
