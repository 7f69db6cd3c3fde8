import ViewTemplate.Json.Writer
import ViewTemplate.Markup.Node

/-!
# Markup as JSON

Nodes are objects with the name of their type first.  Where they were read is not written.
-/

namespace ViewTemplate.Markup

open ViewTemplate.Json

/-- An attribute as JSON. -/
def Attribute.toJson (a : Attribute) : String :=
  writeObject [("name", writeString a.name), ("value", writeString a.value)]

/-- The members of an element, where its children are written already. -/
def Tag.members (t : Tag) (children : List String) : List (String × String) :=
  [("name", writeString t.name), ("attrs", writeArray (t.attributes.map Attribute.toJson)),
    ("children", writeArray children)]

mutual

/-- A node as JSON. -/
def Node.toJson : Node → String
  | .element tag children =>
    writeObject (("type", writeString "Element") :: tag.members (nodesToJson children))
  | .text value _ => writeObject [("type", writeString "Text"), ("value", writeString value)]
  | .comment value _ => writeObject [("type", writeString "Comment"), ("value", writeString value)]

/-- Several nodes as JSON. -/
def nodesToJson : List Node → List String
  | [] => []
  | n :: ns => n.toJson :: nodesToJson ns

end

/-- An element as JSON. -/
def Element.toJson (e : Element) : String :=
  writeObject (e.toTag.members (nodesToJson e.children))

end ViewTemplate.Markup
