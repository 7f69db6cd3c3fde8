import ViewTemplate.Expression.Basic
import ViewTemplate.Json.Writer

/-!
# Expressions as JSON

An expression is an object with the name of its shape first.
-/

namespace ViewTemplate

open ViewTemplate.Json

/-- A literal as JSON. -/
def Literal.toJson : Literal → String
  | .undefined => writeString "Undefined"
  | .null => writeString "Null"
  | .boolean b => writeObject [("Boolean", writeBool b)]
  | .number x => writeObject [("Number", writeNumber x)]
  | .string s => writeObject [("String", writeString s)]

namespace Expression

/-- An object with the name of a shape first. -/
def writeShape (shape : String) (fields : List (String × String)) : String :=
  writeObject (("$kind", writeString shape) :: fields)

/-- Several texts as JSON. -/
def writeTexts (texts : List String) : String :=
  writeArray (texts.map writeString)

mutual

/-- An expression as JSON. -/
def toJson : Expression → String
  | .accessThis ancestor => writeShape "AccessThis" [("ancestor", toString ancestor)]
  | .accessScope name ancestor =>
    writeShape "AccessScope" [("name", writeString name), ("ancestor", toString ancestor)]
  | .accessMember object name =>
    writeShape "AccessMember" [("object", toJson object), ("name", writeString name)]
  | .accessKeyed object key => writeShape "AccessKeyed" [("object", toJson object), ("key", toJson key)]
  | .callScope name args ancestor =>
    writeShape "CallScope" [("name", writeString name), ("args", writeArray (toJsonAll args)),
      ("ancestor", toString ancestor)]
  | .callMember object name args =>
    writeShape "CallMember" [("object", toJson object), ("name", writeString name),
      ("args", writeArray (toJsonAll args))]
  | .callFunction func args =>
    writeShape "CallFunction" [("func", toJson func), ("args", writeArray (toJsonAll args))]
  | .literal value => writeShape "PrimitiveLiteral" [("value", value.toJson)]
  | .arrayLiteral elements => writeShape "ArrayLiteral" [("elements", writeArray (toJsonAll elements))]
  | .objectLiteral keys values =>
    writeShape "ObjectLiteral" [("keys", writeTexts keys), ("values", writeArray (toJsonAll values))]
  | .unary operation operand =>
    writeShape "Unary" [("operation", writeString operation), ("expression", toJson operand)]
  | .binary operation left right =>
    writeShape "Binary" [("operation", writeString operation), ("left", toJson left),
      ("right", toJson right)]
  | .conditional condition yes no =>
    writeShape "Conditional" [("condition", toJson condition), ("yes", toJson yes), ("no", toJson no)]
  | .assign target value => writeShape "Assign" [("target", toJson target), ("value", toJson value)]
  | .valueConverter expression name args =>
    writeShape "ValueConverter" [("expression", toJson expression), ("name", writeString name),
      ("args", writeArray (toJsonAll args))]
  | .bindingBehavior expression name args =>
    writeShape "BindingBehavior" [("expression", toJson expression), ("name", writeString name),
      ("args", writeArray (toJsonAll args))]
  | .interpolation parts expressions =>
    writeShape "Interpolation" [("parts", writeTexts parts),
      ("expressions", writeArray (toJsonAll expressions))]
  | .iteration declared iterable =>
    writeShape "ForOfStatement" [("declaration", toJson declared), ("iterable", toJson iterable)]
  | .bindingIdentifier name => writeShape "BindingIdentifier" [("name", writeString name)]
  | .arrayPattern elements =>
    writeShape "ArrayBindingPattern" [("elements", writeArray (toJsonAll elements))]
  | .objectPattern keys values =>
    writeShape "ObjectBindingPattern" [("keys", writeTexts keys),
      ("values", writeArray (toJsonAll values))]

/-- Several expressions as JSON. -/
def toJsonAll : List Expression → List String
  | [] => []
  | e :: es => toJson e :: toJsonAll es

end

end Expression

end ViewTemplate
