import ViewTemplate.Instruction
import ViewTemplate.Json.Expression
import ViewTemplate.Json.Markup

/-!
# Definitions as JSON

Instructions are objects with the name of their kind first, and definitions are objects.
-/

namespace ViewTemplate

open ViewTemplate.Json

/-- The name of a way to attach listeners. -/
def Delegation.name : Delegation → String
  | .none => "none"
  | .bubbling => "bubbling"
  | .capturing => "capturing"

/-- What a reference gives out, as JSON. -/
def RefTarget.toJson : RefTarget → String
  | .element => writeObject [("kind", writeString "element")]
  | .viewModel => writeObject [("kind", writeString "viewModel")]
  | .customAttribute name =>
    writeObject [("kind", writeString "attribute"), ("name", writeString name)]

/-- An object with the name of an instruction's kind first. -/
def Instruction.write (i : Instruction) (fields : List (String × String)) : String :=
  writeObject (("type", writeString i.kind) :: fields)

/-- The members of an instruction that writes the value of an expression to a property. -/
def bindingMembers (property : String) (source : Expression) : List (String × String) :=
  [("to", writeString property), ("from", source.toJson)]

mutual

/-- An instruction as JSON. -/
def Instruction.toJson (i : Instruction) : String :=
  match i with
  | .setProperty property value => i.write [("to", writeString property), ("value", writeString value)]
  | .propertyBinding property source mode =>
    i.write (bindingMembers property source ++ [("mode", writeString mode.text)])
  | .interpolation property source | .callBinding property source | .iteratorBinding property source
  | .letBinding property source => i.write (bindingMembers property source)
  | .listenerBinding property source delegation preventDefault =>
    i.write (bindingMembers property source ++
      [("strategy", writeString delegation.name), ("preventDefault", writeBool preventDefault)])
  | .refBinding source target => i.write [("from", source.toJson), ("to", target.toJson)]
  | .textBinding source => i.write [("from", source.toJson)]
  | .hydrateElement resource instructions parts =>
    i.write [("res", writeString resource), ("instructions", writeArray (instructionsToJson instructions)),
      ("parts", writeObject (partsToJson parts))]
  | .hydrateAttribute resource instructions =>
    i.write [("res", writeString resource), ("instructions", writeArray (instructionsToJson instructions))]
  | .hydrateLetElement instructions toViewModel =>
    i.write [("instructions", writeArray (instructionsToJson instructions)),
      ("toViewModel", writeBool toViewModel)]
  | .hydrateTemplateController resource definition instructions link =>
    i.write [("res", writeString resource), ("def", definition.toJson),
      ("instructions", writeArray (instructionsToJson instructions)), ("link", writeBool link)]

/-- Several instructions as JSON. -/
def instructionsToJson : List Instruction → List String
  | [] => []
  | i :: is => i.toJson :: instructionsToJson is

/-- Groups of instructions as JSON. -/
def groupsToJson : List (List Instruction) → List String
  | [] => []
  | g :: gs => writeArray (instructionsToJson g) :: groupsToJson gs

/-- Parts as the members of an object. -/
def partsToJson : List (String × Definition) → List (String × String)
  | [] => []
  | (name, d) :: rest => (name, d.toJson) :: partsToJson rest

/-- A definition as JSON. -/
def Definition.toJson : Definition → String
  | ⟨template, groups, surrogates, hasSlots⟩ =>
    writeObject [("template", template.toJson), ("instructions", writeArray (groupsToJson groups)),
      ("surrogates", writeArray (instructionsToJson surrogates)), ("hasSlots", writeBool hasSlots)]

end

end ViewTemplate
