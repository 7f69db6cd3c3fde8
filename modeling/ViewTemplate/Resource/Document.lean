import ViewTemplate.Json.Reader
import ViewTemplate.Resource.Registry

/-!
# Resources from JSON

A document of resources is an array of records.  A record is an object, or an array of its fields in
order; fields at the end may be left out if they have a standing value.
-/

namespace ViewTemplate

/-- Reads a written mode. -/
def BindingMode.ofJson? (j : Json) : Option BindingMode :=
  j.text?.bind BindingMode.ofText?

/-- Reads the kind of a resource: its name, or an object with nothing under that name. -/
def ResourceKind.ofJson? : Json → Option ResourceKind
  | .string (some "element") | .object [(some "element", .null)] => some .customElement
  | .string (some "attribute") | .object [(some "attribute", .null)] => some .customAttribute
  | _ => none

/-- Reads a bindable. -/
def Bindable.ofJson? (j : Json) : Option Bindable := do
  let [property, attributeName, mode] ← j.fields? ["property", "attribute", "mode"] | none
  return {
    property := ← Json.required? Json.text? property
    attributeName := ← Json.optional? Json.text? "" attributeName
    mode := ← Json.optional? BindingMode.ofJson? .default mode }

/-- Reads the bindables of a resource under their names, and adds them to a table. -/
def readBindables? : List (Option String × Json) → Table Bindable → Option (Table Bindable)
  | [], table => some table
  | (none, _) :: _, _ => none
  | (some name, j) :: rest, table => do
    let b ← Bindable.ofJson? j
    readBindables? rest (table.insert name b)

/-- Reads an object of bindables. -/
def bindablesOfJson? : Json → Option (Table Bindable)
  | .object members => readBindables? members {}
  | _ => none

/-- Reads a resource. -/
def Resource.ofJson? (j : Json) : Option Resource := do
  let [name, kind, bindables, defaultMode, isTemplateController, hasDynamicOptions] ← j.fields?
    ["name", "kind", "bindables", "defaultBindingMode", "isTemplateController", "hasDynamicOptions"]
    | none
  return {
    name := ← Json.required? Json.text? name
    kind := ← Json.required? ResourceKind.ofJson? kind
    bindables := ← Json.optional? bindablesOfJson? {} bindables
    defaultMode := ← Json.optional? BindingMode.ofJson? .toView defaultMode
    isTemplateController := ← Json.optional? Json.bool? false isTemplateController
    hasDynamicOptions := ← Json.optional? Json.bool? false hasDynamicOptions }

/-- Reads resources in order. -/
def Resource.listOfJson? : List Json → Option (List Resource)
  | [] => some []
  | j :: js => do
    let r ← Resource.ofJson? j
    let rs ← Resource.listOfJson? js
    return r :: rs

/-- Reads a document of resources, and registers them beside the template controllers that are always
there. -/
def Registry.ofText? (text : String) : Option Registry := do
  let .array items ← Json.ofText? text | none
  let rs ← Resource.listOfJson? items
  return Registry.builtin.registerAll rs

/-- Reads a mode from a JSON text. -/
def BindingMode.ofJsonText? (text : String) : Option BindingMode :=
  (Json.ofText? text).bind BindingMode.ofJson?

end ViewTemplate
