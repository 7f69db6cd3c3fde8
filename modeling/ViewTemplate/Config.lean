import ViewTemplate.Error
import ViewTemplate.Json.Reader
import ViewTemplate.Text.WhiteSpace

/-!
# Configuration

The few choices that shape the markup of a compiled template.
-/

namespace ViewTemplate

/-- How compiled markup looks. -/
structure Config where
  /-- The class of every element that has instructions. -/
  targetClass : String := "au"
  /-- The tag of the elements that stand for something else. -/
  markerTag : String := "au-m"
  /-- Whether blank texts are left out. -/
  stripBlankText : Bool := false
  deriving Repr, DecidableEq, Inhabited

namespace Config

/-- Reads a configuration; fields may be left out. -/
def ofJson? (j : Json) : Option Config := do
  let [targetClass, markerTag, strip] ← j.fields?
    ["targetClass", "markerTag", "stripWhitespaceText"] | none
  return {
    targetClass := ← Json.optional? Json.text? "au" targetClass
    markerTag := ← Json.optional? Json.text? "au-m" markerTag
    stripBlankText := ← Json.optional? Json.bool? false strip }

/-- Reads a configuration from a JSON text.  Neither name may be blank. -/
def ofText (text : String) : Except CompileError Config :=
  match (Json.ofText? text).bind ofJson? with
  | none => .error .badConfig
  | some config =>
    if Text.isBlank config.targetClass || Text.isBlank config.markerTag then .error .blankConfigName
    else .ok config

end Config

end ViewTemplate
