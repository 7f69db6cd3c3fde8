import ViewTemplate.Expression.Error
import ViewTemplate.Source.Diagnostic

/-!
# Errors of compilation

Every reason for which a template is not compiled, and the text that a user reads.  The first error that
is met ends the compilation.
-/

namespace ViewTemplate

/-- Why a reference cannot be given out. -/
inductive RefProblem where
  | needsCustomElement
  | notCustomAttribute
  | isTemplateController
  | notPresent
  deriving Repr, DecidableEq, Inhabited

/-- The wording of a problem with a reference. -/
def RefProblem.message : RefProblem → String
  | .needsCustomElement => "view-model refs require a custom element"
  | .notCustomAttribute => "not a custom attribute"
  | .isTemplateController => "template controllers cannot be referenced"
  | .notPresent => "custom attribute is not present on the element"

/-- Why a template is not compiled. -/
inductive CompileError where
  /-- An attribute on the root that belongs to the host alone. -/
  | reservedSurrogate (name : String)
  | badRefTarget (attributeName : String) (target : String) (problem : RefProblem)
  | unknownOption (resource : String) (option : String)
  | markup (faults : List Source.Diagnostic)
  | expression (error : ExpressionError)
  /-- An option of an attribute value without a colon. -/
  | missingColon (option : String)
  | controllerOnRoot (resource : String)
  | badResources
  | badConfig
  /-- A configuration in which a name is blank. -/
  | blankConfigName
  deriving DecidableEq, Inhabited

/-- The text of an error. -/
def CompileError.message : CompileError → String
  | .reservedSurrogate name => "Invalid surrogate attribute: " ++ name
  | .badRefTarget attributeName target problem =>
    "Invalid ref target \"" ++ target ++ "\" in attribute \"" ++ attributeName ++ "\": "
      ++ problem.message
  | .unknownOption resource option =>
    "Unknown multi-binding option \"" ++ option ++ "\" on custom attribute \"" ++ resource ++ "\""
  | .markup faults => "Template parse errors:\n" ++ "\n".intercalate (faults.map (·.display))
  | .expression error => "Parse error: " ++ error.message
  | .missingColon option => "Missing ':' in multi-binding option \"" ++ option ++ "\""
  | .controllerOnRoot resource =>
    "Template controller \"" ++ resource ++ "\" is not allowed on the surrogate template"
  | .badResources => "Invalid resource definitions"
  | .badConfig => "Invalid compiler configuration"
  | .blankConfigName =>
    "Invalid compiler configuration: targetClass and markerTag must not be empty"

end ViewTemplate
