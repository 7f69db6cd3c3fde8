import ViewTemplate.Command
import ViewTemplate.Expression.Basic
import ViewTemplate.Markup.Node

/-!
# Instructions and definitions

What a template is compiled to.  A definition has markup in which some elements are marked, and for each
of them, in document order, a group of instructions.  Instructions may hold definitions in turn: those of
template controllers, and those of the parts that replace content of a custom element.
-/

namespace ViewTemplate

/-- What a reference gives out. -/
inductive RefTarget where
  | element
  /-- The view-model of the custom element. -/
  | viewModel
  /-- The view-model of a custom attribute on the same element. -/
  | customAttribute (name : String)
  deriving Repr, DecidableEq, Inhabited

mutual

/-- What is done to an element when the template is rendered. -/
inductive Instruction where
  | setProperty (property : String) (value : String)
  | propertyBinding (property : String) (source : Expression) (mode : BindingMode)
  | interpolation (property : String) (source : Expression)
  | listenerBinding (property : String) (source : Expression) (delegation : Delegation)
      (preventDefault : Bool)
  | callBinding (property : String) (source : Expression)
  | refBinding (source : Expression) (target : RefTarget)
  | iteratorBinding (property : String) (source : Expression)
  | letBinding (property : String) (source : Expression)
  /-- Text with interpolations, rendered into the text node after the marked element. -/
  | textBinding (source : Expression)
  | hydrateElement (resource : String) (instructions : List Instruction)
      (parts : List (String × Definition))
  | hydrateAttribute (resource : String) (instructions : List Instruction)
  | hydrateLetElement (instructions : List Instruction) (toViewModel : Bool)
  /-- `link` for a controller that is linked to the one before it. -/
  | hydrateTemplateController (resource : String) (definition : Definition)
      (instructions : List Instruction) (link : Bool)

/-- A compiled template. -/
structure Definition where
  /-- The root, with every element that has instructions marked. -/
  template : Markup.Element
  /-- One group for each marked element, in document order. -/
  groups : List (List Instruction)
  /-- What is done to the host of the component. -/
  surrogates : List Instruction
  hasSlots : Bool

end

namespace Instruction

/-- The name of an instruction's kind. -/
def kind : Instruction → String
  | .setProperty .. => "setProperty"
  | .propertyBinding .. => "propertyBinding"
  | .interpolation .. => "interpolation"
  | .listenerBinding .. => "listenerBinding"
  | .callBinding .. => "callBinding"
  | .refBinding .. => "refBinding"
  | .iteratorBinding .. => "iteratorBinding"
  | .letBinding .. => "letBinding"
  | .textBinding .. => "textBinding"
  | .hydrateElement .. => "hydrateElement"
  | .hydrateAttribute .. => "hydrateAttribute"
  | .hydrateLetElement .. => "hydrateLetElement"
  | .hydrateTemplateController .. => "hydrateTemplateController"

/-- The instructions directly inside an instruction; those of nested definitions are not. -/
def inner : Instruction → List Instruction
  | .hydrateElement _ is _ | .hydrateAttribute _ is | .hydrateLetElement is _
  | .hydrateTemplateController _ _ is _ => is
  | _ => []

end Instruction

end ViewTemplate
