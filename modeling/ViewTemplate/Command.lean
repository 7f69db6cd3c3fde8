import ViewTemplate.Resource.Mode

/-!
# Binding commands

The word after the last period of an attribute name says how its value is bound.
-/

namespace ViewTemplate

/-- How the value of an attribute is bound. -/
inductive Command where
  | bind
  | oneTime
  | toView
  | fromView
  | twoWay
  | trigger
  | delegate
  | capture
  | call
  | iterate
  deriving Repr, DecidableEq, Inhabited

/-- How a listener is attached. -/
inductive Delegation where
  /-- Directly to the element. -/
  | none
  /-- To a shared ancestor, in the bubbling phase. -/
  | bubbling
  /-- To a shared ancestor, in the capturing phase. -/
  | capturing
  deriving Repr, DecidableEq, Inhabited

namespace Command

/-- The command with a given name. -/
def ofName? : String → Option Command
  | "bind" => some .bind
  | "one-time" => some .oneTime
  | "to-view" => some .toView
  | "from-view" => some .fromView
  | "two-way" => some .twoWay
  | "trigger" => some .trigger
  | "delegate" => some .delegate
  | "capture" => some .capture
  | "call" => some .call
  | "for" => some .iterate
  | _ => none

/-- The mode that a command fixes.  `bind` fixes none: its mode is that of the property. -/
def mode? : Command → Option BindingMode
  | .oneTime => some .oneTime
  | .toView => some .toView
  | .fromView => some .fromView
  | .twoWay => some .twoWay
  | _ => none

/-- How the listener of a listening command is attached. -/
def delegation? : Command → Option Delegation
  | .trigger => some .none
  | .delegate => some .bubbling
  | .capture => some .capturing
  | _ => none

end Command

end ViewTemplate
