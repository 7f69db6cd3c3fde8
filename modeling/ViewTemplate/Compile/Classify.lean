import ViewTemplate.Config
import ViewTemplate.Expression.Reader
import ViewTemplate.Instruction
import ViewTemplate.Resource.Basic

/-!
# Single attributes

An attribute `name.command="value"` becomes one instruction.  What it writes to is the property of a
bindable, if the name belongs to one, and otherwise what the name says.

* `Compiler` — what a compilation works with: resources, a reader of expressions, a configuration.
* `Command.instruction` — the instruction of a command.
* `classify` — the instruction of an attribute, if there is anything to do.
-/

namespace ViewTemplate

open ViewTemplate.Text

/-- What a compilation works with. -/
structure Compiler where
  resources : Resolver
  reader : ExpressionReader := ExpressionReader.standard
  config : Config := {}

/-- A property that an attribute is bound to, and the mode of a `bind` command on it. -/
structure BindTarget where
  property : String
  mode : BindingMode
  deriving Repr, DecidableEq, Inhabited

/-- The target that a bindable of a resource is. -/
def BindTarget.ofBindable (r : Resource) (b : Bindable) : BindTarget :=
  ⟨b.property, r.resolveMode b⟩

namespace ExpressionReader

/-- Reads the source of a binding; a declined text is the empty string. -/
def source (reader : ExpressionReader) (value : String) (kind : ExpressionKind) :
    Except CompileError Expression :=
  match reader value kind with
  | .ok (some e) => .ok e
  | .ok none => .ok (.string "")
  | .error e => .error (.expression e)

/-- Reads a text with interpolations; a text without any is declined. -/
def interpolation? (reader : ExpressionReader) (value : String) :
    Except CompileError (Option Expression) :=
  match reader value .interpolation with
  | .ok e => .ok e
  | .error e => .error (.expression e)

end ExpressionReader

/-- The instruction of a command.  An iteration always writes to `items`. -/
def Command.instruction (command : Command) (reader : ExpressionReader) (property : String)
    (bindMode : BindingMode) (value : String) : Except CompileError Instruction :=
  match command with
  | .trigger => do return .listenerBinding property (← reader.source value .function) .none true
  | .delegate => do return .listenerBinding property (← reader.source value .function) .bubbling false
  | .capture => do return .listenerBinding property (← reader.source value .function) .capturing false
  | .call => do return .callBinding property (← reader.source value .function)
  | .iterate => do return .iteratorBinding "items" (← reader.source value .iteration)
  | .bind => do return .propertyBinding property (← reader.source value .property) bindMode
  | .oneTime => do return .propertyBinding property (← reader.source value .property) .oneTime
  | .toView => do return .propertyBinding property (← reader.source value .property) .toView
  | .fromView => do return .propertyBinding property (← reader.source value .property) .fromView
  | .twoWay => do return .propertyBinding property (← reader.source value .property) .twoWay

/-- The instruction of an attribute.  Without a command and without interpolations a value is set as it
stands, if there is a target or the attribute is an option of a custom attribute; otherwise there is
nothing to do. -/
def classify (reader : ExpressionReader) (name value : String) (target : Option BindTarget)
    (isOption : Bool) : Except CompileError (Option Instruction) :=
  let (written, suffix) := splitCommand name
  let property := (target.map (·.property)).getD written
  match suffix.bind Command.ofName? with
  | some command => do
    let i ← command.instruction reader property ((target.map (·.mode)).getD .toView) value
    return some i
  | none => do
    match ← reader.interpolation? value with
    | some e => return some (.interpolation property e)
    | none => return if target.isSome || isOption then some (.setProperty property value) else none

end ViewTemplate
