import ViewTemplate.Resource.Mode
import ViewTemplate.Table
import ViewTemplate.Text.Name

/-!
# Resources

Custom elements and custom attributes, as far as templates need to know them: their names, the properties
that can be bound, and how.  A template controller is a custom attribute that decides itself when and how
often its host is rendered.

* `Bindable`, `Resource` — a property that can be bound, and a custom element or attribute.
* `Resource.findBindable?` — the bindable of a name as it is written in markup.
* `Resource.primaryBindable` — the bindable that takes the whole value of a custom attribute.
* `Resource.resolveMode` — the mode of a `bind` command.
-/

namespace ViewTemplate

open ViewTemplate.Text

/-- What a resource is. -/
inductive ResourceKind where
  | customElement
  | customAttribute
  deriving Repr, DecidableEq, Inhabited

/-- A property of a resource that can be bound. -/
structure Bindable where
  property : String
  /-- The name of the property in markup. -/
  attributeName : String
  mode : BindingMode := .default
  deriving Repr, DecidableEq, Inhabited

/-- The bindable of a property, under the dashed form of its name. -/
def Bindable.ofProperty (property : String) : Bindable :=
  { property, attributeName := kebabCase property }

/-- A custom element or a custom attribute. -/
structure Resource where
  name : String
  kind : ResourceKind
  /-- The bindables under their property names, in order of declaration. -/
  bindables : Table Bindable := {}
  defaultMode : BindingMode := .toView
  isTemplateController : Bool := false
  /-- A value of the attribute may be a list of options. -/
  hasDynamicOptions : Bool := false
  deriving Inhabited

namespace Resource

/-- A custom element without bindables. -/
def customElement (name : String) : Resource :=
  { name, kind := .customElement }

/-- A custom attribute without bindables. -/
def customAttribute (name : String) : Resource :=
  { name, kind := .customAttribute }

/-- The resource with one more bindable. -/
def withBindable (r : Resource) (b : Bindable) : Resource :=
  { r with bindables := r.bindables.insert b.property b }

/-- A template controller with the bindable `value`. -/
def templateController (name : String) : Resource :=
  { (customAttribute name).withBindable (.ofProperty "value") with isTemplateController := true }

/-- The resource with its name in lower case and with an attribute name for every bindable. -/
def normalize (r : Resource) : Resource :=
  let named (b : Bindable) : Bindable :=
    if b.attributeName.isEmpty then { b with attributeName := kebabCase b.property } else b
  { r with name := lowerCase r.name, bindables := r.bindables.mapValues named }

/-- The bindable that markup calls `name`: by its attribute, by its property, or by its property in
camel case. -/
def findBindable? (r : Resource) (name : String) : Option Bindable :=
  match r.bindables.values.find? fun b => b.attributeName = name || b.property = name with
  | some b => some b
  | none => r.bindables.get? (camelCase name)

/-- The bindable that a single value goes to: the first one, or one called `value`. -/
def primaryBindable (r : Resource) : Bindable :=
  match r.bindables.values with
  | b :: _ => b
  | [] => { Bindable.ofProperty "value" with mode := r.defaultMode }

/-- The mode of a `bind` command on a bindable. -/
def resolveMode (r : Resource) (b : Bindable) : BindingMode :=
  if b.mode ≠ .default then b.mode
  else if r.defaultMode ≠ .default then r.defaultMode
  else .toView

end Resource

/-- How names in a template are resolved to resources. -/
structure Resolver where
  element? : String → Option Resource
  attribute? : String → Option Resource

end ViewTemplate
