import ViewTemplate.Proofs.Compile.Rules

/-!
# What the configuration does not decide

A configuration says how compiled markup looks.  Which instructions an attribute gives, and which controllers and
custom elements there are, is decided without it: for one compiler and the same with another configuration these
are the same, errors included.

* `Compiler.withConfig` — the compiler with another configuration.
* `Compiler.customAttribute_withConfig`, `Compiler.controllers_withConfig` — custom attributes and controllers.
* `Compiler.elementGroup_withConfig`, `Compiler.letGroup_withConfig` — the groups of elements.
* `Compiler.surrogates_withConfig` — the instructions for the host.
-/

namespace ViewTemplate

open ViewTemplate.Markup

namespace Compiler

/-- The compiler with another configuration. -/
def withConfig (c : Compiler) (config : Config) : Compiler :=
  { c with config }

variable (c : Compiler) (config : Config)

/-- The reader stays. -/
@[simp] theorem reader_withConfig : (c.withConfig config).reader = c.reader := rfl

/-- The configuration is the other one. -/
@[simp] theorem config_withConfig : (c.withConfig config).config = config := rfl

/-- The host that is left when controllers are taken off does not depend on the configuration. -/
@[simp] theorem hostTag_withConfig (tag : Tag) : (c.withConfig config).hostTag tag = c.hostTag tag := rfl

/-- Which custom element a tag is does not depend on the configuration. -/
@[simp] theorem customElement?_withConfig (tag : Tag) :
    (c.withConfig config).customElement? tag = c.customElement? tag := rfl

/-- Whether a `template` is bare does not depend on the configuration. -/
@[simp] theorem isBare_withConfig (tag : Tag) (ks : List Controller) :
    (c.withConfig config).IsBare tag ks ↔ c.IsBare tag ks := Iff.rfl

/-! ### Custom attributes and controllers -/

/-- Options are compiled alike under every configuration. -/
theorem options_withConfig (r : Resource) : (options : List (String × String)) →
    (c.withConfig config).options r options = c.options r options
  | [] => rfl
  | (name, value) :: rest => by
    simp only [options, options_withConfig r rest, reader_withConfig]

/-- A custom attribute is compiled alike under every configuration. -/
theorem customAttribute_withConfig (r : Resource) (name value : String) :
    (c.withConfig config).customAttribute r name value = c.customAttribute r name value := by
  simp only [customAttribute, options_withConfig, reader_withConfig]

/-- The controllers of attributes are the same under every configuration. -/
@[simp] theorem controllers_withConfig : (as : List Attribute) →
    (c.withConfig config).controllers as = c.controllers as
  | [] => rfl
  | a :: as => by
    have hcontroller : (c.withConfig config).controller? a = c.controller? a := rfl
    simp only [controllers, hcontroller, controllers_withConfig as, customAttribute_withConfig]

/-! ### Groups -/

/-- What an attribute contributes is the same under every configuration. -/
theorem placeAttribute_withConfig (tag : Tag) (custom : Option Resource) (a : Attribute) :
    (c.withConfig config).placeAttribute tag custom a = c.placeAttribute tag custom a := by
  have href : (c.withConfig config).ref = c.ref := rfl
  have hresources : (c.withConfig config).resources = c.resources := rfl
  simp only [placeAttribute, href, hresources, customAttribute_withConfig, reader_withConfig]

/-- What attributes contribute is the same under every configuration. -/
theorem placeAttributes_withConfig (tag : Tag) (custom : Option Resource) : (as : List Attribute) →
    (c.withConfig config).placeAttributes tag custom as = c.placeAttributes tag custom as
  | [] => rfl
  | a :: as => by
    simp only [placeAttributes, placeAttribute_withConfig, placeAttributes_withConfig tag custom as]

/-- The group of an element is the same under every configuration. -/
theorem elementGroup_withConfig (tag : Tag) (custom : Option Resource) (parts : List (String × Definition)) :
    (c.withConfig config).elementGroup tag custom parts = c.elementGroup tag custom parts := by
  simp only [elementGroup, placeAttributes_withConfig]

/-- The bindings of a `let` are the same under every configuration. -/
theorem letBindings_withConfig : (as : List Attribute) →
    (c.withConfig config).letBindings as = c.letBindings as
  | [] => rfl
  | a :: as => by
    have hbinding : (c.withConfig config).letBinding a = c.letBinding a := rfl
    simp only [letBindings, hbinding, letBindings_withConfig as]

/-- The group of a `let` is the same under every configuration. -/
@[simp] theorem letGroup_withConfig (tag : Tag) : (c.withConfig config).letGroup tag = c.letGroup tag := by
  simp only [letGroup, letBindings_withConfig]

/-! ### The root -/

/-- What an attribute of the root contributes is the same under every configuration. -/
theorem surrogate_withConfig (root : Tag) (a : Attribute) :
    (c.withConfig config).surrogate root a = c.surrogate root a := by
  have href : (c.withConfig config).ref = c.ref := rfl
  have hresources : (c.withConfig config).resources = c.resources := rfl
  simp only [surrogate, href, hresources, customAttribute_withConfig, reader_withConfig]

/-- What the attributes of the root contribute is the same under every configuration. -/
theorem surrogatesOf_withConfig (root : Tag) : (as : List Attribute) →
    (c.withConfig config).surrogatesOf root as = c.surrogatesOf root as
  | [] => rfl
  | a :: as => by
    simp only [surrogatesOf, surrogate_withConfig, surrogatesOf_withConfig root as]

/-- The surrogates of a root are the same under every configuration. -/
@[simp] theorem surrogates_withConfig (root : Tag) :
    (c.withConfig config).surrogates root = c.surrogates root :=
  surrogatesOf_withConfig c config root root.attributes

end Compiler

end ViewTemplate
