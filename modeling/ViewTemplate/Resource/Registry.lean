import ViewTemplate.Resource.Basic

/-!
# Registries

A registry holds resources by name, elements and attributes apart.  A resource registered under a name
that is taken replaces the earlier one.
-/

namespace ViewTemplate

/-- Resources by name. -/
structure Registry where
  elements : Table Resource := {}
  attributes : Table Resource := {}
  deriving Inhabited

namespace Registry

/-- The registry without resources. -/
def empty : Registry :=
  {}

/-- The registry with one more resource. -/
def register (g : Registry) (r : Resource) : Registry :=
  let r := r.normalize
  match r.kind with
  | .customElement => { g with elements := g.elements.insert r.name r }
  | .customAttribute => { g with attributes := g.attributes.insert r.name r }

/-- The registry with more resources, in order. -/
def registerAll (g : Registry) (rs : List Resource) : Registry :=
  rs.foldl register g

/-- The template controllers that are always there. -/
def builtinControllers : List Resource :=
  ["if", "else", "repeat", "with"].map Resource.templateController

/-- The registry of the template controllers that are always there. -/
def builtin : Registry :=
  empty.registerAll builtinControllers

/-- The number of resources. -/
def size (g : Registry) : Nat :=
  g.elements.size + g.attributes.size

/-- Names are resolved as they are registered. -/
def resolver (g : Registry) : Resolver :=
  ⟨g.elements.get?, g.attributes.get?⟩

end Registry

end ViewTemplate
