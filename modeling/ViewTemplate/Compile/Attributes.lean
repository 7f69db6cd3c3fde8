import ViewTemplate.Compile.Options
import ViewTemplate.Compile.Ref

/-!
# The attributes of an element

The attributes of an element become its group of instructions.  On a custom element, attributes that name
a bindable go inside the instruction that creates it, and all others beside it.  The root of a template
and `let` elements have rules of their own.

* `Compiler.controller?` — the template controller that an attribute calls for.
* `Compiler.elementGroup` — the group of an element without template controllers.
* `Compiler.letGroup` — the group of a `let` element.
* `Compiler.surrogates` — the instructions that the root leaves for the host of the component.
-/

namespace ViewTemplate

open ViewTemplate.Text ViewTemplate.Markup

/-- The attribute that makes an element a custom element of another name. -/
def asElementName : String := "as-element"

namespace Compiler

/-! ### Ordinary elements -/

/-- The custom element that an element is: the one named by `as-element`, or else by the tag. -/
def customElement? (c : Compiler) (tag : Tag) : Option Resource :=
  c.resources.element? ((tag.value? asElementName).getD tag.name)

/-- The template controller that an attribute calls for. -/
def controller? (c : Compiler) (a : Attribute) : Option Resource :=
  if a.name = asElementName || isRefName a.name then none
  else (c.resources.attribute? (targetName a.name)).filter (·.isTemplateController)

/-- Instructions inside the one that creates a custom element, and beside it. -/
structure Placed where
  inside : List Instruction := []
  beside : List Instruction := []

/-- The instructions of one attribute of an element. -/
def placeAttribute (c : Compiler) (tag : Tag) (custom : Option Resource) (a : Attribute) :
    Except CompileError Placed :=
  if a.name = asElementName then .ok {}
  else if isRefName a.name then do
    let i ← c.ref tag.attributes custom a.name a.value
    return { beside := [i] }
  else match c.resources.attribute? (targetName a.name) with
    | some r => do
      let is ← c.customAttribute r a.name a.value
      return { beside := [.hydrateAttribute r.name is] }
    | none =>
      match custom.bind fun r => (r.findBindable? (targetName a.name)).map (BindTarget.ofBindable r) with
      | some target => do
        let i ← classify c.reader a.name a.value (some target) false
        return { inside := i.toList }
      | none => do
        let i ← classify c.reader a.name a.value none false
        return { beside := i.toList }

/-- The instructions of several attributes of an element, in order. -/
def placeAttributes (c : Compiler) (tag : Tag) (custom : Option Resource) :
    List Attribute → Except CompileError Placed
  | [] => .ok {}
  | a :: rest => do
    let first ← c.placeAttribute tag custom a
    let others ← c.placeAttributes tag custom rest
    return ⟨first.inside ++ others.inside, first.beside ++ others.beside⟩

/-- The group of an element without template controllers. -/
def elementGroup (c : Compiler) (tag : Tag) (custom : Option Resource)
    (parts : List (String × Definition)) : Except CompileError (List Instruction) := do
  let placed ← c.placeAttributes tag custom tag.attributes
  return match custom with
    | some r => .hydrateElement r.name placed.inside parts :: placed.beside
    | none => placed.beside

/-! ### `let` elements -/

/-- The attribute that makes a `let` element write to the view-model. -/
def toViewModelName : String := "to-view-model"

/-- The binding of one attribute of a `let` element: an expression under any command, and text
otherwise. -/
def letBinding (c : Compiler) (a : Attribute) : Except CompileError Instruction := do
  let (target, suffix) := splitCommand a.name
  let source ← match suffix with
    | some _ => c.reader.source a.value .property
    | none => do
      let e ← c.reader.interpolation? a.value
      pure (e.getD (.string a.value))
  return .letBinding (camelCase target) source

/-- The bindings of a `let` element. -/
def letBindings (c : Compiler) : List Attribute → Except CompileError (List Instruction)
  | [] => .ok []
  | a :: rest =>
    if a.name = toViewModelName then c.letBindings rest
    else do
      let i ← c.letBinding a
      let is ← c.letBindings rest
      return i :: is

/-- The group of a `let` element. -/
def letGroup (c : Compiler) (tag : Tag) : Except CompileError (List Instruction) := do
  let is ← c.letBindings tag.attributes
  return [.hydrateLetElement is (tag.attributes.any (·.name = toViewModelName))]

/-! ### The root -/

/-- The attributes that belong to the host of a component alone. -/
def reservedNames : List String :=
  ["id", "part", "replace-part"]

/-- The instruction of one attribute of the root. -/
def surrogate (c : Compiler) (root : Tag) (a : Attribute) : Except CompileError Instruction :=
  if a.name ∈ reservedNames then .error (.reservedSurrogate a.name)
  else if isRefName a.name then c.ref root.attributes none a.name a.value
  else match c.resources.attribute? (targetName a.name) with
    | some r =>
      if r.isTemplateController then .error (.controllerOnRoot r.name)
      else do
        let is ← c.customAttribute r a.name a.value
        return .hydrateAttribute r.name is
    | none => do
      let i ← classify c.reader a.name a.value none false
      return i.getD (.setProperty a.name a.value)

/-- The instructions of several attributes of the root, in order. -/
def surrogatesOf (c : Compiler) (root : Tag) : List Attribute → Except CompileError (List Instruction)
  | [] => .ok []
  | a :: rest => do
    let i ← c.surrogate root a
    let is ← c.surrogatesOf root rest
    return i :: is

/-- The instructions for the host of the component. -/
def surrogates (c : Compiler) (root : Tag) : Except CompileError (List Instruction) :=
  c.surrogatesOf root root.attributes

end Compiler

end ViewTemplate
