import ViewTemplate.Compile.Classify

/-!
# References

An attribute `ref`, `ref.target` or `target.ref` hands out a reference: to the element, to the view-model
of the custom element, or to a custom attribute on the same element.

* `isRefName` — whether an attribute is a reference at all.
* `Compiler.refTarget` — what it refers to, or why it cannot.
* `Compiler.ref` — its instruction.
-/

namespace ViewTemplate

open ViewTemplate.Text ViewTemplate.Markup

/-- Whether an attribute of this name hands out a reference. -/
def isRefName (name : String) : Bool :=
  let cs := name.toList
  cs = ['r', 'e', 'f'] || ['r', 'e', 'f', '.'].isPrefixOf cs || ['.', 'r', 'e', 'f'].isSuffixOf cs

/-- The name of what is referred to. -/
def refTargetName (name : String) : String :=
  match name.toList with
  | ['r', 'e', 'f'] => "element"
  | 'r' :: 'e' :: 'f' :: '.' :: rest => String.ofList rest
  | _ => (splitCommand name).1

/-- The target of an attribute name: the name without its command. -/
def targetName (name : String) : String :=
  (splitCommand name).1

/-- Whether one of the attributes, not itself a reference, has the given target. -/
def hasTarget (attributes : List Attribute) (target : String) : Bool :=
  attributes.any fun a => !isRefName a.name && targetName a.name = target

/-- What a reference on an element refers to. -/
def Compiler.refTarget (c : Compiler) (attributes : List Attribute) (custom : Option Resource)
    (name : String) : Except CompileError RefTarget :=
  let target := refTargetName name
  let bad (problem : RefProblem) := Except.error (CompileError.badRefTarget name target problem)
  if target = "element" then .ok .element
  else if target = "view-model" then
    if custom.isSome then .ok .viewModel else bad .needsCustomElement
  else match c.resources.attribute? target with
    | none => bad .notCustomAttribute
    | some r =>
      if r.isTemplateController then bad .isTemplateController
      else if hasTarget attributes target then .ok (.customAttribute r.name)
      else bad .notPresent

/-- The instruction of a reference on an element with the given attributes. -/
def Compiler.ref (c : Compiler) (attributes : List Attribute) (custom : Option Resource)
    (name value : String) : Except CompileError Instruction := do
  let target ← c.refTarget attributes custom name
  let e ← c.reader.source value .property
  return .refBinding e target

end ViewTemplate
