import ViewTemplate.Compile.Attributes
import ViewTemplate.Table

/-!
# Compiling trees

Nodes are compiled one after the other, and the results are put together in order (`Output.append`): the
nodes that take their place, the groups of instructions of the elements marked in them, and whether there
is a slot.

An element with template controllers is moved into a definition of its own and leaves a marker.  The first
controller is the outermost; each further one is the only content of the one before it, and the innermost
holds the element without its controllers.

* `Output` — what compiling nodes gives; results are put together by `Output.append`.
* `Compiler.wrap`, `Compiler.wrapContent` — the chain of definitions of an element's controllers.
* `Compiler.node`, `Compiler.nodes` — the walk itself, by recursion on the tree.

`ViewTemplate.Compile.InPlace` has the same walk as a loop over a list of nodes that it changes (`Compiler.visit`).
-/

namespace ViewTemplate

open ViewTemplate.Text ViewTemplate.Markup

/-- What compiling nodes gives. -/
structure Output where
  nodes : List Node := []
  groups : List (List Instruction) := []
  hasSlots : Bool := false

namespace Output

/-- Two results, one after the other. -/
def append (a b : Output) : Output :=
  ⟨a.nodes ++ b.nodes, a.groups ++ b.groups, a.hasSlots || b.hasSlots⟩

/-- Nothing before a result. -/
@[simp] theorem empty_append (o : Output) : append {} o = o := by
  simp [append]

/-- Nothing behind a result. -/
@[simp] theorem append_empty (o : Output) : append o {} = o := by
  simp [append]

/-- Three results, one after the other. -/
theorem append_assoc (a b c : Output) : (a.append b).append c = a.append (b.append c) := by
  simp [append, Bool.or_assoc]

/-- The definition with the given root and the compiled nodes as its content. -/
def definition (o : Output) (root : Tag) : Definition :=
  { template := { root with children := o.nodes }, groups := o.groups, surrogates := [],
    hasSlots := o.hasSlots }

end Output

/-- The tag of a root that was not written in the source. -/
def templateTag : Tag :=
  { name := "template" }

/-- The attribute that makes a `template` replace a part of a custom element's content. -/
def replacePartName : String := "replace-part"

/-- Whether an element of this tag replaces a part. -/
def isPart (tag : Tag) : Bool :=
  tag.isTemplate && tag.hasAttribute replacePartName

/-- The tag of a part as it stands in the part's definition. -/
def partTag (tag : Tag) : Tag :=
  { tag with attributes := tag.attributes.filter (·.name ≠ replacePartName) }

/-- The parts that replace content of a custom element, and whether one of them has a slot. -/
structure Parts where
  table : Table Definition := {}
  hasSlots : Bool := false

/-- The parts with one more. -/
def Parts.insert (p : Parts) (name : String) (d : Definition) : Parts :=
  ⟨p.table.insert name d, p.hasSlots || d.hasSlots⟩

/-- A template controller with the instructions of its attribute. -/
structure Controller where
  resource : Resource
  instructions : List Instruction

namespace Compiler

/-- The element that stands for something else. -/
def marker (c : Compiler) : Node :=
  .element { name := c.config.markerTag,
             attributes := [{ name := "class", value := c.config.targetClass }] } []

/-- The tag of an element with the given group: marked, unless there is nothing to do. -/
def mark (c : Compiler) (tag : Tag) (group : List Instruction) : Tag :=
  if group.isEmpty then tag else tag.addClass c.config.targetClass

/-- The groups of an element with the given group. -/
def groupsOf (group : List Instruction) : List (List Instruction) :=
  if group.isEmpty then [] else [group]

/-! ### Template controllers -/

/-- The template controllers of the attributes, in order. -/
def controllers (c : Compiler) : List Attribute → Except CompileError (List Controller)
  | [] => .ok []
  | a :: rest =>
    match c.controller? a with
    | none => c.controllers rest
    | some r => do
      let is ← c.customAttribute r a.name a.value
      let others ← c.controllers rest
      return ⟨r, is⟩ :: others

/-- The tag without the attributes that call for template controllers. -/
def hostTag (c : Compiler) (tag : Tag) : Tag :=
  { tag with attributes := tag.attributes.filter fun a => (c.controller? a).isNone }

/-- The instruction of a template controller that holds a definition. -/
def Controller.instruction (k : Controller) (d : Definition) : Instruction :=
  .hydrateTemplateController k.resource.name d k.instructions (k.resource.name = "else")

/-- A marker with the instruction of a template controller that holds the definition. -/
def control (c : Compiler) (k : Controller) (d : Definition) : Output :=
  ⟨[c.marker], [[Controller.instruction k d]], d.hasSlots⟩

/-- The definition nested in the further controllers. -/
def nest (c : Compiler) (ks : List Controller) (body : Definition) : Definition :=
  ks.foldr (fun k d => (c.control k d).definition templateTag) body

/-! ### Texts -/

/-- Compiles a text: with interpolations it becomes a marker and an empty text to render into. -/
def text (c : Compiler) (value : String) (span : Source.Span) : Except CompileError Output :=
  if c.config.stripBlankText && isBlank value then .ok {}
  else do
    match ← c.reader.interpolation? value with
    | some e => return ⟨[c.marker, .text "" span], [[.textBinding e]], false⟩
    | none => return { nodes := [.text value span] }

/-! ### Nodes -/

/-- What takes the place of an element whose content has been compiled, with its group. -/
def hosting (c : Compiler) (host : Tag) (group : List Instruction) (content : Output) : Output :=
  ⟨[.element (c.mark host group) content.nodes], groupsOf group ++ content.groups,
    host.name = "slot" || content.hasSlots⟩

/-- What takes the place of an element with the given controllers, where `own` would take its place
without them. -/
def wrap (c : Compiler) (ks : List Controller) (own : Output) : Output :=
  match ks with
  | [] => own
  | k :: ks => c.control k (c.nest ks (own.definition templateTag))

/-- What takes the place of a `template` that has nothing but controllers: its content is the content of
the innermost one. -/
def wrapContent (c : Compiler) (ks : List Controller) (host : Tag) (content : Output) : Output :=
  match ks with
  | [] => content
  | k :: ks => c.control k (c.nest ks (content.definition host))

mutual

/-- Compiles a node. -/
def node (c : Compiler) : Node → Except CompileError Output
  | .text value span => c.text value span
  | .comment value span => .ok { nodes := [.comment value span] }
  | .element tag children => do
    let ks ← c.controllers tag.attributes
    let host := c.hostTag tag
    if !ks.isEmpty && host.isTemplate && host.attributes.isEmpty then do
      let content ← c.nodes children
      return c.wrapContent ks host content
    else if host.name = "let" then do
      let group ← c.letGroup host
      return c.wrap ks (c.hosting host group { nodes := children })
    else match c.customElement? host with
      | none => do
        let group ← c.elementGroup host none []
        let content ← c.nodes children
        return c.wrap ks (c.hosting host group content)
      | some r => do
        let parts ← c.parts {} children
        let group ← c.elementGroup host (some r) parts.table.entries
        let content ← c.keptNodes children
        let content := { content with hasSlots := parts.hasSlots || content.hasSlots }
        return c.wrap ks (c.hosting host group content)

/-- Compiles nodes in order. -/
def nodes (c : Compiler) : List Node → Except CompileError Output
  | [] => .ok {}
  | n :: ns => do
    let first ← c.node n
    let others ← c.nodes ns
    return first.append others

/-- Compiles the nodes that replace parts, and adds them to the parts so far. -/
def parts (c : Compiler) (soFar : Parts) : List Node → Except CompileError Parts
  | [] => .ok soFar
  | .element tag children :: ns =>
    if isPart tag then do
      let content ← c.nodes children
      let name := (tag.value? replacePartName).getD ""
      c.parts (soFar.insert name (content.definition (partTag tag))) ns
    else c.parts soFar ns
  | _ :: ns => c.parts soFar ns

/-- Compiles the nodes that do not replace parts, in order. -/
def keptNodes (c : Compiler) : List Node → Except CompileError Output
  | [] => .ok {}
  | n :: ns =>
    if n.tag?.any isPart then c.keptNodes ns
    else do
      let first ← c.node n
      let others ← c.keptNodes ns
      return first.append others

end

end Compiler

end ViewTemplate
