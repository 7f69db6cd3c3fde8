import ViewTemplate.Compile.Walk
import ViewTemplate.Markup.Printer
import ViewTemplate.Markup.Tree
import ViewTemplate.Resource.Document

/-!
# Compiling templates

A template is compiled from its root element, from a list of nodes, or from markup.  When the only
significant node is a `template` element, that is the root; otherwise the nodes are put under one.

* `Compiler.definition` — the definition of an element's content.
* `Compiler.compileRoot`, `Compiler.compileNodes`, `Compiler.compile` — from a root, from nodes, from markup.
-/

namespace ViewTemplate

open ViewTemplate.Markup

namespace Compiler

/-- Compiles the content of an element into a definition. -/
def definition (c : Compiler) (root : Element) : Except CompileError Definition := do
  let content ← c.nodes root.children
  return content.definition root.toTag

/-- Compiles a root element: its attributes go to the host of the component, its content to the
template. -/
def compileRoot (c : Compiler) (root : Element) : Except CompileError Definition := do
  let surrogates ← c.surrogates root.toTag
  let d ← c.definition { root with attributes := [] }
  return { d with surrogates }

/-- The only significant node, if it is a `template` element. -/
def soleTemplate? (nodes : List Node) : Option Element :=
  match nodes.filter (!·.isInsignificant) with
  | [.element tag children] => if tag.isTemplate then some { tag with children } else none
  | _ => none

/-- Compiles a list of nodes. -/
def compileNodes (c : Compiler) (nodes : List Node) : Except CompileError Definition :=
  c.compileRoot ((soleTemplate? nodes).getD { templateTag with children := nodes })

/-- Compiles markup that has no faults. -/
def compile (c : Compiler) (source : String) : Except CompileError Definition :=
  let parsed := Markup.parse source
  if parsed.faults.isEmpty then c.compileNodes parsed.nodes
  else .error (.markup parsed.faults)

/-- Compiles several templates, each on its own. -/
def compileAll (c : Compiler) (sources : List String) : List (Except CompileError Definition) :=
  sources.map c.compile

/-- The compiler for resources and a configuration that are given as JSON texts.  Without resources the
template controllers that are always there are known. -/
def ofTexts (resources config : Option String) (reader : ExpressionReader) :
    Except CompileError Compiler := do
  let registry ← match resources with
    | none => pure Registry.builtin
    | some text => match Registry.ofText? text with
      | some registry => pure registry
      | none => throw .badResources
  let config ← match config with
    | none => pure {}
    | some text => Config.ofText text
  return { resources := registry.resolver, reader, config }

end Compiler

namespace Definition

/-- The root as HTML. -/
def html (d : Definition) : String :=
  d.template.render

end Definition

end ViewTemplate
