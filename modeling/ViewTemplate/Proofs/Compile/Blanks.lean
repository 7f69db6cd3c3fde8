import ViewTemplate.Proofs.Compile.Configured
import ViewTemplate.Proofs.Compile.Nesting

/-!
# Blank texts

A compiler that leaves out blank texts does so wherever its walk comes: at the root, under controllers, in parts and in
the content of custom elements.  The walk does not go into `let` elements, and what is below them stays.  So it makes
no difference whether blank texts are left out on the way or are taken out of the nodes beforehand.

* `Markup.prune` — the nodes without blank texts, except those below `let` elements.
* `Compiler.stripping` — the compiler that leaves out blank texts, or that does not.
* `Compiler.nodes_prune` — the walk that leaves them out is the walk over the pruned nodes.
* `Compiler.soleTemplate?_prune` — the pruned nodes have the same root.
* `Compiler.compileNodes_prune` — the compiled templates are the same, and so are the errors.
-/

namespace ViewTemplate

open ViewTemplate.Text ViewTemplate.Markup

namespace Markup

/-! ### Nodes without blank texts -/

/-- Whether the node is a blank text. -/
def Node.isBlankText : Node → Bool
  | .text value _ => isBlank value
  | _ => false

mutual

/-- The node with the nodes below it pruned, unless it is a `let` element. -/
def Node.pruned : Node → Node
  | .element tag kids => .element tag (if tag.name = "let" then kids else prune kids)
  | .text value span => .text value span
  | .comment value span => .comment value span

/-- The nodes without blank texts at any depth, except below `let` elements. -/
def prune : List Node → List Node
  | [] => []
  | n :: ns => if n.isBlankText then prune ns else n.pruned :: prune ns

end

/-- A node that is no blank text stays, pruned below. -/
theorem prune_cons_of_not_isBlankText {n : Node} (h : n.isBlankText = false) (ns : List Node) :
    prune (n :: ns) = n.pruned :: prune ns := by
  rw [prune, h]
  rfl

/-- To prune is to leave out blank texts and to prune below what stays. -/
theorem prune_eq_map_filter (ns : List Node) : prune ns = (ns.filter (!·.isBlankText)).map Node.pruned := by
  induction ns with
  | nil => rfl
  | cons n ns ih =>
    rw [prune, ih]
    cases h : n.isBlankText with
    | true => simp [h]
    | false => simp [h]

/-- To prune below an element leaves its tag. -/
@[simp] theorem Node.tag?_pruned (n : Node) : n.pruned.tag? = n.tag? := by
  cases n with
  | element tag kids => rfl
  | text value span => rfl
  | comment value span => rfl

/-- To prune below a node leaves whether it counts beside a root. -/
@[simp] theorem Node.isInsignificant_pruned (n : Node) : n.pruned.isInsignificant = n.isInsignificant := by
  cases n with
  | element tag kids => rfl
  | text value span => rfl
  | comment value span => rfl

/-- A blank text does not count beside a root. -/
theorem Node.isInsignificant_of_isBlankText {n : Node} (h : n.isBlankText = true) : n.isInsignificant = true := by
  cases n with
  | element tag kids => cases h
  | text value span => exact h
  | comment value span => rfl

/-- A choice of nodes that does not look below them can be made before or after pruning. -/
theorem filter_prune {p : Node → Bool} (hpruned : ∀ n : Node, p n.pruned = p n) (ns : List Node) :
    (prune ns).filter p = prune (ns.filter p) := by
  have hcomp : p ∘ Node.pruned = p := funext hpruned
  simp only [prune_eq_map_filter, List.filter_map, List.filter_filter, hcomp]
  simp only [Bool.and_comm]

/-- Among significant nodes there is nothing to leave out. -/
theorem prune_significant (ns : List Node) :
    prune (ns.filter (!·.isInsignificant)) = (ns.filter (!·.isInsignificant)).map Node.pruned := by
  rw [prune_eq_map_filter, List.filter_eq_self.2]
  intro n hn
  have hsignificant : n.isInsignificant = false := by simpa using (List.mem_filter.1 hn).2
  cases hblank : n.isBlankText with
  | false => rfl
  | true =>
    rw [Node.isInsignificant_of_isBlankText hblank] at hsignificant
    cases hsignificant

/-- The element with its content pruned. -/
def Element.pruned (e : Element) : Element :=
  { e with children := prune e.children }

end Markup

namespace Compiler

/-- The compiler that leaves out blank texts, or that does not. -/
abbrev stripping (c : Compiler) (strip : Bool) : Compiler :=
  c.withConfig { c.config with stripBlankText := strip }

variable (c : Compiler)

/-- What takes the place of an element does not depend on how blank texts are treated. -/
@[simp] theorem hosting_stripping (strip : Bool) : (c.stripping strip).hosting = c.hosting := rfl

/-- Controllers around a result do not depend on how blank texts are treated. -/
@[simp] theorem wrap_stripping (strip : Bool) : (c.stripping strip).wrap = c.wrap := rfl

/-- Controllers around content do not depend on how blank texts are treated. -/
@[simp] theorem wrapContent_stripping (strip : Bool) : (c.stripping strip).wrapContent = c.wrapContent := rfl

/-- Blank texts are all that the choice is about. -/
theorem text_stripping (value : String) (span : Source.Span) :
    (c.stripping true).text value span = if isBlank value then .ok {} else (c.stripping false).text value span := by
  have hmarker : ∀ strip, (c.stripping strip).marker = c.marker := fun _ => rfl
  unfold text
  simp only [reader_withConfig, config_withConfig, hmarker, Bool.true_and, Bool.false_and, if_neg Bool.false_ne_true]

/-! ### One element -/

/-- To leave out parts and to prune may change places. -/
theorem keptChildren_prune (ns : List Node) : keptChildren (prune ns) = prune (keptChildren ns) :=
  filter_prune (fun n => by simp only [isPartNode, Node.tag?_pruned]) ns

/-- The parts among nodes are those among the pruned nodes, if this holds below each. -/
theorem parts_prune : (ns : List Node) → ∀ soFar : Parts,
    (∀ tag kids, .element tag kids ∈ ns → (c.stripping true).nodes kids = (c.stripping false).nodes (prune kids)) →
    (c.stripping true).parts soFar ns = (c.stripping false).parts soFar (prune ns)
  | [], soFar, _ => by rw [prune, parts, parts]
  | .element tag kids :: ns, soFar, ih => by
    have hkids := ih tag kids List.mem_cons_self
    have hrest := fun soFar => parts_prune ns soFar fun tag kids hmem => ih tag kids (List.mem_cons_of_mem _ hmem)
    rw [prune_cons_of_not_isBlankText rfl, Node.pruned, parts, parts]
    by_cases hpart : isPart tag = true
    · have hname := ne_let_of_isTemplate (Bool.and_eq_true_iff.1 hpart).1
      simp only [if_pos hpart, if_neg hname, hkids, hrest]
    · simp only [if_neg hpart, hrest]
  | .text value span :: ns, soFar, ih => by
    have hrest := parts_prune ns soFar fun tag kids hmem => ih tag kids (List.mem_cons_of_mem _ hmem)
    rw [parts_cons_of_tag?_eq_none rfl, hrest, prune]
    split
    · rfl
    · rw [parts_cons_of_tag?_eq_none rfl]
  | .comment value span :: ns, soFar, ih => by
    have hrest := parts_prune ns soFar fun tag kids hmem => ih tag kids (List.mem_cons_of_mem _ hmem)
    rw [parts_cons_of_tag?_eq_none rfl, hrest, prune_cons_of_not_isBlankText rfl, parts_cons_of_tag?_eq_none rfl]

/-- An element by its own rules.  The content of a `let` is not compiled, and not pruned either. -/
theorem own_prune (host : Tag) (kids : List Node)
    (ih : ∀ ns, workOf ns ≤ workOf kids → (c.stripping true).nodes ns = (c.stripping false).nodes (prune ns)) :
    (c.stripping true).own host kids =
      (c.stripping false).own host (if host.name = "let" then kids else prune kids) := by
  unfold own
  by_cases hname : host.name = "let"
  · simp only [if_pos hname, letGroup_withConfig, hosting_stripping]
  · have hkids := ih kids (Nat.le_refl _)
    have hkept := ih (keptChildren kids) (workOf_keptChildren_le kids)
    have hparts := c.parts_prune kids {} fun tag inner hmem => ih inner (Nat.le_of_lt (workOf_lt_of_mem hmem))
    simp only [if_neg hname, hkids, hkept, hparts, keptChildren_prune, customElement?_withConfig,
      elementGroup_withConfig, hosting_stripping]

/-- An element with its controllers, if the walk below it agrees with that over the pruned nodes. -/
theorem node_element_prune (tag : Tag) (kids : List Node)
    (ih : ∀ ns, workOf ns ≤ workOf kids → (c.stripping true).nodes ns = (c.stripping false).nodes (prune ns)) :
    (c.stripping true).node (.element tag kids) = (c.stripping false).node (Node.element tag kids).pruned := by
  have hown := c.own_prune (c.hostTag tag) kids ih
  have hkids := ih kids (Nat.le_refl _)
  rw [Node.pruned, node_element, node_element]
  simp only [controllers_withConfig, hostTag_withConfig, isBare_withConfig, wrap_stripping, wrapContent_stripping,
    hown, hkids]
  congr 1
  funext ks
  by_cases hbare : c.IsBare tag ks
  · have hname : tag.name ≠ "let" := ne_let_of_isTemplate hbare.2.1
    simp only [if_pos hbare, if_neg hname]
  · simp only [if_neg hbare]
    rfl

/-! ### Trees -/

/-- The walk that leaves out blank texts is the walk over the pruned nodes that does not. -/
theorem nodes_prune : (ns : List Node) → (c.stripping true).nodes ns = (c.stripping false).nodes (prune ns)
  | [] => by rw [prune, nodes, nodes]
  | .text value span :: ns => by
    rw [prune, Node.isBlankText, nodes, node, text_stripping, nodes_prune ns]
    split
    · simp only [bind, Except.bind, pure, Except.pure, Output.empty_append]
      cases (c.stripping false).nodes (prune ns) with
      | error e => rfl
      | ok o => rfl
    · rw [Node.pruned, nodes, node]
  | .comment value span :: ns => by
    rw [prune_cons_of_not_isBlankText rfl, Node.pruned, nodes, nodes, node, node, nodes_prune ns]
  | .element tag kids :: ns => by
    have hfirst := c.node_element_prune tag kids fun ms _ => nodes_prune ms
    rw [prune_cons_of_not_isBlankText rfl, nodes, nodes, hfirst, nodes_prune ns]
termination_by ns => workOf ns
decreasing_by
  all_goals simp only [workOf, Node.work] at *
  all_goals omega

/-! ### Roots -/

/-- What makes a root is no blank text, and so it is the same after pruning. -/
theorem soleTemplate?_prune (ns : List Node) : soleTemplate? (prune ns) = (soleTemplate? ns).map Element.pruned := by
  have hpruned : ∀ n : Node, (!n.pruned.isInsignificant) = !n.isInsignificant := fun n => by
    rw [Node.isInsignificant_pruned]
  unfold soleTemplate?
  rw [filter_prune hpruned, prune_significant]
  -- The root is chosen by the number of the significant nodes and by the tag of the first one.
  generalize ns.filter (!·.isInsignificant) = ms
  match ms with
  | [] => rfl
  | [.text value span] => rfl
  | [.comment value span] => rfl
  | n :: m :: ms => simp
  | [.element tag kids] =>
    rw [List.map_singleton, Node.pruned]
    by_cases htemplate : tag.isTemplate = true
    · have hname : tag.name ≠ "let" := ne_let_of_isTemplate htemplate
      simp only [if_pos htemplate, if_neg hname]
      rfl
    · simp only [if_neg htemplate]
      rfl

/-- A whole template that leaves out blank texts is that of the pruned root. -/
theorem compileRoot_prune (root : Element) :
    (c.stripping true).compileRoot root = (c.stripping false).compileRoot root.pruned := by
  unfold compileRoot definition
  simp only [surrogates_withConfig, nodes_prune]
  rfl

/-- Leaving out blank texts commutes with compiling: the template or the error is that of the pruned nodes under a
configuration which is the same except that blank texts are kept. -/
theorem compileNodes_prune (resources : Resolver) (reader : ExpressionReader) (targetClass markerTag : String)
    (ns : List Node) :
    ({ resources, reader, config := { targetClass, markerTag, stripBlankText := true } } : Compiler).compileNodes ns =
      ({ resources, reader, config := { targetClass, markerTag, stripBlankText := false } } :
        Compiler).compileNodes (prune ns) := by
  let c : Compiler := { resources, reader, config := { targetClass, markerTag } }
  change (c.stripping true).compileNodes ns = (c.stripping false).compileNodes (prune ns)
  unfold compileNodes
  rw [soleTemplate?_prune, compileRoot_prune]
  cases soleTemplate? ns with
  | none => rfl
  | some root => rfl

end Compiler

end ViewTemplate
