import ViewTemplate.Compile.Walk

/-!
# Compiling trees in place

The walk of `Compiler.nodes` gives a result for every node and puts the results together.  The same walk can be
done in place: an index runs over the children while some of them are replaced, removed or put in, and one
collector, handed from node to node and down into the content of elements, takes the groups and notes the slots
as they come.  The first controller of an element is taken off, and what is left of the element is compiled into
the definition that the controller holds.

* `Collector` — the groups and slots met so far.
* `Compiler.firstController?`, `Compiler.bodyRoot` — one controller is taken off, and what it holds.
* `Markup.workOf` — how far a walk has to go; every call of the walk has less of it ahead than its caller.
* `Compiler.visit`, `Compiler.visitElement`, `Compiler.visitParts` — the walk in place.
-/

namespace ViewTemplate

open ViewTemplate.Text ViewTemplate.Markup

/-! ### The collector -/

/-- What has been met on a walk: groups in order, and whether there was a slot. -/
@[ext] structure Collector where
  groups : List (List Instruction) := []
  hasSlots : Bool := false

namespace Collector

/-- Takes the group of a marker. -/
def push (k : Collector) (group : List Instruction) : Collector :=
  { k with groups := k.groups ++ [group] }

/-- Takes the group of an element, unless there is nothing to do. -/
def pushTarget (k : Collector) (group : List Instruction) : Collector :=
  if group.isEmpty then k else k.push group

/-- Notes a slot, if there is one. -/
def noteSlots (k : Collector) (hasSlots : Bool) : Collector :=
  { k with hasSlots := k.hasSlots || hasSlots }

/-- The definition of what was met below a root. -/
def definition (k : Collector) (root : Tag) (children : List Node) : Definition :=
  { template := { root with children }, groups := k.groups, surrogates := [], hasSlots := k.hasSlots }

end Collector

/-! ### How far a walk has to go -/

namespace Markup

mutual

/-- The work that a node is for a walk.  An attribute counts twice: where it calls for a controller and is taken off,
the element may come to stand under one more `template`. -/
def Node.work : Node → Nat
  | .element tag children => 1 + 2 * tag.attributes.length + workOf children
  | .text .. => 1
  | .comment .. => 1

/-- The work that nodes are for a walk. -/
def workOf : List Node → Nat
  | [] => 0
  | n :: ns => n.work + workOf ns

end

/-- Every node is some work. -/
theorem Node.work_pos (n : Node) : 0 < n.work := by
  cases n <;> simp only [Node.work] <;> omega

/-- A single node is all the work there is. -/
theorem workOf_singleton (n : Node) : workOf [n] = n.work :=
  Nat.add_zero _

/-- The content of an element is less work than the element. -/
theorem workOf_children_lt (tag : Tag) (kids : List Node) : workOf kids < (Node.element tag kids).work := by
  simp only [Node.work]
  omega

/-- To leave nodes out makes no more work. -/
theorem workOf_filter_le (p : Node → Bool) (ns : List Node) : workOf (ns.filter p) ≤ workOf ns := by
  induction ns with
  | nil => exact Nat.le_refl _
  | cons n ns ih =>
    rw [List.filter_cons]
    split
    · simp only [workOf]
      omega
    · simp only [workOf]
      omega

/-- One of the nodes is no more work than all of them. -/
theorem work_le_workOf {n : Node} {ns : List Node} (h : n ∈ ns) : n.work ≤ workOf ns := by
  induction ns with
  | nil => exact absurd h List.not_mem_nil
  | cons m ns ih =>
    rw [workOf]
    rcases List.mem_cons.1 h with rfl | h
    · exact Nat.le_add_right _ _
    · exact Nat.le_trans (ih h) (Nat.le_add_left _ _)

/-- The content of one of the nodes is less work than all of them. -/
theorem workOf_lt_of_mem {tag : Tag} {kids ns : List Node} (h : .element tag kids ∈ ns) : workOf kids < workOf ns :=
  Nat.lt_of_lt_of_le (workOf_children_lt tag kids) (work_le_workOf h)

/-! ### Lists that are changed at an index -/

/-- The nodes with the one at an index replaced by others. -/
def splice (ns : List Node) (index : Nat) (ms : List Node) : List Node :=
  ns.take index ++ (ms ++ ns.drop (index + 1))

/-- Behind the nodes put in stands what stood behind the node they replace. -/
theorem drop_splice {ns : List Node} {index : Nat} (h : index ≤ ns.length) (ms : List Node) :
    (splice ns index ms).drop (index + ms.length) = ns.drop (index + 1) := by
  have hlength : (ns.take index ++ ms).length = index + ms.length := by
    rw [List.length_append, List.length_take_of_le h]
  rw [splice, ← List.append_assoc, ← hlength, List.drop_left]

/-- To remove a node is to replace it by none. -/
theorem eraseIdx_eq_splice (ns : List Node) (index : Nat) : ns.eraseIdx index = splice ns index [] :=
  List.eraseIdx_eq_take_drop_succ ns index

/-- To change a node is to replace it by one. -/
theorem set_eq_splice {ns : List Node} {index : Nat} (h : index < ns.length) (m : Node) :
    ns.set index m = splice ns index [m] := by
  rw [List.set_eq_take_append_cons_drop, if_pos h]
  rfl

/-- To insert behind a first part of a list. -/
theorem insertIdx_append_cons (m : Node) (ys xs : List Node) :
    (xs ++ ys).insertIdx xs.length m = xs ++ m :: ys := by
  induction xs with
  | nil => rfl
  | cons x xs ih =>
    rw [List.cons_append, List.length_cons, List.insertIdx_succ_cons, ih]
    rfl

/-- To change a node and insert another one behind it is to replace it by both. -/
theorem insertIdx_set_eq_splice {ns : List Node} {index : Nat} (h : index < ns.length) (m m' : Node) :
    (ns.set index m).insertIdx (index + 1) m' = splice ns index [m, m'] := by
  have hlength : (ns.take index ++ [m]).length = index + 1 := by
    rw [List.length_append, List.length_take_of_le (Nat.le_of_lt h), List.length_singleton]
  have hset : ns.set index m = (ns.take index ++ [m]) ++ ns.drop (index + 1) := by
    rw [set_eq_splice h, splice, List.append_assoc]
  rw [hset, ← hlength, insertIdx_append_cons, splice, hlength, List.append_assoc]
  rfl

/-! ### What is ahead -/

/-- The node at an index is the first of those from there on. -/
theorem drop_eq_cons_of_getElem? {ns : List Node} {index : Nat} {n : Node} (h : ns[index]? = some n) :
    ns.drop index = n :: ns.drop (index + 1) := by
  obtain ⟨hlt, rfl⟩ := List.getElem?_eq_some_iff.1 h
  exact List.drop_eq_getElem_cons hlt

/-- The work from an index on: the node there, and what is behind it. -/
theorem workOf_drop {ns : List Node} {index : Nat} {n : Node} (h : ns[index]? = some n) :
    workOf (ns.drop index) = n.work + workOf (ns.drop (index + 1)) := by
  rw [drop_eq_cons_of_getElem? h, workOf]

/-- Once a node has been replaced, it is no longer ahead. -/
theorem workOf_drop_splice {ns : List Node} {index : Nat} {n : Node} (h : ns[index]? = some n) (ms : List Node) :
    workOf (ns.drop index) = n.work + workOf ((splice ns index ms).drop (index + ms.length)) := by
  obtain ⟨hlt, -⟩ := List.getElem?_eq_some_iff.1 h
  rw [drop_splice (Nat.le_of_lt hlt), workOf_drop h]

end Markup

namespace Compiler

/-! ### Controllers and parts -/

/-- The first attribute that calls for a template controller, its resource, and the other attributes. -/
def firstController? (c : Compiler) : List Attribute → Option (Attribute × Resource × List Attribute)
  | [] => none
  | a :: as =>
    match c.controller? a with
    | some r => some (a, r, as)
    | none => (c.firstController? as).map fun (b, r, rest) => (b, r, a :: rest)

/-- The attributes around the first one that calls for a controller. -/
theorem firstController?_eq_some {c : Compiler} : (as : List Attribute) → ∀ {a : Attribute} {r : Resource}
    {rest : List Attribute}, c.firstController? as = some (a, r, rest) →
    ∃ before after, as = before ++ a :: after ∧ rest = before ++ after ∧
      (∀ b ∈ before, c.controller? b = none) ∧ c.controller? a = some r
  | [], _, _, _, h => by cases h
  | b :: as, a, r, rest, h => by
    simp only [firstController?] at h
    split at h
    · next hb =>
      cases h
      exact ⟨[], as, rfl, rfl, nofun, hb⟩
    · next hb =>
      obtain ⟨⟨a', r', rest'⟩, hfirst, heq⟩ := Option.map_eq_some_iff.1 h
      cases heq
      obtain ⟨before, after, rfl, rfl, hbefore, ha⟩ := firstController?_eq_some as hfirst
      exact ⟨b :: before, after, rfl, rfl, List.forall_mem_cons.2 ⟨hb, hbefore⟩, ha⟩

/-- Where no first attribute calls for a controller, none does. -/
theorem firstController?_eq_none {c : Compiler} : (as : List Attribute) → c.firstController? as = none →
    ∀ a ∈ as, c.controller? a = none
  | [], _ => nofun
  | b :: as, h => by
    simp only [firstController?] at h
    split at h
    · cases h
    · next hb => exact List.forall_mem_cons.2 ⟨hb, firstController?_eq_none as (Option.map_eq_none_iff.1 h)⟩

/-- What is left after one controller is fewer attributes. -/
theorem length_of_firstController? {c : Compiler} {as rest : List Attribute} {a : Attribute} {r : Resource}
    (h : c.firstController? as = some (a, r, rest)) : rest.length < as.length := by
  obtain ⟨before, after, rfl, rfl, -⟩ := firstController?_eq_some as h
  simp

/-- The root of the definition that a controller holds, where `tag` is what is left of its host: the host
itself, if it is a `template` without attributes, and otherwise a `template` around it. -/
def bodyRoot (tag : Tag) (children : List Node) : Element :=
  if tag.isTemplate && tag.attributes.isEmpty then { tag with children }
  else { templateTag with children := [.element tag children] }

/-- The content of what is left of a host is less work than the host was. -/
theorem workOf_bodyRoot_lt {tag : Tag} {rest : List Attribute} (h : rest.length < tag.attributes.length)
    (kids : List Node) :
    workOf (bodyRoot { tag with attributes := rest } kids).children < (Node.element tag kids).work := by
  unfold bodyRoot
  split
  · exact workOf_children_lt tag kids
  · rw [workOf_singleton]
    simp only [Node.work]
    omega

/-- Whether a node is lifted out of a custom element as a part. -/
def isPartNode (n : Node) : Bool :=
  n.tag?.any isPart

/-- The children of a custom element that stay. -/
def keptChildren (ns : List Node) : List Node :=
  ns.filter fun n => !isPartNode n

/-! ### The walk -/

mutual

/-- Compiles the children from an index on, in place. -/
def visit (c : Compiler) (children : List Node) (index : Nat) (k : Collector) :
    Except CompileError (List Node × Collector) :=
  match h : children[index]? with
  | none => .ok (children, k)
  | some (.comment _ _) => c.visit children (index + 1) k
  | some (.text value span) =>
    if c.config.stripBlankText && isBlank value then c.visit (children.eraseIdx index) index k
    else do
      match ← c.reader.interpolation? value with
      | none => c.visit children (index + 1) k
      | some e =>
        let marked := (children.set index c.marker).insertIdx (index + 1) (.text "" span)
        c.visit marked (index + 2) (k.push [.textBinding e])
  | some (.element tag kids) => do
    let (n, k) ← c.visitElement tag kids k
    c.visit (children.set index n) (index + 1) k
termination_by 3 * workOf (children.drop index) + 2
decreasing_by
  · have hwork := workOf_drop h
    simp only [Node.work] at hwork
    omega
  · have hwork := workOf_drop_splice h []
    simp only [Node.work, List.length_nil, Nat.add_zero] at hwork
    rw [eraseIdx_eq_splice]
    omega
  · have hwork := workOf_drop h
    simp only [Node.work] at hwork
    omega
  · have hwork := workOf_drop_splice h [c.marker, .text "" span]
    simp only [Node.work, List.length_cons, List.length_nil, Nat.zero_add, Nat.reduceAdd] at hwork
    rw [insertIdx_set_eq_splice (List.getElem?_eq_some_iff.1 h).1]
    omega
  · have hwork := workOf_drop h
    omega
  · have hwork := workOf_drop_splice h [n]
    have hpos := (Node.element tag kids).work_pos
    rw [List.length_singleton] at hwork
    rw [set_eq_splice (List.getElem?_eq_some_iff.1 h).1]
    omega

/-- Compiles an element in place: what stands there afterwards. -/
def visitElement (c : Compiler) (tag : Tag) (kids : List Node) (k : Collector) :
    Except CompileError (Node × Collector) :=
  let k := k.noteSlots (tag.name = "slot")
  match _hfirst : c.firstController? tag.attributes with
  | some (a, r, rest) => do
    let is ← c.customAttribute r a.name a.value
    let d ← c.visitDefinition (bodyRoot { tag with attributes := rest } kids)
    return (c.marker, (k.noteSlots d.hasSlots).push [Controller.instruction ⟨r, is⟩ d])
  | none =>
    if tag.name = "let" then do
      let group ← c.letGroup tag
      return (.element (c.mark tag group) kids, k.pushTarget group)
    else match c.customElement? tag with
      | none => do
        let group ← c.elementGroup tag none []
        let (content, k) ← c.visit kids 0 (k.pushTarget group)
        return (.element (c.mark tag group) content, k)
      | some r => do
        let (parts, k) ← c.visitParts kids {} k
        let group ← c.elementGroup tag (some r) parts.entries
        let (content, k) ← c.visit (keptChildren kids) 0 (k.pushTarget group)
        return (.element (c.mark tag group) content, k)
termination_by 3 * Node.work (.element tag kids) + 1
decreasing_by
  · have hroot := workOf_bodyRoot_lt (length_of_firstController? _hfirst) kids
    omega
  · have hlt := workOf_children_lt tag kids
    rw [List.drop_zero]
    omega
  · have hlt := workOf_children_lt tag kids
    omega
  · have hlt := workOf_children_lt tag kids
    have hkept := workOf_filter_le (fun n => !isPartNode n) kids
    rw [List.drop_zero, keptChildren]
    omega

/-- Compiles the content of an element into a definition, with a collector of its own. -/
def visitDefinition (c : Compiler) (root : Element) : Except CompileError Definition := do
  let (children, k) ← c.visit root.children 0 {}
  return k.definition root.toTag children
termination_by 3 * workOf root.children + 3
decreasing_by
  rw [List.drop_zero]
  omega

/-- Compiles the children that replace parts into a table. -/
def visitParts (c : Compiler) (kids : List Node) (parts : Table Definition) (k : Collector) :
    Except CompileError (Table Definition × Collector) :=
  match kids with
  | [] => .ok (parts, k)
  | .element tag children :: ns =>
    if isPart tag then do
      let d ← c.visitDefinition { partTag tag with children }
      c.visitParts ns (parts.insert ((tag.value? replacePartName).getD "") d) (k.noteSlots d.hasSlots)
    else c.visitParts ns parts k
  | _n :: ns => c.visitParts ns parts k
termination_by 3 * workOf kids + 1
decreasing_by
  · simp only [workOf, Node.work]
    omega
  · simp only [workOf, Node.work]
    omega
  · simp only [workOf, Node.work]
    omega
  · have hpos := _n.work_pos
    simp only [workOf]
    omega

end

end Compiler

end ViewTemplate
