import ViewTemplate.Compile.InPlace
import ViewTemplate.Proofs.Compile.Nesting

/-!
# The walk in place gives what `nodes` gives

The walk in place (`Compiler.visit`) and the walk that puts results together (`Compiler.nodes`) agree, whatever the
collector holds at the start, so no node's result depends on its neighbours, on what was collected before it, or on
where the index stands.

* `Collector.merge` — what two walks met, one after the other.
* `Compiler.visit_drop` — a run of the loop from an index on, from what one step does (`Compiler.visit_step`).
* `Compiler.runsOn` — it gives what `Compiler.nodes` gives, added to what was there.
* `Compiler.visit_append_siblings` — siblings are compiled one after the other, each as if it stood alone.
-/

namespace ViewTemplate

open ViewTemplate.Text ViewTemplate.Markup

namespace Collector

/-- What two walks met, one after the other. -/
def merge (k l : Collector) : Collector :=
  ⟨k.groups ++ l.groups, k.hasSlots || l.hasSlots⟩

/-- Nothing met afterwards. -/
@[simp] theorem merge_empty (k : Collector) : k.merge {} = k := by
  simp [merge]

/-- Nothing met before. -/
@[simp] theorem empty_merge (k : Collector) : merge {} k = k := by
  simp [merge]

/-- Three walks, one after the other. -/
theorem merge_assoc (k l m : Collector) : (k.merge l).merge m = k.merge (l.merge m) := by
  simp [merge, Bool.or_assoc]

/-- To meet a single group is to take it. -/
theorem merge_group (k : Collector) (group : List Instruction) : k.merge ⟨[group], false⟩ = k.push group := by
  simp [merge, push]

/-- Slots that are noted twice are noted at once. -/
theorem noteSlots_noteSlots (k : Collector) (a b : Bool) :
    (k.noteSlots a).noteSlots b = k.noteSlots (a || b) := by
  simp [noteSlots, Bool.or_assoc]

end Collector

/-- What the walk met in nodes that give a result. -/
def Output.collector (o : Output) : Collector :=
  ⟨o.groups, o.hasSlots⟩

/-! ### Lists that are changed at an index -/

namespace Markup

/-- Up to the nodes put in stand those before them and then these. -/
theorem take_splice {ns : List Node} {index : Nat} (h : index ≤ ns.length) (ms : List Node) :
    (splice ns index ms).take (index + ms.length) = ns.take index ++ ms := by
  have hlength : (ns.take index ++ ms).length = index + ms.length := by
    rw [List.length_append, List.length_take_of_le h]
  rw [splice, ← List.append_assoc, ← hlength, List.take_left]

/-- A node that is replaced by itself changes nothing. -/
theorem splice_singleton_self {ns : List Node} {index : Nat} {n : Node} (h : ns[index]? = some n) :
    splice ns index [n] = ns := by
  obtain ⟨hlt, rfl⟩ := List.getElem?_eq_some_iff.1 h
  rw [← set_eq_splice hlt, List.set_getElem_self]

end Markup

namespace Compiler

variable {c : Compiler}

/-! ### Slots under controllers -/

/-- There are slots in a chain of controllers exactly if there are in what it holds. -/
theorem hasSlots_nest (d : Definition) : (ks : List Controller) → (c.nest ks d).hasSlots = d.hasSlots
  | [] => rfl
  | _ :: ks => hasSlots_nest d ks

/-- Controllers around a result leave whether there are slots. -/
theorem hasSlots_wrap (o : Output) (ks : List Controller) : (c.wrap ks o).hasSlots = o.hasSlots := by
  cases ks with
  | nil => rfl
  | cons k ks => exact hasSlots_nest _ ks

/-- A `slot` is noted also where controllers have taken it elsewhere. -/
theorem hasSlots_of_slot {tag : Tag} {kids : List Node} {o : Output} (hname : tag.name = "slot")
    (h : c.node (.element tag kids) = .ok o) : o.hasSlots = true := by
  cases node_element_eq_ok_iff.1 h with
  | bare _ hbare =>
    have htemplate : tag.name = "template" := of_decide_eq_true hbare.2.1
    rw [hname] at htemplate
    exact absurd htemplate (by decide)
  | wrapped _ _ hown =>
    rw [hasSlots_wrap]
    have hhost : (c.hostTag tag).name = "slot" := hname
    cases hown <;> simp [hosting, hhost]

/-! ### One step -/

/-- What the walk in place makes of an element is what `node` does, whatever has been collected before. -/
def AgreesAt (c : Compiler) (tag : Tag) (kids : List Node) : Prop :=
  ∀ k : Collector, (c.visitElement tag kids k).map (fun p => ([p.1], p.2)) =
    (c.node (.element tag kids)).map fun o => (o.nodes, k.merge o.collector)

/-- One step of the loop: the node at the index gives way to what it is compiled to, and the index moves behind
that. -/
theorem visit_step {children : List Node} {index : Nat} {n : Node} (h : children[index]? = some n)
    (hn : ∀ tag kids, n = .element tag kids → c.AgreesAt tag kids) (k : Collector) :
    c.visit children index k = c.node n >>= fun o =>
      c.visit (splice children index o.nodes) (index + o.nodes.length) (k.merge o.collector) := by
  obtain ⟨hlt, -⟩ := List.getElem?_eq_some_iff.1 h
  have hkept : ∀ k, c.visit (splice children index [n]) (index + 1) k = c.visit children (index + 1) k := by
    intro k
    rw [splice_singleton_self h]
  rw [visit]
  split
  · next hnone =>
    rw [h] at hnone
    cases hnone
  · next value span hsome =>
    -- The branches of the loop: each splices in the nodes of the walk and merges in what it collects.
    cases h.symm.trans hsome
    rw [node]
    show _ = c.visit (splice children index [.comment value span]) (index + 1) (k.merge {})
    rw [hkept, Collector.merge_empty]
  · next value span hsome =>
    cases h.symm.trans hsome
    rw [node, text]
    split
    · rw [eraseIdx_eq_splice]
      show _ = c.visit (splice children index []) index (k.merge {})
      rw [Collector.merge_empty]
    · cases c.reader.interpolation? value with
      | error e => rfl
      | ok e? =>
        cases e? with
        | none =>
          show _ = c.visit (splice children index [.text value span]) (index + 1) (k.merge {})
          rw [hkept, Collector.merge_empty]
          rfl
        | some e =>
          show c.visit ((children.set index c.marker).insertIdx (index + 1) (.text "" span)) (index + 2) _ = _
          rw [insertIdx_set_eq_splice hlt]
          show _ = c.visit (splice children index [c.marker, .text "" span]) (index + 2)
            (k.merge ⟨[[.textBinding e]], false⟩)
          rw [Collector.merge_group]
  · next tag kids hsome =>
    cases h.symm.trans hsome
    have hagrees := hn tag kids rfl k
    cases hvisit : c.visitElement tag kids k with
    | error e =>
      rw [hvisit] at hagrees
      cases hnode : c.node (.element tag kids) with
      | error e' =>
        rw [hnode] at hagrees
        cases hagrees
        rfl
      | ok o =>
        rw [hnode] at hagrees
        cases hagrees
    | ok p =>
      rw [hvisit] at hagrees
      obtain ⟨o, hnode, heq⟩ := map_eq_ok.1 hagrees.symm
      rw [hnode]
      obtain ⟨hnodes, hcollector⟩ := Prod.mk.inj heq
      show c.visit (children.set index p.1) (index + 1) p.2 = c.visit (splice children index o.nodes) _ _
      rw [hnodes, hcollector, set_eq_splice hlt]
      rfl

/-- The loop over all of the nodes gives what `nodes` does, added to what has been collected before. -/
def RunsOn (c : Compiler) (ns : List Node) : Prop :=
  ∀ k : Collector, c.visit ns 0 k = (c.nodes ns).map fun o => (o.nodes, k.merge o.collector)

/-- The run of the loop from an index on, by induction on what is ahead. -/
theorem visit_drop {ahead : List Node} (hn : ∀ tag kids, .element tag kids ∈ ahead → c.AgreesAt tag kids) :
    ∀ {children : List Node} {index : Nat}, children.drop index = ahead → ∀ k : Collector,
      c.visit children index k =
        (c.nodes ahead).map fun o => (children.take index ++ o.nodes, k.merge o.collector) := by
  induction ahead with
  | nil =>
    intro children index hdrop k
    have hle : children.length ≤ index := List.drop_eq_nil_iff.1 hdrop
    rw [visit]
    split
    · rw [nodes]
      show _ = Except.ok (children.take index ++ [], k.merge {})
      rw [List.append_nil, List.take_of_length_le hle, Collector.merge_empty]
    all_goals
      next hsome =>
        rw [List.getElem?_eq_none hle] at hsome
        cases hsome
  | cons n ahead ih =>
    intro children index hdrop k
    have hn' := fun tag kids hmem => hn tag kids (List.mem_cons_of_mem n hmem)
    have hhead : children[index]? = some n := by
      rw [← List.head?_drop, hdrop]
      rfl
    have hle : index ≤ children.length := Nat.le_of_lt (List.getElem?_eq_some_iff.1 hhead).1
    rw [visit_step hhead fun tag kids heq => hn tag kids (heq ▸ List.mem_cons_self), nodes]
    cases c.node n with
    | error e => rfl
    | ok o =>
      -- The splice leaves what is ahead of the index as it was, so the rest of the run is that of `ahead`.
      have hahead : (splice children index o.nodes).drop (index + o.nodes.length) = ahead := by
        rw [drop_splice hle]
        rw [drop_eq_cons_of_getElem? hhead] at hdrop
        exact (List.cons.inj hdrop).2
      show c.visit (splice children index o.nodes) _ _ = _
      rw [ih hn' hahead]
      cases c.nodes ahead with
      | error e => rfl
      | ok others =>
        show Except.ok (_ ++ others.nodes, (k.merge o.collector).merge others.collector) =
          Except.ok (_ ++ (o.nodes ++ others.nodes), k.merge (o.collector.merge others.collector))
        rw [take_splice hle, List.append_assoc, Collector.merge_assoc]

/-- The loop runs as `nodes` does, if the walk in place agrees at every element of the nodes. -/
theorem runsOn_of_agreesAt {ns : List Node} (hn : ∀ tag kids, .element tag kids ∈ ns → c.AgreesAt tag kids) :
    c.RunsOn ns :=
  visit_drop hn rfl

/-! ### Elements -/

/-- The definition of content that the loop runs on. -/
theorem RunsOn.visitDefinition_eq {root : Element} (h : c.RunsOn root.children) :
    c.visitDefinition root = c.definition root := by
  rw [visitDefinition, definition, h]
  cases c.nodes root.children with
  | error e => rfl
  | ok o => rfl

/-- The table of parts, and the slots that are noted while it is made. -/
theorem visitParts_eq : (kids : List Node) →
    (∀ tag children, .element tag children ∈ kids → c.RunsOn children) → ∀ (soFar : Parts) (k : Collector),
    c.visitParts kids soFar.table (k.noteSlots soFar.hasSlots) =
      (c.parts soFar kids).map fun ps => (ps.table, k.noteSlots ps.hasSlots)
  | [], _, soFar, k => by
    rw [visitParts, parts]
    rfl
  | .text value span :: ns, hruns, soFar, k => by
    simp only [visitParts, parts]
    exact visitParts_eq ns (fun tag children hmem => hruns tag children (List.mem_cons_of_mem _ hmem)) soFar k
  | .comment value span :: ns, hruns, soFar, k => by
    simp only [visitParts, parts]
    exact visitParts_eq ns (fun tag children hmem => hruns tag children (List.mem_cons_of_mem _ hmem)) soFar k
  | .element tag children :: ns, hruns, soFar, k => by
    have ih := visitParts_eq ns fun tag children hmem => hruns tag children (List.mem_cons_of_mem _ hmem)
    rw [visitParts, parts]
    split
    · have hpart : c.RunsOn ({ partTag tag with children } : Element).children :=
        hruns tag children List.mem_cons_self
      rw [hpart.visitDefinition_eq, definition]
      cases c.nodes children with
      | error e => rfl
      | ok o =>
        have hinsert := ih (soFar.insert ((tag.value? replacePartName).getD "") (o.definition (partTag tag))) k
        rw [Parts.insert, ← Collector.noteSlots_noteSlots] at hinsert
        exact hinsert
    · exact ih soFar k

/-- What is left of a `slot` under a controller is still a slot. -/
theorem hasSlots_definition_bodyRoot {tag : Tag} {kids : List Node} {d : Definition} (hname : tag.name = "slot")
    (h : c.definition (bodyRoot tag kids) = .ok d) : d.hasSlots = true := by
  have hbare : ¬ (tag.isTemplate && tag.attributes.isEmpty) = true := by
    simp [Tag.isTemplate, hname]
  rw [bodyRoot, if_neg hbare, definition_singleton] at h
  obtain ⟨o, ho, h⟩ := bind_eq_ok.1 h
  rw [← pure_eq_ok.1 h]
  exact hasSlots_of_slot hname ho

/-- What is collected at a controller, where the slot is noted twice if the host is one. -/
theorem push_control {tag : Tag} {kids : List Node} {d : Definition} (h : c.definition (bodyRoot tag kids) = .ok d)
    (k : Collector) (r : Resource) (is : List Instruction) :
    ((k.noteSlots (tag.name = "slot")).noteSlots d.hasSlots).push [Controller.instruction ⟨r, is⟩ d] =
      k.merge (c.control ⟨r, is⟩ d).collector := by
  have hslots : (decide (tag.name = "slot") || d.hasSlots) = d.hasSlots := by
    by_cases hname : tag.name = "slot"
    · rw [hasSlots_definition_bodyRoot hname h, Bool.or_true]
    · rw [decide_eq_false hname, Bool.false_or]
  rw [Collector.noteSlots_noteSlots, hslots]
  rfl

/-- What is collected at an element without controllers: its group, and then what its content gives. -/
theorem merge_hosting (k : Collector) (host : Tag) (group : List Instruction) (content : Output) :
    ((k.noteSlots (host.name = "slot")).pushTarget group).merge content.collector =
      k.merge (c.hosting host group content).collector := by
  cases group <;> simp [Collector.pushTarget, Collector.push, Collector.noteSlots, Collector.merge,
    Output.collector, hosting, groupsOf, Bool.or_assoc]

/-- The slots in the parts of a custom element are noted before its group is taken. -/
theorem pushTarget_noteSlots (k : Collector) (a : Bool) (group : List Instruction) (content : Output) :
    ((k.noteSlots a).pushTarget group).merge content.collector =
      (k.pushTarget group).merge { content with hasSlots := a || content.hasSlots }.collector := by
  cases group <;> simp [Collector.pushTarget, Collector.push, Collector.noteSlots, Collector.merge,
    Output.collector, Bool.or_assoc]

/-- The walk in place over an element without controllers. -/
theorem visitElement_own {tag : Tag} {kids : List Node} (k : Collector)
    (ih : ∀ ns, workOf ns < (Node.element tag kids).work → c.RunsOn ns)
    (hnone : c.firstController? tag.attributes = none) :
    (c.visitElement tag kids k).map (fun p => ([p.1], p.2)) =
      (c.own tag kids).map fun o => (o.nodes, k.merge o.collector) := by
  have hkids := workOf_children_lt tag kids
  rw [visitElement, own]
  split
  · next hsome =>
    rw [hnone] at hsome
    -- There is no controller to take off; what is left is the case of the walk itself.
    cases hsome
  split
  · cases c.letGroup tag with
    | error e => rfl
    | ok group =>
      have hmerge := merge_hosting (c := c) k tag group { nodes := kids }
      rw [Output.collector, Collector.merge_empty] at hmerge
      exact congrArg (fun l => Except.ok ([Node.element (c.mark tag group) kids], l)) hmerge
  · cases c.customElement? tag with
    | none =>
      cases c.elementGroup tag none [] with
      | error e => rfl
      | ok group =>
        simp only [bind, Except.bind]
        rw [ih kids hkids]
        cases c.nodes kids with
        | error e => rfl
        | ok content =>
          exact congrArg (fun l => Except.ok ([Node.element (c.mark tag group) content.nodes], l))
            (merge_hosting k tag group content)
    | some r =>
      have hchildren : ∀ part children, .element part children ∈ kids → c.RunsOn children := by
        intro part children hmem
        exact ih children (Nat.lt_trans (workOf_lt_of_mem hmem) hkids)
      have hkept : c.RunsOn (keptChildren kids) :=
        ih _ (Nat.lt_of_le_of_lt (workOf_keptChildren_le kids) hkids)
      -- The slot is noted before the parts are made here, and with the content in `own`.
      have hparts := visitParts_eq kids hchildren {} (k.noteSlots (tag.name = "slot"))
      rw [Collector.noteSlots_noteSlots, Bool.or_false] at hparts
      simp only [bind, Except.bind]
      rw [hparts]
      cases c.parts {} kids with
      | error e => rfl
      | ok parts =>
        simp only [Except.map]
        cases c.elementGroup tag (some r) parts.table.entries with
        | error e => rfl
        | ok group =>
          simp only
          rw [hkept]
          cases c.nodes (keptChildren kids) with
          | error e => rfl
          | ok content =>
            have hmerge := merge_hosting (c := c) k tag group
              { content with hasSlots := parts.hasSlots || content.hasSlots }
            rw [← pushTarget_noteSlots] at hmerge
            exact congrArg (fun l => Except.ok ([Node.element (c.mark tag group) content.nodes], l)) hmerge

/-- The walk in place over an element agrees with `node`, if the loop does on whatever is less work than the
element. -/
theorem agreesAt_of_runsOn {tag : Tag} {kids : List Node}
    (ih : ∀ ns, workOf ns < (Node.element tag kids).work → c.RunsOn ns) : c.AgreesAt tag kids := by
  intro k
  cases hfirst : c.firstController? tag.attributes with
  | none =>
    rw [visitElement_own k ih hfirst, node_eq_own (firstController?_eq_none _ hfirst)]
  | some first =>
    obtain ⟨a, r, rest⟩ := first
    obtain ⟨before, after, hattributes, rfl, hbefore, ha⟩ := firstController?_eq_some _ hfirst
    have hruns : c.RunsOn (bodyRoot { tag with attributes := before ++ after } kids).children :=
      ih _ (workOf_bodyRoot_lt (length_of_firstController? hfirst) kids)
    rw [visitElement, node_eq_of_firstController hattributes hbefore ha]
    split
    · next hsome =>
      cases hfirst.symm.trans hsome
      rw [hruns.visitDefinition_eq]
      cases c.customAttribute r a.name a.value with
      | error e => rfl
      | ok is =>
        cases hd : c.definition (bodyRoot { tag with attributes := before ++ after } kids) with
        | error e =>
          simp only [bind, Except.bind]
          rfl
        | ok d =>
          have hpush := push_control hd k r is
          simp only [bind, Except.bind]
          exact congrArg (fun l => Except.ok ([c.marker], l)) hpush
    · next hnone =>
      rw [hfirst] at hnone
      cases hnone

/-- The loop runs on any nodes as `nodes` does. -/
theorem runsOn (ns : List Node) : c.RunsOn ns :=
  runsOn_of_agreesAt fun _ _ hmem => agreesAt_of_runsOn fun ms hms =>
    have : workOf ms < workOf ns := Nat.lt_of_lt_of_le hms (work_le_workOf hmem)
    runsOn ms
termination_by workOf ns

/-! ### Siblings -/

/-- Nodes that are put together are compiled one part after the other. -/
theorem nodes_append (xs ys : List Node) :
    c.nodes (xs ++ ys) = c.nodes xs >>= fun a => (c.nodes ys).map a.append := by
  induction xs with
  | nil =>
    rw [List.nil_append, nodes.eq_1]
    cases c.nodes ys with
    | error e => rfl
    | ok o => exact congrArg Except.ok (Output.empty_append o).symm
  | cons x xs ih =>
    rw [List.cons_append, nodes, nodes, ih]
    cases c.node x with
    | error e => rfl
    | ok o =>
      cases c.nodes xs with
      | error e => rfl
      | ok a =>
        cases c.nodes ys with
        | error e => rfl
        | ok b => exact congrArg Except.ok (Output.append_assoc o a b).symm

/-- The loop over a list that is put together from two. -/
theorem visit_append (xs ys : List Node) (k : Collector) :
    c.visit (xs ++ ys) 0 k = c.visit xs 0 {} >>= fun (us, a) =>
      (c.visit ys 0 {}).map fun (vs, b) => (us ++ vs, k.merge (a.merge b)) := by
  rw [runsOn (xs ++ ys) k, runsOn xs {}, runsOn ys {}, nodes_append]
  simp only [Collector.empty_merge]
  cases c.nodes xs with
  | error e => rfl
  | ok a =>
    cases c.nodes ys with
    | error e => rfl
    | ok b => rfl

/-- The results of several runs, in order. -/
def concatenated (rs : List (List Node × Collector)) : List Node × Collector :=
  (rs.flatMap (·.1), ⟨rs.flatMap (·.2.groups), rs.any (·.2.hasSlots)⟩)

/-- The loop over a list gives what it gives on the nodes one by one. -/
theorem visit_eq_concatenated (ns : List Node) : ∀ k : Collector, c.visit ns 0 k =
    (ns.mapM fun n => c.visit [n] 0 {}).map fun rs => ((concatenated rs).1, k.merge (concatenated rs).2) := by
  induction ns with
  | nil =>
    intro k
    rw [runsOn [] k, nodes]
    rfl
  | cons n ns ih =>
    intro k
    have happend : c.visit (n :: ns) 0 k = _ := visit_append [n] ns k
    rw [happend, List.mapM_cons, ih {}]
    cases c.visit [n] 0 {} with
    | error e => rfl
    | ok r =>
      cases ns.mapM fun n => c.visit [n] 0 {} with
      | error e => rfl
      | ok rs => simp [Except.map, bind, Except.bind, pure, Except.pure, concatenated, Collector.merge]

/-- Siblings are compiled one after the other, each as if it stood alone.  Whatever a collector holds, the walk in
place over `xs ++ ys` leaves the nodes of `xs` and then those of `ys`, and adds the groups of `xs` and then those of
`ys`; there is a slot if there was one before or in `xs` or `ys`; it fails with the first error; and it amounts to
runs on the single nodes, put together in order.  On an empty collector it gives what `nodes` gives. -/
theorem visit_append_siblings (c : Compiler) (xs ys : List Node) (k : Collector) :
    (∀ ns l, c.visit (xs ++ ys) 0 k = .ok (ns, l) ↔
      ∃ us a vs b, c.visit xs 0 {} = .ok (us, a) ∧ c.visit ys 0 {} = .ok (vs, b) ∧ ns = us ++ vs ∧
        l.groups = k.groups ++ (a.groups ++ b.groups) ∧
        (l.hasSlots = true ↔ k.hasSlots = true ∨ a.hasSlots = true ∨ b.hasSlots = true)) ∧
    (∀ e, c.visit (xs ++ ys) 0 k = .error e ↔
      c.visit xs 0 {} = .error e ∨ (∃ r, c.visit xs 0 {} = .ok r) ∧ c.visit ys 0 {} = .error e) ∧
    (c.visit xs 0 k = (xs.mapM fun n => c.visit [n] 0 {}).map fun rs =>
      (rs.flatMap (·.1), ⟨k.groups ++ rs.flatMap (·.2.groups), k.hasSlots || rs.any (·.2.hasSlots)⟩)) ∧
    (c.nodes xs = (c.visit xs 0 {}).map fun (us, a) => ⟨us, a.groups, a.hasSlots⟩) := by
  refine ⟨fun ns l => ?_, fun e => ?_, visit_eq_concatenated xs k, ?_⟩
  · rw [visit_append]
    constructor
    · intro h
      obtain ⟨⟨us, a⟩, hxs, h⟩ := bind_eq_ok.1 h
      obtain ⟨⟨vs, b⟩, hys, heq⟩ := map_eq_ok.1 h
      cases heq
      exact ⟨us, a, vs, b, hxs, hys, rfl, rfl, by simp [Collector.merge]⟩
    · rintro ⟨us, a, vs, b, hxs, hys, rfl, hgroups, hslots⟩
      have hl : l = k.merge (a.merge b) := by
        apply Collector.ext hgroups
        rw [Bool.eq_iff_iff, hslots]
        simp [Collector.merge]
      rw [hxs, hys, hl]
      rfl
  · rw [visit_append]
    cases c.visit xs 0 {} with
    | error e' => simp [bind, Except.bind]
    | ok r =>
      cases c.visit ys 0 {} with
      | error e' => simp [bind, Except.bind, Except.map]
      | ok r' => simp [bind, Except.bind, Except.map]
  · rw [runsOn xs {}]
    cases c.nodes xs with
    | error e => rfl
    | ok o => simp [Except.map, Output.collector]

end Compiler

end ViewTemplate
