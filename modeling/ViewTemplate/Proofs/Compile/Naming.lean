import ViewTemplate.Proofs.Compile.Configured

/-!
# The names of markers and classes

The tag of markers and the class of marked elements are written into the markup that is being compiled.  They are
never read again: under two configurations that differ in these names only, compiling fails with one error, or gives
definitions that differ in their markup only.  This holds for all names, also for names that mean something in a
source, such as `slot`, `let`, or that of a custom element.

* `Definition.erased` — the definition without markup, its own and that of all definitions inside it.
* `Output.erased`, `Parts.erased` — the same for what a walk gives and for parts.
* `Compiler.erased_hosting`, `Compiler.erased_wrap` — where the names are written, they are erased.
* `Compiler.agreesOn` — walks under two configurations agree apart from markup.
* `Compiler.compileNodes_names` — compiled templates under two configurations.
-/

namespace ViewTemplate

open ViewTemplate.Text ViewTemplate.Markup

/-! ### Definitions without markup -/

mutual

/-- The instruction with the markup of all definitions inside it erased. -/
def Instruction.erased : Instruction → Instruction
  | .hydrateElement resource instructions parts =>
    .hydrateElement resource (eraseGroup instructions) (eraseParts parts)
  | .hydrateAttribute resource instructions => .hydrateAttribute resource (eraseGroup instructions)
  | .hydrateLetElement instructions toViewModel => .hydrateLetElement (eraseGroup instructions) toViewModel
  | .hydrateTemplateController resource definition instructions link =>
    .hydrateTemplateController resource definition.erased (eraseGroup instructions) link
  | i => i

/-- A group of instructions, erased. -/
def eraseGroup : List Instruction → List Instruction
  | [] => []
  | i :: is => i.erased :: eraseGroup is

/-- Groups of instructions, erased. -/
def eraseGroups : List (List Instruction) → List (List Instruction)
  | [] => []
  | g :: gs => eraseGroup g :: eraseGroups gs

/-- Parts, erased. -/
def eraseParts : List (String × Definition) → List (String × Definition)
  | [] => []
  | (name, d) :: rest => (name, d.erased) :: eraseParts rest

/-- The definition without its markup, and without that of all definitions inside it. -/
def Definition.erased : Definition → Definition
  | ⟨_, groups, surrogates, hasSlots⟩ => ⟨{ name := "" }, eraseGroups groups, eraseGroup surrogates, hasSlots⟩

end

/-- Groups are erased one by one. -/
theorem eraseGroups_append (gs hs : List (List Instruction)) :
    eraseGroups (gs ++ hs) = eraseGroups gs ++ eraseGroups hs := by
  induction gs with
  | nil => rw [List.nil_append, eraseGroups, List.nil_append]
  | cons g gs ih => rw [List.cons_append, eraseGroups, eraseGroups, ih, List.cons_append]

/-- Erasing keeps the instructions, and so the groups that there are. -/
theorem eraseGroups_groupsOf (group : List Instruction) :
    eraseGroups (Compiler.groupsOf group) = Compiler.groupsOf (eraseGroup group) := by
  cases group with
  | nil => rfl
  | cons i is => rfl

/-- A part takes its place by its name alone. -/
theorem eraseParts_insertEntry (name : String) (d : Definition) (entries : List (String × Definition)) :
    eraseParts (Table.insertEntry name d entries) = Table.insertEntry name d.erased (eraseParts entries) := by
  induction entries with
  | nil => rfl
  | cons entry rest ih =>
    obtain ⟨key, value⟩ := entry
    simp only [Table.insertEntry, eraseParts]
    split
    · rfl
    · rw [eraseParts, ih]

/-- To erase markup leaves whether there are slots. -/
theorem Definition.hasSlots_erased (d : Definition) : d.erased.hasSlots = d.hasSlots := by
  cases d
  rfl

/-- A definition with other surrogates is erased with these. -/
theorem Definition.erased_withSurrogates (d : Definition) (surrogates : List Instruction) :
    { d with surrogates }.erased = { d.erased with surrogates := eraseGroup surrogates } := by
  cases d
  rfl

/-! ### Walks without markup -/

/-- What a walk gives, without nodes and markup. -/
def Output.erased (o : Output) : Output :=
  ⟨[], eraseGroups o.groups, o.hasSlots⟩

/-- The parts without markup. -/
def Parts.erased (p : Parts) : Parts :=
  ⟨⟨eraseParts p.table.entries⟩, p.hasSlots⟩

/-- Results are erased one by one. -/
theorem Output.erased_append (o o' : Output) : (o.append o').erased = o.erased.append o'.erased := by
  simp only [Output.erased, Output.append, eraseGroups_append, List.append_nil]

/-- The root of a definition is erased with its content. -/
theorem Output.erased_definition (o : Output) (root : Tag) :
    (o.definition root).erased = o.erased.definition { name := "" } := rfl

/-- Parts are erased one by one. -/
theorem Parts.erased_insert (p : Parts) (name : String) (d : Definition) :
    (p.insert name d).erased = p.erased.insert name d.erased := by
  simp only [Parts.erased, Parts.insert, Table.insert, eraseParts_insertEntry, Definition.hasSlots_erased]

namespace Compiler

variable {c : Compiler} {a b : Config}

/-! ### What takes the place of an element -/

/-- The class that marks an element is erased. -/
theorem erased_hosting {group group' : List Instruction} {content content' : Output}
    (hgroup : eraseGroup group = eraseGroup group') (h : content.erased = content'.erased) (host : Tag) :
    ((c.withConfig a).hosting host group content).erased = ((c.withConfig b).hosting host group' content').erased := by
  simp only [Output.erased, Output.mk.injEq, true_and] at h
  simp only [Output.erased, hosting, eraseGroups_append, eraseGroups_groupsOf, hgroup, h]

/-- The marker of a controller is erased. -/
theorem erased_control {d d' : Definition} (h : d.erased = d'.erased) (k : Controller) :
    ((c.withConfig a).control k d).erased = ((c.withConfig b).control k d').erased := by
  have hslots : d.hasSlots = d'.hasSlots := by
    rw [← Definition.hasSlots_erased d, h, Definition.hasSlots_erased]
  simp only [Output.erased, control, Controller.instruction, eraseGroups, eraseGroup, Instruction.erased, h, hslots]

/-- Definitions that agree but for markup do so when they are nested in controllers. -/
theorem erased_nest {d d' : Definition} (h : d.erased = d'.erased) (ks : List Controller) :
    ((c.withConfig a).nest ks d).erased = ((c.withConfig b).nest ks d').erased := by
  induction ks with
  | nil => exact h
  | cons k ks ih =>
    have hcontrol := erased_control (c := c) (a := a) (b := b) ih k
    exact congrArg (Output.definition · { name := "" }) hcontrol

/-- A definition in controllers, whatever its root. -/
theorem erased_control_nest {o o' : Output} (h : o.erased = o'.erased) (root : Tag) (k : Controller)
    (ks : List Controller) :
    ((c.withConfig a).control k ((c.withConfig a).nest ks (o.definition root))).erased =
      ((c.withConfig b).control k ((c.withConfig b).nest ks (o'.definition root))).erased := by
  have hdefinition : (o.definition root).erased = (o'.definition root).erased := by
    rw [Output.erased_definition, Output.erased_definition, h]
  exact erased_control (erased_nest hdefinition ks) k

/-- Results that agree but for markup do so when controllers are put around them. -/
theorem erased_wrap {o o' : Output} (h : o.erased = o'.erased) (ks : List Controller) :
    ((c.withConfig a).wrap ks o).erased = ((c.withConfig b).wrap ks o').erased := by
  cases ks with
  | nil => exact h
  | cons k ks => exact erased_control_nest h templateTag k ks

/-- Contents that agree but for markup do so when they become that of the innermost controller. -/
theorem erased_wrapContent {o o' : Output} (h : o.erased = o'.erased) (host : Tag) (ks : List Controller) :
    ((c.withConfig a).wrapContent ks host o).erased = ((c.withConfig b).wrapContent ks host o').erased := by
  cases ks with
  | nil => exact h
  | cons k ks => exact erased_control_nest h host k ks

/-! ### Groups and parts -/

/-- The group of an element holds the definitions of its parts, and no other markup. -/
theorem elementGroup_erased {parts parts' : List (String × Definition)} (h : eraseParts parts = eraseParts parts')
    (host : Tag) (custom : Option Resource) :
    (c.elementGroup host custom parts).map eraseGroup = (c.elementGroup host custom parts').map eraseGroup := by
  unfold elementGroup
  refine map_bind_congr fun placed => ?_
  cases custom with
  | none => rfl
  | some r =>
    refine congrArg Except.ok ?_
    rw [eraseGroup, eraseGroup, Instruction.erased, Instruction.erased, h]

/-- The walks over the nodes under the two configurations fail with one error, or agree apart from markup. -/
def AgreesOn (c : Compiler) (a b : Config) (ns : List Node) : Prop :=
  ((c.withConfig a).nodes ns).map Output.erased = ((c.withConfig b).nodes ns).map Output.erased

/-- The parts among nodes agree but for markup, if the content of each does. -/
theorem parts_erased : (ns : List Node) → ∀ {soFar soFar' : Parts}, soFar.erased = soFar'.erased →
    (∀ tag kids, .element tag kids ∈ ns → c.AgreesOn a b kids) →
    ((c.withConfig a).parts soFar ns).map Parts.erased = ((c.withConfig b).parts soFar' ns).map Parts.erased
  | [], soFar, soFar', h, _ => by
    rw [parts, parts]
    exact congrArg Except.ok h
  | .text value span :: ns, soFar, soFar', h, ih => by
    rw [parts_cons_of_tag?_eq_none rfl, parts_cons_of_tag?_eq_none rfl]
    exact parts_erased ns h fun tag kids hmem => ih tag kids (List.mem_cons_of_mem _ hmem)
  | .comment value span :: ns, soFar, soFar', h, ih => by
    rw [parts_cons_of_tag?_eq_none rfl, parts_cons_of_tag?_eq_none rfl]
    exact parts_erased ns h fun tag kids hmem => ih tag kids (List.mem_cons_of_mem _ hmem)
  | .element tag kids :: ns, soFar, soFar', h, ih => by
    have ih' := fun tag kids hmem => ih tag kids (List.mem_cons_of_mem _ hmem)
    rw [parts, parts]
    split
    · refine map_bind_eq_map_bind (ih tag kids List.mem_cons_self) fun content content' hcontent => ?_
      refine parts_erased ns ?_ ih'
      rw [Parts.erased_insert, Parts.erased_insert, Output.erased_definition, Output.erased_definition, h, hcontent]
    · exact parts_erased ns h ih'

/-! ### Trees -/

/-- An element by its own rules agrees but for markup, if the walk below does. -/
theorem own_erased (host : Tag) (kids : List Node)
    (ih : ∀ ns, workOf ns ≤ workOf kids → c.AgreesOn a b ns) :
    ((c.withConfig a).own host kids).map Output.erased = ((c.withConfig b).own host kids).map Output.erased := by
  unfold own
  simp only [letGroup_withConfig, customElement?_withConfig, elementGroup_withConfig]
  split
  · refine map_bind_congr fun group => ?_
    exact congrArg Except.ok (erased_hosting rfl rfl host)
  · split
    · refine map_bind_congr fun group => ?_
      refine map_bind_eq_map_bind (ih kids (Nat.le_refl _)) fun content content' hcontent => ?_
      exact congrArg Except.ok (erased_hosting rfl hcontent host)
    · next r hcustom =>
      have hparts : ((c.withConfig a).parts {} kids).map Parts.erased =
          ((c.withConfig b).parts {} kids).map Parts.erased :=
        parts_erased kids rfl fun tag inner hmem => ih inner (Nat.le_of_lt (workOf_lt_of_mem hmem))
      have hkept := ih (keptChildren kids) (workOf_keptChildren_le kids)
      refine map_bind_eq_map_bind hparts fun parts parts' hparts => ?_
      obtain ⟨htable, hslots⟩ := Parts.mk.inj hparts
      have helement := elementGroup_erased (c := c) (Table.mk.inj htable) host (some r)
      refine map_bind_eq_map_bind helement fun group group' hgroup => ?_
      refine map_bind_eq_map_bind hkept fun content content' hcontent => ?_
      refine congrArg Except.ok (erased_hosting hgroup ?_ host)
      obtain ⟨-, hgroups, hslots'⟩ := Output.mk.inj hcontent
      simp only [Output.erased, hgroups, hslots, hslots']

/-- A text agrees but for markup, if blank texts are treated alike. -/
theorem text_erased (h : a.stripBlankText = b.stripBlankText) (value : String) (span : Source.Span) :
    ((c.withConfig a).text value span).map Output.erased = ((c.withConfig b).text value span).map Output.erased := by
  have hstrip : (c.withConfig a).config.stripBlankText = (c.withConfig b).config.stripBlankText := h
  unfold text
  rw [hstrip]
  by_cases hblank : ((c.withConfig b).config.stripBlankText && isBlank value) = true
  · rw [if_pos hblank, if_pos hblank]
  · rw [if_neg hblank, if_neg hblank]
    refine map_bind_congr fun e => ?_
    cases e with
    | none => rfl
    | some e => rfl

/-- An element with its controllers agrees but for markup, if the walk below does. -/
theorem node_element_erased (tag : Tag) (kids : List Node)
    (ih : ∀ ns, workOf ns ≤ workOf kids → c.AgreesOn a b ns) :
    ((c.withConfig a).node (.element tag kids)).map Output.erased =
      ((c.withConfig b).node (.element tag kids)).map Output.erased := by
  simp only [node_element, controllers_withConfig, hostTag_withConfig, isBare_withConfig]
  refine map_bind_congr fun ks => ?_
  split
  · refine map_bind_eq_map_bind (ih kids (Nat.le_refl _)) fun content content' hcontent => ?_
    exact congrArg Except.ok (erased_wrapContent hcontent (c.hostTag tag) ks)
  · refine map_bind_eq_map_bind (own_erased (c.hostTag tag) kids ih) fun o o' ho => ?_
    exact congrArg Except.ok (erased_wrap ho ks)

/-- One more node: the walk agrees on it and on the others. -/
theorem AgreesOn.cons {n : Node} {ns : List Node}
    (hfirst : ((c.withConfig a).node n).map Output.erased = ((c.withConfig b).node n).map Output.erased)
    (hothers : c.AgreesOn a b ns) : c.AgreesOn a b (n :: ns) := by
  unfold AgreesOn
  rw [nodes, nodes]
  refine map_bind_eq_map_bind hfirst fun first first' hfirst => ?_
  refine map_bind_eq_map_bind hothers fun others others' hothers => ?_
  refine congrArg Except.ok ?_
  rw [Output.erased_append, Output.erased_append, hfirst, hothers]

/-- A walk writes the names of its configuration into nodes only, and never reads them. -/
theorem agreesOn (h : a.stripBlankText = b.stripBlankText) : (ns : List Node) → c.AgreesOn a b ns
  | [] => by
    unfold AgreesOn
    rw [nodes, nodes]
  | .text value span :: ns => by
    refine AgreesOn.cons ?_ (agreesOn h ns)
    rw [node, node]
    exact text_erased h value span
  | .comment value span :: ns => by
    refine AgreesOn.cons ?_ (agreesOn h ns)
    rw [node, node]
  | .element tag kids :: ns =>
    AgreesOn.cons (node_element_erased tag kids fun ms _ => agreesOn h ms) (agreesOn h ns)
termination_by ns => workOf ns
decreasing_by
  all_goals simp only [workOf, Node.work] at *
  all_goals omega

/-! ### Templates -/

/-- A whole template agrees but for markup, with the same surrogates. -/
theorem compileRoot_erased (h : a.stripBlankText = b.stripBlankText) (root : Element) :
    ((c.withConfig a).compileRoot root).map (fun d => (d.surrogates, d.erased)) =
      ((c.withConfig b).compileRoot root).map (fun d => (d.surrogates, d.erased)) := by
  have hdefinition : ∀ root : Element, ((c.withConfig a).definition root).map Definition.erased =
      ((c.withConfig b).definition root).map Definition.erased := by
    intro root
    refine map_bind_eq_map_bind (agreesOn h root.children) fun content content' hcontent => ?_
    exact congrArg Except.ok (congrArg (Output.definition · { name := "" }) hcontent)
  unfold compileRoot
  rw [surrogates_withConfig, surrogates_withConfig]
  refine map_bind_congr fun surrogates => ?_
  refine map_bind_eq_map_bind (hdefinition _) fun d d' hd => ?_
  have herased : { d with surrogates }.erased = { d' with surrogates }.erased := by
    rw [Definition.erased_withSurrogates, Definition.erased_withSurrogates, hd]
  exact congrArg Except.ok (Prod.ext rfl herased)

/-- The names of markers and classes do not influence the program.  Under two configurations that treat blank texts in
the same way, compiling fails with one error, or it gives definitions with the same instructions for the host, the same
slots, and the same groups of instructions apart from markup. -/
theorem compileNodes_names (resources : Resolver) (reader : ExpressionReader) (ns : List Node) (a b : Config)
    (h : a.stripBlankText = b.stripBlankText) :
    (∃ e, ({ resources, reader, config := a } : Compiler).compileNodes ns = .error e ∧
      ({ resources, reader, config := b } : Compiler).compileNodes ns = .error e) ∨
    ∃ d d', ({ resources, reader, config := a } : Compiler).compileNodes ns = .ok d ∧
      ({ resources, reader, config := b } : Compiler).compileNodes ns = .ok d' ∧
      d.surrogates = d'.surrogates ∧ d.hasSlots = d'.hasSlots ∧ d.erased.groups = d'.erased.groups := by
  let c : Compiler := { resources, reader }
  have hroot := compileRoot_erased (c := c) h ((soleTemplate? ns).getD { templateTag with children := ns })
  rcases map_eq_map_iff.1 hroot with herror | ⟨d, d', hd, hd', heq⟩
  · exact .inl herror
  · obtain ⟨hsurrogates, herased⟩ := Prod.mk.inj heq
    refine .inr ⟨d, d', hd, hd', hsurrogates, ?_, congrArg Definition.groups herased⟩
    rw [← Definition.hasSlots_erased d, herased, Definition.hasSlots_erased]

/-- A text to render into, and an element under a controller. -/
def renamedNodes : List Node :=
  [.text "a$\x7bb\x7d", .element { name := "p", attributes := [⟨"if.bind", "c", {}, none⟩] } [.text "$\x7bd\x7d"]]

/-- Markers that look like slots are none. -/
theorem compileNodes_renamedNodes_names : ∃ d d',
    ({ resources := Registry.builtin.resolver } : Compiler).compileNodes renamedNodes = .ok d ∧
      ({ resources := Registry.builtin.resolver, config := { targetClass := "p", markerTag := "slot" } } :
        Compiler).compileNodes renamedNodes = .ok d' ∧
      d.surrogates = d'.surrogates ∧ d'.hasSlots = false ∧ d.erased.groups = d'.erased.groups := by
  obtain ⟨d, hd, hslots⟩ := exists_eq_ok (f := fun d : Definition => d.hasSlots) (b := false)
    (x := ({ resources := Registry.builtin.resolver } : Compiler).compileNodes renamedNodes) (by decide +kernel)
  have hnames := compileNodes_names Registry.builtin.resolver ExpressionReader.standard renamedNodes {}
    { targetClass := "p", markerTag := "slot" } rfl
  rcases hnames with ⟨e, herror, -⟩ | ⟨d₁, d', hd₁, hd', hsurrogates, hslots', hgroups⟩
  · rw [hd] at herror
    cases herror
  · obtain rfl : d = d₁ := Except.ok.inj (hd.symm.trans hd₁)
    exact ⟨d, d', hd, hd', hsurrogates, hslots'.symm.trans hslots, hgroups⟩

end Compiler

end ViewTemplate
