import ViewTemplate.Proofs.Compile.Nesting

/-!
# Targets that were not marked

Targets are told by a class, and the source may use that class as well.  On an element with instructions that does
no harm, since the class is not added twice.  But an element that is idle, without any instructions, keeps its
classes, and so does all that stands in a `let` element: there the class makes a target that no group belongs to.

* `Compiler.isIdle`, `Compiler.idleTargets` — the elements of a source that carry the target class for nothing.
* `Compiler.Tally` — there are as many targets as groups, and besides only such elements.
* `Compiler.tally_nodes` — this holds of every result of the walk.
* `Compiler.compile_targets_tallied` — and so of a compiled template and of every definition nested in it.
* `Compiler.compile_markedIdle` — an idle element with the class upsets the count.
-/

namespace ViewTemplate

open ViewTemplate.Text ViewTemplate.Markup

namespace Compiler

/-! ### Idle elements -/

/-- Whether an element without controllers gives no instructions. -/
def isIdle (c : Compiler) (host : Tag) : Bool :=
  (c.customElement? host).isNone && match c.elementGroup host none [] with
    | .ok group => group.isEmpty
    | .error _ => false

mutual

/-- The elements of a tree that carry the target class for nothing, as they are compiled. -/
def idleTargetsAt (c : Compiler) : Node → List Tag
  | .element tag children =>
    if tag.name = "let" then targets c.config.targetClass children
    else [c.hostTag tag].filter (fun host => c.isIdle host && host.hasClass c.config.targetClass) ++
      c.idleTargets children
  | .text .. => []
  | .comment .. => []

/-- The elements of several trees that carry the target class for nothing, as they are compiled. -/
def idleTargets (c : Compiler) : List Node → List Tag
  | [] => []
  | n :: ns => c.idleTargetsAt n ++ c.idleTargets ns

end

variable {c : Compiler}

/-- The idle targets at one of the nodes are among those of all. -/
theorem idleTargetsAt_subset {n : Node} {ns : List Node} (h : n ∈ ns) : c.idleTargetsAt n ⊆ c.idleTargets ns := by
  induction ns with
  | nil => exact absurd h List.not_mem_nil
  | cons m ns ih =>
    rw [idleTargets]
    rcases List.mem_cons.1 h with rfl | h
    · exact List.subset_append_left _ _
    · exact List.Subset.trans (ih h) (List.subset_append_right _ _)

/-- Fewer nodes have fewer idle targets. -/
theorem idleTargets_subset_of_subset {ms ns : List Node} (h : ms ⊆ ns) : c.idleTargets ms ⊆ c.idleTargets ns := by
  induction ms with
  | nil => exact List.nil_subset _
  | cons m ms ih =>
    obtain ⟨hm, hms⟩ := List.cons_subset.1 h
    rw [idleTargets]
    exact List.append_subset.2 ⟨idleTargetsAt_subset hm, ih hms⟩

/-- The idle targets of a single node are those at it. -/
theorem idleTargets_singleton (n : Node) : c.idleTargets [n] = c.idleTargetsAt n := by
  rw [idleTargets, idleTargets, List.append_nil]

/-- The idle targets at an element that is walked: itself, if it is one, and those below. -/
theorem idleTargetsAt_element {tag : Tag} (h : tag.name ≠ "let") (children : List Node) :
    c.idleTargetsAt (.element tag children) =
      [c.hostTag tag].filter (fun host => c.isIdle host && host.hasClass c.config.targetClass) ++
        c.idleTargets children := by
  rw [idleTargetsAt, if_neg h]

/-- The idle targets below an element that is walked are among those at it. -/
theorem idleTargets_children_subset {tag : Tag} (h : tag.name ≠ "let") (children : List Node) :
    c.idleTargets children ⊆ c.idleTargetsAt (.element tag children) := by
  rw [idleTargetsAt_element h]
  exact List.subset_append_right _ _

/-- Taking off controllers does not change which elements are idle. -/
theorem idleTargetsAt_body {tag : Tag} {before after : List Attribute} {a : Attribute} {r : Resource}
    (htag : tag.attributes = before ++ a :: after) (ha : c.controller? a = some r) (kids : List Node) :
    c.idleTargetsAt (.element { tag with attributes := before ++ after } kids) =
      c.idleTargetsAt (.element tag kids) := by
  rw [idleTargetsAt, idleTargetsAt, hostTag_append_cons htag ha]

/-- What a walk goes on to has no other idle elements than what it came from. -/
theorem idleTargets_reaches {ns ms : List Node} (h : c.Reaches ns ms) : c.idleTargets ms ⊆ c.idleTargets ns := by
  induction h with
  | refl => exact List.Subset.refl _
  | sub _ hsub ih => exact List.Subset.trans (idleTargets_subset_of_subset hsub) ih
  | @content ms tag kids _ hmem hname ih =>
    have hkids : c.idleTargets kids ⊆ c.idleTargets ms :=
      List.Subset.trans (idleTargets_children_subset hname kids) (idleTargetsAt_subset hmem)
    exact List.Subset.trans hkids ih
  | body _ hmem htag ha ih =>
    rw [idleTargets_singleton, idleTargetsAt_body htag ha]
    exact List.Subset.trans (idleTargetsAt_subset hmem) ih

/-! ### Tallies -/

/-- There are as many targets among the nodes as there are groups, and besides only elements of the source that
are given. -/
def Tally (c : Compiler) (source : List Tag) (ns : List Node) (groups : List (List Instruction)) : Prop :=
  ∃ forged : List Tag, forged.Sublist (targets c.config.targetClass ns) ∧ forged ⊆ source ∧
    (targets c.config.targetClass ns).length = groups.length + forged.length

/-- A tally against fewer elements of the source is one against more. -/
theorem Tally.mono {source source' : List Tag} {ns : List Node} {groups : List (List Instruction)}
    (h : c.Tally source ns groups) (hsub : source ⊆ source') : c.Tally source' ns groups := by
  obtain ⟨forged, hforged, hsource, hlength⟩ := h
  exact ⟨forged, hforged, List.Subset.trans hsource hsub, hlength⟩

/-- Tallies of results that are put one after the other. -/
theorem Tally.append {source : List Tag} {ms ns : List Node} {gs hs : List (List Instruction)}
    (hm : c.Tally source ms gs) (hn : c.Tally source ns hs) : c.Tally source (ms ++ ns) (gs ++ hs) := by
  obtain ⟨forged, hforged, hsource, hlength⟩ := hm
  obtain ⟨forged', hforged', hsource', hlength'⟩ := hn
  refine ⟨forged ++ forged', ?_, List.append_subset.2 ⟨hsource, hsource'⟩, ?_⟩
  · rw [targets_append]
    exact hforged.append hforged'
  · rw [targets_append, List.length_append, List.length_append, List.length_append, hlength, hlength']
    omega

/-- Nodes that are left as they are. -/
theorem tally_unchanged (ns : List Node) : c.Tally (targets c.config.targetClass ns) ns [] :=
  ⟨targets c.config.targetClass ns, List.Sublist.refl _, List.Subset.refl _, (Nat.zero_add _).symm⟩

/-- A target for a group. -/
theorem tally_marked {source : List Tag} {ns : List Node} {group : List Instruction}
    (h : (targets c.config.targetClass ns).length = 1) : c.Tally source ns [group] :=
  ⟨[], List.nil_sublist _, List.nil_subset _, h⟩

/-- An element with a group is one more target for one more group. -/
theorem Tally.hosting_ne_nil (hword : IsWord c.config.targetClass) {source : List Tag} {host : Tag}
    {group : List Instruction} {content : Output} (hne : group ≠ [])
    (h : c.Tally source content.nodes content.groups) :
    c.Tally source (c.hosting host group content).nodes (c.hosting host group content).groups := by
  obtain ⟨forged, hforged, hsource, hlength⟩ := h
  obtain ⟨i, is, rfl⟩ := List.exists_cons_of_ne_nil hne
  have htargets : targets c.config.targetClass (c.hosting host (i :: is) content).nodes =
      host.addClass c.config.targetClass :: targets c.config.targetClass content.nodes := by
    simp [targets, hosting, mark, Tag.hasClass_addClass host hword]
  refine ⟨forged, ?_, hsource, ?_⟩
  · rw [htargets]
    exact hforged.trans (List.sublist_cons_self _ _)
  · rw [htargets, List.length_cons, hlength]
    show _ = (content.groups.length + 1) + forged.length
    omega

/-- An element without a group is one more target if it has the class, and then for nothing. -/
theorem Tally.hosting_nil {source : List Tag} {host : Tag} {content : Output}
    (h : c.Tally source content.nodes content.groups)
    (hhost : host.hasClass c.config.targetClass = true → host ∈ source) :
    c.Tally source (c.hosting host [] content).nodes (c.hosting host [] content).groups := by
  obtain ⟨forged, hforged, hsource, hlength⟩ := h
  cases hclass : host.hasClass c.config.targetClass with
  | false =>
    have htargets : targets c.config.targetClass (c.hosting host [] content).nodes =
        targets c.config.targetClass content.nodes := by
      simp [targets, hosting, mark, hclass]
    exact ⟨forged, htargets ▸ hforged, hsource, htargets ▸ hlength⟩
  | true =>
    have htargets : targets c.config.targetClass (c.hosting host [] content).nodes =
        host :: targets c.config.targetClass content.nodes := by
      simp [targets, hosting, mark, hclass]
    refine ⟨host :: forged, ?_, List.cons_subset.2 ⟨hhost hclass, hsource⟩, ?_⟩
    · rw [htargets]
      exact hforged.cons_cons host
    · rw [htargets, List.length_cons, List.length_cons, hlength]
      show content.groups.length + forged.length + 1 = content.groups.length + (forged.length + 1)
      omega

/-! ### The walk -/

/-- A text that is compiled is tallied: a marker for its group, or neither. -/
theorem tally_text (hword : IsWord c.config.targetClass) {source : List Tag} {value : String} {span : Source.Span}
    {o : Output} (h : c.text value span = .ok o) : c.Tally source o.nodes o.groups := by
  rcases text_eq_ok h with ⟨e, -, rfl⟩ | rfl | rfl
  · apply tally_marked
    rw [targets_marker hword]
    rfl
  · exact (tally_unchanged []).mono (List.nil_subset _)
  · exact (tally_unchanged [.text value span]).mono (List.nil_subset _)

/-- An element without controllers, around content whose tally is right. -/
theorem tally_own (hword : IsWord c.config.targetClass) {tag : Tag} {kids : List Node} {o : Output}
    (hnone : ∀ a ∈ tag.attributes, c.controller? a = none)
    (ih : ∀ ns content, workOf ns < (Node.element tag kids).work → c.nodes ns = .ok content →
      c.Tally (c.idleTargets ns) content.nodes content.groups)
    (h : OwnRule c tag kids o) : c.Tally (c.idleTargetsAt (.element tag kids)) o.nodes o.groups := by
  have hlt := workOf_children_lt tag kids
  cases h with
  | letElement hname hgroup =>
    obtain ⟨is, toViewModel, rfl, -⟩ := letGroup_eq_ok hgroup
    rw [idleTargetsAt, if_pos hname]
    exact Tally.hosting_ne_nil hword (List.cons_ne_nil _ _) (tally_unchanged kids)
  | @plain group content hname hcustom hgroup hcontent =>
    have hkids := (ih kids content hlt hcontent).mono (idleTargets_children_subset hname kids)
    by_cases hnil : group = []
    · subst hnil
      refine hkids.hosting_nil fun hclass => ?_
      rw [idleTargetsAt_element hname, hostTag_eq_self (controllers_eq_nil_of_forall_none _ hnone)]
      simp [isIdle, hcustom, hgroup, hclass]
    · exact hkids.hosting_ne_nil hword hnil
  | @custom r parts group content hname hcustom hparts hgroup hcontent =>
    have hkept := ih _ content (Nat.lt_of_le_of_lt (workOf_filter_le _ kids) hlt) hcontent
    have hsub : c.idleTargets (keptChildren kids) ⊆ c.idleTargetsAt (.element tag kids) :=
      List.Subset.trans (idleTargets_subset_of_subset (List.filter_subset_self kids))
        (idleTargets_children_subset hname kids)
    have hne : group ≠ [] := by
      obtain ⟨inside, beside, -, -, rfl⟩ := elementGroup_eq_ok hgroup
      exact List.cons_ne_nil _ _
    exact Tally.hosting_ne_nil hword hne (hkept.mono hsub)

/-- The tally of every result of the walk is right. -/
theorem tally_nodes (hword : IsWord c.config.targetClass) {ns : List Node} {o : Output} (h : c.nodes ns = .ok o) :
    c.Tally (c.idleTargets ns) o.nodes o.groups := by
  refine step_induction (motive := fun ns o => c.Tally (c.idleTargets ns) o.nodes o.groups) ?_ ?_ ?_ ?_ ?_ h
  · exact tally_unchanged []
  · intro n ns first others hfirst hothers
    exact (hfirst.mono (idleTargets_subset_of_subset (by simp))).append
      (hothers.mono (idleTargets_subset_of_subset (List.subset_cons_self n ns)))
  · intro value span o h
    exact tally_text hword h
  · intro value span
    exact tally_unchanged [.comment value span]
  · intro tag kids o hrule ih
    rw [idleTargets_singleton]
    cases hrule with
    | own hnone hown => exact tally_own hword hnone ih hown
    | controlled =>
      apply tally_marked
      show (targets c.config.targetClass [c.marker]).length = 1
      rw [targets_marker hword]
      rfl

/-- A compiled template is tallied at every depth, against the idle targets of its source. -/
theorem tally_compileRoot (hword : IsWord c.config.targetClass) {root : Element} {d d' : Definition}
    (h : c.compileRoot root = .ok d) (hd' : d'.Within d) :
    c.Tally (c.idleTargets root.children) d'.template.children d'.groups := by
  rcases Definition.within_iff.1 hd' with rfl | hnested
  · obtain ⟨surrogates, content, -, hcontent, rfl⟩ := compileRoot_eq_ok_iff.1 h
    exact tally_nodes hword hcontent
  · obtain ⟨ms, content, root', hreaches, hcontent, rfl⟩ := walkedIn_of_nestedIn h hnested
    exact (tally_nodes hword hcontent).mono (idleTargets_reaches hreaches)

/-- The root that nodes are compiled from: a `template` that stands alone, or else one put around them. -/
def templateRoot (ns : List Node) : Element :=
  (soleTemplate? ns).getD { templateTag with children := ns }

/-- In a compiled template, and in every definition nested in it, there is a target for every group, and every target
beyond that is an element of the source that carries the target class for nothing: one without instructions, or one
that stands in a `let` element.  So without such elements there are as many targets as groups, also where the source
uses the class. -/
theorem compile_targets_tallied {resources : Resolver} {reader : ExpressionReader} {source : String} {d : Definition}
    (h : ({ resources, reader } : Compiler).compile source = .ok d) :
    (∀ d' : Definition, d'.Within d → ∃ forged : List Tag,
      forged.Sublist (targets "au" d'.template.children) ∧
      forged ⊆ ({ resources, reader } : Compiler).idleTargets (templateRoot (parse source).nodes).children ∧
      (targets "au" d'.template.children).length = d'.groups.length + forged.length) ∧
    (({ resources, reader } : Compiler).idleTargets (templateRoot (parse source).nodes).children = [] →
      ∀ d' : Definition, d'.Within d → (targets "au" d'.template.children).length = d'.groups.length) := by
  simp only [compile] at h
  split at h
  · have hword : IsWord "au" := by decide +kernel
    refine ⟨fun d' hd' => tally_compileRoot hword h hd', fun hnone d' hd' => ?_⟩
    obtain ⟨forged, -, hsource, hlength⟩ := tally_compileRoot hword h hd'
    have hforged : forged = [] := List.subset_nil.1 (hnone ▸ hsource)
    rw [hforged] at hlength
    exact hlength
  · cases h

/-- Elements with instructions that have the target class already, one of them under a controller. -/
def markedBusy : String :=
  "<p class=au id.bind=x></p><b if.bind=y class=\"k au\" id.bind=z></b>"

/-- The theorem at elements that have the class and instructions too, so that none is idle. -/
theorem compile_markedBusy_targets_tallied :
    ∃ d, ({ resources := Registry.builtin.resolver } : Compiler).compile markedBusy = .ok d ∧
      d.groups.length = 2 ∧
      ∀ d' : Definition, d'.Within d → (targets "au" d'.template.children).length = d'.groups.length := by
  obtain ⟨d, hd, hlength⟩ := exists_eq_ok (f := fun d : Definition => d.groups.length) (b := 2)
    (x := ({ resources := Registry.builtin.resolver } : Compiler).compile markedBusy) (by decide +kernel)
  exact ⟨d, hd, hlength, (compile_targets_tallied hd).2 (by decide +kernel)⟩

/-- An element with the target class and nothing else. -/
def markedIdle : String :=
  "<div class=\"au\"></div>"

/-- The class of an idle element stays: there is a target, and no group of it. -/
theorem compile_markedIdle :
    ∃ d, ({ resources := Registry.builtin.resolver } : Compiler).compile markedIdle = .ok d ∧
      d.html = "<template><div class=\"au\"></div></template>" ∧ d.groups.length = 0 ∧
      (targets "au" d.template.children).length = 1 := by
  obtain ⟨d, hd, heq⟩ := exists_eq_ok
    (f := fun d : Definition => (d.html, d.groups.length, (targets "au" d.template.children).length))
    (b := ("<template><div class=\"au\"></div></template>", 0, 1))
    (x := ({ resources := Registry.builtin.resolver } : Compiler).compile markedIdle) (by decide +kernel)
  simp only [Prod.mk.injEq] at heq
  exact ⟨d, hd, heq⟩

end Compiler

end ViewTemplate
