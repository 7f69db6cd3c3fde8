import ViewTemplate.Proofs.Compile.Targets

/-!
# Putting extracted markup back

Template controllers move markup into definitions of their own and leave markers.  When every such marker is
replaced by the content of the definition that its group holds, at every depth, the source comes back, up to
what the compiler does in place: it marks elements, drops controller attributes, takes the place of texts
with interpolations, and lifts parts out of custom elements.

* `Compiler.Inflates` — nodes with their groups, and the nodes that come of putting definitions back.
* `Compiler.rewrite` — what the compiler does in place, said on the source alone.
* `Compiler.definition_inflates_rewrite` — a compiled definition inflates to the source so rewritten, and to
  nothing else.
-/

namespace ViewTemplate

open ViewTemplate.Text ViewTemplate.Markup

namespace Compiler

variable {c : Compiler}

/-! ### Inflation -/

/-- Whether a group is that of a template controller. -/
def isControllerGroup : List Instruction → Bool
  | [.hydrateTemplateController ..] => true
  | _ => false

/-- The class by which an element shows that it owns a group.  The empty text is a word of no `class`
attribute, so with it every element may own one. -/
def MayOwn (c : Compiler) (tag : Tag) : Prop :=
  tag.hasClass c.config.targetClass = true ∨ c.config.targetClass = ""

/-- The nodes `ns`, with the groups that their elements own in document order, inflate to `out`: a marker that
owns the group of a template controller is replaced by what the definition of the controller inflates to, and
all else stays. -/
inductive Inflates (c : Compiler) : List Node → List (List Instruction) → List Node → Prop where
  | nil : Inflates c [] [] []
  | leaf {n : Node} {ns out : List Node} {gs : List (List Instruction)} : n.tag? = none →
      Inflates c ns gs out → Inflates c (n :: ns) gs (n :: out)
  | unmarked {tag : Tag} {kids kids' ns out : List Node} {gs gs' : List (List Instruction)} :
      tag.hasClass c.config.targetClass = false → Inflates c kids gs kids' → Inflates c ns gs' out →
      Inflates c (.element tag kids :: ns) (gs ++ gs') (.element tag kids' :: out)
  | marked {tag : Tag} {group : List Instruction} {kids kids' ns out : List Node}
      {gs gs' : List (List Instruction)} : c.MayOwn tag → isControllerGroup group = false →
      Inflates c kids gs kids' → Inflates c ns gs' out →
      Inflates c (.element tag kids :: ns) (group :: (gs ++ gs')) (.element tag kids' :: out)
  | controller {res : String} {d : Definition} {is : List Instruction} {link : Bool}
      {body ns out : List Node} {gs : List (List Instruction)} :
      Inflates c d.template.children d.groups body → Inflates c ns gs out →
      Inflates c (c.marker :: ns) ([.hydrateTemplateController res d is link] :: gs) (body ++ out)

namespace Inflates

/-- Nodes that are inflated one after the other, each from its own groups. -/
theorem append {ms ns out out' : List Node} {gs gs' : List (List Instruction)}
    (h : c.Inflates ms gs out) (h' : c.Inflates ns gs' out') :
    c.Inflates (ms ++ ns) (gs ++ gs') (out ++ out') := by
  induction h with
  | nil => exact h'
  | leaf hn _ ih => exact .leaf hn ih
  | unmarked hclass hkids _ _ ih =>
    rw [List.append_assoc]
    exact .unmarked hclass hkids ih
  | marked hclass hgroup hkids _ _ ih =>
    simp only [List.cons_append, List.append_assoc]
    exact .marked hclass hgroup hkids ih
  | controller hbody _ _ ih =>
    rw [List.append_assoc]
    exact .controller hbody ih

/-- Nodes without the target class inflate to themselves. -/
theorem of_classFree : (ns : List Node) → ClassFree c.config.targetClass ns → c.Inflates ns [] ns
  | [], _ => .nil
  | .text value span :: ns, h => .leaf rfl (of_classFree ns h.tail)
  | .comment value span :: ns, h => .leaf rfl (of_classFree ns h.tail)
  | .element tag kids :: ns, h => by
    have hclass : tag.hasClass c.config.targetClass = false :=
      Tag.hasClass_eq_false (h tag (by simp))
    exact .unmarked hclass (of_classFree kids h.head.children) (of_classFree ns h.tail)

/-- A chain of controllers inflates to what it is wrapped around. -/
theorem nest {d : Definition} {body : List Node} (h : c.Inflates d.template.children d.groups body) :
    (ks : List Controller) →
      c.Inflates (c.nest ks d).template.children (c.nest ks d).groups body
  | [] => h
  | k :: ks => by
    have hcontrol : c.Inflates [c.marker] [[Controller.instruction k (c.nest ks d)]] (body ++ []) :=
      .controller (nest h ks) .nil
    rw [List.append_nil] at hcontrol
    exact hcontrol

/-- A result inflates as before when controllers are put around it. -/
theorem wrap {o : Output} {body : List Node} (h : c.Inflates o.nodes o.groups body) :
    (ks : List Controller) → c.Inflates (c.wrap ks o).nodes (c.wrap ks o).groups body
  | [] => h
  | k :: ks => nest (d := o.definition templateTag) h (k :: ks)

/-- Content inflates as before when it becomes that of the innermost controller. -/
theorem wrapContent {o : Output} {body : List Node} (h : c.Inflates o.nodes o.groups body) (host : Tag) :
    (ks : List Controller) → c.Inflates (c.wrapContent ks host o).nodes (c.wrapContent ks host o).groups body
  | [] => h
  | k :: ks => nest (d := o.definition host) h (k :: ks)

end Inflates

/-! ### What the compiler does in place -/

/-- Whether an element without controllers owns a group: its attributes, or what it is, give instructions. -/
def ownsGroup (c : Compiler) (host : Tag) : Bool :=
  match if host.name = "let" then c.letGroup host else c.elementGroup host (c.customElement? host) [] with
  | .ok group => !group.isEmpty
  | .error _ => false

/-- The tag of an element in compiled markup: without its controller attributes, and with the target class if
it owns a group. -/
def rewriteTag (c : Compiler) (tag : Tag) : Tag :=
  if c.ownsGroup (c.hostTag tag) then (c.hostTag tag).addClass c.config.targetClass else c.hostTag tag

/-- Whether an element is replaced by its content: it is a `template` that has controllers and no other
attributes. -/
def isUnwrapped (c : Compiler) (tag : Tag) : Bool :=
  tag.attributes.any (fun a => (c.controller? a).isSome) && tag.isTemplate &&
    (c.hostTag tag).attributes.isEmpty

mutual

/-- What the compiler makes of a node, as if it extracted nothing. -/
def rewriteNode (c : Compiler) : Node → List Node
  | .comment value span => [.comment value span]
  | .text value span =>
    match c.reader value .interpolation with
    | .ok (some _) => [c.marker, .text "" span]
    | _ => [.text value span]
  | .element tag children =>
    if c.isUnwrapped tag then c.rewriteAll false children
    else [.element (c.rewriteTag tag)
      (if tag.name = "let" then children
        else c.rewriteAll (c.customElement? (c.hostTag tag)).isSome children)]

/-- What the compiler makes of several nodes; with `lift` those that replace parts are left out. -/
def rewriteAll (c : Compiler) (lift : Bool) : List Node → List Node
  | [] => []
  | n :: ns => (if lift && isPartNode n then [] else c.rewriteNode n) ++ c.rewriteAll lift ns

end

/-- What the compiler makes of nodes in place, as if it extracted nothing. -/
def rewrite (c : Compiler) (ns : List Node) : List Node :=
  c.rewriteAll false ns

/-- No nodes are rewritten as none. -/
@[simp] theorem rewrite_nil : c.rewrite [] = [] := rfl

/-- Nodes are rewritten one by one. -/
theorem rewrite_cons (n : Node) (ns : List Node) : c.rewrite (n :: ns) = c.rewriteNode n ++ c.rewrite ns := by
  simp [rewrite, rewriteAll]

/-- A single node is rewritten by itself. -/
theorem rewrite_singleton (n : Node) : c.rewrite [n] = c.rewriteNode n := by
  rw [rewrite_cons, rewrite_nil, List.append_nil]

/-- Leaving parts out is rewriting the children that stay. -/
theorem rewriteAll_true (ns : List Node) : c.rewriteAll true ns = c.rewrite (keptChildren ns) := by
  induction ns with
  | nil => rfl
  | cons n ns ih =>
    rw [rewriteAll, ih]
    by_cases h : isPartNode n = true
    · simp [keptChildren, h]
    · have hkept : keptChildren (n :: ns) = n :: keptChildren ns := by simp [keptChildren, h]
      rw [hkept, rewrite_cons]
      simp [h]

/-- There are controllers exactly if some attribute calls for one. -/
theorem controllers_ne_nil_iff {as : List Attribute} {ks : List Controller}
    (h : c.controllers as = .ok ks) : ks ≠ [] ↔ as.any (fun a => (c.controller? a).isSome) = true := by
  constructor
  · intro hne
    by_contra hany
    have hnone : ∀ a ∈ as, c.controller? a = none := by
      intro a ha
      by_contra hsome
      exact hany (List.any_eq_true.2 ⟨a, ha, Option.isSome_iff_ne_none.2 hsome⟩)
    rw [controllers_eq_nil_of_forall_none as hnone] at h
    cases h
    exact hne rfl
  · rintro hany rfl
    obtain ⟨a, ha, hsome⟩ := List.any_eq_true.1 hany
    rw [controller?_eq_none_of_controllers_eq_nil as h a ha] at hsome
    cases hsome

/-- A `template` is replaced by its content exactly where the walk does so. -/
theorem isUnwrapped_iff {tag : Tag} {ks : List Controller} (h : c.controllers tag.attributes = .ok ks) :
    c.isUnwrapped tag = true ↔ c.IsBare tag ks := by
  have htemplate : (c.hostTag tag).isTemplate = tag.isTemplate := rfl
  simp [isUnwrapped, IsBare, controllers_ne_nil_iff h, htemplate, and_assoc]

/-! ### The walk -/

/-- An element with its group, if it has one, around content that inflates. -/
theorem Inflates.hosting (hword : c.config.targetClass ≠ "" → IsWord c.config.targetClass) {host : Tag}
    {group : List Instruction} {content : Output} {body : List Node}
    (hclass : host.hasClass c.config.targetClass = false) (hgroup : isControllerGroup group = false)
    (h : c.Inflates content.nodes content.groups body) :
    c.Inflates (c.hosting host group content).nodes (c.hosting host group content).groups
      [.element (if !group.isEmpty then host.addClass c.config.targetClass else host) body] := by
  cases group with
  | nil =>
    have hunmarked := Inflates.unmarked hclass h Inflates.nil
    rw [List.append_nil] at hunmarked
    exact hunmarked
  | cons i is =>
    have hmay : c.MayOwn (host.addClass c.config.targetClass) := by
      by_cases hempty : c.config.targetClass = ""
      · exact Or.inr hempty
      · exact Or.inl (Tag.hasClass_addClass host (hword hempty))
    have hmarked := Inflates.marked hmay hgroup h Inflates.nil
    rw [List.append_nil] at hmarked
    exact hmarked

/-- The group of an element is no group of a controller. -/
theorem isControllerGroup_of_elementGroup {tag : Tag} {custom : Option Resource}
    {parts : List (String × Definition)} {group : List Instruction}
    (h : c.elementGroup tag custom parts = .ok group) : isControllerGroup group = false := by
  obtain ⟨inside, beside, _, hbeside, rfl⟩ := elementGroup_eq_ok h
  cases custom with
  | some r => rfl
  | none =>
    unfold isControllerGroup
    split
    · next heq =>
      have hbeside_eq : beside = _ := heq
      cases hbeside _ (hbeside_eq ▸ List.mem_singleton_self _)
    · rfl

/-- Parts do not decide whether an element owns a group. -/
theorem ownsGroup_eq {host : Tag} {parts : List (String × Definition)} {group : List Instruction}
    (hname : host.name ≠ "let") (h : c.elementGroup host (c.customElement? host) parts = .ok group) :
    c.ownsGroup host = !group.isEmpty := by
  obtain ⟨placed, hplaced, h⟩ := bind_eq_ok.1 h
  unfold ownsGroup elementGroup
  rw [if_neg hname, hplaced, ← pure_eq_ok.1 h]
  cases c.customElement? host <;> rfl

/-- A `let` owns a group exactly if it has bindings. -/
theorem ownsGroup_eq_of_let {host : Tag} {group : List Instruction} (hname : host.name = "let")
    (h : c.letGroup host = .ok group) : c.ownsGroup host = !group.isEmpty := by
  unfold ownsGroup
  rw [if_pos hname, h]

/-- An element without controllers inflates to itself, marked, around its content rewritten. -/
theorem Inflates.own (hword : c.config.targetClass ≠ "" → IsWord c.config.targetClass) {tag : Tag}
    {children : List Node} {o : Output} (hfree : ClassFree c.config.targetClass [.element tag children])
    (ih : ∀ ns content, workOf ns ≤ workOf children → c.nodes ns = .ok content →
      ClassFree c.config.targetClass ns → c.Inflates content.nodes content.groups (c.rewrite ns))
    (h : OwnRule c (c.hostTag tag) children o) :
    c.Inflates o.nodes o.groups [.element (c.rewriteTag tag)
      (if tag.name = "let" then children
        else c.rewriteAll (c.customElement? (c.hostTag tag)).isSome children)] := by
  have hclass := hasClass_hostTag hfree
  cases h with
  | @letElement group hname hgroup =>
    have hlet : isControllerGroup group = false := by
      obtain ⟨is, toViewModel, rfl, _⟩ := letGroup_eq_ok hgroup
      rfl
    have hname' : tag.name = "let" := hname
    rw [rewriteTag, ownsGroup_eq_of_let hname hgroup, if_pos hname']
    exact Inflates.hosting hword hclass hlet (Inflates.of_classFree children hfree.children)
  | plain hname hcustom hgroup hcontent =>
    have hname' : tag.name ≠ "let" := hname
    have hgroup' := hcustom ▸ hgroup
    rw [rewriteTag, ownsGroup_eq hname hgroup', if_neg hname', hcustom]
    exact Inflates.hosting hword hclass (isControllerGroup_of_elementGroup hgroup)
      (ih children _ (Nat.le_refl _) hcontent hfree.children)
  | custom hname hcustom hparts hgroup hcontent =>
    have hname' : tag.name ≠ "let" := hname
    have hgroup' := hcustom ▸ hgroup
    rw [rewriteTag, ownsGroup_eq hname hgroup', if_neg hname', hcustom, Option.isSome_some,
      rewriteAll_true]
    have hkept := ih _ _ (workOf_keptChildren_le children) hcontent (hfree.children.filter _)
    exact Inflates.hosting hword hclass (isControllerGroup_of_elementGroup hgroup) hkept

/-- A text inflates to its rewriting: a marker and an empty text, or the text. -/
theorem Inflates.text (hstrip : c.config.stripBlankText = false) (hword : c.config.targetClass ≠ "" →
    IsWord c.config.targetClass) {value : String} {span : Source.Span} {o : Output}
    (h : c.text value span = .ok o) : c.Inflates o.nodes o.groups (c.rewrite [.text value span]) := by
  unfold Compiler.text at h
  rw [hstrip, Bool.false_and, if_neg Bool.false_ne_true] at h
  obtain ⟨e, he, h⟩ := bind_eq_ok.1 h
  have hread : c.reader value .interpolation = .ok e := by
    unfold ExpressionReader.interpolation? at he
    cases hr : c.reader value .interpolation with
    | error e => rw [hr] at he; cases he
    | ok e' => rw [hr] at he; exact congrArg _ (Except.ok.inj he)
  rw [rewrite_singleton, rewriteNode, hread]
  cases e with
  | none =>
    cases pure_eq_ok.1 h
    exact .leaf rfl .nil
  | some e =>
    cases pure_eq_ok.1 h
    have hmay : c.MayOwn c.markerTag := by
      by_cases hempty : c.config.targetClass = ""
      · exact Or.inr hempty
      · exact Or.inl (hasClass_markerTag (hword hempty))
    exact .marked hmay rfl (show c.Inflates [] [] [] from .nil) (.leaf rfl .nil)

/-- Every result of the walk inflates to its source, rewritten. -/
theorem inflates_nodes (hstrip : c.config.stripBlankText = false)
    (hword : c.config.targetClass ≠ "" → IsWord c.config.targetClass) {ns : List Node} {o : Output}
    (hfree : ClassFree c.config.targetClass ns) (h : c.nodes ns = .ok o) :
    c.Inflates o.nodes o.groups (c.rewrite ns) := by
  revert hfree
  refine nodes_induction (motive := fun ns o => ClassFree c.config.targetClass ns →
    c.Inflates o.nodes o.groups (c.rewrite ns)) ?_ ?_ ?_ ?_ ?_ h
  · intro _
    exact .nil
  · intro n ns first others hfirst hothers hfree
    rw [rewrite_cons, ← rewrite_singleton]
    exact (hfirst hfree.head).append (hothers hfree.tail)
  · intro value span o h _
    exact Inflates.text hstrip hword h
  · intro value span _
    exact .leaf rfl .nil
  · intro tag children o hrule ih hfree
    rw [rewrite_singleton, rewriteNode]
    cases hrule with
    | bare hks hbare hcontent =>
      rw [if_pos ((isUnwrapped_iff hks).2 hbare)]
      exact Inflates.wrapContent (ih children _ (Nat.le_refl _) hcontent hfree.children) _ _
    | wrapped hks hbare hown =>
      rw [if_neg (fun h => hbare ((isUnwrapped_iff hks).1 h))]
      exact Inflates.wrap (Inflates.own hword hfree ih hown) _

/-! ### There is one inflation -/

/-- With a class that is one word, the groups are as many as the targets. -/
theorem Inflates.length_groups (hword : IsWord c.config.targetClass) {ns out : List Node}
    {gs : List (List Instruction)} (h : c.Inflates ns gs out) :
    gs.length = (targets c.config.targetClass ns).length := by
  induction h with
  | nil => rfl
  | @leaf n ns out gs hn _ ih =>
    cases n with
    | element tag kids => cases hn
    | text value span => exact ih
    | comment value span => exact ih
  | unmarked hclass _ _ ihkids ihns =>
    simp only [targets, tagsOf_element, hclass, Bool.false_eq_true, not_false_eq_true,
      List.filter_cons_of_neg, List.filter_append, List.length_append] at ihkids ihns ⊢
    omega
  | marked hmay _ _ _ ihkids ihns =>
    have hclass := hmay.resolve_right hword.1
    simp only [targets, tagsOf_element, hclass, List.filter_cons_of_pos, List.filter_append,
      List.length_cons, List.length_append] at ihkids ihns ⊢
    omega
  | controller _ _ _ ihns =>
    rw [targets_marker hword, List.length_cons, List.length_cons, ihns]

/-- What the inflation of an element can be. -/
theorem Inflates.element_inv {tag : Tag} {kids ns out : List Node} {gs : List (List Instruction)}
    (h : c.Inflates (.element tag kids :: ns) gs out) :
    (tag.hasClass c.config.targetClass = false ∧ ∃ gs₁ gs₂ kids' out', gs = gs₁ ++ gs₂ ∧
      out = .element tag kids' :: out' ∧ c.Inflates kids gs₁ kids' ∧ c.Inflates ns gs₂ out') ∨
    (c.MayOwn tag ∧ ∃ group gs₁ gs₂ kids' out', isControllerGroup group = false ∧
      gs = group :: (gs₁ ++ gs₂) ∧ out = .element tag kids' :: out' ∧ c.Inflates kids gs₁ kids' ∧
      c.Inflates ns gs₂ out') ∨
    (.element tag kids = c.marker ∧ ∃ res d is link gs' body out',
      gs = [.hydrateTemplateController res d is link] :: gs' ∧ out = body ++ out' ∧
      c.Inflates d.template.children d.groups body ∧ c.Inflates ns gs' out') := by
  generalize hms : Node.element tag kids :: ns = ms at h
  cases h with
  | nil => cases hms
  | leaf hn =>
    cases hms
    cases hn
  | unmarked hclass hkids hns =>
    cases hms
    exact Or.inl ⟨hclass, _, _, _, _, rfl, rfl, hkids, hns⟩
  | marked hmay hgroup hkids hns =>
    cases hms
    exact Or.inr (Or.inl ⟨hmay, _, _, _, _, _, hgroup, rfl, rfl, hkids, hns⟩)
  | controller hbody hns =>
    obtain ⟨hmarker, rfl⟩ := List.cons.inj hms
    exact Or.inr (Or.inr ⟨hmarker, _, _, _, _, _, _, _, rfl, rfl, hbody, hns⟩)

/-- The groups of the content and those of what follows are told apart by their number. -/
theorem Inflates.split_groups (hword : IsWord c.config.targetClass) {kids a b : List Node}
    {gs₁ gs₂ gs₁' gs₂' : List (List Instruction)} (h : c.Inflates kids gs₁ a)
    (h' : c.Inflates kids gs₁' b) (heq : gs₁ ++ gs₂ = gs₁' ++ gs₂') : gs₁ = gs₁' ∧ gs₂ = gs₂' :=
  List.append_inj heq ((h.length_groups hword).trans (h'.length_groups hword).symm)

/-- With a class that is one word, nodes with their groups inflate in one way only. -/
theorem Inflates.unique (hword : IsWord c.config.targetClass) {ns out : List Node}
    {gs : List (List Instruction)} (h : c.Inflates ns gs out) :
    ∀ {out' : List Node}, c.Inflates ns gs out' → out = out' := by
  -- The class tells which rule applies to an element, and the number of groups where its content ends.
  induction h with
  | nil =>
    intro out' h'
    cases h'
    rfl
  | @leaf n ns out gs hn _ ih =>
    intro out' h'
    cases n with
    | element tag kids => cases hn
    | text value span =>
      cases h' with
      | leaf _ h' => rw [ih h']
    | comment value span =>
      cases h' with
      | leaf _ h' => rw [ih h']
  | unmarked hclass hkids hns ihkids ihns =>
    intro out' h'
    rcases h'.element_inv with ⟨_, gs₁, gs₂, kids', rest, heq, rfl, hkids', hns'⟩ |
      ⟨hmay, _⟩ | ⟨hmarker, _⟩
    · obtain ⟨rfl, rfl⟩ := Inflates.split_groups hword hkids hkids' heq
      rw [ihkids hkids', ihns hns']
    · rw [hmay.resolve_right hword.1] at hclass
      cases hclass
    · -- A marker has the class.
      cases hmarker
      cases hclass.symm.trans (hasClass_markerTag hword)
  | marked hmay hgroup hkids hns ihkids ihns =>
    intro out' h'
    rcases h'.element_inv with ⟨hclass, _⟩ |
      ⟨_, group', gs₁, gs₂, kids', rest, _, heq, rfl, hkids', hns'⟩ |
      ⟨_, res, d, is, link, gs', body, rest, heq, rfl, _, _⟩
    · rw [hmay.resolve_right hword.1] at hclass
      cases hclass
    · obtain ⟨rfl, hgs⟩ := List.cons.inj heq
      obtain ⟨rfl, rfl⟩ := Inflates.split_groups hword hkids hkids' hgs
      rw [ihkids hkids', ihns hns']
    · obtain ⟨rfl, _⟩ := List.cons.inj heq
      -- The group of a controller is never one that an element keeps.
      cases hgroup
  | controller hbody hns ihbody ihns =>
    intro out' h'
    rw [marker_eq] at h'
    rcases h'.element_inv with ⟨hclass, _⟩ | ⟨_, group', gs₁, gs₂, kids', rest, hgroup, heq, _⟩ |
      ⟨_, res, d, is, link, gs', body, rest, heq, rfl, hbody', hns'⟩
    · rw [hasClass_markerTag hword] at hclass
      cases hclass
    · obtain ⟨rfl, _⟩ := List.cons.inj heq
      cases hgroup
    · cases heq
      rw [ihbody hbody', ihns hns']

/-- A compiled definition inflates to the source content as the compiler rewrites it in place, and, unless the
target class is empty so that no element can show which group it owns, to nothing else. -/
theorem definition_inflates_rewrite {c : Compiler} {root : Element} {d : Definition}
    (hspace : ∀ ch ∈ c.config.targetClass.toList, isWhiteSpace ch = false)
    (hstrip : c.config.stripBlankText = false) (hfree : ClassFree c.config.targetClass root.children)
    (h : c.definition root = .ok d) :
    c.Inflates d.template.children d.groups (c.rewrite root.children) ∧
      (c.config.targetClass ≠ "" →
        ∀ ns, c.Inflates d.template.children d.groups ns → ns = c.rewrite root.children) := by
  obtain ⟨content, hcontent, rfl⟩ := definition_eq_ok_iff.1 h
  have hinflates := inflates_nodes hstrip (fun hne => ⟨hne, hspace⟩) hfree hcontent
  refine ⟨hinflates, fun hne ns hns => ?_⟩
  exact Inflates.unique ⟨hne, hspace⟩ hns hinflates

/-- The theorem at a text beside an element with two controllers. -/
theorem definition_guardedText_inflates_rewrite :
    ∃ d, ({ resources := Registry.builtin.resolver } : Compiler).definition guardedText = .ok d ∧
      d.groups.length = 2 ∧
      ({ resources := Registry.builtin.resolver } : Compiler).Inflates d.template.children d.groups
        (({ resources := Registry.builtin.resolver } : Compiler).rewrite guardedText.children) ∧
      ∀ ns, ({ resources := Registry.builtin.resolver } : Compiler).Inflates d.template.children d.groups ns →
        ns = ({ resources := Registry.builtin.resolver } : Compiler).rewrite guardedText.children := by
  obtain ⟨d, hd, hlength⟩ := exists_eq_ok (f := fun d : Definition => d.groups.length) (b := 2)
    (x := ({ resources := Registry.builtin.resolver } : Compiler).definition guardedText)
    (by decide +kernel)
  obtain ⟨hinflates, hunique⟩ :=
    definition_inflates_rewrite (show IsWord "au" by decide +kernel).2 rfl (by decide +kernel) hd
  exact ⟨d, hd, hlength, hinflates, hunique (by decide)⟩

end Compiler

end ViewTemplate
