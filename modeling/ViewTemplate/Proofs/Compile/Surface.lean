import ViewTemplate.Proofs.Markup.Elements
import ViewTemplate.Proofs.Markup.Restoring

/-!
# Targets on the surface

A definition is handed on as the HTML of its root.  Reading that gives the elements of the definition back, and
so one target for each group, where the source is portable: no marker has to stand in the content of an element
that holds no markup, no such content ends its element when it is written as it is, nothing refers to NUL, and
no element ends the one it stands in.

* `Portable` — the sources whose compiled markup is read back.
* `Compiler.SurfaceOutput` — what every result of the walk keeps; `Compiler.surfaceOutput_nodes`.
* `Compiler.compile_html_targets` — the targets that are read from the HTML of a definition.
-/

namespace ViewTemplate

open ViewTemplate.Text ViewTemplate.Markup

namespace Markup

/-! ### Portable sources -/

mutual

/-- A node whose elements are read back once it has been compiled, where the texts that stay are given.  The
content of a `let` stays as a whole. -/
def Node.Portable (stays : String → Bool) : Node → Prop
  | .text value _ => '\x00' ∉ value.toList
  | .comment _ _ => True
  | .element tag children =>
    let rules := TagRules.html tag.name
    (∀ a ∈ tag.attributes, '\x00' ∉ a.value.toList) ∧ KeepsOpen rules children ∧
      (rules.content ≠ .parsable → ∀ n ∈ children, ∀ value ∈ n.text?,
        stays value = true ∧ HoldsNoEndTag tag.name value.toList) ∧
      Portable (if tag.name = "let" then fun _ => true else stays) children

/-- Nodes whose elements are read back once they have been compiled. -/
def Portable (stays : String → Bool) : List Node → Prop
  | [] => True
  | n :: ns => n.Portable stays ∧ Portable stays ns

end

mutual

/-- Whether a node is portable can be decided. -/
def Node.decidablePortable (stays : String → Bool) : (n : Node) → Decidable (n.Portable stays)
  | .text value _ => inferInstanceAs (Decidable ('\x00' ∉ value.toList))
  | .comment _ _ => .isTrue trivial
  | .element tag children =>
    haveI := decidablePortable (if tag.name = "let" then fun _ => true else stays) children
    inferInstanceAs (Decidable (_ ∧ _ ∧ _ ∧ _))

/-- Whether nodes are portable can be decided. -/
def decidablePortable (stays : String → Bool) : (ns : List Node) → Decidable (Portable stays ns)
  | [] => .isTrue trivial
  | n :: ns =>
    haveI := n.decidablePortable stays
    haveI := decidablePortable stays ns
    inferInstanceAs (Decidable (_ ∧ _))

end

instance (stays : String → Bool) (ns : List Node) : Decidable (Portable stays ns) :=
  decidablePortable stays ns

/-- Nodes are portable exactly if each of them is. -/
theorem portable_iff {stays : String → Bool} {ns : List Node} :
    Portable stays ns ↔ ∀ n ∈ ns, n.Portable stays := by
  induction ns with
  | nil => simp [Portable]
  | cons n ns ih => rw [Portable, ih, List.forall_mem_cons]

mutual

/-- A node that was read can be written, if it is portable. -/
theorem Node.Sound.writable {stays : String → Bool} : {n : Node} → n.Sound → n.Portable stays → n.Writable
  | .text _ _, _, hvalue => hvalue
  | .comment _ _, h, _ => h
  | .element tag children, ⟨htag, hvoid, hraw, hchildren⟩, ⟨hvalues, hopen, hstays, hportable⟩ => by
    refine ⟨htag, hvalues, hvoid, hopen, fun hcontent => ⟨(hraw hcontent).1, ?_⟩, hchildren.writable hportable⟩
    refine holdsNoEndTag_renderAll (hraw hcontent).1 hchildren.head?_apart ?_
    intro n hn value hvalue
    exact (hstays hcontent n hn value hvalue).2

/-- Nodes that were read can be written, if they are portable. -/
theorem Sound.writable {stays : String → Bool} : {ns : List Node} → Sound ns → Portable stays ns → Writable ns
  | [], _, _ => trivial
  | _ :: _, ⟨hn, _, hns⟩, ⟨hn', hns'⟩ => ⟨hn.writable hn', hns.writable hns'⟩

end

/-! ### Names of children -/

/-- The names of the elements among the nodes. -/
def childNames (ns : List Node) : List String :=
  ns.filterMap fun n => n.tag?.map (·.name)

/-- Whether children end their parent depends on the names of the elements among them only. -/
theorem keepsOpen_iff {rules : TagRules} {ns : List Node} :
    KeepsOpen rules ns ↔ ∀ name ∈ childNames ns, rules.isClosedByChild name = false := by
  simp only [KeepsOpen, childNames, List.mem_filterMap, Option.map_eq_some_iff, Option.mem_def]
  constructor
  · rintro h name ⟨n, hn, t, ht, rfl⟩
    exact h n hn t ht
  · intro h n hn t ht
    exact h t.name ⟨n, hn, t, ht, rfl⟩

/-- The names of children that are put together. -/
theorem childNames_append (ms ns : List Node) : childNames (ms ++ ns) = childNames ms ++ childNames ns :=
  List.filterMap_append

/-- No element that may have content ends before an element of a name that no rule mentions. -/
theorem isClosedByChild_auM {name : String} (h : (TagRules.html name).isVoid = false) :
    (TagRules.html name).isClosedByChild "au-m" = false := by
  have hlower : lowerCase "au-m" = "au-m" := by decide +kernel
  have hspecial {name : String} {rules : TagRules} (hrules : TagRules.special? name = some rules) :
      "au-m" ∉ rules.closedByChildren := by
    unfold TagRules.special? at hrules
    split at hrules
    case h_19 =>
      split at hrules <;> cases hrules
      simp [TagRules.void, TagRules.withVoid, TagRules.standard]
    all_goals
      cases hrules
      simp [TagRules.endingBefore, TagRules.paragraphClosers, TagRules.standard]
  have hnames : "au-m" ∉ (TagRules.html name).closedByChildren := by
    unfold TagRules.html
    split
    · next hrules => exact hspecial hrules
    · dsimp only
      split
      · next hrules => exact hspecial hrules
      · split <;> simp [TagRules.standard]
  rw [TagRules.isClosedByChild, h, hlower, Bool.false_or]
  simpa using hnames

/-- A `template` around writable nodes is writable. -/
theorem writable_template {root : Tag} {ns : List Node} (htag : IsTag root)
    (hvalues : ∀ a ∈ root.attributes, '\x00' ∉ a.value.toList) (hname : root.name = "template")
    (hns : Writable ns) : Writable [.element root ns] := by
  have hrules : TagRules.html root.name = TagRules.standard := hname ▸ html_template
  refine ⟨⟨htag, hvalues, ?_, ?_, ?_, hns⟩, trivial⟩
  · intro hvoid
    rw [hrules] at hvoid
    cases hvoid
  · rw [hrules]
    exact fun _ _ _ _ => rfl
  · intro hcontent
    rw [hrules] at hcontent
    exact absurd rfl hcontent

end Markup

namespace Compiler

variable {c : Compiler}

/-! ### Tags -/

/-- Whether the text stays as it is: it has no interpolation. -/
def stays (c : Compiler) (value : String) : Bool :=
  match c.reader.interpolation? value with
  | .ok (some _) => false
  | _ => true

/-- A tag that is read back where it is written. -/
def IsWritableTag (tag : Tag) : Prop :=
  IsTag tag ∧ ∀ a ∈ tag.attributes, '\x00' ∉ a.value.toList

/-- A tag that can be written can be so with fewer attributes. -/
theorem IsWritableTag.filter {tag : Tag} (h : IsWritableTag tag) (p : Attribute → Bool) :
    IsWritableTag { tag with attributes := tag.attributes.filter p } :=
  ⟨⟨h.1.name, fun a ha => h.1.attributes a (List.mem_of_mem_filter ha)⟩,
    fun a ha => h.2 a (List.mem_of_mem_filter ha)⟩

/-- Adding a class puts in a blank and its own characters only. -/
theorem mem_addClassName {cls value : String} {d : Char} (h : d ∈ (addClassName cls value).toList) :
    d ∈ value.toList ∨ d = ' ' ∨ d ∈ cls.toList := by
  unfold addClassName at h
  split at h
  · exact .inl h
  · split at h
    · exact .inr (.inr h)
    · rw [String.toList_append, String.toList_append, List.mem_append, List.mem_append] at h
      rcases h with (h | h) | h
      · left
        rw [trimEnd, String.toList_ofList, trimEndChars, List.mem_reverse] at h
        exact List.mem_reverse.1 ((List.dropWhile_sublist _).subset h)
      · exact .inr (.inl (by simpa using h))
      · exact .inr (.inr h)

/-- What holds of the attributes, of a new class and of a value with the class added holds after adding it. -/
theorem forall_mem_addClassTo {p : Attribute → Prop} {cls : String} (hnew : p { name := "class", value := cls })
    (hadd : ∀ a, p a → p { a with value := addClassName cls a.value }) : {as : List Attribute} →
    (∀ a ∈ as, p a) → ∀ a ∈ addClassTo cls as, p a
  | [], _ => List.forall_mem_singleton.2 hnew
  | a :: as, h => by
    obtain ⟨ha, has⟩ := List.forall_mem_cons.1 h
    unfold addClassTo
    split
    · exact List.forall_mem_cons.2 ⟨hadd a ha, has⟩
    · exact List.forall_mem_cons.2 ⟨ha, forall_mem_addClassTo hnew hadd has⟩

/-- An attribute named `class` can be written. -/
theorem isAttributeName_class : IsAttributeName "class" := by
  decide +kernel

/-- A tag that can be written can be so with a class added. -/
theorem IsWritableTag.addClass {tag : Tag} (h : IsWritableTag tag) {cls : String} (hcls : '\x00' ∉ cls.toList) :
    IsWritableTag (tag.addClass cls) := by
  refine ⟨⟨h.1.name, ?_⟩, ?_⟩
  · exact forall_mem_addClassTo (p := fun a => IsAttributeName a.name) isAttributeName_class (fun _ ha => ha)
      h.1.attributes
  · refine forall_mem_addClassTo (p := fun a => '\x00' ∉ a.value.toList) hcls (fun a ha hmem => ?_) h.2
    rcases mem_addClassName hmem with hmem | hmem | hmem
    · exact ha hmem
    · cases hmem
    · exact hcls hmem

/-! ### Results on the surface -/

/-- A definition whose elements are read back from its HTML. -/
def WritableDefinition (d : Definition) : Prop :=
  Writable [.element d.template.toTag d.template.children] ∧ d.template.name = "template"

/-- What every result of the walk keeps: its nodes are writable, their elements have the names of the elements
they came from, or that of a marker, and its groups hold definitions that are writable everywhere. -/
structure SurfaceOutput (c : Compiler) (ns : List Node) (o : Output) : Prop where
  writable : Writable o.nodes
  names : ∀ name ∈ childNames o.nodes, name = c.config.markerTag ∨ name ∈ childNames ns
  held : ∀ group ∈ o.groups, ∀ i ∈ group, ∀ d, i.Holds d → d.Everywhere WritableDefinition

/-- Results that keep to the surface do so one after the other. -/
theorem SurfaceOutput.append {ms ns : List Node} {a b : Output} (ha : c.SurfaceOutput ms a)
    (hb : c.SurfaceOutput ns b) : c.SurfaceOutput (ms ++ ns) (a.append b) := by
  refine ⟨writable_append.2 ⟨ha.writable, hb.writable⟩, fun name hname => ?_, fun group hgroup => ?_⟩
  · rw [childNames_append, List.mem_append]
    have hname' : name ∈ childNames a.nodes ∨ name ∈ childNames b.nodes := by
      rwa [← List.mem_append, ← childNames_append]
    rcases hname' with hname | hname
    · exact (ha.names name hname).imp_right .inl
    · exact (hb.names name hname).imp_right .inr
  · exact (List.mem_append.1 hgroup).elim (ha.held group) (hb.held group)

/-- Nodes that stay as they are. -/
theorem SurfaceOutput.of_writable {ns : List Node} (h : Writable ns) : c.SurfaceOutput ns { nodes := ns } :=
  ⟨h, fun _ hname => .inr hname, by simp⟩

/-- The definition of such a result is writable everywhere, under the root of a `template`. -/
theorem SurfaceOutput.definition {ns : List Node} {o : Output} (h : c.SurfaceOutput ns o) {root : Tag}
    (hroot : IsWritableTag root) (hname : root.name = "template") :
    (o.definition root).Everywhere WritableDefinition :=
  Definition.everywhere_of_held ⟨writable_template hroot.1 hroot.2 hname h.writable, hname⟩ h.held
    (by simp [Output.definition])

/-- The tag of a root that was not written can be written. -/
theorem isWritableTag_templateTag : IsWritableTag templateTag :=
  ⟨by decide +kernel, nofun⟩

/-- Texts that stay are compiled to themselves. -/
theorem nodes_of_stays (hstrip : c.config.stripBlankText = false) : (ns : List Node) →
    (∀ n ∈ ns, n.isText = true) → (∀ n ∈ ns, ∀ value ∈ n.text?, c.stays value = true) →
    ∀ {o : Output}, c.nodes ns = .ok o → o.nodes = ns
  | [], _, _, o, h => by
    rw [nodes] at h
    cases h
    rfl
  | n :: ns, htexts, hstays, o, h => by
    obtain ⟨first, others, hfirst, hothers, rfl⟩ := nodes_cons_eq_ok_iff.1 h
    obtain ⟨hn, htexts⟩ := List.forall_mem_cons.1 htexts
    obtain ⟨hvalue, hstays⟩ := List.forall_mem_cons.1 hstays
    have hrest := nodes_of_stays hstrip ns htexts hstays hothers
    cases n with
    | comment value span => cases hn
    | element tag children => cases hn
    | text value span =>
      have hvalue := hvalue value rfl
      rw [node, text, hstrip, Bool.false_and, if_neg Bool.false_ne_true] at hfirst
      obtain ⟨e, he, hfirst⟩ := bind_eq_ok.1 hfirst
      cases e with
      | some e =>
        rw [stays, he] at hvalue
        cases hvalue
      | none =>
        cases pure_eq_ok.1 hfirst
        show .text value span :: others.nodes = _
        rw [hrest]

section

variable (hconfig : c.config = {})
include hconfig

/-- A marker can be written. -/
theorem writable_marker : Writable [c.marker] := by
  have hmarker : c.marker = .element ⟨"au-m", [⟨"class", "au", {}, none⟩], false, false, {}, {}, none⟩ [] := by
    simp [marker, hconfig]
  have hrules : (TagRules.html "au-m").content = .parsable := by decide +kernel
  have htag : IsTag ⟨"au-m", [⟨"class", "au", {}, none⟩], false, false, {}, {}, none⟩ := by decide +kernel
  rw [hmarker]
  exact ⟨⟨htag, by simp, fun _ => rfl, nofun, fun hcontent => absurd hrules hcontent, trivial⟩, trivial⟩

/-- A definition that holds nothing but a marker is writable. -/
theorem writableDefinition_control (k : Controller) (d : Definition) :
    WritableDefinition ((c.control k d).definition templateTag) :=
  ⟨writable_template isWritableTag_templateTag.1 isWritableTag_templateTag.2 rfl (writable_marker hconfig), rfl⟩

/-- A marker keeps to the surface, if what its controller holds is writable everywhere. -/
theorem SurfaceOutput.control {ns : List Node} {k : Controller} {d : Definition}
    (hk : ∀ i ∈ k.instructions, i.isBinding = true) (hd : d.Everywhere WritableDefinition) :
    c.SurfaceOutput ns (c.control k d) :=
  ⟨writable_marker hconfig, fun _ hname => .inl (List.mem_singleton.1 hname), held_control hk hd⟩

/-- A result keeps to the surface when controllers are put around it. -/
theorem SurfaceOutput.wrap {ns : List Node} {o : Output} (ho : c.SurfaceOutput ns o) :
    (ks : List Controller) → (∀ k ∈ ks, ∀ i ∈ k.instructions, i.isBinding = true) →
      c.SurfaceOutput ns (c.wrap ks o)
  | [], _ => ho
  | k :: ks, hks => by
    have hown := ho.definition isWritableTag_templateTag rfl
    have hnest := everywhere_nest (writableDefinition_control hconfig) hown ks
      fun k hk => hks k (List.mem_cons_of_mem _ hk)
    exact SurfaceOutput.control hconfig (hks k List.mem_cons_self) hnest

/-- Content keeps to the surface when it becomes that of the innermost controller. -/
theorem SurfaceOutput.wrapContent {ms ns : List Node} {o : Output} (ho : c.SurfaceOutput ms o) {host : Tag}
    (hhost : IsWritableTag host) (hname : host.name = "template") : (ks : List Controller) → ks ≠ [] →
    (∀ k ∈ ks, ∀ i ∈ k.instructions, i.isBinding = true) → c.SurfaceOutput ns (c.wrapContent ks host o)
  | k :: ks, _, hks => by
    have hnest := everywhere_nest (writableDefinition_control hconfig) (ho.definition hhost hname) ks
      fun k hk => hks k (List.mem_cons_of_mem _ hk)
    exact SurfaceOutput.control hconfig (hks k List.mem_cons_self) hnest

/-- A tag that can be written can be so when it is marked. -/
theorem IsWritableTag.mark {host : Tag} (h : IsWritableTag host) (group : List Instruction) :
    IsWritableTag (c.mark host group) := by
  unfold Compiler.mark
  split
  · exact h
  · exact h.addClass (by rw [hconfig]; decide)

omit hconfig in
/-- A mark leaves the name of the tag. -/
theorem name_mark (host : Tag) (group : List Instruction) : (c.mark host group).name = host.name := by
  unfold Compiler.mark
  split <;> rfl

/-- An element around content that it may have, with the children that the content came from. -/
theorem SurfaceOutput.hosting {tag host : Tag} {kids children : List Node} {group : List Instruction}
    {content : Output} (hname : host.name = tag.name) (hhost : IsWritableTag host)
    (hvoid : (TagRules.html host.name).isVoid = true → content.nodes = [])
    (hopen : KeepsOpen (TagRules.html host.name) children)
    (hraw : (TagRules.html host.name).content ≠ .parsable → (∀ n ∈ content.nodes, n.isText = true) ∧
      HoldsNoEndTag host.name (renderAll true content.nodes).toList)
    (hheld : ∀ i ∈ group, ∀ d, i.Holds d → d.Everywhere WritableDefinition)
    (hcontent : c.SurfaceOutput children content) :
    c.SurfaceOutput [.element tag kids] (c.hosting host group content) := by
  have hmark := IsWritableTag.mark hconfig hhost group
  have hkeeps : KeepsOpen (TagRules.html host.name) content.nodes := by
    rw [keepsOpen_iff]
    intro name hmem
    by_cases hisVoid : (TagRules.html host.name).isVoid = true
    · rw [hvoid hisVoid] at hmem
      cases hmem
    · -- A marker may stand in every element, and the names of the other children are those of the source.
      rcases hcontent.names name hmem with rfl | hmem
      · rw [hconfig]
        exact isClosedByChild_auM (Bool.not_eq_true _ ▸ hisVoid)
      · exact keepsOpen_iff.1 hopen name hmem
  refine ⟨?_, fun name hmem => ?_, fun group' hgroup => ?_⟩
  · show Writable [.element (c.mark host group) content.nodes]
    refine ⟨⟨hmark.1, hmark.2, ?_⟩, trivial⟩
    rw [name_mark]
    exact ⟨hvoid, hkeeps, hraw, hcontent.writable⟩
  · right
    have heq : name = (c.mark host group).name := List.mem_singleton.1 hmem
    rw [heq, name_mark, hname]
    exact List.mem_singleton_self _
  · rcases List.mem_append.1 hgroup with hgroup | hgroup
    · unfold groupsOf at hgroup
      split at hgroup
      · cases hgroup
      · rw [List.mem_singleton.1 hgroup]
        exact hheld
    · exact hcontent.held group' hgroup

/-- A text that is compiled keeps to the surface. -/
theorem SurfaceOutput.text {value : String} {span : Source.Span} {o : Output}
    (hvalue : '\x00' ∉ value.toList) (h : c.text value span = .ok o) :
    c.SurfaceOutput [.text value span] o := by
  rw [Compiler.text, hconfig, Bool.false_and, if_neg Bool.false_ne_true] at h
  obtain ⟨e, _, h⟩ := bind_eq_ok.1 h
  cases e with
  | none =>
    cases pure_eq_ok.1 h
    exact .of_writable ⟨hvalue, trivial⟩
  | some e =>
    cases pure_eq_ok.1 h
    have hmarker := writable_marker hconfig
    refine ⟨⟨hmarker.1, by simp [Node.Writable], trivial⟩, fun name hname => ?_, ?_⟩
    · exact .inl (List.mem_singleton.1 hname)
    · intro group hgroup i hi d hd
      rw [List.mem_singleton.1 hgroup, List.mem_singleton] at hi
      subst hi
      cases hd with
      | inner hj => exact absurd hj List.not_mem_nil

end

/-! ### The walk -/

/-- A node of a portable source. -/
def Fit (c : Compiler) (n : Node) : Prop :=
  n.Sound ∧ n.Portable c.stays

/-- The content of an element that is no `let` comes from a portable source too. -/
theorem Fit.children {tag : Tag} {children : List Node} (h : c.Fit (.element tag children))
    (hname : tag.name ≠ "let") : ∀ n ∈ children, c.Fit n := by
  obtain ⟨⟨-, -, -, hsound⟩, ⟨-, -, -, hportable⟩⟩ := h
  rw [if_neg hname] at hportable
  intro n hn
  exact ⟨((sound_iff children).1 hsound).1 n hn, portable_iff.1 hportable n hn⟩

/-- The content of an element as it is compiled, from the children that are compiled. -/
theorem Fit.content {tag : Tag} {children kept : List Node} {content : Output} (hconfig : c.config = {})
    (h : c.Fit (.element tag children)) (hkept : kept.Sublist children)
    (hstay : (∀ n ∈ children, n.isText = true) → kept = children) (hcontent : c.nodes kept = .ok content) :
    ((TagRules.html tag.name).isVoid = true → content.nodes = []) ∧
      KeepsOpen (TagRules.html tag.name) kept ∧
      ((TagRules.html tag.name).content ≠ .parsable → (∀ n ∈ content.nodes, n.isText = true) ∧
        HoldsNoEndTag tag.name (renderAll true content.nodes).toList) := by
  obtain ⟨-, -, hvoid, hopen, hraw, -⟩ := h.1.writable h.2
  obtain ⟨-, ⟨-, -, hstays, -⟩⟩ := h
  refine ⟨fun hisVoid => ?_, fun n hn => hopen n (hkept.subset hn), fun hmodel => ?_⟩
  · rw [hvoid hisVoid, List.sublist_nil] at hkept
    rw [hkept, nodes] at hcontent
    cases hcontent
    rfl
  · obtain ⟨htexts, hend⟩ := hraw hmodel
    rw [hstay htexts] at hcontent
    have hsame := nodes_of_stays (by rw [hconfig]) children htexts
      (fun n hn value hvalue => (hstays hmodel n hn value hvalue).1) hcontent
    rw [hsame]
    exact ⟨htexts, hend⟩

/-- Texts are no parts, so all of them stay. -/
theorem keptChildren_of_isText {ns : List Node} (h : ∀ n ∈ ns, n.isText = true) : keptChildren ns = ns := by
  refine List.filter_eq_self.2 fun n hn => ?_
  rw [isPartNode, tag?_of_isText (h n hn)]
  rfl

/-- An element without controllers, around content that is on the surface. -/
theorem SurfaceOutput.own (hconfig : c.config = {}) {tag : Tag} {children : List Node} {o : Output}
    (hfit : c.Fit (.element tag children))
    (ih : ∀ ns content, workOf ns ≤ workOf children → c.nodes ns = .ok content →
      (∀ n ∈ ns, c.Fit n) → c.SurfaceOutput ns content)
    (h : OwnRule c (c.hostTag tag) children o) : c.SurfaceOutput [.element tag children] o := by
  have hwritable := hfit.1.writable hfit.2
  have hhost : IsWritableTag (c.hostTag tag) := IsWritableTag.filter ⟨hwritable.1, hwritable.2.1⟩ _
  cases h with
  | letElement hname hgroup =>
    obtain ⟨-, -, hvoid, hopen, hraw, hchildren⟩ := hwritable
    exact SurfaceOutput.hosting hconfig rfl hhost hvoid hopen hraw
      (fun i hi d hd => absurd hd (not_holds_letGroup hgroup hi)) (.of_writable hchildren)
  | plain hname hcustom hgroup hcontent =>
    obtain ⟨hvoid, hopen, hraw⟩ := hfit.content hconfig (List.Sublist.refl children) (fun _ => rfl) hcontent
    refine SurfaceOutput.hosting hconfig rfl hhost hvoid hopen hraw ?_
      (ih children _ (Nat.le_refl _) hcontent (hfit.children hname))
    intro i hi d hd
    obtain ⟨name, hmem⟩ := holds_elementGroup hgroup hi hd
    exact absurd hmem List.not_mem_nil
  | custom hname hcustom hparts hgroup hcontent =>
    obtain ⟨hvoid, hopen, hraw⟩ := hfit.content hconfig List.filter_sublist keptChildren_of_isText hcontent
    have hfits := hfit.children hname
    have hkept := ih _ _ (workOf_keptChildren_le children) hcontent
      fun n hn => hfits n (List.mem_of_mem_filter hn)
    refine SurfaceOutput.hosting hconfig rfl hhost hvoid hopen hraw ?_ ⟨hkept.writable, hkept.names, hkept.held⟩
    -- The definitions in the group are those of the parts, and each of them comes from a child.
    intro i hi d hd
    obtain ⟨name, hmem⟩ := holds_elementGroup hgroup hi hd
    rcases parts_eq_ok children hparts (name, d) hmem with
      hmem | ⟨n, hn, part, kids, content, rfl, hpart, hkids, rfl⟩
    · exact absurd hmem List.not_mem_nil
    · have hpartName : part.name = "template" := by
        rw [isPart, Bool.and_eq_true, Tag.isTemplate, decide_eq_true_eq] at hpart
        exact hpart.1
      have hpartFit := hfits _ hn
      have hpartWritable := hpartFit.1.writable hpartFit.2
      have hkidsFit := hpartFit.children (by rw [hpartName]; decide)
      exact (ih kids content (Nat.le_of_lt (workOf_lt_of_mem hn)) hkids hkidsFit).definition
        (IsWritableTag.filter ⟨hpartWritable.1, hpartWritable.2.1⟩ _) hpartName

/-- Every result of the walk over a portable source is on the surface. -/
theorem surfaceOutput_nodes (hconfig : c.config = {}) {ns : List Node} {o : Output}
    (hfit : ∀ n ∈ ns, c.Fit n) (h : c.nodes ns = .ok o) : c.SurfaceOutput ns o := by
  revert hfit
  refine nodes_induction (motive := fun ns o => (∀ n ∈ ns, c.Fit n) → c.SurfaceOutput ns o) ?_ ?_ ?_ ?_ ?_ h
  · intro _
    exact .of_writable trivial
  · intro n ns first others hfirst hothers hfit
    obtain ⟨hn, hns⟩ := List.forall_mem_cons.1 hfit
    exact (hfirst (List.forall_mem_singleton.2 hn)).append (hothers hns)
  · intro value span o h hfit
    exact SurfaceOutput.text hconfig (List.forall_mem_singleton.1 hfit).2 h
  · intro value span hfit
    exact .of_writable ⟨(List.forall_mem_singleton.1 hfit).1, trivial⟩
  · intro tag children o hrule ih hfit
    have hfit := List.forall_mem_singleton.1 hfit
    cases hrule with
    | bare hks hbare hcontent =>
      obtain ⟨hne, hisTemplate, -⟩ := hbare
      have hname : tag.name = "template" := of_decide_eq_true hisTemplate
      have hwritable := hfit.1.writable hfit.2
      have hchildren := hfit.children (by rw [hname]; decide)
      exact SurfaceOutput.wrapContent hconfig (ih children _ (Nat.le_refl _) hcontent hchildren)
        (IsWritableTag.filter ⟨hwritable.1, hwritable.2.1⟩ _) hname _ hne (isBinding_controllers _ hks)
    | wrapped hks hbare hown =>
      exact SurfaceOutput.wrap hconfig (SurfaceOutput.own hconfig hfit ih hown) _ (isBinding_controllers _ hks)

/-! ### Compiled sources -/

/-- The root of a portable source is a template with portable content. -/
theorem exists_root_fit {ns : List Node} (hsound : Sound ns) (hportable : Portable c.stays ns)
    (hfree : ClassFree "au" ns) : ∃ root : Element, c.compileNodes ns = c.compileRoot root ∧
      root.name = "template" ∧ (∀ n ∈ root.children, c.Fit n) ∧ ClassFree "au" root.children := by
  have hfit : ∀ n ∈ ns, c.Fit n := by
    intro n hn
    exact ⟨((sound_iff ns).1 hsound).1 n hn, portable_iff.1 hportable n hn⟩
  refine ⟨_, rfl, ?_⟩
  cases hsole : soleTemplate? ns with
  | none => exact ⟨rfl, hfit, hfree⟩
  | some root =>
    obtain ⟨hmem, hname⟩ := soleTemplate?_eq_some hsole
    have hroot : ClassFree "au" [.element root.toTag root.children] := hfree.mono fun t ht => mem_tagsOf hmem ht
    exact ⟨hname, (hfit _ hmem).children (by rw [hname]; decide), hroot.children⟩

/-- In a template that is compiled from portable content every definition is writable and aligned. -/
theorem everywhere_compileRoot (hconfig : c.config = {}) {root : Element} {d : Definition}
    (hname : root.name = "template") (hfit : ∀ n ∈ root.children, c.Fit n)
    (hfree : ClassFree "au" root.children) (h : c.compileRoot root = .ok d) :
    d.Everywhere WritableDefinition ∧ d.Everywhere c.AlignedDefinition := by
  obtain ⟨surrogates, content, hsurrogates, hcontent, rfl⟩ := compileRoot_eq_ok_iff.1 h
  have hbeside := isBeside_surrogates _ hsurrogates
  have hsurface := surfaceOutput_nodes hconfig hfit hcontent
  have hword : IsWord c.config.targetClass := by
    rw [hconfig]
    decide +kernel
  have haligned := alignedOutput_nodes hword (by rwa [hconfig]) hcontent
  have htag : IsTag { root.toTag with attributes := [] } := by
    refine ⟨?_, nofun⟩
    show IsTagName root.name
    rw [hname]
    decide +kernel
  have hroot := writable_template htag nofun hname hsurface.writable
  exact ⟨Definition.everywhere_of_held ⟨hroot, hname⟩ hsurface.held hbeside,
    Definition.everywhere_of_held haligned.toAligned haligned.held hbeside⟩

/-- What is read from the HTML of a writable definition. -/
theorem WritableDefinition.parse_html {d : Definition} (h : WritableDefinition d) (cls : String) :
    (parse d.html).faults = [] ∧ ∃ root children, (parse d.html).nodes = [.element root children] ∧
      root.name = "template" ∧
      (targets cls children).map Tag.bare =
        (targets cls d.template.children).map (Tag.bare ∘ Tag.unified) := by
  have hhtml : d.html = renderNodes [.element d.template.toTag d.template.children] := by
    rw [Definition.html, Element.render, Element.toNode, renderNodes, renderAll, renderAll, String.append_empty]
  obtain ⟨hnone, root, children, hnodes, hname, htags⟩ := h.1.parse_template h.2
  rw [hhtml]
  refine ⟨hnone, root, children, hnodes, hname, ?_⟩
  rw [map_targets fun t => hasClass_bare t cls, htags, map_targets]
  intro t
  rw [Function.comp, hasClass_bare, hasClass_unified]

/-- Reading the HTML of a compiled template, or of a definition nested in it at any depth, reports nothing and
gives a template; below it there are as many elements with the target class as there are groups, and they are
those of the definition, in the same order. -/
theorem compile_html_targets {c : Compiler} {source : String} {d : Definition} (hconfig : c.config = {})
    (hfree : ClassFree "au" (parse source).nodes) (hportable : Portable c.stays (parse source).nodes)
    (h : c.compile source = .ok d) :
    ∀ d' : Definition, d'.Within d → (parse d'.html).faults = [] ∧
      ∃ root children, (parse d'.html).nodes = [.element root children] ∧ root.name = "template" ∧
        (targets "au" children).length = d'.groups.length ∧
        (targets "au" children).map Tag.bare =
          (targets "au" d'.template.children).map (Tag.bare ∘ Tag.unified) := by
  have hfaults : (parse source).faults = [] := by
    by_contra hne
    rw [compile, if_neg (by simpa using hne)] at h
    cases h
  rw [compile, hfaults] at h
  obtain ⟨root, hroot, hname, hfit, hrootFree⟩ := exists_root_fit (sound_parse hfaults) hportable hfree
  obtain ⟨hwritable, haligned⟩ := everywhere_compileRoot hconfig hname hfit hrootFree (hroot ▸ h)
  intro d' hwithin
  obtain ⟨hnone, root, children, hnodes, hname, htargets⟩ := (hwritable d' hwithin).parse_html "au"
  refine ⟨hnone, root, children, hnodes, hname, ?_, htargets⟩
  have howns := (haligned d' hwithin).owns.length_eq
  rw [hconfig] at howns
  have hlength := congrArg List.length htargets
  rw [List.length_map, List.length_map] at hlength
  rw [hlength, howns]

-- Statements about the tree of a given source are not to be computed while they are elaborated.
attribute [irreducible] Portable

/-- A source with a controller, interpolations, elements that hold no markup, and a carriage return. -/
def mixedSource : String :=
  "<p if.bind=x>$\x7ba\x7d<textarea>&#13;</textarea></p><let><title>$\x7bz\x7d</title></let>"

/-- The theorem at a text and a `textarea` under a controller, beside a `let` around a `title`. -/
theorem compile_html_mixedSource_targets :
    ∃ d, ({ resources := Registry.builtin.resolver } : Compiler).compile mixedSource = .ok d ∧
      d.groups.length = 2 ∧
      ∀ d' : Definition, d'.Within d → (parse d'.html).faults = [] ∧
        ∃ root children, (parse d'.html).nodes = [.element root children] ∧ root.name = "template" ∧
          (targets "au" children).length = d'.groups.length ∧
          (targets "au" children).map Tag.bare =
            (targets "au" d'.template.children).map (Tag.bare ∘ Tag.unified) := by
  obtain ⟨d, hd, hlength⟩ := exists_eq_ok (f := fun d : Definition => d.groups.length) (b := 2)
    (x := ({ resources := Registry.builtin.resolver } : Compiler).compile mixedSource) (by decide +kernel)
  have hsource : ClassFree "au" (parse mixedSource).nodes ∧
      Portable (Compiler.stays { resources := Registry.builtin.resolver }) (parse mixedSource).nodes := by
    decide +kernel
  exact ⟨d, hd, hlength, compile_html_targets rfl hsource.1 hsource.2 hd⟩

/-- A source with an interpolation in an element that holds no markup. -/
def markedTextarea : String :=
  "<textarea>$\x7bx\x7d</textarea>"

/-- The marker of the interpolation is read as text: there is a group, and no target of it. -/
theorem compile_html_markedTextarea : ClassFree "au" (parse markedTextarea).nodes ∧
    ∃ d, ({ resources := Registry.builtin.resolver } : Compiler).compile markedTextarea = .ok d ∧
      d.html = "<template><textarea><au-m class=\"au\"></au-m></textarea></template>" ∧
      d.groups.length = 1 ∧ (targets "au" (parse d.html).nodes).length = 0 := by
  obtain ⟨d, hd, hread⟩ := exists_eq_ok
    (f := fun d : Definition => (d.html, d.groups.length, (targets "au" (parse d.html).nodes).length))
    (b := ("<template><textarea><au-m class=\"au\"></au-m></textarea></template>", 1, 0))
    (x := ({ resources := Registry.builtin.resolver } : Compiler).compile markedTextarea) (by decide +kernel)
  simp only [Prod.mk.injEq] at hread
  exact ⟨by decide +kernel, d, hd, hread⟩

end Compiler

end ViewTemplate
