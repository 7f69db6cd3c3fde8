import Mathlib.Data.List.Chain
import ViewTemplate.Proofs.Markup.Growth
import ViewTemplate.Proofs.Markup.Restoring

/-!
# Elements that end before a child

Some elements end before the start tag of a child that cannot stand in them.  A start tag is compared with
the innermost open element only.  If it ends that one, it is added to the element around it, whether or not
it ends that one as well.  So an element may have a child that ends it, but only behind an element that was
open until then; and in HTML this happens in option groups and in the sections of tables alone.

* `Admitted` — what stands among the children of an element, for any rules; `growth_admitted`.
* `lowerCase_mem_sectionNames` — which rules of HTML leave a child where it does not belong.
* `parse_endedByChild` — the children that end their parent, in the tree of any source.
-/

namespace ViewTemplate.Markup

open ViewTemplate.Source ViewTemplate.Text

/-! ### Children and the end of their parent -/

section

variable {rules : String → TagRules}

/-- The node is no element that ends the parent. -/
def StaysIn (rules : String → TagRules) (parent : Tag) (n : Node) : Prop :=
  ∀ c ∈ n.tag?, (rules parent.name).isClosedByChild c.name = false

/-- The first node is an element without an end tag that the second one ends. -/
def EndsBefore (rules : String → TagRules) (m n : Node) : Prop :=
  ∃ x ∈ m.tag?, x.endSpan = none ∧ (rules x.name).isVoid = false ∧
    ∃ c ∈ n.tag?, (rules x.name).isClosedByChild c.name = true

/-- A child that ends the parent directly follows an element that it ends. -/
def Admitted (rules : String → TagRules) (parent : Option Tag) (ns : List Node) : Prop :=
  ∀ t ∈ parent, (∀ n ∈ ns.head?, StaysIn rules t n) ∧
    ns.IsChain fun m n => StaysIn rules t n ∨ EndsBefore rules m n

/-- No children are admitted by any parent. -/
theorem admitted_nil (parent : Option Tag) : Admitted rules parent [] :=
  fun _ _ => ⟨nofun, .nil⟩

/-- One more child: it may stay in the parent, or follows one that it ends. -/
theorem admitted_concat {parent : Option Tag} {ns : List Node} {n : Node} :
    Admitted rules parent (ns ++ [n]) ↔ Admitted rules parent ns ∧
      ∀ t ∈ parent, StaysIn rules t n ∨ ∃ m ∈ ns.getLast?, EndsBefore rules m n := by
  unfold Admitted
  rw [← forall₂_and]
  refine forall₂_congr fun t _ => ?_
  rw [List.isChain_append]
  obtain rfl | ⟨init, m, rfl⟩ := List.eq_nil_or_concat ns
  · simp
  · simp only [List.concat_eq_append, List.head?_append, List.getLast?_append, List.getLast?_singleton]
    simp
    tauto

/-- The first of admitted children are admitted without the others. -/
theorem Admitted.left_of_append {parent : Option Tag} {ms ns : List Node}
    (h : Admitted rules parent (ms ++ ns)) : Admitted rules parent ms := by
  intro t ht
  obtain ⟨hhead, hchain⟩ := h t ht
  refine ⟨fun n hn => hhead n ?_, hchain.left_of_append⟩
  rw [List.head?_append, hn]
  rfl

/-- The text of a parent changes nothing for its elements. -/
theorem Admitted.appendText {parent : Option Tag} {ns : List Node} (h : Admitted rules parent ns)
    (value : String) (span : Span) : Admitted rules parent (Builder.appendText ns value span) := by
  unfold Builder.appendText
  split
  · next before place hlast =>
    obtain ⟨init, rfl⟩ := List.getLast?_eq_some_iff.1 hlast
    rw [List.dropLast_concat]
    exact admitted_concat.2 ⟨h.left_of_append, fun _ _ => .inl nofun⟩
  · exact admitted_concat.2 ⟨h, fun _ _ => .inl nofun⟩

/-- Children stay admitted as the tree grows. -/
theorem growth_admitted (rules : String → TagRules) (cs : List Char) :
    Growth rules cs fun _ => Admitted rules where
  later h _ := h
  text value h _ _ _ := h.appendText value _
  comment _ h _ _ _ := admitted_concat.2 ⟨h, fun _ _ => .inl nofun⟩
  element {p parent ns openSpan attributes stop name tag} h _ _ htag hstands := by
    refine admitted_concat.2 ⟨h, fun t ht => ?_⟩
    obtain hstays | ⟨x, ms, rfl, hend, hvoid, hcloses⟩ := hstands
    · left
      rintro _ ⟨⟩
      rw [htag.name]
      exact hstays t ht
    · right
      refine ⟨.element x [], List.getLast?_concat, x, rfl, hend, hvoid, tag, rfl, ?_⟩
      rwa [htag.name]
  childless _ _ := admitted_nil _
  ended {p parent ns tag span} h _ _ _ _ := by
    obtain ⟨hinit, hlast⟩ := admitted_concat.1 h
    refine admitted_concat.2 ⟨hinit, fun t ht => (hlast t ht).imp ?_ ?_⟩
    · rintro hstays _ ⟨⟩
      exact hstays tag rfl
    · rintro ⟨m, hm, x, hx, hend, hvoid, _, ⟨⟩, hcloses⟩
      exact ⟨m, hm, x, hx, hend, hvoid, tag.ended span, rfl, hcloses⟩
  complete {p ns tag span} h _ _ _ := by
    rintro _ ⟨⟩
    exact h tag rfl

/-- Each admitted child may stay in the parent, or comes right behind one that it ends. -/
theorem Admitted.getElem? {parent : Tag} {ns : List Node} (h : Admitted rules (some parent) ns) {i : Nat}
    {n : Node} (hn : ns[i]? = some n) :
    StaysIn rules parent n ∨ ∃ j, i = j + 1 ∧ ∃ m, ns[j]? = some m ∧ EndsBefore rules m n := by
  obtain ⟨hhead, hchain⟩ := h parent rfl
  cases i with
  | zero =>
    rw [← List.head?_eq_getElem?] at hn
    exact .inl (hhead n hn)
  | succ j =>
    obtain ⟨hj, rfl⟩ := List.getElem?_eq_some_iff.1 hn
    exact (List.isChain_iff_getElem.1 hchain j hj).imp_right fun hends =>
      ⟨j, rfl, ns[j], List.getElem?_eq_getElem _, hends⟩

/-- Before the first child that ends the parent stands one that does not, and which the child ends. -/
theorem Admitted.exists_first {parent : Tag} {ns : List Node} (h : Admitted rules (some parent) ns) :
    (∀ n ∈ ns, StaysIn rules parent n) ∨
      ∃ m n, StaysIn rules parent m ∧ EndsBefore rules m n ∧ ¬ StaysIn rules parent n := by
  induction ns using List.reverseRecOn with
  | nil => exact .inl nofun
  | append_singleton ns n ih =>
    obtain ⟨hns, hn⟩ := admitted_concat.1 h
    obtain hstay | hfirst := ih hns
    · by_cases hstays : StaysIn rules parent n
      · exact .inl (List.forall_mem_append.2 ⟨hstay, List.forall_mem_singleton.2 hstays⟩)
      · obtain ⟨m, hm, hends⟩ := (hn parent rfl).resolve_left hstays
        exact .inr ⟨m, n, hstay m (List.mem_of_mem_getLast? hm), hends, hstays⟩
    · exact .inr hfirst

end

/-! ### The rules of HTML -/

/-- The elements of HTML that end before some children. -/
def endedNames : List String :=
  ["p", "thead", "tbody", "tfoot", "tr", "td", "th", "li", "dt", "dd", "optgroup", "option"]

/-- The elements of HTML that a child may end which does not belong in them: option groups, and the
sections of tables. -/
def sectionNames : List String :=
  ["optgroup", "tbody", "tfoot", "thead"]

/-- The elements that some children end are few, and can be listed. -/
theorem special?_closedByChildren {name : String} {rules : TagRules} (h : TagRules.special? name = some rules)
    (hne : rules.closedByChildren ≠ []) : name ∈ endedNames := by
  unfold TagRules.special? at h
  split at h
  case h_19 =>
    split at h <;> cases h
    exact absurd rfl hne
  all_goals
    cases h
    first
    | decide
    | exact absurd rfl hne

/-- An element that ends before some children has the rules of its name in lower case. -/
theorem html_closedByChildren {name : String} (hne : (TagRules.html name).closedByChildren ≠ []) :
    lowerCase name ∈ endedNames ∧ TagRules.html name = TagRules.html (lowerCase name) := by
  have hlower : ∀ name ∈ endedNames, lowerCase name = name := by decide +kernel
  unfold TagRules.html at hne ⊢
  cases hname : TagRules.special? name with
  | some rules =>
    rw [hname] at hne
    have hmem := special?_closedByChildren hname hne
    rw [hlower name hmem, hname]
    exact ⟨hmem, rfl⟩
  | none =>
    rw [hname] at hne
    dsimp only at hne ⊢
    cases hlow : TagRules.special? (lowerCase name) with
    | some rules =>
      rw [hlow] at hne
      exact ⟨special?_closedByChildren hlow hne, rfl⟩
    | none =>
      rw [hlow] at hne
      split at hne
      · next hsome => cases hsome
      · split at hne <;> exact absurd rfl hne

/-- The child ends the parent and an element in it which does not end the parent. -/
theorem lowerCase_mem_sectionNames {parent inside child : String}
    (hparent : (TagRules.html parent).isClosedByChild child = true)
    (hstays : (TagRules.html parent).isClosedByChild inside = false)
    (hvoid : (TagRules.html inside).isVoid = false)
    (hinside : (TagRules.html inside).isClosedByChild child = true) : lowerCase parent ∈ sectionNames := by
  have hall : ∀ p ∈ endedNames, ∀ c ∈ (TagRules.html p).closedByChildren, ∀ x ∈ endedNames,
      x ∉ (TagRules.html p).closedByChildren → c ∈ (TagRules.html x).closedByChildren → p ∈ sectionNames := by
    decide +kernel
  simp only [TagRules.isClosedByChild, Bool.or_eq_false_iff, List.contains_eq_mem, decide_eq_false_iff_not]
    at hstays
  simp only [TagRules.isClosedByChild, hstays.1, hvoid, Bool.false_or, List.contains_eq_mem, decide_eq_true_eq]
    at hparent hinside
  obtain ⟨hp, hpRules⟩ := html_closedByChildren (List.ne_nil_of_mem hparent)
  obtain ⟨hx, hxRules⟩ := html_closedByChildren (List.ne_nil_of_mem hinside)
  rw [hpRules] at hparent hstays
  rw [hxRules] at hinside
  exact hall _ hp _ hparent _ hx hstays.2 hinside

/-! ### Whole sources -/

/-- An element without its content has the same tag. -/
theorem Node.tag?_shell (n : Node) : n.shell.tag? = n.tag? := by
  cases n <;> rfl

/-- An element of HTML with a child that ends it is an option group or a section of a table, and the child
directly follows an element that the child ends and that has no end tag: the builder closed that one alone. -/
theorem parse_endedByChild {source : String} {e : Element} {i : Nat} {child : Tag}
    (he : e ∈ elementsOf (parse source).nodes) (hchild : child ∈ e.children[i]?.bind Node.tag?)
    (hends : (TagRules.html e.name).isClosedByChild child.name = true) :
    lowerCase e.name ∈ sectionNames ∧ ∃ j, i = j + 1 ∧ ∃ x ∈ e.children[j]?.bind Node.tag?,
      x.endSpan = none ∧ (TagRules.html x.name).isVoid = false ∧
        (TagRules.html x.name).isClosedByChild child.name = true := by
  obtain ⟨-, hfamily⟩ := (growth_admitted TagRules.html (unifyLines source.toList)).family_parseWith
    (admitted_nil _)
  have hadmitted := hfamily.below e he
  obtain ⟨n, hn, htag⟩ := Option.bind_eq_some_iff.1 hchild
  have hshell : (e.children.map Node.shell)[i]? = some n.shell := by rw [List.getElem?_map, hn]; rfl
  have hout : ¬ StaysIn TagRules.html e.toTag n.shell := by
    intro hstays
    rw [hstays child (by rwa [Node.tag?_shell])] at hends
    cases hends
  constructor
  · obtain hstay | ⟨m, n, hm, ⟨x, hx, hend, hvoid, c, hc, hcloses⟩, hn⟩ := hadmitted.exists_first
    · exact absurd (hstay _ (List.mem_of_getElem? hshell)) hout
    · have hparent : (TagRules.html e.name).isClosedByChild c.name = true := by
        by_contra hstays
        refine hn fun c' hc' => ?_
        obtain rfl := Option.mem_unique hc hc'
        simpa using hstays
      exact lowerCase_mem_sectionNames hparent (hm x hx) hvoid hcloses
  · obtain ⟨j, rfl, m, hm, x, hx, hend, hvoid, c, hc, hcloses⟩ := (hadmitted.getElem? hshell).resolve_left hout
    rw [List.getElem?_map, Option.map_eq_some_iff] at hm
    obtain ⟨m, hm, rfl⟩ := hm
    rw [Node.tag?_shell] at hx hc
    obtain rfl := Option.mem_unique htag hc
    exact ⟨j, rfl, x, Option.bind_eq_some_iff.2 ⟨m, hm, hx⟩, hend, hvoid, hcloses⟩

/-- A group of options with a second group behind its first option. -/
def nestedGroups : String :=
  "<optgroup><option><optgroup>"

/-- The second group stands in the first one, behind the option that it ended. -/
theorem parse_nestedGroups_endedByChild :
    ∃ e ∈ elementsOf (parse nestedGroups).nodes, ∃ child ∈ e.children[1]?.bind Node.tag?,
      (TagRules.html e.name).isClosedByChild child.name = true ∧ lowerCase e.name ∈ sectionNames ∧
        ∃ x ∈ e.children[0]?.bind Node.tag?, (TagRules.html x.name).isClosedByChild child.name = true := by
  have hends : ∃ e ∈ elementsOf (parse nestedGroups).nodes, ∃ child ∈ e.children[1]?.bind Node.tag?,
      (TagRules.html e.name).isClosedByChild child.name = true := by
    decide +kernel
  obtain ⟨e, he, child, hchild, hends⟩ := hends
  obtain ⟨hname, j, hj, x, hx, -, -, hcloses⟩ := parse_endedByChild he hchild hends
  obtain rfl : j = 0 := by omega
  exact ⟨e, he, child, hchild, hends, hname, x, hx, hcloses⟩

/-- So an element of a tree does not always keep its children. -/
theorem not_keepsOpen_parse : ¬ ∀ source, ∀ e ∈ elementsOf (parse source).nodes,
    KeepsOpen (TagRules.html e.name) e.children := by
  intro h
  have hgroups : ¬ ∀ e ∈ elementsOf (parse nestedGroups).nodes,
      KeepsOpen (TagRules.html e.name) e.children := by
    decide +kernel
  exact hgroups (h nestedGroups)

end ViewTemplate.Markup
