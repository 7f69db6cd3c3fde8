import ViewTemplate.Proofs.Compile.EachAttribute
import ViewTemplate.Proofs.Compile.Nesting
import ViewTemplate.Resource.Registry

/-!
# What a `let` element binds

Every attribute of a `let` element but one binds its value: as an expression under a command, and otherwise as text,
with interpolations or as it stands.  On any other element a command is one of the few that there are.  A `let`
element takes whatever follows the last period for a command, so text under a suffix that is none is read as an
expression, and refused if it is not one.

* `Compiler.LetSource` — what an attribute binds, for a given notion of command; `Compiler.LetOutput` — and what is
  made of the element.
* `letBinding_eq_ok_iff` — the binding of one attribute.
* `nodes_letElement` — a `let` element binds its attributes as if every suffix were a command; where all suffixes are,
  it binds them by their commands.
-/

namespace ViewTemplate

open ViewTemplate.Text ViewTemplate.Markup

namespace Compiler

/-- What a `let` element binds for an attribute, if the words that `isCommand` accepts are commands. -/
inductive LetSource (c : Compiler) (isCommand : String → Bool) (a : Attribute) : Expression → Prop where
  | expression {suffix : String} {e : Expression} : (splitCommand a.name).2 = some suffix →
      isCommand suffix = true → c.reader.source a.value .property = .ok e → LetSource c isCommand a e
  | interpolated {e : Expression} : (∀ suffix ∈ (splitCommand a.name).2, isCommand suffix = false) →
      c.reader.interpolation? a.value = .ok (some e) → LetSource c isCommand a e
  | literal : (∀ suffix ∈ (splitCommand a.name).2, isCommand suffix = false) →
      c.reader.interpolation? a.value = .ok none → LetSource c isCommand a (.string a.value)

/-- The binding of an attribute, under its name in camel case. -/
def LetBinds (c : Compiler) (isCommand : String → Bool) (a : Attribute) (i : Instruction) : Prop :=
  ∃ e, c.LetSource isCommand a e ∧ i = .letBinding (camelCase (targetName a.name)) e

/-- What takes the place of a `let` element: the element with its children as they are, and one group. -/
def LetOutput (c : Compiler) (isCommand : String → Bool) (tag : Tag) (children : List Node) (o : Output) : Prop :=
  ∃ is, List.Forall₂ (c.LetBinds isCommand) (boundAttributes tag.attributes) is ∧
    o = c.hosting tag [.hydrateLetElement is (tag.attributes.any (·.name = toViewModelName))] { nodes := children }

/-- Whether there is a command of this name. -/
def isKnownCommand (name : String) : Bool :=
  (Command.ofName? name).isSome

variable {c : Compiler}

/-- A `let` element takes every suffix for a command. -/
theorem letBinding_eq_ok_iff {a : Attribute} {i : Instruction} :
    c.letBinding a = .ok i ↔ c.LetBinds (fun _ => true) a i := by
  unfold letBinding LetBinds targetName
  -- Without a suffix the value is an interpolation or a literal, and with one it is an expression.
  rcases hsplit : splitCommand a.name with ⟨target, _ | suffix⟩
  · constructor
    · intro h
      obtain ⟨found, hfound, h⟩ := bind_eq_ok.1 h
      refine ⟨found.getD (.string a.value), ?_, (pure_eq_ok.1 h).symm⟩
      have hnone : ∀ suffix ∈ (splitCommand a.name).2, true = false := by
        rw [hsplit]
        exact nofun
      cases found with
      | none => exact .literal hnone hfound
      | some e => exact .interpolated hnone hfound
    · rintro ⟨e, hsource, rfl⟩
      cases hsource with
      | expression hsuffix _ _ =>
        rw [hsplit] at hsuffix
        cases hsuffix
      | interpolated _ hfound => exact bind_eq_ok.2 ⟨_, hfound, rfl⟩
      | literal _ hfound => exact bind_eq_ok.2 ⟨_, hfound, rfl⟩
  · have hmem : suffix ∈ (splitCommand a.name).2 := by rw [hsplit]; rfl
    constructor
    · intro h
      obtain ⟨e, he, h⟩ := bind_eq_ok.1 h
      exact ⟨e, .expression hmem rfl he, (pure_eq_ok.1 h).symm⟩
    · rintro ⟨e, hsource, rfl⟩
      refine bind_eq_ok.2 ⟨e, ?_, rfl⟩
      cases hsource with
      | expression _ _ he => exact he
      | interpolated hnone _ => cases hnone suffix hmem
      | literal hnone _ => cases hnone suffix hmem

/-- Two notions of command that agree on the suffix of an attribute agree on what it binds. -/
theorem LetSource.congr {isCommand isCommand' : String → Bool} {a : Attribute} {e : Expression}
    (h : ∀ suffix ∈ (splitCommand a.name).2, isCommand suffix = isCommand' suffix)
    (hsource : c.LetSource isCommand a e) : c.LetSource isCommand' a e := by
  have hnone (hfalse : ∀ suffix ∈ (splitCommand a.name).2, isCommand suffix = false) :
      ∀ suffix ∈ (splitCommand a.name).2, isCommand' suffix = false :=
    fun suffix hsuffix => (h suffix hsuffix).symm.trans (hfalse suffix hsuffix)
  cases hsource with
  | expression hsuffix hcommand he => exact .expression hsuffix ((h _ hsuffix).symm.trans hcommand) he
  | interpolated hfalse hfound => exact .interpolated (hnone hfalse) hfound
  | literal hfalse hfound => exact .literal (hnone hfalse) hfound

/-- What a `let` is compiled to depends on the commands among its suffixes only. -/
theorem LetOutput.congr {isCommand isCommand' : String → Bool} {tag : Tag} {children : List Node} {o : Output}
    (h : ∀ a ∈ boundAttributes tag.attributes, ∀ suffix ∈ (splitCommand a.name).2,
      isCommand suffix = isCommand' suffix) (ho : c.LetOutput isCommand tag children o) :
    c.LetOutput isCommand' tag children o := by
  obtain ⟨is, his, rfl⟩ := ho
  refine ⟨is, ((List.forall₂_and_left _ _).2 ⟨h, his⟩).imp ?_, rfl⟩
  rintro a i ⟨ha, e, hsource, rfl⟩
  exact ⟨e, hsource.congr ha, rfl⟩

/-- The walk over a `let` element without controllers. -/
theorem node_let_eq_ok_iff {tag : Tag} (hlet : tag.name = "let")
    (hnone : ∀ a ∈ tag.attributes, c.controller? a = none) {children : List Node} {o : Output} :
    c.node (.element tag children) = .ok o ↔ c.LetOutput (fun _ => true) tag children o := by
  have hbinds (is : List Instruction) : c.letBindings tag.attributes = .ok is ↔
      List.Forall₂ (c.LetBinds fun _ => true) (boundAttributes tag.attributes) is := by
    rw [letBindings_eq_ok_iff]
    simp only [letBinding_eq_ok_iff]
  rw [node_eq_own hnone, own, if_pos hlet]
  constructor
  · intro h
    obtain ⟨group, hgroup, h⟩ := bind_eq_ok.1 h
    obtain ⟨is, his, hgroup⟩ := bind_eq_ok.1 hgroup
    obtain rfl := pure_eq_ok.1 hgroup
    exact ⟨is, (hbinds is).1 his, (pure_eq_ok.1 h).symm⟩
  · rintro ⟨is, his, rfl⟩
    exact bind_eq_ok.2 ⟨_, bind_eq_ok.2 ⟨is, (hbinds is).2 his, rfl⟩, rfl⟩

/-- A `let` element binds its attributes as if every suffix were a command.  Where every suffix is one, it binds them
by their commands: a value without a command is text, and fails only if its interpolations do. -/
theorem nodes_letElement {tag : Tag} (hlet : tag.name = "let")
    (hnone : ∀ a ∈ tag.attributes, c.controller? a = none) (children : List Node) :
    (∀ o, c.nodes [.element tag children] = .ok o ↔ c.LetOutput (fun _ => true) tag children o) ∧
    ((∀ a ∈ boundAttributes tag.attributes, ∀ suffix ∈ (splitCommand a.name).2, isKnownCommand suffix = true) →
      ∀ o, c.nodes [.element tag children] = .ok o ↔ c.LetOutput isKnownCommand tag children o) := by
  have hall (o : Output) : c.nodes [.element tag children] = .ok o ↔ c.LetOutput (fun _ => true) tag children o := by
    rw [nodes_singleton]
    exact node_let_eq_ok_iff hlet hnone
  refine ⟨hall, fun hknown o => (hall o).trans ⟨LetOutput.congr ?_, LetOutput.congr hknown⟩⟩
  exact fun a ha suffix hsuffix => (hknown a ha suffix hsuffix).symm

/-- A `let` element with an expression under a command, text with interpolations, and text. -/
def namesTag : Tag :=
  { name := "let",
    attributes := [⟨"foo.bind", "bar", {}, none⟩, ⟨"full-name", "$\x7bfirst\x7d $\x7blast\x7d", {}, none⟩,
      ⟨"to-view-model", "", {}, none⟩, ⟨"plain", "no expression", {}, none⟩] }

/-- The theorem at a `let` with a command, a text with interpolations, and texts. -/
theorem nodes_letElement_namesTag :
    namesTag.name = "let" ∧
    (∀ a ∈ namesTag.attributes, controller? { resources := Registry.builtin.resolver } a = none) ∧
    (∀ a ∈ boundAttributes namesTag.attributes, ∀ suffix ∈ (splitCommand a.name).2, isKnownCommand suffix = true) ∧
    ∃ o, ({ resources := Registry.builtin.resolver } : Compiler).nodes [.element namesTag []] = .ok o ∧
      o.groups.flatten.map (fun i => (i.kind, i.inner.length)) = [("hydrateLetElement", 3)] ∧
      LetOutput { resources := Registry.builtin.resolver } isKnownCommand namesTag [] o := by
  have hnone : ∀ a ∈ namesTag.attributes, controller? { resources := Registry.builtin.resolver } a = none :=
    controller?_eq_none_of_all (by decide +kernel)
  have hknown : ∀ a ∈ boundAttributes namesTag.attributes, ∀ suffix ∈ (splitCommand a.name).2,
      isKnownCommand suffix = true := by decide +kernel
  obtain ⟨o, ho, hinner⟩ := exists_eq_ok
    (f := fun o : Output => o.groups.flatten.map fun i => (i.kind, i.inner.length))
    (b := [("hydrateLetElement", 3)])
    (x := ({ resources := Registry.builtin.resolver } : Compiler).nodes [.element namesTag []]) (by decide +kernel)
  exact ⟨rfl, hnone, hknown, o, ho, hinner, ((nodes_letElement rfl hnone []).2 hknown o).1 ho⟩

/-- The element `<let foo.qux="a b">`. -/
def suffixedTag : Tag :=
  { name := "let", attributes := [⟨"foo.qux", "a b", {}, none⟩] }

/-- Text under a suffix that is no command is refused: it is not bound as it stands. -/
theorem nodes_suffixedTag :
    ¬ ∀ (c : Compiler) (tag : Tag) (children : List Node), tag.name = "let" →
      (∀ a ∈ tag.attributes, c.controller? a = none) →
      ∀ o, c.nodes [.element tag children] = .ok o ↔ c.LetOutput isKnownCommand tag children o := by
  intro hclaim
  have hnone : ∀ a ∈ suffixedTag.attributes, controller? { resources := Registry.builtin.resolver } a = none :=
    controller?_eq_none_of_all (by decide +kernel)
  have hfails : (({ resources := Registry.builtin.resolver } : Compiler).nodes
      [.element suffixedTag []]).toOption.isSome = false := by decide +kernel
  have htext : ExpressionReader.interpolation? ExpressionReader.standard "a b" = .ok none := by
    have hmark : hasInterpolation "a b" = false := by decide
    simp [ExpressionReader.interpolation?, ExpressionReader.standard, Expression.readInterpolation, hmark]
  have hbinds : LetBinds { resources := Registry.builtin.resolver } isKnownCommand ⟨"foo.qux", "a b", {}, none⟩
      (.letBinding (camelCase (targetName "foo.qux")) (.string "a b")) :=
    ⟨_, .literal (by decide +kernel) htext, rfl⟩
  have hok := (hclaim _ suffixedTag [] rfl hnone _).2 ⟨_, .cons hbinds .nil, rfl⟩
  rw [hok] at hfails
  cases hfails

end Compiler

end ViewTemplate
