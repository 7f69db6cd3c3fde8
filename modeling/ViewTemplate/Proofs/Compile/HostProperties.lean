import ViewTemplate.Proofs.Compile.EachAttribute
import ViewTemplate.Proofs.Compile.OptionLists

/-!
# Properties of the host

Some attributes belong to the host of a component alone, and a root that has one of them is refused.  The guard
compares whole names, while what an attribute writes to is its name without the command.  So a reserved property is
never set as it stands; it is bound to the host if the name has a command that binds properties, and it is
interpolated into if what follows the last period is no command.

* `Instruction.written?` — the property that an instruction sets, binds or puts text into.
* `WritesUnder` — what makes an attribute do so; `classify_written?` — and nothing else does.
* `surrogate_cases` — what one attribute of a root gives.
* `compileRoot_hostProperties` — the reserved properties that a root writes to, and by which attributes.
-/

namespace ViewTemplate

open ViewTemplate.Text ViewTemplate.Markup

/-- The property that the instruction sets, binds or puts text into. -/
def Instruction.written? : Instruction → Option String
  | .setProperty property _ | .propertyBinding property _ _ | .interpolation property _ => some property
  | _ => none

/-- Whether the instruction sets a property, to a value as it stands. -/
def Instruction.isSet : Instruction → Bool
  | .setProperty .. => true
  | _ => false

/-! ### Attributes that write to a property -/

/-- Under a command the value is that of a property, and otherwise it has interpolations. -/
def WritesUnder (reader : ExpressionReader) (suffix : Option String) (value : String) : Prop :=
  match suffix.bind Command.ofName? with
  | some command => command.valueKind = .property
  | none => ∃ e, reader value .interpolation = .ok (some e)

/-- A command writes a property exactly if its value is the source of a property binding. -/
theorem Command.written?_instruction {command : Command} {reader : ExpressionReader} {property value : String}
    {mode : BindingMode} {i : Instruction} (h : command.instruction reader property mode value = .ok i) :
    i.written? = (if command.valueKind = .property then some property else none) ∧ i.isSet = false := by
  cases command <;>
  · obtain ⟨e, -, h⟩ := bind_eq_ok.1 h
    cases pure_eq_ok.1 h
    exact ⟨rfl, rfl⟩

/-- To look for interpolations is to read the text as one, as far as results go. -/
theorem interpolation?_eq_ok_iff {reader : ExpressionReader} {value : String} {found : Option Expression} :
    reader.interpolation? value = .ok found ↔ reader value .interpolation = .ok found := by
  unfold ExpressionReader.interpolation?
  cases reader value .interpolation <;> simp

/-- The instruction of an attribute without a target of its own, if there is one, writes to what the name says. -/
theorem classify_written? {reader : ExpressionReader} {name value : String} {found : Option Instruction}
    (h : classify reader name value none false = .ok found) :
    (WritesUnder reader (splitCommand name).2 value ∧
      ∃ i, found = some i ∧ i.written? = some (targetName name) ∧ i.isSet = false) ∨
    (¬ WritesUnder reader (splitCommand name).2 value ∧ ∀ i ∈ found, i.written? = none) := by
  unfold classify at h
  unfold WritesUnder
  rcases hcommand : (splitCommand name).2.bind Command.ofName? with _ | command
  · simp only [hcommand] at h
    obtain ⟨found', hfound, h⟩ := bind_eq_ok.1 h
    rw [interpolation?_eq_ok_iff] at hfound
    cases found' with
    | some e =>
      cases pure_eq_ok.1 h
      exact .inl ⟨⟨e, hfound⟩, _, rfl, rfl, rfl⟩
    | none =>
      cases pure_eq_ok.1 h
      refine .inr ⟨?_, nofun⟩
      rintro ⟨e, he⟩
      cases hfound.symm.trans he
  · simp only [hcommand] at h
    obtain ⟨i, hi, h⟩ := bind_eq_ok.1 h
    cases pure_eq_ok.1 h
    obtain ⟨hwritten, hset⟩ := Command.written?_instruction hi
    by_cases hkind : command.valueKind = .property
    · rw [if_pos hkind] at hwritten
      exact .inl ⟨hkind, i, rfl, hwritten, hset⟩
    · rw [if_neg hkind] at hwritten
      refine .inr ⟨hkind, ?_⟩
      rintro _ ⟨⟩
      exact hwritten

/-! ### Attributes of a root -/

namespace Compiler

variable {c : Compiler}

/-- What an attribute of a root gives: a reference, a custom attribute, or what its name and value say. -/
theorem surrogate_cases {root : Tag} {a : Attribute} {i : Instruction} (h : c.surrogate root a = .ok i) :
    a.name ∉ reservedNames ∧
    ((isRefName a.name = true ∧ ∃ e target, i = .refBinding e target) ∨
     (isRefName a.name = false ∧ ∃ r is, c.resources.attribute? (targetName a.name) = some r ∧
        i = .hydrateAttribute r.name is) ∨
     (isRefName a.name = false ∧ c.resources.attribute? (targetName a.name) = none ∧
        ∃ found, classify c.reader a.name a.value none false = .ok found ∧
          i = found.getD (.setProperty a.name a.value))) := by
  unfold surrogate at h
  split at h
  · cases h
  · next hreserved =>
    refine ⟨hreserved, ?_⟩
    split at h
    · next href => exact .inl ⟨href, ref_eq_ok h⟩
    · next href =>
      rw [Bool.not_eq_true] at href
      right
      split at h
      · next r hr =>
        split at h
        · cases h
        · obtain ⟨is, -, h⟩ := bind_eq_ok.1 h
          exact .inl ⟨href, r, is, hr, (pure_eq_ok.1 h).symm⟩
      · next hr =>
        obtain ⟨found, hfound, h⟩ := bind_eq_ok.1 h
        exact .inr ⟨href, hr, found, hfound, (pure_eq_ok.1 h).symm⟩

/-- The attribute writes to the property and is not the attribute of that name: it has a command that binds
properties, or something after a period that is no command and a value with interpolations. -/
def WritesAround (c : Compiler) (property : String) (a : Attribute) : Prop :=
  ∃ suffix, a.name = property ++ "." ++ suffix ∧ '.' ∉ suffix.toList ∧ suffix ≠ "ref" ∧
    c.resources.attribute? property = none ∧ WritesUnder c.reader (some suffix) a.value

/-- A reserved property under a suffix is a reference just if the suffix is that of references. -/
theorem isRefName_reserved {property suffix : String} (hproperty : property ∈ reservedNames)
    (hsuffix : '.' ∉ suffix.toList) : isRefName (property ++ "." ++ suffix) = true ↔ suffix = "ref" := by
  have hchars : (property ++ "." ++ suffix).toList = property.toList ++ '.' :: suffix.toList := by simp
  have hends : ['.', 'r', 'e', 'f'] <:+ property.toList ++ '.' :: suffix.toList ↔ suffix = "ref" := by
    constructor
    · rintro ⟨before, hbefore⟩
      have href : '.' ∉ ['r', 'e', 'f'] := by decide
      have hcut := splitLastPeriod_append before href
      rw [hbefore, splitLastPeriod_append _ hsuffix] at hcut
      obtain ⟨-, hcommand⟩ := Prod.mk.inj (Option.some.inj hcut)
      exact String.toList_inj.1 hcommand
    · rintro rfl
      exact List.suffix_append _ _
  have hstarts : ∀ name ∈ reservedNames, ∀ rest, ¬ (name.toList ++ '.' :: rest = ['r', 'e', 'f']) ∧
      ['r', 'e', 'f', '.'].isPrefixOf (name.toList ++ '.' :: rest) = false := by
    intro name hname rest
    simp only [reservedNames, List.mem_cons, List.not_mem_nil, or_false] at hname
    rcases hname with rfl | rfl | rfl <;> exact ⟨nofun, rfl⟩
  obtain ⟨hwhole, hprefix⟩ := hstarts property hproperty suffix.toList
  unfold isRefName
  rw [hchars]
  simp [hwhole, hprefix, hends]

/-- The property that an attribute of a root writes to: its whole name if the value is set, and otherwise its name
without what follows the last period. -/
theorem surrogate_written? {root : Tag} {a : Attribute} {i : Instruction} (h : c.surrogate root a = .ok i)
    {property : String} (hwritten : i.written? = some property) :
    property = a.name ∨ (property = targetName a.name ∧ i.isSet = false ∧ isRefName a.name = false ∧
      c.resources.attribute? property = none ∧ WritesUnder c.reader (splitCommand a.name).2 a.value) := by
  obtain ⟨-, ⟨-, e, target, rfl⟩ | ⟨-, r, is, -, rfl⟩ | ⟨href, hr, found, hfound, rfl⟩⟩ := surrogate_cases h
  · cases hwritten
  · cases hwritten
  · rcases classify_written? hfound with ⟨hwrites, i, rfl, hi, hset⟩ | ⟨-, hnone⟩
    · obtain rfl : targetName a.name = property := Option.some.inj (hi.symm.trans hwritten)
      exact .inr ⟨rfl, hset, href, hr, hwrites⟩
    · cases found with
      | none => exact .inl (Option.some.inj hwritten).symm
      | some i => cases (hnone i rfl).symm.trans hwritten

section reserved

variable {root : Tag} {a : Attribute} {i : Instruction} {property : String}

/-- An attribute of a root that writes to a reserved property gets around the guard. -/
theorem writesAround_of_written? (h : c.surrogate root a = .ok i) (hproperty : property ∈ reservedNames)
    (hwritten : i.written? = some property) : i.isSet = false ∧ c.WritesAround property a := by
  have hne : property ≠ a.name := fun heq => (surrogate_cases h).1 (heq ▸ hproperty)
  obtain ⟨htarget, hset, href, hr, hwrites⟩ := (surrogate_written? h hwritten).resolve_left hne
  rcases splitCommand_cases a.name with ⟨-, hsplit⟩ | ⟨target, suffix, hname, hsuffix, hsplit⟩
  · rw [targetName, hsplit] at htarget
    exact absurd htarget hne
  · rw [targetName, hsplit] at htarget
    rw [hsplit] at hwrites
    obtain rfl : property = target := htarget
    refine ⟨hset, suffix, hname, hsuffix, ?_, hr, hwrites⟩
    rintro rfl
    rw [hname, (isRefName_reserved hproperty hsuffix).2 rfl] at href
    cases href

/-- An attribute that gets around the guard writes to the reserved property. -/
theorem written?_of_writesAround (h : c.surrogate root a = .ok i) (hproperty : property ∈ reservedNames)
    (haround : c.WritesAround property a) : i.written? = some property := by
  obtain ⟨suffix, hname, hsuffix, href, hr, hwrites⟩ := haround
  have hsplit : splitCommand a.name = (property, some suffix) := by rw [hname, splitCommand_append _ hsuffix]
  have htarget : targetName a.name = property := by rw [targetName, hsplit]
  obtain ⟨-, ⟨href', -⟩ | ⟨-, r, is, hr', -⟩ | ⟨-, -, found, hfound, rfl⟩⟩ := surrogate_cases h
  · rw [hname] at href'
    exact absurd ((isRefName_reserved hproperty hsuffix).1 href') href
  · rw [htarget, hr] at hr'
    cases hr'
  · rcases classify_written? hfound with ⟨-, i, rfl, hi, -⟩ | ⟨hnot, -⟩
    · rwa [htarget] at hi
    · rw [hsplit] at hnot
      exact absurd hwrites hnot

end reserved

/-! ### Roots -/

/-- A reserved property is not set on the host, and the root has no attribute of its name.  The host is told to write
to it, by a binding or by an interpolation, just if an attribute gets around the guard. -/
theorem compileRoot_hostProperties {root : Element} {d : Definition} (h : c.compileRoot root = .ok d)
    {property : String} (hproperty : property ∈ reservedNames) :
    (∀ a ∈ root.attributes, a.name ≠ property) ∧
    (∀ i ∈ d.surrogates, i.written? = some property → i.isSet = false) ∧
    ((∃ i ∈ d.surrogates, i.written? = some property) ↔ ∃ a ∈ root.attributes, c.WritesAround property a) := by
  obtain ⟨surrogates, content, hsurrogates, -, rfl⟩ := compileRoot_eq_ok_iff.1 h
  have heach := surrogatesOf_eq_ok_iff.1 hsurrogates
  have hto : ∀ a ∈ root.attributes, ∃ i ∈ surrogates, c.surrogate root.toTag a = .ok i :=
    exists_mem_of_forall₂ heach
  have hfrom : ∀ i ∈ surrogates, ∃ a ∈ root.attributes, c.surrogate root.toTag a = .ok i :=
    exists_mem_of_forall₂ heach.flip
  refine ⟨fun a ha heq => ?_, fun i hi hwritten => ?_, ?_, ?_⟩
  · obtain ⟨i, -, hi⟩ := hto a ha
    exact (surrogate_cases hi).1 (heq ▸ hproperty)
  · obtain ⟨a, -, ha⟩ := hfrom i hi
    exact (writesAround_of_written? ha hproperty hwritten).1
  · rintro ⟨i, hi, hwritten⟩
    obtain ⟨a, hmem, ha⟩ := hfrom i hi
    exact ⟨a, hmem, (writesAround_of_written? ha hproperty hwritten).2⟩
  · rintro ⟨a, hmem, haround⟩
    obtain ⟨i, hi, ha⟩ := hto a hmem
    exact ⟨i, hi, written?_of_writesAround ha hproperty haround⟩

/-- A root with a reserved property under a command, one under a suffix that is no command, and a reserved property
that is set under a longer name. -/
def aroundRoot : Element :=
  { name := "template",
    attributes := [⟨"id.bind", "key", {}, none⟩, ⟨"part.x", "$\x7bp\x7d", {}, none⟩, ⟨"id.x", "y", {}, none⟩] }

/-- The theorem at a root with a reserved property under a command. -/
theorem compileRoot_aroundRoot_hostProperties :
    "id" ∈ reservedNames ∧
    ∃ d, ({ resources := Registry.builtin.resolver } : Compiler).compileRoot aroundRoot = .ok d ∧
      d.surrogates.map (fun i => (i.kind, i.written?)) =
        [("propertyBinding", some "id"), ("interpolation", some "part"), ("setProperty", some "id.x")] ∧
      (∀ i ∈ d.surrogates, i.written? = some "id" → i.isSet = false) ∧
      ∃ a ∈ aroundRoot.attributes, WritesAround { resources := Registry.builtin.resolver } "id" a := by
  have hproperty : "id" ∈ reservedNames := by decide
  obtain ⟨d, hd, hwritten⟩ := exists_eq_ok
    (f := fun d : Definition => d.surrogates.map fun i => (i.kind, i.written?))
    (b := [("propertyBinding", some "id"), ("interpolation", some "part"), ("setProperty", some "id.x")])
    (x := ({ resources := Registry.builtin.resolver } : Compiler).compileRoot aroundRoot) (by decide +kernel)
  obtain ⟨-, hset, hiff⟩ := compileRoot_hostProperties hd hproperty
  have hmem : ("propertyBinding", some "id") ∈ d.surrogates.map fun i => (i.kind, i.written?) := by
    rw [hwritten]
    exact List.mem_cons_self
  obtain ⟨i, hi, heq⟩ := List.mem_map.1 hmem
  exact ⟨hproperty, d, hd, hwritten, hset, hiff.1 ⟨i, hi, (Prod.mk.inj heq).2⟩⟩

/-- The root `<template id.bind="key">`. -/
def boundIdRoot : Element :=
  { name := "template", attributes := [⟨"id.bind", "key", {}, none⟩] }

/-- A reserved property can be bound to the host: the guard does not look behind the period. -/
theorem compileRoot_boundIdRoot :
    ¬ ∀ (c : Compiler) (root : Element) (d : Definition), c.compileRoot root = .ok d →
      ∀ i ∈ d.surrogates, ∀ property ∈ reservedNames, i.written? ≠ some property := by
  intro hall
  obtain ⟨d, hd, hwritten⟩ := exists_eq_ok (f := fun d : Definition => d.surrogates.map Instruction.written?)
    (b := [some "id"]) (x := ({ resources := Registry.builtin.resolver } : Compiler).compileRoot boundIdRoot)
    (by decide +kernel)
  have hmem : some "id" ∈ d.surrogates.map Instruction.written? := by
    rw [hwritten]
    exact List.mem_cons_self
  obtain ⟨i, hi, hid⟩ := List.mem_map.1 hmem
  exact hall _ boundIdRoot d hd i hi "id" (by decide) hid

end Compiler

end ViewTemplate
