import ViewTemplate.Proofs.Compile.Targets

/-!
# Chains of template controllers

The controllers of an element are taken off one at a time: the first one becomes an instruction that holds the
definition of the element without it, and that element is compiled like any other.  After `N` such steps
there is a chain of `N` definitions, the first controller outermost, around the element without controllers.

* `node_eq_of_firstController` — one step: what the walk makes of an element with a controller, by what it
  makes of the element without it.
* `Compiler.Chain` — the instructions and definitions met on the way from the outermost controller inwards.
* `nodes_controllers_chain` — compiling an element with controllers succeeds exactly when every controller's
  attribute and the body do, and then gives their chain.
-/

namespace ViewTemplate

open ViewTemplate.Text ViewTemplate.Markup

namespace Compiler

variable {c : Compiler}

/-! ### Taking off one controller -/

/-- The controllers of attributes among which the first controller is `a`. -/
theorem controllers_append_cons {before after : List Attribute} {a : Attribute} {r : Resource}
    (hbefore : ∀ b ∈ before, c.controller? b = none) (ha : c.controller? a = some r) :
    c.controllers (before ++ a :: after) = do
      let is ← c.customAttribute r a.name a.value
      let others ← c.controllers (before ++ after)
      return ⟨r, is⟩ :: others := by
  induction before with
  | nil => simp [controllers, ha]
  | cons b before ih =>
    simp only [List.cons_append, controllers, hbefore b List.mem_cons_self]
    exact ih fun d hd => hbefore d (List.mem_cons_of_mem b hd)

/-- The host is left the same, whether the first controller is taken off before the others or with them. -/
theorem hostTag_append_cons {tag : Tag} {before after : List Attribute} {a : Attribute} {r : Resource}
    (htag : tag.attributes = before ++ a :: after) (ha : c.controller? a = some r) :
    c.hostTag tag = c.hostTag { tag with attributes := before ++ after } := by
  simp [hostTag, htag, ha]

/-- A result with controllers around it, under a root, is the definition nested in them. -/
theorem definition_wrap (ks : List Controller) (o : Output) :
    (c.wrap ks o).definition templateTag = c.nest ks (o.definition templateTag) := by
  cases ks <;> rfl

/-- Content with controllers around it, under a root, is the definition nested in them. -/
theorem definition_wrapContent {ks : List Controller} (hne : ks ≠ []) (host : Tag) (o : Output) :
    (c.wrapContent ks host o).definition templateTag = c.nest ks (o.definition host) := by
  cases ks with
  | nil => exact absurd rfl hne
  | cons k ks => rfl

/-- The definition of a root with a single child is that of the walk at the child. -/
theorem definition_singleton (root : Tag) (n : Node) :
    c.definition { root with children := [n] } = do
      let o ← c.node n
      return o.definition root := by
  unfold definition
  rw [nodes_singleton]

/-- The definition of what is left of a host, from its own controllers and the rest. -/
theorem definition_bodyRoot (tag : Tag) (children : List Node) :
    c.definition (bodyRoot tag children) = do
      let ks ← c.controllers tag.attributes
      if (c.hostTag tag).isTemplate && (c.hostTag tag).attributes.isEmpty then do
        let content ← c.nodes children
        return c.nest ks (content.definition (c.hostTag tag))
      else do
        let out ← c.own (c.hostTag tag) children
        return c.nest ks (out.definition templateTag) := by
  by_cases hbare : (tag.isTemplate && tag.attributes.isEmpty) = true
  · obtain ⟨htemplate, hempty⟩ := Bool.and_eq_true_iff.1 hbare
    rw [List.isEmpty_iff] at hempty
    have hcontrollers : c.controllers tag.attributes = .ok [] := by rw [hempty]; rfl
    rw [bodyRoot, if_pos hbare, hcontrollers, hostTag_eq_self hcontrollers]
    simp only [bind, Except.bind]
    rw [if_pos hbare]
    rfl
  · rw [bodyRoot, if_neg hbare, definition_singleton, node_element]
    cases hks : c.controllers tag.attributes with
    | error e => rfl
    | ok ks =>
      by_cases hhost : ((c.hostTag tag).isTemplate && (c.hostTag tag).attributes.isEmpty) = true
      · -- Without controllers the host would be the tag, which is no bare `template`.
        have hne : ks ≠ [] := by
          rintro rfl
          rw [hostTag_eq_self hks] at hhost
          exact hbare hhost
        have hisBare : c.IsBare tag ks := ⟨hne, by simpa using hhost⟩
        simp only [bind, Except.bind]
        rw [if_pos hisBare, if_pos hhost]
        cases c.nodes children with
        | error e => rfl
        | ok content =>
          show Except.ok ((c.wrapContent ks (c.hostTag tag) content).definition templateTag) = _
          rw [definition_wrapContent hne]
          rfl
      · have hisBare : ¬ c.IsBare tag ks := fun h => hhost (by simpa using h.2)
        simp only [bind, Except.bind]
        rw [if_neg hisBare, if_neg hhost]
        cases c.own (c.hostTag tag) children with
        | error e => rfl
        | ok out =>
          show Except.ok ((c.wrap ks out).definition templateTag) = _
          rw [definition_wrap]
          rfl

/-- One step: an element whose first controller is `a` becomes a marker with the controller's instruction,
which holds the definition of the element without `a`. -/
theorem node_eq_of_firstController {tag : Tag} {before after : List Attribute} {a : Attribute}
    {r : Resource} (htag : tag.attributes = before ++ a :: after)
    (hbefore : ∀ b ∈ before, c.controller? b = none) (ha : c.controller? a = some r)
    (children : List Node) :
    c.node (.element tag children) = do
      let is ← c.customAttribute r a.name a.value
      let d ← c.definition (bodyRoot { tag with attributes := before ++ after } children)
      return c.control ⟨r, is⟩ d := by
  rw [node_element, htag, controllers_append_cons hbefore ha, hostTag_append_cons htag ha]
  cases c.customAttribute r a.name a.value with
  | error e => rfl
  | ok is =>
    -- Both sides compile the rest of the controllers and then the host, which is the same for both.
    rw [definition_bodyRoot]
    cases c.controllers (before ++ after) with
    | error e => rfl
    | ok ks =>
      simp only [bind, Except.bind, pure, Except.pure]
      by_cases hhost : ((c.hostTag { tag with attributes := before ++ after }).isTemplate &&
          (c.hostTag { tag with attributes := before ++ after }).attributes.isEmpty) = true
      · have hisBare : c.IsBare tag (⟨r, is⟩ :: ks) := by
          refine ⟨List.cons_ne_nil _ _, ?_⟩
          rw [hostTag_append_cons htag ha]
          simpa using hhost
        rw [if_pos hisBare, if_pos hhost]
        cases c.nodes children with
        | error e => rfl
        | ok content => rfl
      · have hisBare : ¬ c.IsBare tag (⟨r, is⟩ :: ks) := by
          rintro ⟨_, h⟩
          rw [hostTag_append_cons htag ha] at h
          exact hhost (by simpa using h)
        rw [if_neg hisBare, if_neg hhost]
        cases c.own (c.hostTag { tag with attributes := before ++ after }) children with
        | error e => rfl
        | ok out => rfl

/-! ### All controllers -/

/-- The attributes that call for template controllers, with their resources, in order of declaration. -/
def controllerAttributes (c : Compiler) (as : List Attribute) : List (Attribute × Resource) :=
  as.filterMap fun a => (c.controller? a).map fun r => (a, r)

/-- The first controller, with the attributes around it. -/
theorem controllerAttributes_eq_cons : {as : List Attribute} → {a : Attribute} → {r : Resource} →
    {rest : List (Attribute × Resource)} → c.controllerAttributes as = (a, r) :: rest →
    ∃ before after, as = before ++ a :: after ∧ (∀ b ∈ before, c.controller? b = none) ∧
      c.controller? a = some r ∧ c.controllerAttributes (before ++ after) = rest
  | [], _, _, _, h => by cases h
  | b :: as, a, r, rest, h => by
    cases hb : c.controller? b with
    | some q =>
      simp only [controllerAttributes, List.filterMap_cons, hb, Option.map_some, List.cons.injEq,
        Prod.mk.injEq] at h
      obtain ⟨⟨rfl, rfl⟩, hrest⟩ := h
      exact ⟨[], as, rfl, fun _ h => absurd h List.not_mem_nil, hb, hrest⟩
    | none =>
      have h' : c.controllerAttributes as = (a, r) :: rest := by
        simpa [controllerAttributes, hb] using h
      obtain ⟨before, after, rfl, hbefore, ha, hrest⟩ := controllerAttributes_eq_cons h'
      refine ⟨b :: before, after, rfl, ?_, ha, ?_⟩
      · intro d hd
        rcases List.mem_cons.1 hd with rfl | hd
        · exact hb
        · exact hbefore d hd
      · simpa [controllerAttributes, hb] using hrest

/-- Where no attribute is listed as a controller, none is one. -/
theorem controller?_eq_none_of_controllerAttributes_eq_nil {as : List Attribute}
    (h : c.controllerAttributes as = []) : ∀ a ∈ as, c.controller? a = none := by
  simpa [controllerAttributes] using h

/-- The definition around `body` with the given controllers, the first one outermost. -/
def chainDefinition (c : Compiler) (body : Except CompileError Definition) :
    List (Attribute × Resource) → Except CompileError Definition
  | [] => body
  | (a, r) :: rest => do
    let is ← c.customAttribute r a.name a.value
    let d ← c.chainDefinition body rest
    return (c.control ⟨r, is⟩ d).definition templateTag

/-- What is left of a host is compiled to the chain of the controllers that are left, around the element
without controllers. -/
theorem definition_bodyRoot_eq_chain (children : List Node) : (cs : List (Attribute × Resource)) →
    (tag : Tag) → c.controllerAttributes tag.attributes = cs →
    c.definition (bodyRoot tag children) =
      c.chainDefinition (c.definition (bodyRoot (c.hostTag tag) children)) cs
  | [], tag, h => by
    have hnone := controller?_eq_none_of_controllerAttributes_eq_nil h
    rw [hostTag_eq_self (controllers_eq_nil_of_forall_none _ hnone)]
    rfl
  | (a, r) :: rest, tag, h => by
    obtain ⟨before, after, htag, hbefore, ha, hrest⟩ := controllerAttributes_eq_cons h
    have hbare : ¬ (tag.isTemplate && tag.attributes.isEmpty) = true := by simp [htag]
    rw [bodyRoot, if_neg hbare, definition_singleton,
      node_eq_of_firstController htag hbefore ha, hostTag_append_cons htag ha,
      definition_bodyRoot_eq_chain children rest _ hrest, chainDefinition]
    simp only [bind_assoc, pure_bind]

/-- What the walk makes of an element with controllers. -/
theorem nodes_eq_chain {tag : Tag} {a : Attribute} {r : Resource} {rest : List (Attribute × Resource)}
    (h : c.controllerAttributes tag.attributes = (a, r) :: rest) (children : List Node) :
    c.nodes [.element tag children] = do
      let is ← c.customAttribute r a.name a.value
      let d ← c.chainDefinition (c.definition (bodyRoot (c.hostTag tag) children)) rest
      return c.control ⟨r, is⟩ d := by
  obtain ⟨before, after, htag, hbefore, ha, hrest⟩ := controllerAttributes_eq_cons h
  rw [nodes_singleton, node_eq_of_firstController htag hbefore ha, hostTag_append_cons htag ha,
    definition_bodyRoot_eq_chain children rest _ hrest]

/-- The instruction of the outermost of the controllers, whose definitions lead to `body`: each definition but
the innermost one has one marker and one group, the group of the next controller. -/
inductive Chain (c : Compiler) (body : Definition) : List (Attribute × Resource) → Instruction → Prop where
  | innermost {a : Attribute} {r : Resource} {is : List Instruction} :
      c.customAttribute r a.name a.value = .ok is →
      Chain c body [(a, r)] (.hydrateTemplateController r.name body is (r.name = "else"))
  | outer {a : Attribute} {r : Resource} {is : List Instruction} {rest : List (Attribute × Resource)}
      {next : Instruction} {d : Definition} :
      c.customAttribute r a.name a.value = .ok is → Chain c body rest next →
      d = { template := { templateTag with children := [c.marker] }, groups := [[next]], surrogates := [],
            hasSlots := body.hasSlots } →
      Chain c body ((a, r) :: rest) (.hydrateTemplateController r.name d is (r.name = "else"))

/-- What is made of the controllers is their chain, and has the slots of the body. -/
theorem chain_of_chainDefinition {body : Definition} : (rest : List (Attribute × Resource)) →
    ∀ {a : Attribute} {r : Resource} {is : List Instruction} {d : Definition},
    c.customAttribute r a.name a.value = .ok is → c.chainDefinition (.ok body) rest = .ok d →
    Chain c body ((a, r) :: rest) (Controller.instruction ⟨r, is⟩ d) ∧ d.hasSlots = body.hasSlots
  | [], a, r, is, d, his, hd => by
    cases hd
    exact ⟨.innermost his, rfl⟩
  | (a', r') :: rest, a, r, is, d, his, hd => by
    obtain ⟨is', his', hd⟩ := bind_eq_ok.1 hd
    obtain ⟨d', hd', hd⟩ := bind_eq_ok.1 hd
    obtain ⟨hchain, hslots⟩ := chain_of_chainDefinition rest his' hd'
    rw [← pure_eq_ok.1 hd]
    refine ⟨.outer his hchain ?_, hslots⟩
    rw [← hslots]
    rfl

/-- A chain is made exactly when every controller and the body are. -/
theorem chainDefinition_eq_ok {x : Except CompileError Definition} :
    (cs : List (Attribute × Resource)) → ((∃ d, c.chainDefinition x cs = .ok d) ↔
      (∀ p ∈ cs, ∃ is, c.customAttribute p.2 p.1.name p.1.value = .ok is) ∧ ∃ body, x = .ok body)
  | [] => by simp [chainDefinition]
  | (a, r) :: rest => by
    have ih := chainDefinition_eq_ok (x := x) rest
    constructor
    · rintro ⟨d, hd⟩
      obtain ⟨is, his, hd⟩ := bind_eq_ok.1 hd
      obtain ⟨d', hd', _⟩ := bind_eq_ok.1 hd
      obtain ⟨hrest, hbody⟩ := ih.1 ⟨d', hd'⟩
      refine ⟨fun p hp => ?_, hbody⟩
      rcases List.mem_cons.1 hp with rfl | hp
      · exact ⟨is, his⟩
      · exact hrest p hp
    · rintro ⟨hcs, hbody⟩
      obtain ⟨is, his⟩ := hcs (a, r) List.mem_cons_self
      obtain ⟨d, hd⟩ := ih.2 ⟨fun p hp => hcs p (List.mem_cons_of_mem _ hp), hbody⟩
      exact ⟨_, bind_eq_ok.2 ⟨is, his, bind_eq_ok.2 ⟨d, hd, rfl⟩⟩⟩

/-- The error of a chain: that of the first controller that fails, and otherwise that of the body. -/
theorem chainDefinition_eq_error {x : Except CompileError Definition} {e : CompileError} :
    (cs : List (Attribute × Resource)) → (c.chainDefinition x cs = .error e ↔
      (∃ before p after, cs = before ++ p :: after ∧
        (∀ q ∈ before, ∃ is, c.customAttribute q.2 q.1.name q.1.value = .ok is) ∧
        c.customAttribute p.2 p.1.name p.1.value = .error e) ∨
      ((∀ p ∈ cs, ∃ is, c.customAttribute p.2 p.1.name p.1.value = .ok is) ∧ x = .error e))
  | [] => by simp [chainDefinition]
  | (a, r) :: rest => by
    have ih := chainDefinition_eq_error (x := x) (e := e) rest
    -- The outermost controller fails, or the error is one of the rest of the chain.
    cases his : c.customAttribute r a.name a.value with
    | error e' =>
      have hchain : c.chainDefinition x ((a, r) :: rest) = .error e' := by simp only [chainDefinition, his]; rfl
      rw [hchain]
      constructor
      · rintro ⟨⟩
        exact Or.inl ⟨[], (a, r), rest, rfl, fun _ h => absurd h List.not_mem_nil, his⟩
      · rintro (⟨before, p, after, heq, hbefore, hp⟩ | ⟨hall, _⟩)
        · cases before with
          | nil =>
            cases heq
            cases his.symm.trans hp
            rfl
          | cons q before =>
            cases heq
            obtain ⟨is, hq⟩ := hbefore (a, r) List.mem_cons_self
            cases his.symm.trans hq
        · obtain ⟨is, hq⟩ := hall (a, r) List.mem_cons_self
          cases his.symm.trans hq
    | ok is =>
      have hchain : c.chainDefinition x ((a, r) :: rest) = .error e ↔ c.chainDefinition x rest = .error e := by
        simp only [chainDefinition, his]
        cases c.chainDefinition x rest with
        | error e' => rfl
        | ok d => simp [bind, Except.bind, pure, Except.pure]
      rw [hchain, ih]
      constructor
      · rintro (⟨before, p, after, rfl, hbefore, hp⟩ | ⟨hall, hx⟩)
        · refine Or.inl ⟨(a, r) :: before, p, after, rfl, fun q hq => ?_, hp⟩
          rcases List.mem_cons.1 hq with rfl | hq
          · exact ⟨is, his⟩
          · exact hbefore q hq
        · refine Or.inr ⟨fun q hq => ?_, hx⟩
          rcases List.mem_cons.1 hq with rfl | hq
          · exact ⟨is, his⟩
          · exact hall q hq
      · rintro (⟨before, p, after, heq, hbefore, hp⟩ | ⟨hall, hx⟩)
        · cases before with
          | nil =>
            cases heq
            cases his.symm.trans hp
          | cons q before =>
            cases heq
            exact Or.inl ⟨before, p, after, rfl, fun q hq => hbefore q (List.mem_cons_of_mem _ hq), hp⟩
        · exact Or.inr ⟨fun q hq => hall q (List.mem_cons_of_mem _ hq), hx⟩

/-- The walk over an element with controllers, put under a `template`, is the whole chain. -/
theorem map_definition_nodes_eq_chain {tag : Tag} {a : Attribute} {r : Resource}
    {rest : List (Attribute × Resource)} (h : c.controllerAttributes tag.attributes = (a, r) :: rest)
    (children : List Node) :
    (c.nodes [.element tag children]).map (·.definition templateTag) =
      c.chainDefinition (c.definition (bodyRoot (c.hostTag tag) children)) ((a, r) :: rest) := by
  rw [nodes_eq_chain h, chainDefinition]
  cases c.customAttribute r a.name a.value with
  | error e => rfl
  | ok is =>
    cases c.chainDefinition (c.definition (bodyRoot (c.hostTag tag) children)) rest with
    | error e => rfl
    | ok d => rfl

/-- Compiling an element with controllers succeeds exactly when the attribute of every controller is compiled
and so is the body: the element without controllers, as a `template` itself or under one.  Then the element is
replaced by one marker, whose group is the outermost instruction of the chain of the controllers around the
body.  Otherwise the error is the first one in the order of the controllers, and that of the body comes last. -/
theorem nodes_controllers_chain {c : Compiler} {tag : Tag}
    (hne : c.controllerAttributes tag.attributes ≠ []) (children : List Node) :
    ((∃ o, c.nodes [.element tag children] = .ok o) ↔
      (∀ p ∈ c.controllerAttributes tag.attributes,
        ∃ is, c.customAttribute p.2 p.1.name p.1.value = .ok is) ∧
      ∃ body, c.definition (bodyRoot (c.hostTag tag) children) = .ok body) ∧
    (∀ o, c.nodes [.element tag children] = .ok o →
      ∃ body i, c.definition (bodyRoot (c.hostTag tag) children) = .ok body ∧
        o = ⟨[c.marker], [[i]], body.hasSlots⟩ ∧ Chain c body (c.controllerAttributes tag.attributes) i) ∧
    (∀ e, c.nodes [.element tag children] = .error e ↔
      (∃ before p after, c.controllerAttributes tag.attributes = before ++ p :: after ∧
        (∀ q ∈ before, ∃ is, c.customAttribute q.2 q.1.name q.1.value = .ok is) ∧
        c.customAttribute p.2 p.1.name p.1.value = .error e) ∨
      ((∀ p ∈ c.controllerAttributes tag.attributes,
        ∃ is, c.customAttribute p.2 p.1.name p.1.value = .ok is) ∧
        c.definition (bodyRoot (c.hostTag tag) children) = .error e)) := by
  obtain ⟨⟨a, r⟩, rest, h⟩ := List.exists_cons_of_ne_nil hne
  have hmap := map_definition_nodes_eq_chain h children
  rw [h]
  refine ⟨?_, fun o ho => ?_, fun e => ?_⟩
  · rw [← chainDefinition_eq_ok, ← hmap]
    cases c.nodes [.element tag children] with
    | error e => simp [Except.map]
    | ok o => simp [Except.map]
  · rw [nodes_eq_chain h] at ho
    obtain ⟨is, his, ho⟩ := bind_eq_ok.1 ho
    obtain ⟨d, hd, ho⟩ := bind_eq_ok.1 ho
    obtain ⟨_, body, hbody⟩ := (chainDefinition_eq_ok rest).1 ⟨d, hd⟩
    rw [hbody] at hd
    obtain ⟨hchain, hslots⟩ := chain_of_chainDefinition rest his hd
    refine ⟨body, _, hbody, ?_, hchain⟩
    rw [← pure_eq_ok.1 ho, ← hslots]
    rfl
  · rw [← chainDefinition_eq_error, ← hmap]
    cases c.nodes [.element tag children] with
    | error e' => simp [Except.map]
    | ok o => simp [Except.map]

/-- A `div` with two controllers and a class between them. -/
def twiceControlled : Tag :=
  { name := "div",
    attributes := [⟨"if.bind", "x", {}, none⟩, ⟨"class", "k", {}, none⟩,
      ⟨"repeat.for", "u of us", {}, none⟩] }

/-- The theorem at a `div` with two controllers. -/
theorem nodes_twiceControlled_chain :
    (({ resources := Registry.builtin.resolver } : Compiler).controllerAttributes
        twiceControlled.attributes).length = 2 ∧
      ∃ o body i,
        ({ resources := Registry.builtin.resolver } : Compiler).nodes
          [.element twiceControlled [.text "z$\x7bu\x7d"]] = .ok o ∧
        o.groups = [[i]] ∧
        Chain { resources := Registry.builtin.resolver } body
          (({ resources := Registry.builtin.resolver } : Compiler).controllerAttributes
            twiceControlled.attributes) i := by
  have hlength : (({ resources := Registry.builtin.resolver } : Compiler).controllerAttributes
      twiceControlled.attributes).length = 2 := by decide +kernel
  obtain ⟨o, ho, _⟩ := exists_eq_ok (f := fun o : Output => o.groups.length) (b := 1)
    (x := ({ resources := Registry.builtin.resolver } : Compiler).nodes
      [.element twiceControlled [.text "z$\x7bu\x7d"]]) (by decide +kernel)
  obtain ⟨body, i, _, rfl, hchain⟩ :=
    (nodes_controllers_chain (List.ne_nil_of_length_eq_add_one hlength) _).2.1 o ho
  exact ⟨hlength, _, body, i, ho, rfl, hchain⟩

end Compiler

end ViewTemplate
