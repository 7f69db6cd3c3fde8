import ViewTemplate.Proofs.Compile.Emission
import ViewTemplate.Proofs.Expression.Restating

/-!
# What instructions carry

The runtime evaluates the sources of bindings as they come, so each kind of binding must carry the kind of
expression that it is for.  With the standard reader every instruction of a compiled template does, at any depth,
and no property is bound in a mode that is still to be chosen.

* `Expression.isEvaluable`, `Expression.isInterpolated`, `Expression.isIterable` — the expressions that can be
  evaluated, rendered as text, and iterated.
* `Instruction.isWellTyped` — the source of an instruction is of the kind that the instruction is for.
* `Compiler.compile_isWellTyped` — every instruction of a compiled template is well typed.
-/

namespace ViewTemplate

open ViewTemplate.Text ViewTemplate.Markup

namespace Expression

/-! ### Kinds of expressions -/

mutual

/-- Whether the expression is a plain one throughout: there is no interpolation, iteration or pattern in it, it
assigns only to what can be assigned to, every key has a value, and its operators are known. -/
def isEvaluable : Expression → Bool
  | .accessThis _ | .accessScope .. | .literal _ => true
  | .accessMember object _ => object.isEvaluable
  | .accessKeyed object key => object.isEvaluable && key.isEvaluable
  | .callScope _ args _ => areEvaluable args
  | .callMember object _ args => object.isEvaluable && areEvaluable args
  | .callFunction func args => func.isEvaluable && areEvaluable args
  | .arrayLiteral elements => areEvaluable elements
  | .objectLiteral keys values => decide (keys.length = values.length) && areEvaluable values
  | .unary operation operand => ["!", "-", "+", "typeof", "void"].contains operation && operand.isEvaluable
  | .binary operation left right => (precedence? operation).isSome && left.isEvaluable && right.isEvaluable
  | .conditional condition yes no => condition.isEvaluable && yes.isEvaluable && no.isEvaluable
  | .assign target value => target.isAssignable && target.isEvaluable && value.isEvaluable
  | .valueConverter e _ args => e.isEvaluable && areEvaluable args
  | .bindingBehavior e _ args => e.isEvaluable && areEvaluable args
  | .interpolation .. | .iteration .. | .bindingIdentifier _ | .arrayPattern _ | .objectPattern .. => false

/-- Whether all of the expressions are plain. -/
def areEvaluable : List Expression → Bool
  | [] => true
  | e :: es => e.isEvaluable && areEvaluable es

end

/-- Expressions can be evaluated exactly if each of them can. -/
theorem areEvaluable_iff {es : List Expression} : areEvaluable es = true ↔ ∀ e ∈ es, e.isEvaluable = true := by
  induction es with
  | nil => simp [areEvaluable]
  | cons e es ih => simp [areEvaluable, ih]

/-- Whether the expression is text with plain expressions between its parts, at least one. -/
def isInterpolated : Expression → Bool
  | .interpolation parts es => !es.isEmpty && decide (parts.length = es.length + 1) && areEvaluable es
  | _ => false

/-- Whether the expression is a name that is declared. -/
def isBindingIdentifier : Expression → Bool
  | .bindingIdentifier _ => true
  | _ => false

/-- Whether the expression declares names: one, or those of a pattern that is not empty. -/
def isDeclaration : Expression → Bool
  | .bindingIdentifier _ => true
  | .arrayPattern elements => !elements.isEmpty && elements.all isBindingIdentifier
  | .objectPattern keys values =>
    !values.isEmpty && decide (keys.length = values.length) && values.all isBindingIdentifier
  | _ => false

/-- Whether the expression is an iteration over a plain expression. -/
def isIterable : Expression → Bool
  | .iteration declaration iterable => declaration.isDeclaration && iterable.isEvaluable
  | _ => false

/-! ### What is read -/

/-- What the grammar of expressions gives can be evaluated. -/
theorem Readable.isEvaluable {e : Expression} (h : Readable e) : e.isEvaluable = true := by
  induction h with
  | accessThis | accessScope | literal => rfl
  | accessMember _ _ ih => exact ih
  | accessKeyed _ _ ih₁ ih₂ => simp [Expression.isEvaluable, ih₁, ih₂]
  | callScope _ _ _ _ ih => exact areEvaluable_iff.2 ih
  | callMember _ _ _ ih ihs => simp [Expression.isEvaluable, ih, areEvaluable_iff.2 ihs]
  | callFunction _ _ ih ihs => simp [Expression.isEvaluable, ih, areEvaluable_iff.2 ihs]
  | arrayLiteral _ ihs => exact areEvaluable_iff.2 ihs
  | objectLiteral hlength _ ihs => simp [Expression.isEvaluable, hlength, areEvaluable_iff.2 ihs]
  | unary hoperation _ ih => simp [Expression.isEvaluable, hoperation, ih]
  | binary hoperation _ _ ih₁ ih₂ => simp [Expression.isEvaluable, hoperation, ih₁, ih₂]
  | conditional _ _ _ ih₁ ih₂ ih₃ => simp [Expression.isEvaluable, ih₁, ih₂, ih₃]
  | assign _ hassignable _ ih₁ ih₂ => simp [Expression.isEvaluable, hassignable, ih₁, ih₂]
  | valueConverter _ _ _ ih ihs => simp [Expression.isEvaluable, ih, areEvaluable_iff.2 ihs]
  | bindingBehavior _ _ _ ih ihs => simp [Expression.isEvaluable, ih, areEvaluable_iff.2 ihs]

/-- What a declaration stands for is one. -/
theorem Declaration.isDeclaration_expression {d : Declaration} (h : d.IsReadable) :
    d.expression.isDeclaration = true := by
  have hne := h.nonempty
  cases d with
  | single name => rfl
  | array names =>
    simp only [Declaration.names] at hne
    simp [Declaration.expression, isDeclaration, isBindingIdentifier, hne]
  | object entries =>
    simp only [Declaration.names, ne_eq, List.map_eq_nil_iff] at hne
    simp [Declaration.expression, isDeclaration, isBindingIdentifier, hne]

/-- What is read as an iteration is one. -/
theorem isIterable_parseIteration {input : String} {e : Expression} (h : parseIteration input = .ok e) :
    e.isIterable = true := by
  obtain ⟨d, iterable, hd, hiterable, rfl⟩ := parseIteration_eq_ok h
  simp [isIterable, Declaration.isDeclaration_expression hd, hiterable.isEvaluable]

/-- What is read as an interpolation is one. -/
theorem isInterpolated_readInterpolation {input : String} {e : Expression}
    (h : readInterpolation input = .ok (some e)) : e.isInterpolated = true := by
  obtain ⟨parts, es, rfl, hne, hlength, -, hes⟩ := readInterpolation_eq_ok h
  have hall := areEvaluable_iff.2 fun e he => (hes e he).isEvaluable
  simp [isInterpolated, hne, hlength, hall]

end Expression

namespace ExpressionReader

open Expression

/-- The interpolation that a text is found to have is one. -/
theorem isInterpolated_of_interpolation? {value : String} {e : Expression}
    (h : standard.interpolation? value = .ok (some e)) : e.isInterpolated = true := by
  unfold interpolation? at h
  split at h
  · next hread =>
    cases h
    exact isInterpolated_readInterpolation hread
  · cases h

/-- The standard reader declines no text that is to be the source of a binding. -/
theorem source_eq_ok {value : String} {kind : ExpressionKind} {e : Expression} (hkind : kind ≠ .interpolation)
    (h : standard.source value kind = .ok e) : standard value kind = .ok (some e) := by
  unfold source at h
  split at h
  · next hread =>
    cases h
    exact hread
  · next hread =>
    exfalso
    cases kind with
    | interpolation => exact hkind rfl
    | iteration =>
      obtain ⟨e', -, he'⟩ := map_eq_ok.1 hread
      cases he'
    | plain | property | function =>
      obtain ⟨e', -, he'⟩ := map_eq_ok.1 hread
      cases he'
  · cases h

/-- The source of an iteration is one. -/
theorem isIterable_of_source {value : String} {e : Expression} (h : standard.source value .iteration = .ok e) :
    e.isIterable = true := by
  obtain ⟨e', hread, heq⟩ := map_eq_ok.1 (source_eq_ok (by decide) h)
  cases heq
  exact isIterable_parseIteration (mapError_eq_ok.1 hread)

/-- What is read as an expression can be evaluated. -/
theorem isEvaluable_of_read {value : String} {e : Expression} (h : (read value).map some = .ok (some e)) :
    e.isEvaluable = true := by
  obtain ⟨e', hread, heq⟩ := map_eq_ok.1 h
  cases heq
  exact (readable_parse (read_eq_ok.1 hread)).isEvaluable

/-- The source of a property binding can be evaluated. -/
theorem isEvaluable_of_property {value : String} {e : Expression} (h : standard.source value .property = .ok e) :
    e.isEvaluable = true :=
  isEvaluable_of_read (source_eq_ok (by decide) h)

/-- The source of a listener or of a call can be evaluated. -/
theorem isEvaluable_of_function {value : String} {e : Expression} (h : standard.source value .function = .ok e) :
    e.isEvaluable = true :=
  isEvaluable_of_read (source_eq_ok (by decide) h)

end ExpressionReader

/-! ### Instructions -/

/-- Whether the instruction carries an expression of the kind that it is for.  What is inside an instruction is
looked at on its own. -/
def Instruction.isWellTyped : Instruction → Bool
  | .propertyBinding _ source mode => source.isEvaluable && decide (mode ≠ .default)
  | .interpolation _ source => source.isInterpolated
  | .listenerBinding _ source _ _ => source.isEvaluable
  | .callBinding _ source => source.isEvaluable
  | .refBinding source _ => source.isEvaluable
  | .iteratorBinding _ source => source.isIterable
  | .letBinding _ source => source.isInterpolated || source.isEvaluable
  | .textBinding source => source.isInterpolated
  | .setProperty .. | .hydrateElement .. | .hydrateAttribute .. | .hydrateLetElement ..
  | .hydrateTemplateController .. => true

/-- A property binding is well typed if its source can be evaluated and its mode is settled. -/
theorem Instruction.isWellTyped_propertyBinding {property : String} {source : Expression} {mode : BindingMode}
    (hsource : source.isEvaluable = true) (hmode : mode ≠ .default) :
    (propertyBinding property source mode).isWellTyped = true := by
  simp [Instruction.isWellTyped, hsource, hmode]

open ExpressionReader

/-- A mode is chosen for every bindable. -/
theorem Resource.resolveMode_ne_default (r : Resource) (b : Bindable) : r.resolveMode b ≠ .default := by
  unfold Resource.resolveMode
  split
  · assumption
  · split
    · assumption
    · decide

/-- What a command gives is well typed, since each kind reads its own kind of source. -/
theorem Command.isWellTyped_instruction {command : Command} {property value : String} {mode : BindingMode}
    {i : Instruction} (hmode : mode ≠ .default)
    (h : command.instruction standard property mode value = .ok i) : i.isWellTyped = true := by
  cases command with
  | iterate =>
    obtain ⟨e, he, h⟩ := bind_eq_ok.1 h
    cases pure_eq_ok.1 h
    exact isIterable_of_source he
  | trigger | delegate | capture | call =>
    obtain ⟨e, he, h⟩ := bind_eq_ok.1 h
    cases pure_eq_ok.1 h
    exact isEvaluable_of_function he
  | bind =>
    obtain ⟨e, he, h⟩ := bind_eq_ok.1 h
    cases pure_eq_ok.1 h
    exact Instruction.isWellTyped_propertyBinding (isEvaluable_of_property he) hmode
  | oneTime | toView | fromView | twoWay =>
    obtain ⟨e, he, h⟩ := bind_eq_ok.1 h
    cases pure_eq_ok.1 h
    exact Instruction.isWellTyped_propertyBinding (isEvaluable_of_property he) (by decide)

/-- What an attribute is classified as is well typed, if the modes of bindables are settled. -/
theorem isWellTyped_classify {name value : String} {target : Option BindTarget} {isOption : Bool}
    {i : Instruction} (htarget : ∀ t ∈ target, t.mode ≠ .default)
    (h : classify standard name value target isOption = .ok (some i)) : i.isWellTyped = true := by
  simp only [classify] at h
  split at h
  · obtain ⟨j, hj, h⟩ := bind_eq_ok.1 h
    cases pure_eq_ok.1 h
    refine Command.isWellTyped_instruction ?_ hj
    cases target with
    | none => decide
    | some t => exact htarget t rfl
  · obtain ⟨e, he, h⟩ := bind_eq_ok.1 h
    cases e with
    | some e =>
      cases pure_eq_ok.1 h
      exact isInterpolated_of_interpolation? he
    | none =>
      have h := pure_eq_ok.1 h
      split at h
      · cases h
        rfl
      · cases h

namespace Compiler

variable {c : Compiler}

/-- The binding of a `let` is well typed, whether its value is an expression or a string. -/
theorem isWellTyped_letBinding (hreader : c.reader = standard) {a : Attribute} {i : Instruction}
    (h : c.letBinding a = .ok i) : i.isWellTyped = true := by
  unfold letBinding at h
  rw [hreader] at h
  generalize splitCommand a.name = cut at h
  obtain ⟨target, _ | suffix⟩ := cut
  · obtain ⟨e, he, h⟩ := bind_eq_ok.1 h
    cases pure_eq_ok.1 h
    cases e with
    | none => rfl
    | some e => simp [Instruction.isWellTyped, isInterpolated_of_interpolation? he]
  · obtain ⟨e, he, h⟩ := bind_eq_ok.1 h
    cases pure_eq_ok.1 h
    simp [Instruction.isWellTyped, isEvaluable_of_property he]

/-- Every place where instructions are made passes the right kind of expression and a mode that is chosen. -/
theorem InstructionRule.isWellTyped (hreader : c.reader = standard) {i : Instruction} (h : c.InstructionRule i) :
    i.isWellTyped = true := by
  cases h with
  | text h =>
    rw [hreader] at h
    exact isInterpolated_of_interpolation? h
  | letBinding h => exact isWellTyped_letBinding hreader h
  | ofAttribute h =>
    cases h with
    | reference h =>
      obtain ⟨target, -, h⟩ := bind_eq_ok.1 h
      obtain ⟨e, he, h⟩ := bind_eq_ok.1 h
      cases pure_eq_ok.1 h
      rw [hreader] at he
      exact isEvaluable_of_property he
    | hydrate => rfl
    | plain h =>
      rw [hreader] at h
      exact isWellTyped_classify (by simp) h
  | bound h =>
    obtain ⟨name, value, target, isOption, htarget, h⟩ := h
    rw [hreader] at h
    refine isWellTyped_classify (fun t ht => ?_) h
    obtain ⟨r, b, rfl⟩ := htarget t ht
    exact r.resolveMode_ne_default b
  | controller | letElement | element | setProperty => rfl

/-- A compiled template keeps to the rules of a root. -/
theorem rootRule_compile {source : String} {d : Definition} (h : c.compile source = .ok d) : c.RootRule d := by
  simp only [compile] at h
  split at h
  · exact rootRule_compileRoot h
  · cases h

/-- With the standard reader, every instruction of a compiled template is well typed: in groups, for the host, inside
other instructions, and in nested definitions and parts. -/
theorem compile_isWellTyped {resources : Resolver} {config : Config} {source : String} {d : Definition}
    (h : ({ resources, config } : Compiler).compile source = .ok d) :
    ∀ i, d.Emits i → i.isWellTyped = true :=
  fun _ hi => ((rootRule_compile h).emits hi).isWellTyped rfl

/-- An iteration over a pattern, around a text and a `let` element. -/
def boundSource : String :=
  "<p repeat.for=\"[k, v] of xs\" a.bind=\"-k\">$\x7bv\x7d<let m.bind=v></let></p>"

/-- The theorem at an iteration over a pattern, around a text and a `let`. -/
theorem compile_boundSource_isWellTyped :
    ∃ d, ({ resources := Registry.builtin.resolver } : Compiler).compile boundSource = .ok d ∧
      d.groups.length = 1 ∧ ∀ i, d.Emits i → i.isWellTyped = true := by
  obtain ⟨d, hd, hlength⟩ := exists_eq_ok (f := fun d : Definition => d.groups.length) (b := 1)
    (x := ({ resources := Registry.builtin.resolver } : Compiler).compile boundSource) (by decide +kernel)
  exact ⟨d, hd, hlength, compile_isWellTyped hd⟩

end Compiler

end ViewTemplate
