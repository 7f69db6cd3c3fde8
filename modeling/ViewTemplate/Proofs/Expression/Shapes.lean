import ViewTemplate.Expression.Parser

/-!
# Rules of one shape

Some rules of the grammar differ only by what they read: a list is a list, whatever its items are, and a converter is
read as a behavior is, behind another operator.  Each shape is stated once, and what is proved of a shape holds of all
the rules that have it.

* `Separates` — items with commas between them: elements and arguments, entries, declared names.
* `Encloses` — such items, or none, up to a closing mark.
* `Appends` — names with arguments after an expression: converters and behaviors.
-/

namespace ViewTemplate.Expression.Grammar

/-! ### Lists -/

/-- The rule `separated` reads items with commas between them. -/
def Separates {α : Type} (item : Nat → Read α) (separated : Nat → Read (List α)) : Prop :=
  ∀ n ts, separated (n + 1) ts = do
    let (a, ts) ← item n ts
    match skipMark? ',' ts with
    | none => .ok ([a], ts)
    | some ts => do
      let (as, ts) ← separated n ts
      .ok (a :: as, ts)

/-- The rule `enclosed` reads what `separated` does, or nothing, up to a closing mark. -/
def Encloses {α : Type} (close : Char) (separated enclosed : Nat → Read (List α)) : Prop :=
  ∀ n ts, enclosed (n + 1) ts =
    match skipMark? close ts with
    | some ts => .ok ([], ts)
    | none => do
      let (as, ts) ← separated n ts
      let ts ← expectMark close ts
      .ok (as, ts)

/-- Expressions stand with commas between them. -/
theorem separates_commaSeparated : Separates assignment commaSeparated := by
  intro n ts
  exact commaSeparated.eq_def (n + 1) ts

/-- Entries of objects stand with commas between them. -/
theorem separates_entriesSeparated : Separates objectEntry entriesSeparated := by
  intro n ts
  exact entriesSeparated.eq_def (n + 1) ts

/-- Names that are declared from an array stand with commas between them. -/
theorem separates_bindingNames : Separates (fun _ => bindingName) bindingNames := by
  intro n ts
  exact bindingNames.eq_def (n + 1) ts

/-- Names that are declared from an object stand with commas between them. -/
theorem separates_bindingEntries : Separates (fun _ => bindingEntry) bindingEntries := by
  intro n ts
  exact bindingEntries.eq_def (n + 1) ts

/-- Arguments of calls and elements of arrays stand between marks. -/
theorem encloses_elements (close : Char) : Encloses close commaSeparated (elements · close) := by
  intro n ts
  exact elements.eq_def (n + 1) close ts

/-- The entries of an object stand between braces. -/
theorem encloses_objectEntries : Encloses '\x7d' entriesSeparated objectEntries := by
  intro n ts
  exact objectEntries.eq_def (n + 1) ts

/-! ### Converters and behaviors -/

/-- The rule `after` reads any number of names with arguments after an expression, each behind `symbol`. -/
def Appends (symbol : String) (build : Expression → String → List Expression → Expression)
    (after : Nat → Expression → Read Expression) : Prop :=
  ∀ n e ts, after (n + 1) e ts =
    match skipOperator? symbol ts with
    | none => .ok (e, ts)
    | some ts => do
      let (name, ts) ← expectWord ts
      let (args, ts) ← colonArguments n ts
      after n (build e name args) ts

/-- Behaviors come after an expression. -/
theorem appends_behaviorsAfter : Appends "&" .bindingBehavior behaviorsAfter := by
  intro n e ts
  exact behaviorsAfter.eq_2 e ts n

/-- Converters come after an expression. -/
theorem appends_convertersAfter : Appends "|" .valueConverter convertersAfter := by
  intro n e ts
  exact convertersAfter.eq_2 e ts n

end ViewTemplate.Expression.Grammar
