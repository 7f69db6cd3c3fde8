import ViewTemplate.Expression.Basic

/-!
# Equality of expressions

Equality of expression trees is decided by comparing them from the root down (`Expression.same`).
-/

namespace ViewTemplate.Expression

mutual

/-- Whether two trees are the same. -/
def same (x y : Expression) : Bool :=
  match x with
  | .accessThis a => match y with
    | .accessThis b => a = b
    | _ => false
  | .accessScope m a => match y with
    | .accessScope n b => m = n && a = b
    | _ => false
  | .accessMember x m => match y with
    | .accessMember y n => same x y && m = n
    | _ => false
  | .accessKeyed x k => match y with
    | .accessKeyed y l => same x y && same k l
    | _ => false
  | .callScope m xs a => match y with
    | .callScope n ys b => m = n && sameAll xs ys && a = b
    | _ => false
  | .callMember x m xs => match y with
    | .callMember y n ys => same x y && m = n && sameAll xs ys
    | _ => false
  | .callFunction x xs => match y with
    | .callFunction y ys => same x y && sameAll xs ys
    | _ => false
  | .literal u => match y with
    | .literal v => u = v
    | _ => false
  | .arrayLiteral xs => match y with
    | .arrayLiteral ys => sameAll xs ys
    | _ => false
  | .objectLiteral ks xs => match y with
    | .objectLiteral ls ys => ks = ls && sameAll xs ys
    | _ => false
  | .unary m x => match y with
    | .unary n y => m = n && same x y
    | _ => false
  | .binary m x z => match y with
    | .binary n y w => m = n && same x y && same z w
    | _ => false
  | .conditional x z u => match y with
    | .conditional y w v => same x y && same z w && same u v
    | _ => false
  | .assign x z => match y with
    | .assign y w => same x y && same z w
    | _ => false
  | .valueConverter x m xs => match y with
    | .valueConverter y n ys => same x y && m = n && sameAll xs ys
    | _ => false
  | .bindingBehavior x m xs => match y with
    | .bindingBehavior y n ys => same x y && m = n && sameAll xs ys
    | _ => false
  | .interpolation ps xs => match y with
    | .interpolation qs ys => ps = qs && sameAll xs ys
    | _ => false
  | .iteration x z => match y with
    | .iteration y w => same x y && same z w
    | _ => false
  | .bindingIdentifier m => match y with
    | .bindingIdentifier n => m = n
    | _ => false
  | .arrayPattern xs => match y with
    | .arrayPattern ys => sameAll xs ys
    | _ => false
  | .objectPattern ks xs => match y with
    | .objectPattern ls ys => ks = ls && sameAll xs ys
    | _ => false

/-- Whether two lists of trees are the same. -/
def sameAll (xs ys : List Expression) : Bool :=
  match xs with
  | [] => ys.isEmpty
  | x :: xs => match ys with
    | y :: ys => same x y && sameAll xs ys
    | [] => false

end

mutual

/-- Every expression is the same as itself. -/
theorem same_self : (x : Expression) → same x x = true
  | .accessThis _ | .accessScope _ _ | .literal _ | .bindingIdentifier _ => by simp [same]
  | .accessMember x _ | .unary _ x => by simp [same, same_self x]
  | .accessKeyed x y | .binary _ x y | .assign x y | .iteration x y => by
    simp [same, same_self x, same_self y]
  | .callScope _ xs _ | .arrayLiteral xs | .objectLiteral _ xs | .interpolation _ xs
  | .arrayPattern xs | .objectPattern _ xs => by simp [same, sameAll_self xs]
  | .callMember x _ xs | .callFunction x xs | .valueConverter x _ xs | .bindingBehavior x _ xs => by
    simp [same, same_self x, sameAll_self xs]
  | .conditional x y z => by simp [same, same_self x, same_self y, same_self z]

/-- Expressions are the same as themselves. -/
theorem sameAll_self : (xs : List Expression) → sameAll xs xs = true
  | [] => by simp [sameAll]
  | x :: xs => by simp [sameAll, same_self x, sameAll_self xs]

end

mutual

/-- Expressions that compare as the same are equal. -/
theorem eq_of_same : (x y : Expression) → same x y = true → x = y
  | .accessThis _, y, h | .literal _, y, h | .bindingIdentifier _, y, h => by
    cases y <;> simp only [same, decide_eq_true_eq, Bool.false_eq_true] at h
    rw [h]
  | .accessScope _ _, y, h => by
    cases y <;> simp only [same, Bool.and_eq_true, decide_eq_true_eq, Bool.false_eq_true] at h
    rw [h.1, h.2]
  | .accessMember x _, y, h => by
    cases y <;> simp only [same, Bool.and_eq_true, decide_eq_true_eq, Bool.false_eq_true] at h
    rw [eq_of_same x _ h.1, h.2]
  | .unary _ x, y, h => by
    cases y <;> simp only [same, Bool.and_eq_true, decide_eq_true_eq, Bool.false_eq_true] at h
    rw [h.1, eq_of_same x _ h.2]
  | .accessKeyed x z, y, h | .assign x z, y, h | .iteration x z, y, h => by
    cases y <;> simp only [same, Bool.and_eq_true, Bool.false_eq_true] at h
    rw [eq_of_same x _ h.1, eq_of_same z _ h.2]
  | .binary _ x z, y, h => by
    cases y <;> simp only [same, Bool.and_eq_true, decide_eq_true_eq, Bool.false_eq_true] at h
    rw [h.1.1, eq_of_same x _ h.1.2, eq_of_same z _ h.2]
  | .conditional x z u, y, h => by
    cases y <;> simp only [same, Bool.and_eq_true, Bool.false_eq_true] at h
    rw [eq_of_same x _ h.1.1, eq_of_same z _ h.1.2, eq_of_same u _ h.2]
  | .arrayLiteral xs, y, h | .arrayPattern xs, y, h => by
    cases y <;> simp only [same, Bool.false_eq_true] at h
    rw [eq_of_sameAll xs _ h]
  | .callScope _ xs _, y, h => by
    cases y <;> simp only [same, Bool.and_eq_true, decide_eq_true_eq, Bool.false_eq_true] at h
    rw [h.1.1, eq_of_sameAll xs _ h.1.2, h.2]
  | .objectLiteral _ xs, y, h | .interpolation _ xs, y, h | .objectPattern _ xs, y, h => by
    cases y <;> simp only [same, Bool.and_eq_true, decide_eq_true_eq, Bool.false_eq_true] at h
    rw [h.1, eq_of_sameAll xs _ h.2]
  | .callFunction x xs, y, h => by
    cases y <;> simp only [same, Bool.and_eq_true, Bool.false_eq_true] at h
    rw [eq_of_same x _ h.1, eq_of_sameAll xs _ h.2]
  | .callMember x _ xs, y, h | .valueConverter x _ xs, y, h | .bindingBehavior x _ xs, y, h => by
    cases y <;> simp only [same, Bool.and_eq_true, decide_eq_true_eq, Bool.false_eq_true] at h
    rw [eq_of_same x _ h.1.1, h.1.2, eq_of_sameAll xs _ h.2]

/-- Lists of expressions that compare as the same are equal. -/
theorem eq_of_sameAll : (xs ys : List Expression) → sameAll xs ys = true → xs = ys
  | [], ys, h => by
    simp only [sameAll, List.isEmpty_iff] at h
    rw [h]
  | x :: xs, ys, h => by
    cases ys <;> simp only [sameAll, Bool.and_eq_true, Bool.false_eq_true] at h
    rw [eq_of_same x _ h.1, eq_of_sameAll xs _ h.2]

end

/-- Comparing decides equality. -/
theorem same_eq_true_iff {x y : Expression} : same x y = true ↔ x = y :=
  ⟨eq_of_same x y, fun h => h ▸ same_self x⟩

instance : DecidableEq Expression := fun _ _ =>
  decidable_of_iff _ same_eq_true_iff

end ViewTemplate.Expression
