import ViewTemplate.Markup.Node

/-!
# Classes of marked elements

A class that is one word is there once it has been added, and nothing else is.  Adding it changes the value of the
first `class` attribute, or adds one at the end, and leaves everything else as it is.

* `wordChars_append_space` — white space divides words; `wordChars_trimEndChars` — at the end it does not count.
* `words_addClassName` — the words of a value with a class added.
* `addClassTo_cases` — where the class goes among the attributes.
* `Tag.classes_addClass`, `Tag.hasClass_addClass` — an added class is there.
* `Element.addClass_changes` — all that adding a class to an element does.
-/

namespace ViewTemplate

namespace Text

/-! ### Words -/

/-- A cut divides the pieces before it from those after it. -/
theorem piecesBy_append_cut {cut : Char → Bool} {w : Char} (hw : cut w = true) (ys : List Char) :
    (xs : List Char) → piecesBy cut (xs ++ w :: ys) = piecesBy cut xs ++ piecesBy cut ys
  | [] => by simp [piecesBy, hw]
  | c :: xs => by
    have ih := piecesBy_append_cut hw ys xs
    obtain ⟨p, ps, hps⟩ := List.exists_cons_of_ne_nil (piecesBy_ne_nil cut xs)
    rw [List.cons_append, piecesBy, piecesBy, ih, hps]
    split <;> simp

/-- Without cuts there is one piece. -/
theorem piecesBy_eq_singleton {cut : Char → Bool} :
    (cs : List Char) → (∀ c ∈ cs, cut c = false) → piecesBy cut cs = [cs]
  | [], _ => rfl
  | c :: cs, h => by
    have ih := piecesBy_eq_singleton cs fun d hd => h d (List.mem_cons_of_mem c hd)
    rw [piecesBy, ih, h c List.mem_cons_self]
    rfl

/-- White space divides words. -/
theorem wordChars_append_space {w : Char} (hw : isWhiteSpace w = true) (xs ys : List Char) :
    wordChars (xs ++ w :: ys) = wordChars xs ++ wordChars ys := by
  unfold wordChars
  rw [piecesBy_append_cut hw, List.filter_append]

/-- The texts that are one word. -/
def IsWord (s : String) : Prop :=
  s ≠ "" ∧ ∀ c ∈ s.toList, isWhiteSpace c = false

instance (s : String) : Decidable (IsWord s) :=
  @instDecidableAnd _ _ _ (List.decidableBAll _ _)

/-- A word is the only one of its text. -/
theorem IsWord.wordChars_toList {s : String} (h : IsWord s) : wordChars s.toList = [s.toList] := by
  unfold wordChars
  rw [piecesBy_eq_singleton _ h.2]
  simp [h.1]

/-- A word is its only word. -/
theorem IsWord.words_eq {s : String} (h : IsWord s) : words s = [s] := by
  unfold words
  rw [h.wordChars_toList]
  simp

/-- White space has no words in it. -/
theorem wordChars_eq_nil : (cs : List Char) → (∀ c ∈ cs, isWhiteSpace c = true) → wordChars cs = []
  | [], _ => rfl
  | c :: cs, h => by
    obtain ⟨hc, hcs⟩ := List.forall_mem_cons.1 h
    have hcut : wordChars (c :: cs) = wordChars [] ++ wordChars cs := wordChars_append_space hc [] cs
    rw [hcut, wordChars_eq_nil cs hcs]
    rfl

/-- White space at the end does not change the words. -/
theorem wordChars_trimEndChars (cs : List Char) : wordChars (trimEndChars cs) = wordChars cs := by
  have hsplit : trimEndChars cs ++ (cs.reverse.takeWhile isWhiteSpace).reverse = cs := by
    rw [trimEndChars, ← List.reverse_append, List.takeWhile_append_dropWhile, List.reverse_reverse]
  have hspace : ∀ c ∈ (cs.reverse.takeWhile isWhiteSpace).reverse, isWhiteSpace c = true :=
    fun c hc => List.all_eq_true.1 List.all_takeWhile c (List.mem_reverse.1 hc)
  generalize (cs.reverse.takeWhile isWhiteSpace).reverse = trimmed at hsplit hspace
  calc wordChars (trimEndChars cs) = wordChars (trimEndChars cs ++ trimmed) := by
        cases trimmed with
        | nil => rw [List.append_nil]
        | cons w ws =>
          obtain ⟨hw, hws⟩ := List.forall_mem_cons.1 hspace
          rw [wordChars_append_space hw, wordChars_eq_nil ws hws, List.append_nil]
    _ = wordChars cs := by rw [hsplit]

end Text

namespace Markup

open Text

/-! ### Adding a class -/

/-- A class that is there is not added again. -/
theorem addClassName_of_mem {c value : String} (h : c ∈ words value) : addClassName c value = value :=
  if_pos h

/-- A value keeps its words when a class is added, which comes last unless it was among them. -/
theorem words_addClassName {c : String} (h : IsWord c) (value : String) :
    words (addClassName c value) = if c ∈ words value then words value else words value ++ [c] := by
  unfold addClassName
  split
  · rfl
  · split
    · next hblank =>
      have hnone : words value = [] := by
        unfold words
        rw [wordChars_eq_nil _ (List.all_eq_true.1 hblank)]
        rfl
      rw [h.words_eq, hnone]
      rfl
    · have hlist : (trimEnd value ++ " " ++ c).toList = trimEndChars value.toList ++ ' ' :: c.toList := by
        simp [trimEnd]
      unfold words
      rw [hlist, wordChars_append_space (by decide), wordChars_trimEndChars, h.wordChars_toList]
      simp

/-- An added class is among the words. -/
theorem mem_words_addClassName {c : String} (h : IsWord c) (value : String) :
    c ∈ words (addClassName c value) := by
  rw [words_addClassName h]
  split
  · assumption
  · exact List.mem_append_right _ (List.mem_singleton_self c)

/-- The class goes into the first `class` attribute, or into one behind all others if there is none. -/
theorem addClassTo_cases (c : String) : (as : List Attribute) →
    (∃ before a after, as = before ++ a :: after ∧ (∀ b ∈ before, b.name ≠ "class") ∧ a.name = "class" ∧
        addClassTo c as = before ++ { a with value := addClassName c a.value } :: after) ∨
      (∀ a ∈ as, a.name ≠ "class") ∧ addClassTo c as = as ++ [{ name := "class", value := c }]
  | [] => .inr ⟨nofun, rfl⟩
  | a :: as => by
    rw [addClassTo]
    split
    · next ha => exact .inl ⟨[], a, as, rfl, nofun, ha, rfl⟩
    · next ha =>
      obtain ⟨before, b, after, rfl, hbefore, hb, heq⟩ | ⟨hnone, heq⟩ := addClassTo_cases c as
      · exact .inl ⟨a :: before, b, after, rfl, List.forall_mem_cons.2 ⟨ha, hbefore⟩, hb, by rw [heq]; rfl⟩
      · exact .inr ⟨List.forall_mem_cons.2 ⟨ha, hnone⟩, by rw [heq]; rfl⟩

/-- A class that has been added is not added again. -/
theorem addClassTo_addClassTo {c : String} (h : IsWord c) : (as : List Attribute) →
    addClassTo c (addClassTo c as) = addClassTo c as
  | [] => by
    have hself : addClassName c c = c := addClassName_of_mem (by rw [h.words_eq]; exact List.mem_singleton_self c)
    simp [addClassTo, hself]
  | a :: as => by
    by_cases ha : a.name = "class"
    · simp [addClassTo, ha, addClassName_of_mem (mem_words_addClassName h a.value)]
    · simp [addClassTo, ha, addClassTo_addClassTo h as]

namespace Tag

/-- The classes are the words of the first `class` attribute. -/
theorem hasClass_eq_true_iff {t : Tag} {c : String} :
    t.hasClass c = true ↔ ∃ a, t.attributes.find? (·.name = "class") = some a ∧ c ∈ words a.value := by
  unfold hasClass classes value? attribute?
  cases t.attributes.find? (·.name = "class") with
  | none => simp
  | some a => simp

/-- Without the class in any `class` attribute the tag does not have it. -/
theorem hasClass_eq_false {t : Tag} {c : String}
    (h : ∀ a ∈ t.attributes, a.name = "class" → c ∉ words a.value) : t.hasClass c = false := by
  rw [Bool.eq_false_iff]
  intro hhas
  obtain ⟨a, ha, hmem⟩ := hasClass_eq_true_iff.1 hhas
  exact h a (List.mem_of_find?_eq_some ha) (by simpa using List.find?_some ha) hmem

/-- The classes of a tag are those of its first attribute named `class`. -/
theorem classes_of_first {t : Tag} {before after : List Attribute} {a : Attribute}
    (h : t.attributes = before ++ a :: after) (hbefore : ∀ b ∈ before, b.name ≠ "class") (ha : a.name = "class") :
    t.classes = words a.value := by
  have hnone : before.find? (·.name = "class") = none := by simpa using hbefore
  simp [classes, value?, attribute?, h, hnone, ha]

/-- Without an attribute named `class` a tag has no classes. -/
theorem classes_of_none {t : Tag} (h : ∀ a ∈ t.attributes, a.name ≠ "class") : t.classes = [] := by
  have hnone : t.attributes.find? (·.name = "class") = none := by simpa using h
  simp [classes, value?, attribute?, hnone]

/-- A tag keeps its classes when one is added, which comes last unless it was among them. -/
theorem classes_addClass (t : Tag) {c : String} (h : IsWord c) :
    (t.addClass c).classes = if c ∈ t.classes then t.classes else t.classes ++ [c] := by
  obtain ⟨before, a, after, hattributes, hbefore, ha, heq⟩ | ⟨hnone, heq⟩ := addClassTo_cases c t.attributes
  · rw [classes_of_first (t := t.addClass c) heq hbefore ha, classes_of_first hattributes hbefore ha,
      words_addClassName h]
  · rw [classes_of_first (t := t.addClass c) heq hnone rfl, classes_of_none hnone, h.words_eq]
    rfl

/-- An added class is there. -/
theorem hasClass_addClass (t : Tag) {c : String} (h : IsWord c) : (t.addClass c).hasClass c = true := by
  rw [hasClass, List.contains_iff_mem, classes_addClass t h]
  split
  · assumption
  · exact List.mem_append_right _ (List.mem_singleton_self c)

end Tag

namespace Element

/-- The element with the class `c` added to its tag. -/
def addClass (e : Element) (c : String) : Element :=
  { e with toTag := e.toTag.addClass c }

/-- All that adding a class does to an element: the class is there, behind the classes that were there unless it was
among them; only the value of the first `class` attribute is another, or one is added behind all others if there was
none; and adding the class again does nothing. -/
theorem addClass_changes (e : Element) {c : String} (h : IsWord c) :
    (e.addClass c).hasClass c = true ∧
      (e.addClass c).classes = (if c ∈ e.classes then e.classes else e.classes ++ [c]) ∧
      (∃ attributes, e.addClass c = { e with attributes } ∧
        ((∃ before a after value, e.attributes = before ++ a :: after ∧ (∀ b ∈ before, b.name ≠ "class") ∧
            a.name = "class" ∧ attributes = before ++ { a with value } :: after) ∨
          (∀ a ∈ e.attributes, a.name ≠ "class") ∧
            attributes = e.attributes ++ [{ name := "class", value := c }])) ∧
      (e.addClass c).addClass c = e.addClass c := by
  refine ⟨e.toTag.hasClass_addClass h, e.toTag.classes_addClass h, ⟨_, rfl, ?_⟩, ?_⟩
  · obtain ⟨before, a, after, hattributes, hbefore, ha, heq⟩ | hnone := addClassTo_cases c e.attributes
    · exact .inl ⟨before, a, after, _, hattributes, hbefore, ha, heq⟩
    · exact .inr hnone
  · unfold addClass Tag.addClass
    rw [addClassTo_addClassTo h]

/-- An element with two `class` attributes, the first of them with white space around its only class. -/
def spacedClasses : Element where
  name := "p"
  attributes := [{ name := "id", value := "x" }, { name := "class", value := " a\u2003" },
    { name := "class", value := "au" }]
  children := [.text "b"]

/-- The class of the second attribute does not count. -/
theorem addClass_changes_spacedClasses :
    IsWord "au" ∧ (spacedClasses.addClass "au").classes = ["a", "au"] ∧
      (spacedClasses.addClass "au").children.length = 1 ∧
      (spacedClasses.addClass "au").addClass "au" = spacedClasses.addClass "au" := by
  have hword : IsWord "au" := by decide
  obtain ⟨-, hclasses, -, hagain⟩ := addClass_changes spacedClasses hword
  have hold : spacedClasses.classes = ["a"] := by decide +kernel
  rw [hold] at hclasses
  exact ⟨hword, hclasses, rfl, hagain⟩

end Element

end Markup

end ViewTemplate
