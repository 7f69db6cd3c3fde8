import ViewTemplate.Text.CharClass

/-!
# What encloses a place of a text

Some marks count only where no quotation mark and no brace is open: the brace that closes an interpolation, and the
semicolon that ends an option.  What encloses a place is known from the characters before it.

* `Enclosure` — the quotation mark and the number of braces that are open; `Enclosure.after` — behind some characters.
* `Enclosure.Avoids` — a mark does not stand outside all quotation marks and braces.
-/

namespace ViewTemplate.Text

/-- What encloses a place: the quotation mark that is open, if any, and the number of braces that are. -/
structure Enclosure where
  quote : Option Char
  depth : Nat
  deriving DecidableEq

namespace Enclosure

/-- No quotation mark and no brace is open. -/
def outside : Enclosure :=
  ⟨none, 0⟩

/-- What encloses the place behind a character.  In quotation marks only the mark that closes them counts; a brace
that closes nothing is taken for any other character. -/
def step (e : Enclosure) (c : Char) : Enclosure :=
  match e.quote with
  | some q => if c = q then { e with quote := none } else e
  | none =>
    if isQuote c then { e with quote := some c }
    else if c = '\x7b' then { e with depth := e.depth + 1 }
    else if c = '\x7d' then { e with depth := e.depth - 1 }
    else e

/-- What encloses the place behind some characters. -/
def after (e : Enclosure) (cs : List Char) : Enclosure :=
  cs.foldl step e

/-- Behind nothing the enclosure is what it was. -/
@[simp]
theorem after_nil (e : Enclosure) : e.after [] = e := rfl

/-- Behind a character the enclosure goes on from its step. -/
@[simp]
theorem after_cons (e : Enclosure) (c : Char) (cs : List Char) : e.after (c :: cs) = (e.step c).after cs := rfl

/-- Behind characters that are put together. -/
theorem after_append (e : Enclosure) (cs ds : List Char) : e.after (cs ++ ds) = (e.after cs).after ds :=
  List.foldl_append

/-- Where no quotation mark is open, only quotation marks and braces change what encloses a place. -/
theorem after_of_plain {cs : List Char} (h : ∀ c ∈ cs, isQuote c = false ∧ c ≠ '\x7b' ∧ c ≠ '\x7d') (depth : Nat) :
    after ⟨none, depth⟩ cs = ⟨none, depth⟩ := by
  induction cs with
  | nil => rfl
  | cons c cs ih =>
    obtain ⟨⟨hquote, hopen, hclose⟩, hmore⟩ := List.forall_mem_cons.1 h
    have hstep : step ⟨none, depth⟩ c = ⟨none, depth⟩ := by simp [step, hquote, hopen, hclose]
    rw [after_cons, hstep]
    exact ih hmore

/-- None of the marks `mark` among the characters stands outside all quotation marks and braces. -/
def Avoids (e : Enclosure) (mark : Char) (cs : List Char) : Prop :=
  ∀ before rest, cs = before ++ mark :: rest → e.after before ≠ outside

variable {e : Enclosure} {mark c : Char} {cs ds : List Char}

/-- A mark is avoided where there is nothing. -/
theorem avoids_nil (e : Enclosure) (mark : Char) : e.Avoids mark [] := by
  intro before rest h
  exact absurd h.symm (by simp)

/-- A mark is avoided from here on exactly if it is avoided at the first character and behind it. -/
theorem avoids_cons : e.Avoids mark (c :: cs) ↔ (c = mark → e ≠ outside) ∧ (e.step c).Avoids mark cs := by
  constructor
  · intro h
    refine ⟨?_, fun before rest hcs => h (c :: before) rest (by rw [hcs, List.cons_append])⟩
    rintro rfl
    exact h [] cs rfl
  · rintro ⟨hfirst, hmore⟩ before rest h
    rcases List.cons_eq_append_iff.1 h with ⟨rfl, hmark⟩ | ⟨before, rfl, hcs⟩
    · exact hfirst (List.cons.inj hmark).1.symm
    · exact hmore before rest hcs

/-- A mark is avoided in characters that are put together exactly if it is in each part. -/
theorem avoids_append : e.Avoids mark (cs ++ ds) ↔ e.Avoids mark cs ∧ (e.after cs).Avoids mark ds := by
  induction cs generalizing e with
  | nil => simp [avoids_nil]
  | cons c cs ih => rw [List.cons_append, avoids_cons, avoids_cons, ih, after_cons, and_assoc]

/-- A mark that does not occur is avoided. -/
theorem avoids_of_notMem (h : mark ∉ cs) : e.Avoids mark cs := by
  rintro before rest rfl
  exact absurd (List.mem_append_right before List.mem_cons_self) h

instance decidableAvoids (mark : Char) : (e : Enclosure) → (cs : List Char) → Decidable (e.Avoids mark cs)
  | e, [] => .isTrue (avoids_nil e mark)
  | e, c :: cs =>
    have := decidableAvoids mark (e.step c) cs
    decidable_of_iff _ avoids_cons.symm

end Enclosure

end ViewTemplate.Text
