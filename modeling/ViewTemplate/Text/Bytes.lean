/-!
# Byte offsets into a text

Positions are counted in bytes of the UTF-8 form, while texts are lists of characters.  An offset that
falls inside a character cuts the text nowhere: `splitAtByte` then has no result.
-/

namespace ViewTemplate.Text

/-- The number of bytes that the characters take in UTF-8. -/
def byteLength : List Char → Nat
  | [] => 0
  | c :: cs => c.utf8Size + byteLength cs

/-- No characters take no bytes. -/
@[simp]
theorem byteLength_nil : byteLength [] = 0 := rfl

/-- The first character takes its bytes, and the others theirs. -/
@[simp]
theorem byteLength_cons (c : Char) (cs : List Char) :
    byteLength (c :: cs) = c.utf8Size + byteLength cs := rfl

/-- Characters that are put together take their bytes together. -/
@[simp]
theorem byteLength_append (xs ys : List Char) :
    byteLength (xs ++ ys) = byteLength xs + byteLength ys := by
  induction xs with
  | nil => simp
  | cons c cs ih => simp [ih, Nat.add_assoc]

/-- The characters that lie wholly within the first `n` bytes. -/
def takeBytes (n : Nat) : List Char → List Char
  | [] => []
  | c :: cs => if c.utf8Size ≤ n then c :: takeBytes (n - c.utf8Size) cs else []

/-- The fewest leading characters that fill `n` bytes, or all of them. -/
def takeCovering : Nat → List Char → List Char
  | 0, _ => []
  | _ + 1, [] => []
  | n + 1, c :: cs => c :: takeCovering (n + 1 - c.utf8Size) cs

/-- Cuts the characters after `n` bytes, if that is a character boundary. -/
def splitAtByte (n : Nat) : List Char → Option (List Char × List Char)
  | [] => if n = 0 then some ([], []) else none
  | c :: cs =>
    if n = 0 then some ([], c :: cs)
    else if c.utf8Size ≤ n then
      (splitAtByte (n - c.utf8Size) cs).map fun (before, after) => (c :: before, after)
    else none

/-- Both parts of a cut put together are the whole, and the first has the length asked for. -/
theorem splitAtByte_eq_some {n : Nat} {cs before after : List Char}
    (h : splitAtByte n cs = some (before, after)) : before ++ after = cs ∧ byteLength before = n := by
  induction cs generalizing n before with
  | nil =>
    simp only [splitAtByte] at h
    split at h <;> simp_all
  | cons c cs ih =>
    simp only [splitAtByte] at h
    split at h
    · simp_all
    · split at h
      · obtain ⟨⟨b, a⟩, hcut, heq⟩ := Option.map_eq_some_iff.1 h
        cases heq
        obtain ⟨happ, hlen⟩ := ih hcut
        refine ⟨by simp [happ], ?_⟩
        simp only [byteLength_cons, hlen]
        omega
      · simp at h

/-- A text can be cut where one part of it ends. -/
theorem splitAtByte_append (xs ys : List Char) : splitAtByte (byteLength xs) (xs ++ ys) = some (xs, ys) := by
  induction xs with
  | nil => cases ys <;> simp [splitAtByte]
  | cons c cs ih =>
    have hpos := c.utf8Size_pos
    rw [List.cons_append, byteLength_cons, splitAtByte, if_neg (by omega), if_pos (Nat.le_add_right _ _),
      Nat.add_sub_cancel_left, ih]
    rfl

/-- The characters between two byte offsets, if both are character boundaries in order. -/
def sliceBytes (start stop : Nat) (cs : List Char) : Option (List Char) :=
  if start ≤ stop then do
    let (_, after) ← splitAtByte start cs
    let (between, _) ← splitAtByte (stop - start) after
    return between
  else none

/-- A part of a text is what lies between the offsets of its ends. -/
theorem sliceBytes_append (xs ys zs : List Char) :
    sliceBytes (byteLength xs) (byteLength (xs ++ ys)) (xs ++ (ys ++ zs)) = some ys := by
  have hlength : byteLength (xs ++ ys) - byteLength xs = byteLength ys := by
    rw [byteLength_append, Nat.add_sub_cancel_left]
  rw [sliceBytes, if_pos (by rw [byteLength_append]; omega), splitAtByte_append, hlength]
  simp [splitAtByte_append]

end ViewTemplate.Text
