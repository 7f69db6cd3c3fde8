/-!
# Ordered tables

A table maps texts to values and remembers the order in which its keys first came.  A later value under
the same key takes the earlier value's place.
-/

namespace ViewTemplate

/-- A table from texts to values, in the order of first insertion. -/
structure Table (α : Type) where
  entries : List (String × α) := []
  deriving Inhabited

namespace Table

variable {α : Type}

/-- Puts a value under a key: in the place of the value it replaces, or else at the end. -/
def insertEntry (key : String) (value : α) : List (String × α) → List (String × α)
  | [] => [(key, value)]
  | (k, v) :: rest =>
    if k = key then (key, value) :: rest else (k, v) :: insertEntry key value rest

/-- The first value under a key. -/
def lookupIn? (key : String) : List (String × α) → Option α
  | [] => none
  | (k, v) :: rest => if k = key then some v else lookupIn? key rest

/-- The empty table. -/
def empty : Table α :=
  {}

/-- Puts a value under a key. -/
def insert (t : Table α) (key : String) (value : α) : Table α :=
  ⟨insertEntry key value t.entries⟩

/-- The value under a key. -/
def get? (t : Table α) (key : String) : Option α :=
  lookupIn? key t.entries

/-- The number of keys. -/
def size (t : Table α) : Nat :=
  t.entries.length

/-- The values, in the order of their keys. -/
def values (t : Table α) : List α :=
  t.entries.map (·.2)

/-- The table with every value changed. -/
def mapValues (f : α → α) (t : Table α) : Table α :=
  ⟨t.entries.map fun (key, value) => (key, f value)⟩

/-- What is found after an insertion: the new value under its key, and otherwise what was there. -/
theorem lookupIn?_insertEntry (key other : String) (value : α) (entries : List (String × α)) :
    lookupIn? other (insertEntry key value entries)
      = if key = other then some value else lookupIn? other entries := by
  induction entries with
  | nil => simp [insertEntry, lookupIn?]
  | cons entry rest ih =>
    obtain ⟨k, v⟩ := entry
    simp only [insertEntry]
    split
    · next h => subst h; by_cases h : k = other <;> simp [lookupIn?, h]
    · next h =>
      simp only [lookupIn?, ih]
      by_cases hk : k = other
      · subst hk
        simp [Ne.symm h]
      · simp [hk]

/-- A lookup sees the value inserted last under its key. -/
theorem get?_insert (t : Table α) (key other : String) (value : α) :
    (t.insert key value).get? other = if key = other then some value else t.get? other :=
  lookupIn?_insertEntry key other value t.entries

end Table

end ViewTemplate
