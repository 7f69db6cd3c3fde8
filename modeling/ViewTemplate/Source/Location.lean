import ViewTemplate.Text.Bytes

/-!
# Locations and spans

A location names a place in a source text by its byte offset, and by line and column for a reader.
Lines and columns count from zero, columns in characters.  A span is the stretch between two locations;
nodes that stand for no source text have the empty span at the start.
-/

namespace ViewTemplate.Source

open ViewTemplate.Text

/-- A place in a source text. -/
structure Location where
  /-- Bytes before the place. -/
  offset : Nat := 0
  /-- Line feeds before the place. -/
  line : Nat := 0
  /-- Characters between the last line feed and the place. -/
  column : Nat := 0
  deriving Repr, DecidableEq, Inhabited

namespace Location

/-- The location after one more character. -/
def advance (l : Location) (c : Char) : Location :=
  if c = '\n' then ⟨l.offset + c.utf8Size, l.line + 1, 0⟩
  else ⟨l.offset + c.utf8Size, l.line, l.column + 1⟩

/-- The location after the characters `cs`. -/
def advanceAll (l : Location) (cs : List Char) : Location :=
  cs.foldl advance l

/-- Behind nothing the place is the same. -/
@[simp] theorem advanceAll_nil (l : Location) : l.advanceAll [] = l := rfl

/-- The place behind texts that are put together. -/
theorem advanceAll_append (l : Location) (xs ys : List Char) :
    l.advanceAll (xs ++ ys) = (l.advanceAll xs).advanceAll ys :=
  List.foldl_append

/-- The offset moves by the number of bytes passed. -/
theorem offset_advanceAll (l : Location) (cs : List Char) :
    (l.advanceAll cs).offset = l.offset + byteLength cs := by
  induction cs generalizing l with
  | nil => simp
  | cons c cs ih =>
    have h : (l.advance c).offset = l.offset + c.utf8Size := by
      unfold advance
      split <;> rfl
    show ((l.advance c).advanceAll cs).offset = _
    rw [ih, h, byteLength_cons]
    omega

/-- The location at a byte offset of `source`.  An offset past the end keeps its value and takes the
line and column of the end. -/
def ofOffset (source : String) (offset : Nat) : Location :=
  { advanceAll {} (takeBytes offset source.toList) with offset }

/-- Line and column, as messages show them. -/
def display (l : Location) : String :=
  toString l.line ++ ":" ++ toString l.column

end Location

/-- A half-open stretch of a source text. -/
structure Span where
  start : Location := {}
  stop : Location := {}
  deriving Repr, DecidableEq, Inhabited

/-- The empty span at a place. -/
def Span.point (l : Location) : Span :=
  ⟨l, l⟩

/-- The text of `source` under the span, and the empty text where the span does not fit. -/
def Span.text (s : Span) (source : String) : String :=
  match sliceBytes s.start.offset s.stop.offset source.toList with
  | some cs => String.ofList cs
  | none => ""

end ViewTemplate.Source
