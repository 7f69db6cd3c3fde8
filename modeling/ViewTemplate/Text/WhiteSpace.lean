import ViewTemplate.Text.CodePoints

/-!
# White space

The Unicode property *White_Space*, and the operations on texts that are decided by it: trimming,
cutting a text into words, and telling a blank text.
-/

namespace ViewTemplate.Text

/-- The white-space code points. -/
def whiteSpaceCodePoints : CodePoints := [
  (0x9, 0xd), (0x20, 0x20), (0x85, 0x85), (0xa0, 0xa0), (0x1680, 0x1680), (0x2000, 0x200a),
  (0x2028, 0x2029), (0x202f, 0x202f), (0x205f, 0x205f), (0x3000, 0x3000)]

/-- Whether `c` is white space. -/
def isWhiteSpace (c : Char) : Bool :=
  whiteSpaceCodePoints.holds c

/-- The characters without the white space at their end. -/
def trimEndChars (cs : List Char) : List Char :=
  (cs.reverse.dropWhile isWhiteSpace).reverse

/-- The characters without the white space at either end. -/
def trimChars (cs : List Char) : List Char :=
  trimEndChars (cs.dropWhile isWhiteSpace)

/-- The text without the white space at its end. -/
def trimEnd (s : String) : String :=
  String.ofList (trimEndChars s.toList)

/-- Whether the text holds nothing but white space. -/
def isBlank (s : String) : Bool :=
  s.toList.all isWhiteSpace

/-! ### Cutting a text into pieces -/

/-- The pieces between the characters that satisfy `cut`; there is one more piece than there are
cuts. -/
def piecesBy (cut : Char → Bool) : List Char → List (List Char)
  | [] => [[]]
  | c :: cs =>
    if cut c then [] :: piecesBy cut cs
    else match piecesBy cut cs with
      | [] => [[c]]
      | piece :: pieces => (c :: piece) :: pieces

/-- There is always one piece at least. -/
theorem piecesBy_ne_nil (cut : Char → Bool) (cs : List Char) : piecesBy cut cs ≠ [] := by
  cases cs with
  | nil => simp [piecesBy]
  | cons c cs =>
    rw [piecesBy]
    split
    · simp
    · split <;> simp

/-- The maximal runs of characters that are not white space. -/
def wordChars (cs : List Char) : List (List Char) :=
  (piecesBy isWhiteSpace cs).filter (!·.isEmpty)

/-- The words of a text, in order. -/
def words (s : String) : List String :=
  (wordChars s.toList).map String.ofList

end ViewTemplate.Text
