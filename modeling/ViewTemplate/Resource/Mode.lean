import ViewTemplate.Text.Hexadecimal
import ViewTemplate.Text.WhiteSpace

/-!
# Binding modes

The direction in which a property binding carries data.  A mode is a set of eight flags, of which four
have a meaning; the written form names those and gives the others as a number.
-/

namespace ViewTemplate

open ViewTemplate.Text

/-- A set of directions, one flag to a bit. -/
structure BindingMode where
  bits : UInt8
  deriving Repr, DecidableEq, Inhabited

namespace BindingMode

/-- Data flows once, when the view is bound. -/
def oneTime : BindingMode := ⟨1⟩

/-- Data flows to the view. -/
def toView : BindingMode := ⟨2⟩

/-- Data flows from the view. -/
def fromView : BindingMode := ⟨4⟩

/-- Data flows both ways. -/
def twoWay : BindingMode := ⟨6⟩

/-- The mode is left to the resource that owns the property. -/
def default : BindingMode := ⟨8⟩

/-- The name of a mode, and `mixed` for a set of flags that has none. -/
def name (m : BindingMode) : String :=
  if m = oneTime then "oneTime"
  else if m = toView then "toView"
  else if m = fromView then "fromView"
  else if m = twoWay then "twoWay"
  else if m = default then "default"
  else "mixed"

/-! ### The written form -/

/-- The flags that have a name, in the order in which they are written. -/
def flagNames : List (BindingMode × String) :=
  [(oneTime, "ONE_TIME"), (toView, "TO_VIEW"), (fromView, "FROM_VIEW"), (default, "DEFAULT")]

/-- The names that can be read: those of single flags, and one for both directions. -/
def readableNames : List (String × BindingMode) :=
  [("ONE_TIME", oneTime), ("TO_VIEW", toView), ("FROM_VIEW", fromView), ("TWO_WAY", twoWay),
    ("DEFAULT", default)]

/-- The union of two modes. -/
def union (m n : BindingMode) : BindingMode :=
  ⟨m.bits ||| n.bits⟩

/-- Whether all flags of `n` are flags of `m`. -/
def has (m n : BindingMode) : Bool :=
  m.bits &&& n.bits = n.bits

/-- A number in hexadecimal digits. -/
def hexText (n : Nat) : String :=
  "0x" ++ String.ofList (Nat.toDigits 16 n)

/-- The written form: the names of the flags, then the flags without a name as one number. -/
def text (m : BindingMode) : String :=
  let named := (flagNames.filter fun (flag, _) => m.has flag).map (·.2)
  let unnamed := m.bits &&& 0xf0
  " | ".intercalate (if unnamed = 0 then named else named ++ [hexText unnamed.toNat])

/-- Reads the digits of a number that fits in eight bits; a plus sign may stand before them. -/
def readHex? (cs : List Char) : Option BindingMode :=
  let digits := match cs with
    | '+' :: rest => rest
    | cs => cs
  (hexValue? digits).bind fun n => if n < 256 then some ⟨UInt8.ofNat n⟩ else none

/-- Reads one piece of a written mode. -/
def readPiece? (cs : List Char) : Option BindingMode :=
  match cs with
  | [] => none
  | '0' :: 'x' :: digits => readHex? digits
  | cs => (readableNames.find? fun (name, _) => name.toList = cs).map (·.2)

/-- Reads the pieces of a written mode and takes their union. -/
def readPieces? : List (List Char) → Option BindingMode
  | [] => some ⟨0⟩
  | piece :: pieces => do
    let m ← readPiece? (trimChars piece)
    let n ← readPieces? pieces
    return m.union n

/-- Reads a written mode: names and numbers with bars between them, or nothing at all. -/
def ofText? (s : String) : Option BindingMode :=
  if isBlank s then some ⟨0⟩
  else readPieces? (piecesBy (· = '|') s.toList)

end BindingMode

end ViewTemplate
