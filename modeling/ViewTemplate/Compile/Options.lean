import ViewTemplate.Compile.Classify
import ViewTemplate.Text.CharClass

/-!
# Custom attributes

The value of a custom attribute goes to its primary bindable.  If the attribute allows it, the value may
instead be a list of options, `a: x; b.bind: y`, each of which goes to a bindable of its own.

* `splitOptions` — the options of a value, names with values; semicolons in quotes or braces do not divide.
* `Compiler.options` — the instructions of options, up to the first one that is not known.
* `Compiler.customAttribute` — the instructions of one custom attribute.
-/

namespace ViewTemplate

open ViewTemplate.Text

/-! ### Lists of options -/

/-- Whether a colon comes before any interpolation. -/
def colonComesFirst : List Char → Bool
  | [] => false
  | ':' :: _ => true
  | '$' :: '\x7b' :: _ => false
  | _ :: cs => colonComesFirst cs

/-- Whether a value is a list of options. -/
def isOptionList (value : String) : Bool :=
  colonComesFirst value.toList

/-- Puts a character in front of the first segment. -/
def consFirst (c : Char) : List (List Char) → List (List Char)
  | [] => [[c]]
  | segment :: segments => (c :: segment) :: segments

/-- The segments between the semicolons that stand outside quotes and braces.  `quote` is the quotation
mark that is open and `depth` the number of braces that are. -/
def optionSegments (quote : Option Char) (depth : Nat) : List Char → List (List Char)
  | [] => [[]]
  | c :: cs =>
    match quote with
    | some q => consFirst c (optionSegments (if c = q then none else some q) depth cs)
    | none =>
      if isQuote c then consFirst c (optionSegments (some c) depth cs)
      else if c = '\x7b' then consFirst c (optionSegments none (depth + 1) cs)
      else if c = '\x7d' then consFirst c (optionSegments none (depth - 1) cs)
      else if c = ';' && depth = 0 then [] :: optionSegments none depth cs
      else consFirst c (optionSegments none depth cs)

/-- The name and the value of an option. -/
def readOption (segment : List Char) : Except CompileError (String × String) :=
  match segment.dropWhile (· ≠ ':') with
  | [] => .error (.missingColon (String.ofList (trimChars segment)))
  | _ :: value =>
    .ok (String.ofList (trimChars (segment.takeWhile (· ≠ ':'))), String.ofList (trimChars value))

/-- The options of the segments, blank ones left out. -/
def readOptions : List (List Char) → Except CompileError (List (String × String))
  | [] => .ok []
  | segment :: segments =>
    if segment.all isWhiteSpace then readOptions segments
    else do
      let option ← readOption segment
      let options ← readOptions segments
      return option :: options

/-- The options of a value, names with values, in order. -/
def splitOptions (value : String) : Except CompileError (List (String × String)) :=
  readOptions (optionSegments none 0 value.toList)

/-! ### Instructions -/

/-- Whether the name of an option has a command that there is not, or more than a target and a
command. -/
def isUnknownOption (name : String) : Bool :=
  let (target, suffix) := splitCommand name
  suffix.any (fun s => (Command.ofName? s).isNone) || target.toList.contains '.'

namespace Compiler

/-- The instructions of the options of a custom attribute. -/
def options (c : Compiler) (r : Resource) : List (String × String) → Except CompileError (List Instruction)
  | [] => .ok []
  | (name, value) :: rest =>
    if isUnknownOption name then .error (.unknownOption r.name name)
    else do
      let target := (r.findBindable? (splitCommand name).1).map (BindTarget.ofBindable r)
      let i ← classify c.reader name value target true
      let is ← c.options r rest
      return i.toList ++ is

/-- The instructions of a custom attribute.  Only an attribute without a command is read as a list of
options. -/
def customAttribute (c : Compiler) (r : Resource) (name value : String) :
    Except CompileError (List Instruction) :=
  if (splitCommand name).2.isNone && r.hasDynamicOptions && isOptionList value then do
    let options ← splitOptions value
    c.options r options
  else do
    let i ← classify c.reader name value (some (.ofBindable r r.primaryBindable)) false
    return i.toList

end Compiler

end ViewTemplate
