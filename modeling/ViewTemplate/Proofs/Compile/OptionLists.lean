import Mathlib.Data.List.Forall2
import ViewTemplate.Compile.Options
import ViewTemplate.Proofs.Results
import ViewTemplate.Proofs.Text.Enclosure
import ViewTemplate.Resource.Registry

/-!
# Lists of options

The value of a custom attribute may be a list of options, `a: x; b.bind: y`.  Written down one after another, options
are read back as they were: no colon, semicolon, quotation mark or brace of a value is taken for the end of an option,
if the value closes what it opens.  They are compiled in order, each on its own, up to the first that fails.

* `splitCommand_cases` — the target and the command of a name; `IsUnknownName` — an option that there is not.
* `optionText` — the options as a value; `splitOptions_optionText` — which is read back.
* `CompilesTo`, `FailsWith` — what becomes of one option; `options_eq_ok`, `options_eq_error` — and of all of them.
* `customAttribute_optionText` — the value of a custom attribute compiles option by option.
-/

namespace ViewTemplate

open ViewTemplate.Text Enclosure

/-! ### Names with a command -/

/-- Without a period nothing is split. -/
theorem splitLastPeriod_of_notMem {cs : List Char} (h : '.' ∉ cs) : splitLastPeriod cs = none := by
  induction cs with
  | nil => rfl
  | cons c cs ih =>
    obtain ⟨hne, hmore⟩ := List.ne_and_not_mem_of_not_mem_cons h
    rw [splitLastPeriod, ih hmore]
    exact if_neg (Ne.symm hne)

/-- The last period is the one with none behind it. -/
theorem splitLastPeriod_append (before : List Char) {after : List Char} (h : '.' ∉ after) :
    splitLastPeriod (before ++ '.' :: after) = some (before, after) := by
  induction before with
  | nil =>
    rw [List.nil_append, splitLastPeriod, splitLastPeriod_of_notMem h]
    rfl
  | cons c before ih => rw [List.cons_append, splitLastPeriod, ih]

/-- A name without a period has no command. -/
theorem splitCommand_of_notMem {name : String} (h : '.' ∉ name.toList) : splitCommand name = (name, none) := by
  rw [splitCommand, splitLastPeriod_of_notMem h]

/-- The command of a name is what stands behind its last period. -/
theorem splitCommand_append (target : String) {command : String} (h : '.' ∉ command.toList) :
    splitCommand (target ++ "." ++ command) = (target, some command) := by
  have hchars : (target ++ "." ++ command).toList = target.toList ++ '.' :: command.toList := by simp
  rw [splitCommand, hchars, splitLastPeriod_append _ h]
  simp only [String.ofList_toList]

/-- A name has no command, or the command is what follows its last period. -/
theorem splitCommand_cases (name : String) :
    ('.' ∉ name.toList ∧ splitCommand name = (name, none)) ∨
    ∃ target command, name = target ++ "." ++ command ∧ '.' ∉ command.toList ∧
      splitCommand name = (target, some command) := by
  by_cases h : '.' ∈ name.toList
  · obtain ⟨after, before, hname, hafter⟩ := List.eq_append_cons_of_mem (List.mem_reverse.2 h)
    have hcut : name = String.ofList before.reverse ++ "." ++ String.ofList after.reverse := by
      apply String.toList_inj.1
      rw [← List.reverse_reverse name.toList, hname]
      simp
    have hcommand : '.' ∉ (String.ofList after.reverse).toList := by simpa using hafter
    exact .inr ⟨_, _, hcut, hcommand, hcut ▸ splitCommand_append _ hcommand⟩
  · exact .inl ⟨h, splitCommand_of_notMem h⟩

/-- What follows the last period of the name is no command, or a further period stands before it. -/
def IsUnknownName (name : String) : Prop :=
  ∃ target command, name = target ++ "." ++ command ∧ '.' ∉ command.toList ∧
    (Command.ofName? command = none ∨ '.' ∈ target.toList)

/-- The check for unknown options is the condition of that name. -/
theorem isUnknownOption_iff (name : String) : isUnknownOption name = true ↔ IsUnknownName name := by
  constructor
  · intro h
    rcases splitCommand_cases name with ⟨hnone, hsplit⟩ | ⟨target, command, hname, hcommand, hsplit⟩
    · rw [isUnknownOption, hsplit] at h
      simp [hnone] at h
    · rw [isUnknownOption, hsplit] at h
      exact ⟨target, command, hname, hcommand, by simpa using h⟩
  · rintro ⟨target, command, rfl, hcommand, hunknown⟩
    rw [isUnknownOption, splitCommand_append target hcommand]
    simpa using hunknown

/-! ### Options as text -/

/-- The options as one value. -/
def optionText (options : List (String × String)) : String :=
  "; ".intercalate (options.map fun o => o.1 ++ ": " ++ o.2)

/-- No white space stands at either end. -/
def IsTrimmed (s : String) : Prop :=
  (∀ c ∈ s.toList.head?, isWhiteSpace c = false) ∧ ∀ c ∈ s.toList.getLast?, isWhiteSpace c = false

instance (s : String) : Decidable (IsTrimmed s) :=
  decidable_of_iff (s.toList.head?.all (!isWhiteSpace ·) ∧ s.toList.getLast?.all (!isWhiteSpace ·))
    (by simp [IsTrimmed, Option.all_eq_true])

/-- The name of an option: no mark in it may end the name or the option, or keep it from ending. -/
structure IsOptionName (name : String) : Prop where
  trimmed : IsTrimmed name
  plain : ∀ c ∈ name.toList, c ≠ ':' ∧ c ≠ ';' ∧ isQuote c = false ∧ c ≠ '\x7b' ∧ c ≠ '\x7d'

instance (name : String) : Decidable (IsOptionName name) :=
  decidable_of_iff (IsTrimmed name ∧ name.toList.all fun c =>
      decide (c ≠ ':' ∧ c ≠ ';' ∧ isQuote c = false ∧ c ≠ '\x7b' ∧ c ≠ '\x7d'))
    ⟨fun h => ⟨h.1, by simpa using h.2⟩, fun h => ⟨h.trimmed, by simpa using h.plain⟩⟩

/-- The value of an option: a semicolon in it stands in quotation marks or braces, and all of these are closed. -/
structure IsOptionValue (value : String) : Prop where
  trimmed : IsTrimmed value
  avoids : outside.Avoids ';' value.toList
  closes : outside.after value.toList = outside

instance (value : String) : Decidable (IsOptionValue value) :=
  decidable_of_iff (_ ∧ _ ∧ _) ⟨fun h => ⟨h.1, h.2.1, h.2.2⟩, fun h => ⟨h.trimmed, h.avoids, h.closes⟩⟩

/-- The characters of one option. -/
def optionSegment (o : String × String) : List Char :=
  o.1.toList ++ ':' :: ' ' :: o.2.toList

/-- A single option is written as its segment. -/
theorem optionText_singleton (o : String × String) : (optionText [o]).toList = optionSegment o := by
  simp [optionText, optionSegment]

/-- Further options follow behind a semicolon and a blank. -/
theorem optionText_cons (o o' : String × String) (options : List (String × String)) :
    (optionText (o :: o' :: options)).toList =
      optionSegment o ++ ';' :: ' ' :: (optionText (o' :: options)).toList := by
  simp [optionText, optionSegment]

/-! ### Cutting a value into options -/

/-- A semicolon that nothing encloses begins another segment, and every other character stays in its own. -/
theorem optionSegments_cons (e : Enclosure) (c : Char) (cs : List Char) :
    optionSegments e.quote e.depth (c :: cs) =
      if c = ';' ∧ e = outside then [] :: optionSegments none 0 cs
      else consFirst c (optionSegments (e.step c).quote (e.step c).depth cs) := by
  obtain ⟨_ | q, depth⟩ := e
  · by_cases hquote : isQuote c = true
    · have hne : c ≠ ';' := by
        rintro rfl
        exact absurd hquote (by decide)
      simp [optionSegments, step, hquote, hne]
    · simp only [optionSegments, step, if_neg hquote]
      by_cases hopen : c = '\x7b'
      · simp [hopen]
      · by_cases hclose : c = '\x7d'
        · simp [hclose]
        · by_cases hsemicolon : c = ';' ∧ depth = 0
          · simp [hsemicolon, outside]
          · simp [hopen, hclose, hsemicolon, outside]
  · by_cases hc : c = q <;> simp [optionSegments, step, hc, outside]

/-- Characters that hold no semicolon by themselves go to the first segment. -/
theorem optionSegments_append {rest first : List Char} {more : List (List Char)}
    (hrest : optionSegments none 0 rest = first :: more) {w : List Char} : ∀ {e : Enclosure}, e.Avoids ';' w →
      e.after w = outside → optionSegments e.quote e.depth (w ++ rest) = (w ++ first) :: more := by
  induction w with
  | nil =>
    rintro e - rfl
    exact hrest
  | cons c w ih =>
    intro e havoids hafter
    obtain ⟨hfirst, hmore⟩ := avoids_cons.1 havoids
    rw [List.cons_append, optionSegments_cons, if_neg fun h => hfirst h.1 h.2, ih hmore hafter]
    rfl

/-- White space before a text and none at its ends is what is trimmed. -/
theorem trimChars_gap {gap : List Char} {s : String} (hgap : ∀ c ∈ gap, isWhiteSpace c = true) (hs : IsTrimmed s) :
    trimChars (gap ++ s.toList) = s.toList := by
  have hdrop : ∀ {cs : List Char}, (∀ c ∈ cs.head?, isWhiteSpace c = false) → cs.dropWhile isWhiteSpace = cs := by
    intro cs hcs
    rcases cs with _ | ⟨c, cs⟩
    · rfl
    · exact List.dropWhile_cons_of_neg (by simp [hcs c rfl])
  have hlast : ∀ c ∈ s.toList.reverse.head?, isWhiteSpace c = false := by
    rw [List.head?_reverse]
    exact hs.2
  rw [trimChars, List.dropWhile_append_of_pos hgap, hdrop hs.1, trimEndChars, hdrop hlast, List.reverse_reverse]

section segments

variable {gap : List Char} (hgap : ∀ c ∈ gap, c = ' ') {o : String × String} (hname : IsOptionName o.1)
  (hvalue : IsOptionValue o.2)
include hgap hname hvalue

/-- Nothing divides an option, and it closes what it opens. -/
theorem avoids_optionSegment :
    outside.Avoids ';' (gap ++ optionSegment o) ∧ outside.after (gap ++ optionSegment o) = outside := by
  have hplain : ∀ c ∈ gap ++ (o.1.toList ++ [':', ' ']), c ≠ ';' ∧ isQuote c = false ∧ c ≠ '\x7b' ∧ c ≠ '\x7d' := by
    have hmarks : ∀ c ∈ [':', ' '], c ≠ ';' ∧ isQuote c = false ∧ c ≠ '\x7b' ∧ c ≠ '\x7d' :=
      List.forall_mem_cons.2 ⟨by decide, List.forall_mem_singleton.2 (by decide)⟩
    intro c hc
    rcases List.mem_append.1 hc with hc | hc
    · exact hmarks c (by simp [hgap c hc])
    rcases List.mem_append.1 hc with hc | hc
    · exact (hname.plain c hc).2
    · exact hmarks c hc
  have hsplit : gap ++ optionSegment o = (gap ++ (o.1.toList ++ [':', ' '])) ++ o.2.toList := by
    simp [optionSegment]
  have hafter : outside.after (gap ++ (o.1.toList ++ [':', ' '])) = outside :=
    after_of_plain (fun c hc => (hplain c hc).2) 0
  rw [hsplit]
  constructor
  · rw [avoids_append, hafter]
    exact ⟨avoids_of_notMem fun hmem => (hplain _ hmem).1 rfl, hvalue.avoids⟩
  · rw [after_append, hafter]
    exact hvalue.closes

/-- A segment, with blanks in front, is read as the option that it was written for. -/
theorem readOption_optionSegment : readOption (gap ++ optionSegment o) = .ok o := by
  have hcolon : ∀ c ∈ gap ++ o.1.toList, decide (c ≠ ':') = true := by
    intro c hc
    rcases List.mem_append.1 hc with hc | hc
    · rw [hgap c hc]
      decide
    · exact decide_eq_true (hname.plain c hc).1
  have hspace : isWhiteSpace ' ' = true := by decide
  have htarget := trimChars_gap (fun c hc => by rw [hgap c hc, hspace]) hname.trimmed
  have hrest := trimChars_gap (List.forall_mem_singleton.2 hspace) hvalue.trimmed
  rw [optionSegment, ← List.append_assoc, readOption, List.dropWhile_append_of_pos hcolon,
    List.takeWhile_append_of_pos hcolon, List.dropWhile_cons_of_neg (by decide),
    List.takeWhile_cons_of_neg (by decide), List.append_nil, htarget]
  dsimp only
  rw [← List.singleton_append, hrest, String.ofList_toList, String.ofList_toList]

/-- An option is read before those that follow. -/
theorem readOptions_optionSegment (more : List (List Char)) :
    readOptions ((gap ++ optionSegment o) :: more) = (readOptions more).map (o :: ·) := by
  have hcolon : (gap ++ optionSegment o).all isWhiteSpace = false := by
    have hnot : isWhiteSpace ':' = false := by decide
    simp [optionSegment, hnot]
  rw [readOptions, hcolon, readOption_optionSegment hgap hname hvalue]
  rcases readOptions more with e | options <;> rfl

end segments

/-- Options are read back from their text. -/
theorem readOptions_optionText (options : List (String × String)) : ∀ {gap : List Char} {o : String × String},
    (∀ c ∈ gap, c = ' ') → (∀ p ∈ o :: options, IsOptionName p.1 ∧ IsOptionValue p.2) →
      readOptions (optionSegments none 0 (gap ++ (optionText (o :: options)).toList)) = .ok (o :: options) := by
  induction options with
  | nil =>
    intro gap o hgap h
    obtain ⟨hname, hvalue⟩ := h o List.mem_cons_self
    obtain ⟨havoids, hafter⟩ := avoids_optionSegment hgap hname hvalue
    have hend : optionSegments none 0 [] = [[]] := rfl
    have hcut := optionSegments_append hend havoids hafter
    rw [List.append_nil] at hcut
    rw [optionText_singleton]
    exact (congrArg readOptions hcut).trans (readOptions_optionSegment hgap hname hvalue [])
  | cons p options ih =>
    intro gap o hgap h
    obtain ⟨⟨hname, hvalue⟩, hmore⟩ := List.forall_mem_cons.1 h
    obtain ⟨havoids, hafter⟩ := avoids_optionSegment hgap hname hvalue
    have hnext : optionSegments none 0 (';' :: ' ' :: (optionText (p :: options)).toList) =
        [] :: optionSegments none 0 (' ' :: (optionText (p :: options)).toList) := rfl
    have hcut := optionSegments_append hnext havoids hafter
    rw [List.append_nil] at hcut
    rw [optionText_cons, ← List.append_assoc gap]
    refine (congrArg readOptions hcut).trans ?_
    rw [readOptions_optionSegment hgap hname hvalue]
    -- A space stands before every option but the first.
    exact congrArg (Except.map (o :: ·)) (ih (List.forall_mem_singleton.2 rfl) hmore)

/-- Splitting the text of options gives the options. -/
theorem splitOptions_optionText {options : List (String × String)} (hsome : options ≠ [])
    (h : ∀ o ∈ options, IsOptionName o.1 ∧ IsOptionValue o.2) : splitOptions (optionText options) = .ok options := by
  rcases options with _ | ⟨o, options⟩
  · exact absurd rfl hsome
  · exact readOptions_optionText options (List.forall_mem_nil _) h

/-- Where there is no opening brace before a colon, the colon comes first. -/
theorem colonComesFirst_append {cs : List Char} (h : '\x7b' ∉ cs) (rest : List Char) :
    colonComesFirst (cs ++ ':' :: rest) = true := by
  induction cs with
  | nil => rfl
  | cons c cs ih =>
    obtain ⟨-, hmore⟩ := List.ne_and_not_mem_of_not_mem_cons h
    rw [List.cons_append]
    unfold colonComesFirst
    split
    · next heq => cases heq
    · rfl
    · next heq =>
      -- A brace would be the next character of the name, or the colon.
      rcases cs with _ | ⟨d, cs⟩
      · cases heq
      · cases heq
        exact absurd List.mem_cons_self hmore
    · next heq =>
      cases heq
      exact ih hmore

/-- The text of options is told from any other value by the colon of the first. -/
theorem isOptionList_optionText {options : List (String × String)} (hsome : options ≠ [])
    (h : ∀ o ∈ options, IsOptionName o.1) : isOptionList (optionText options) = true := by
  rcases options with _ | ⟨o, _ | ⟨p, options⟩⟩
  · exact absurd rfl hsome
  all_goals
    have hopen : '\x7b' ∉ o.1.toList := fun hmem => ((h o List.mem_cons_self).plain _ hmem).2.2.2.1 rfl
  · rw [isOptionList, optionText_singleton]
    exact colonComesFirst_append hopen _
  · rw [isOptionList, optionText_cons, optionSegment, List.append_assoc]
    exact colonComesFirst_append hopen _

/-! ### One option -/

/-- What the value of a command is read as. -/
def Command.valueKind : Command → ExpressionKind
  | .trigger | .delegate | .capture | .call => .function
  | .iterate => .iteration
  | .bind | .oneTime | .toView | .fromView | .twoWay => .property

/-- What the value of an option is read as: text with interpolations, unless the name has a command. -/
def optionKind (name : String) : ExpressionKind :=
  ((splitCommand name).2.bind Command.ofName?).elim .interpolation Command.valueKind

/-- What an option writes to: the bindable that its name without the command belongs to, or else that name. -/
def Resource.optionTarget (r : Resource) (name : String) : BindTarget :=
  match r.findBindable? (splitCommand name).1 with
  | some b => .ofBindable r b
  | none => ⟨(splitCommand name).1, .toView⟩

/-- An option without a bindable is bound to its bare name. -/
theorem classify_optionTarget (reader : ExpressionReader) (r : Resource) (name value : String) :
    classify reader name value ((r.findBindable? (splitCommand name).1).map (BindTarget.ofBindable r)) true =
      classify reader name value (some (r.optionTarget name)) true := by
  unfold Resource.optionTarget
  rcases r.findBindable? (splitCommand name).1 with _ | b
  · rfl
  · rfl

section reading

variable {reader : ExpressionReader} {value : String}

/-- A command fails with the error of its value. -/
theorem Command.instruction_of_error {command : Command} {x : ExpressionError}
    (h : reader value command.valueKind = .error x) (property : String) (mode : BindingMode) :
    command.instruction reader property mode value = .error (.expression x) := by
  have hsource : reader.source value command.valueKind = .error (.expression x) := by
    rw [ExpressionReader.source, h]
  rcases command <;> exact congrArg (· >>= _) hsource

/-- A command gives an instruction where its value can be read. -/
theorem Command.instruction_of_ok {command : Command} {e : Option Expression}
    (h : reader value command.valueKind = .ok e) (property : String) (mode : BindingMode) :
    ∃ i, command.instruction reader property mode value = .ok i := by
  have hsource : ∃ e, reader.source value command.valueKind = .ok e := by
    unfold ExpressionReader.source
    rw [h]
    rcases e with _ | e
    · exact ⟨_, rfl⟩
    · exact ⟨_, rfl⟩
  obtain ⟨e, he⟩ := hsource
  rcases command <;> exact ⟨_, bind_eq_ok.2 ⟨e, he, rfl⟩⟩

/-- The instruction of an option: that of its command, and otherwise its text is put in, or set as it stands. -/
theorem classify_option (name : String) (target : BindTarget) : classify reader name value (some target) true =
    match (splitCommand name).2.bind Command.ofName? with
    | some command => (command.instruction reader target.property target.mode value).map some
    | none => (reader.interpolation? value).map fun found =>
        some (found.elim (.setProperty target.property value) (.interpolation target.property)) := by
  unfold classify
  rcases hcommand : (splitCommand name).2.bind Command.ofName? with _ | command
  · simp only [hcommand]
    rcases reader.interpolation? value with x | _ | e <;> rfl
  · simp only [hcommand, Option.map_some, Option.getD_some]
    rcases command.instruction reader target.property target.mode value with x | i <;> rfl

/-- An option fails if its value cannot be read. -/
theorem classify_of_error {name : String} {x : ExpressionError} (h : reader value (optionKind name) = .error x)
    (target : BindTarget) : classify reader name value (some target) true = .error (.expression x) := by
  rw [optionKind] at h
  rw [classify_option]
  rcases hcommand : (splitCommand name).2.bind Command.ofName? with _ | command
  · rw [hcommand] at h
    have hread : reader value .interpolation = .error x := h
    rw [ExpressionReader.interpolation?, hread]
    rfl
  · rw [hcommand] at h
    dsimp only
    rw [Command.instruction_of_error h]
    rfl

/-- An option whose value can be read gives an instruction. -/
theorem classify_of_ok {name : String} {e : Option Expression} (h : reader value (optionKind name) = .ok e)
    (target : BindTarget) : ∃ i, classify reader name value (some target) true = .ok (some i) := by
  rw [optionKind] at h
  rw [classify_option]
  rcases hcommand : (splitCommand name).2.bind Command.ofName? with _ | command
  · rw [hcommand] at h
    have hread : reader value .interpolation = .ok e := h
    rw [ExpressionReader.interpolation?, hread]
    exact ⟨_, rfl⟩
  · rw [hcommand] at h
    obtain ⟨i, hi⟩ := Command.instruction_of_ok h target.property target.mode
    dsimp only
    rw [hi]
    exact ⟨i, rfl⟩

end reading

namespace Compiler

variable (c : Compiler) (r : Resource)

/-- The option gives the instruction. -/
def CompilesTo (o : String × String) (i : Instruction) : Prop :=
  ¬IsUnknownName o.1 ∧ classify c.reader o.1 o.2 (some (r.optionTarget o.1)) true = .ok (some i)

/-- The option fails: its name is unknown, or its value cannot be read. -/
def FailsWith (o : String × String) (e : CompileError) : Prop :=
  (IsUnknownName o.1 ∧ e = .unknownOption r.name o.1) ∨
    ¬IsUnknownName o.1 ∧ ∃ x, c.reader o.2 (optionKind o.1) = .error x ∧ e = .expression x

variable {c r}

/-- What an option gives is decided, and it does not fail then. -/
theorem CompilesTo.unique {o : String × String} {i j : Instruction} (hi : c.CompilesTo r o i)
    (hj : c.CompilesTo r o j) : i = j :=
  Option.some.inj (Except.ok.inj (hi.2.symm.trans hj.2))

/-- An option that fails is not compiled. -/
theorem FailsWith.not_compilesTo {o : String × String} {e : CompileError} {i : Instruction} (h : c.FailsWith r o e) :
    ¬c.CompilesTo r o i := by
  rintro ⟨hknown, hi⟩
  rcases h with ⟨hunknown, -⟩ | ⟨-, x, hread, -⟩
  · exact hknown hunknown
  · rw [classify_of_error hread] at hi
    cases hi

/-- An option fails with one error. -/
theorem FailsWith.unique {o : String × String} {e e' : CompileError} (h : c.FailsWith r o e)
    (h' : c.FailsWith r o e') : e = e' := by
  rcases h with ⟨hunknown, rfl⟩ | ⟨hknown, x, hread, rfl⟩
  · rcases h' with ⟨-, rfl⟩ | ⟨hknown, -⟩
    · rfl
    · exact absurd hunknown hknown
  · rcases h' with ⟨hunknown, -⟩ | ⟨-, x', hread', rfl⟩
    · exact absurd hunknown hknown
    · rw [Except.error.inj (hread.symm.trans hread')]

/-- The step: an option fails, or gives an instruction before those of the options that follow. -/
theorem options_cons (o : String × String) (rest : List (String × String)) :
    (∃ e, c.FailsWith r o e ∧ c.options r (o :: rest) = .error e) ∨
    ∃ i, c.CompilesTo r o i ∧ c.options r (o :: rest) = (c.options r rest).map (i :: ·) := by
  obtain ⟨name, value⟩ := o
  by_cases hunknown : isUnknownOption name = true
  · refine .inl ⟨_, .inl ⟨(isUnknownOption_iff name).1 hunknown, rfl⟩, ?_⟩
    rw [options, if_pos hunknown]
  · have hknown : ¬IsUnknownName name := fun h => hunknown ((isUnknownOption_iff name).2 h)
    rw [options, if_neg hunknown]
    dsimp only
    rw [classify_optionTarget]
    rcases hread : c.reader value (optionKind name) with x | e
    · refine .inl ⟨_, .inr ⟨hknown, x, hread, rfl⟩, ?_⟩
      rw [classify_of_error hread]
      rfl
    · obtain ⟨i, hi⟩ := classify_of_ok hread (r.optionTarget name)
      refine .inr ⟨i, ⟨hknown, hi⟩, ?_⟩
      rw [hi]
      change (c.options r rest >>= fun is => pure (i :: is)) = _
      rcases c.options r rest with e | is <;> rfl

/-! ### All options -/

/-- The run: options compile if each does, and every one gives one instruction. -/
theorem options_eq_ok {options : List (String × String)} {is : List Instruction} :
    c.options r options = .ok is ↔ List.Forall₂ (c.CompilesTo r) options is := by
  induction options generalizing is with
  | nil =>
    rw [List.forall₂_nil_left_iff, Compiler.options, Except.ok.injEq]
    exact eq_comm
  | cons o rest ih =>
    rw [List.forall₂_cons_left_iff]
    rcases options_cons o rest with ⟨e, hfails, heq⟩ | ⟨i, hi, heq⟩
    · rw [heq]
      constructor
      · intro h
        cases h
      · rintro ⟨i, is, hi, -⟩
        exact absurd hi hfails.not_compilesTo
    · rw [heq, map_eq_ok]
      constructor
      · rintro ⟨is, hrest, rfl⟩
        exact ⟨i, is, hi, ih.1 hrest, rfl⟩
      · rintro ⟨j, is, hj, hrest, rfl⟩
        exact ⟨is, ih.2 hrest, by rw [hi.unique hj]⟩

/-- The run: options fail as the first one that does. -/
theorem options_eq_error {options : List (String × String)} {e : CompileError} :
    c.options r options = .error e ↔ ∃ before o after is, options = before ++ o :: after ∧
      List.Forall₂ (c.CompilesTo r) before is ∧ c.FailsWith r o e := by
  induction options with
  | nil => simp [Compiler.options]
  | cons o rest ih =>
    rcases options_cons o rest with ⟨e', hfails, heq⟩ | ⟨i, hi, heq⟩
    · rw [heq]
      constructor
      · rintro ⟨⟩
        exact ⟨[], o, rest, [], rfl, .nil, hfails⟩
      · rintro ⟨before, p, after, is, hsplit, hbefore, hp⟩
        rcases List.cons_eq_append_iff.1 hsplit with ⟨rfl, hfirst⟩ | ⟨before, rfl, -⟩
        · cases hfirst
          rw [hfails.unique hp]
        · obtain ⟨j, is, hj, -⟩ := List.forall₂_cons_left_iff.1 hbefore
          exact absurd hj hfails.not_compilesTo
    · -- The first option compiles, so the one that fails is among the rest.
      have hmap : (c.options r rest).map (i :: ·) = .error e ↔ c.options r rest = .error e := by
        rcases c.options r rest with x | is <;> simp [Except.map]
      rw [heq, hmap, ih]
      constructor
      · rintro ⟨before, p, after, is, rfl, hbefore, hp⟩
        exact ⟨o :: before, p, after, i :: is, rfl, .cons hi hbefore, hp⟩
      · rintro ⟨before, p, after, is, hsplit, hbefore, hp⟩
        rcases List.cons_eq_append_iff.1 hsplit with ⟨rfl, hfirst⟩ | ⟨before, rfl, hrest⟩
        · cases hfirst
          exact absurd hi hp.not_compilesTo
        · obtain ⟨j, is, -, hbefore, -⟩ := List.forall₂_cons_left_iff.1 hbefore
          exact ⟨before, p, after, is, hrest, hbefore, hp⟩

/-- The value of a custom attribute that is a list of options compiles option by option, in order: to one instruction
for each, or to the error of the first that fails. -/
theorem customAttribute_optionText (hr : r.hasDynamicOptions = true) {name : String} (hname : '.' ∉ name.toList)
    {options : List (String × String)} (hsome : options ≠ [])
    (hoptions : ∀ o ∈ options, IsOptionName o.1 ∧ IsOptionValue o.2) :
    (∀ is, c.customAttribute r name (optionText options) = .ok is ↔ List.Forall₂ (c.CompilesTo r) options is) ∧
    ∀ e, c.customAttribute r name (optionText options) = .error e ↔
      ∃ before o after is, options = before ++ o :: after ∧ List.Forall₂ (c.CompilesTo r) before is ∧
        c.FailsWith r o e := by
  have hlist := isOptionList_optionText hsome fun o ho => (hoptions o ho).1
  have hrun : c.customAttribute r name (optionText options) = c.options r options := by
    rw [customAttribute, splitCommand_of_notMem hname, hr, hlist, splitOptions_optionText hsome hoptions]
    rfl
  rw [hrun]
  exact ⟨fun is => options_eq_ok, fun e => options_eq_error⟩

/-- A custom attribute with one bindable, whose value may be a list of options. -/
def tip : Resource :=
  { (Resource.customAttribute "tip").withBindable (.ofProperty "text") with hasDynamicOptions := true }

/-- An object with a semicolon in a string, and a property that is not a bindable. -/
def tipOptions : List (String × String) :=
  [("text.bind", "\x7bx: 'a; b'\x7d"), ("place", "top")]

/-- The theorem at two options, the first with a semicolon and a colon in its value. -/
theorem customAttribute_optionText_tipOptions :
    optionText tipOptions = "text.bind: \x7bx: 'a; b'\x7d; place: top" ∧
    (∀ o ∈ tipOptions, IsOptionName o.1 ∧ IsOptionValue o.2) ∧
    ∃ is, ({ resources := Registry.builtin.resolver } : Compiler).customAttribute tip "tip" (optionText tipOptions) =
        .ok is ∧
      List.Forall₂ (CompilesTo { resources := Registry.builtin.resolver } tip) tipOptions is := by
  have htext : optionText tipOptions = "text.bind: \x7bx: 'a; b'\x7d; place: top" := by decide +kernel
  have hoptions : ∀ o ∈ tipOptions, IsOptionName o.1 ∧ IsOptionValue o.2 := by decide +kernel
  have hname : '.' ∉ "tip".toList := by decide
  have hsome : tipOptions ≠ [] := List.cons_ne_nil _ _
  obtain ⟨is, his, -⟩ := exists_eq_ok (f := List.length) (b := 2)
    (x := ({ resources := Registry.builtin.resolver } : Compiler).customAttribute tip "tip" (optionText tipOptions))
    (by decide +kernel)
  exact ⟨htext, hoptions, is, his, ((customAttribute_optionText rfl hname hsome hoptions).1 is).1 his⟩

end Compiler

end ViewTemplate
