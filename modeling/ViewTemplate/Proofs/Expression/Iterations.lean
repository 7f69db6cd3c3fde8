import ViewTemplate.Proofs.Expression.RoundTrip
import ViewTemplate.Proofs.Expression.Sources

/-!
# Iterations

What an iteration declares is a name, an array of names or an object of names.  Every declaration that is read
is of that form, and where its names are no keywords it is read back from its text, and with it the iteration.

* `Declaration` — the three forms, with their expression and their lexemes.
* `declaration_keeps`, `parseIteration_eq_ok` — what is read.
* `laid_declaration`, `reads_declaration` — what is written is read.
* `parseIteration_render` — for whole iterations.
-/

namespace ViewTemplate.Expression

open ViewTemplate.Text Grammar

/-! ### Declarations -/

/-- What an iteration declares. -/
inductive Declaration where
  | single (name : String)
  | array (names : List String)
  /-- Keys, each with the name that is declared for it. -/
  | object (entries : List (String × String))

namespace Declaration

/-- The declaration as an expression. -/
def expression : Declaration → Expression
  | .single name => .bindingIdentifier name
  | .array names => .arrayPattern (names.map .bindingIdentifier)
  | .object entries => .objectPattern (entries.map (·.1)) (entries.map (.bindingIdentifier ·.2))

/-- The names that are declared. -/
def names : Declaration → List String
  | .single name => [name]
  | .array names => names
  | .object entries => entries.map (·.2)

/-- The keys that names are declared for. -/
def keys : Declaration → List String
  | .object entries => entries.map (·.1)
  | _ => []

/-- The lexemes of a key and the name that is declared for it. -/
def pairLexemes (entry : String × String) : List Lexeme :=
  [.ofWord entry.1, .punctuation ':', .ofWord entry.2]

/-- The lexemes of the declaration's text. -/
def lexemes : Declaration → List Lexeme
  | .single name => [.ofWord name]
  | .array names =>
    .punctuation '[' :: (commaLexemes (names.map fun name => [.ofWord name]) ++ [.punctuation ']'])
  | .object entries =>
    .punctuation '\x7b' :: (commaLexemes (entries.map pairLexemes) ++ [.punctuation '\x7d'])

/-- What can be said of a declaration that was read: it declares something, and its keys and names are
words. -/
structure IsReadable (d : Declaration) : Prop where
  nonempty : d.names ≠ []
  keys : ∀ k ∈ d.keys, IsMemberName k
  names : ∀ name ∈ d.names, IsMemberName name

end Declaration

/-! ### What is read -/

namespace Grammar

/-- A declared name that is read is the name of a member. -/
theorem bindingName_keeps :
    Keeps bindingName fun e => ∃ name, IsMemberName name ∧ e = .bindingIdentifier name := by
  intro ts e rest hts h
  cases ts with
  | nil => cases h
  | cons t ts =>
    obtain ⟨ht, hts⟩ := List.forall_mem_cons.1 hts
    rw [bindingName] at h
    split at h
    · next name hidentifier =>
      cases h
      refine ⟨⟨name, isMemberName_of_word? ht ?_, rfl⟩, hts⟩
      unfold Token.identifier? at hidentifier
      unfold Token.word?
      split at hidentifier <;> simp_all
    · cases h

/-- A key with the name that is declared for it, as it is read. -/
def declaredEntry (entry : String × String) : String × Expression :=
  (entry.1, .bindingIdentifier entry.2)

/-- An entry that is read has two names of members, or one twice. -/
theorem bindingEntry_keeps : Keeps bindingEntry fun entry =>
    ∃ declared : String × String, (IsMemberName declared.1 ∧ IsMemberName declared.2) ∧
      entry = declaredEntry declared := by
  intro ts entry rest hts h
  rw [bindingEntry] at h
  obtain ⟨key, ts₁, hkey, hts₁, h⟩ := expectWord_keeps.of_bind hts h
  dsimp only at h
  split at h
  · next ts₂ hskip =>
    obtain ⟨value, ts₃, ⟨name, hname, rfl⟩, hts₃, h⟩ :=
      bindingName_keeps.of_bind (skipMark?_keeps hts₁ hskip) h
    cases h
    exact ⟨⟨(key, name), ⟨hkey, hname⟩, rfl⟩, hts₃⟩
  · cases h
    exact ⟨⟨(key, key), ⟨hkey, hkey⟩, rfl⟩, hts₁⟩

/-- What holds of every declared name holds of all that are separated by commas; there is at least one. -/
theorem declared_keeps {α : Type} {item : Read α} {separated : Nat → Read (List α)} {P : α → Prop}
    (hdef : Separates (fun _ => item) separated) (hzero : ∀ ts, separated 0 ts = .error .outOfSteps)
    (hitem : Keeps item P) : ∀ n, Keeps (separated n) fun as => as ≠ [] ∧ ∀ a ∈ as, P a
  | 0 => .of_error hzero
  | n + 1 => separated_keeps hdef hitem ((declared_keeps hdef hzero hitem n).mono fun _ h => h.2)

/-- Values that are all images are the image of a list. -/
theorem exists_map_eq {α β : Type} {f : α → β} {P : α → Prop} {bs : List β}
    (h : ∀ b ∈ bs, ∃ a, P a ∧ b = f a) : ∃ as : List α, bs = as.map f ∧ ∀ a ∈ as, P a := by
  induction bs with
  | nil => exact ⟨[], rfl, nofun⟩
  | cons b bs ih =>
    obtain ⟨⟨a, ha, rfl⟩, hbs⟩ := List.forall_mem_cons.1 h
    obtain ⟨as, rfl, has⟩ := ih hbs
    exact ⟨a :: as, rfl, List.forall_mem_cons.2 ⟨ha, has⟩⟩

/-- Every declaration that is read is of one of the three forms. -/
theorem declaration_keeps (n : Nat) :
    Keeps (declaration n) fun e => ∃ d : Declaration, d.IsReadable ∧ e = d.expression := by
  intro ts e rest hts h
  -- Only an object has keys.
  have hnone : ∀ k ∈ ([] : List String), IsMemberName k := List.forall_mem_nil IsMemberName
  unfold declaration at h
  split at h
  · next ts₁ hskip =>
    have hnames := declared_keeps separates_bindingNames bindingNames.eq_1 bindingName_keeps n
    obtain ⟨es, ts₂, ⟨hne, hes⟩, hts₂, h⟩ := hnames.of_bind (skipMark?_keeps hts hskip) h
    obtain ⟨ts₃, hts₃, h⟩ := expectMark_of_bind hts₂ h
    obtain ⟨names, rfl, hmember⟩ := exists_map_eq hes
    cases h
    exact ⟨⟨.array names, ⟨by simpa [Declaration.names] using hne, hnone, hmember⟩, rfl⟩, hts₃⟩
  · next ts₁ _ hskip =>
    have hentries := declared_keeps separates_bindingEntries bindingEntries.eq_1 bindingEntry_keeps n
    obtain ⟨es, ts₂, ⟨hne, hes⟩, hts₂, h⟩ := hentries.of_bind (skipMark?_keeps hts hskip) h
    obtain ⟨ts₃, hts₃, h⟩ := expectMark_of_bind hts₂ h
    obtain ⟨entries, rfl, hmember⟩ := exists_map_eq hes
    cases h
    refine ⟨⟨.object entries, ⟨by simpa [Declaration.names] using hne, ?_, ?_⟩, ?_⟩, hts₃⟩
    · exact List.forall_mem_map.2 fun entry hentry => (hmember entry hentry).1
    · exact List.forall_mem_map.2 fun entry hentry => (hmember entry hentry).2
    · rw [List.map_map, List.map_map]
      rfl
  · obtain ⟨⟨name, hname, rfl⟩, hrest⟩ := bindingName_keeps hts h
    exact ⟨⟨.single name, ⟨List.cons_ne_nil _ _, hnone, List.forall_mem_singleton.2 hname⟩, rfl⟩, hrest⟩

/-- Proper tokens stay proper behind the word `of`. -/
theorem expectOf_keeps {ts rest : List Token} (hts : AllProper ts) (h : expectOf ts = .ok rest) :
    AllProper rest := by
  unfold expectOf at h
  split at h
  · cases h
  · split at h
    · cases h
      exact (List.forall_mem_cons.1 hts).2
    · cases h

end Grammar

/-- An iteration that is read has a declaration of one of the three forms and a readable iterable. -/
theorem parseIteration_eq_ok {input : String} {e : Expression} (h : parseIteration input = .ok e) :
    ∃ (d : Declaration) (iterable : Expression), d.IsReadable ∧ Readable iterable ∧
      e = .iteration d.expression iterable := by
  unfold parseIteration at h
  obtain ⟨declared, ts₁, ⟨d, hd, rfl⟩, hts₁, h⟩ := (declaration_keeps _).of_bind (isProper_tokens input) h
  obtain ⟨ts₂, hof, h⟩ := bind_eq_ok.1 h
  obtain ⟨iterable, ts₃, hiterable, -, h⟩ := (soundAt _).behaviors.of_bind (expectOf_keeps hts₁ hof) h
  obtain ⟨-, -, h⟩ := bind_eq_ok.1 h
  cases h
  exact ⟨d, iterable, hd, hiterable, rfl⟩

/-! ### What is written -/

/-- A declaration that can be read back: its keys are words, and its names are identifiers. -/
structure Declaration.IsCanonical (d : Declaration) : Prop where
  nonempty : d.names ≠ []
  keys : ∀ k ∈ d.keys, IsMemberName k
  names : ∀ name ∈ d.names, IsIdentifier name

/-- A name of a member is laid out as its lexeme. -/
theorem laid_word {name : String} (hname : IsMemberName name) : Laid name [.ofWord name] false := by
  intro rest ls hrest h
  exact h.word hname.isWordText hrest

/-- An entry of a declaration is laid out as its key, a colon and its name. -/
theorem laid_entry {entry : String × String} (hk : IsMemberName entry.1) (hname : IsMemberName entry.2) :
    Laid (entry.1 ++ ": " ++ entry.2) (Declaration.pairLexemes entry) false := by
  intro rest ls hrest h
  have hvalue := (h.word hname.isWordText hrest).space (c := ' ') rfl
  simp only [String.toList_append, List.append_assoc]
  exact Lexes.word hk.isWordText (ends_mark (by decide) false _) (hvalue.mark (c := ':') rfl)

/-- The text of a declaration is made of its lexemes. -/
theorem laid_declaration {d : Declaration} (h : d.IsCanonical) :
    Laid (render d.expression) d.lexemes false := by
  cases d with
  | single name => exact laid_word (.inl (h.names name List.mem_cons_self))
  | array names =>
    have hitems := laid_intercalate (names.map fun name => (name, [.ofWord name]))
      (List.forall_mem_map.2 fun name hname => laid_word (.inl (h.names name hname)))
    have htexts : renderAll (names.map .bindingIdentifier) = names := by
      rw [renderAll_eq_map, List.map_map]
      exact List.map_id names
    simp only [List.map_map, Function.comp_def, List.map_id'] at hitems
    intro rest ls hrest hlexes
    simp only [Declaration.expression, render, htexts, Declaration.lexemes, String.toList_append,
      List.append_assoc, List.cons_append]
    exact .mark rfl (hitems.mark (by decide) hlexes)
  | object entries =>
    have hkeys : ∀ entry ∈ entries, IsMemberName entry.1 := List.forall_mem_map.1 h.keys
    have hnames : ∀ entry ∈ entries, IsIdentifier entry.2 := List.forall_mem_map.1 h.names
    have hitems : Laid (", ".intercalate (entries.map fun entry => entry.1 ++ ": " ++ entry.2))
        (commaLexemes (entries.map Declaration.pairLexemes)) false := by
      have hall := laid_intercalate
        (entries.map fun entry => (entry.1 ++ ": " ++ entry.2, Declaration.pairLexemes entry)) ?_
      · rwa [List.map_map, List.map_map] at hall
      · intro i hi
        obtain ⟨entry, hentry, rfl⟩ := List.mem_map.1 hi
        exact laid_entry (hkeys entry hentry) (.inl (hnames entry hentry))
    have htexts : (entries.map (·.1)).zip (renderAll (entries.map (.bindingIdentifier ·.2))) = entries := by
      rw [renderAll_eq_map, List.map_map, List.zip_map']
      exact List.map_id entries
    intro rest ls hrest hlexes
    simp only [Declaration.expression, render, objectText, htexts, Declaration.lexemes, String.toList_append,
      List.append_assoc, List.cons_append]
    exact .mark rfl (hitems.mark (by decide) hlexes)

/-- The word `of` is an identifier. -/
theorem isWordText_of : IsWordText "of" ∧ Lexeme.ofWord "of" = .identifier "of" :=
  ⟨⟨'o', ['f'], rfl, rfl, List.all_eq_true.1 rfl⟩, if_neg (by decide)⟩

/-- The tokens of an iteration's text are its lexemes. -/
theorem map_lexeme_tokens_iteration {d : Declaration} (hd : d.IsCanonical) {iterable : Expression}
    (h : Canonical iterable) :
    (tokens (render (.iteration d.expression iterable))).map Token.lexeme =
      d.lexemes ++ .identifier "of" :: lexemes iterable := by
  have hiterable := laid_render h (ends_nil _) .nil
  rw [List.append_nil, List.append_nil] at hiterable
  have hof := (hiterable.space (c := ' ') rfl).word isWordText_of.1 (ends_blank false _)
  rw [isWordText_of.2] at hof
  apply map_lexeme_tokens
  rw [render, String.toList_append, String.toList_append, List.append_assoc]
  exact laid_declaration hd (ends_blank false _) (hof.space (c := ' ') rfl)

/-! ### What is written is read -/

namespace Grammar

/-- The lexeme of an identifier is taken for one. -/
theorem identifier?_eq {t : Token} {name : String} (hname : IsIdentifier name) (h : t.lexeme = .ofWord name) :
    t.identifier? = some name := by
  rw [hname.isWordText.2] at h
  rw [Token.identifier?, h]

/-- A declared name is read. -/
theorem reads_bindingName {name : String} (hname : IsIdentifier name) {slack : Nat}
    {Follow : List Token → Prop} :
    Reads (fun _ => bindingName) slack [.ofWord name] (.bindingIdentifier name) Follow := by
  intro n ts us hts hus hn
  obtain ⟨t, ts, rfl, ht, hnil⟩ := List.map_eq_cons_iff.1 hts
  obtain rfl := List.map_eq_nil_iff.1 hnil
  simp only [List.singleton_append, bindingName, identifier?_eq hname ht]

/-- An entry of a declaration is read. -/
theorem reads_bindingEntry {entry : String × String} (hname : IsIdentifier entry.2) {slack : Nat}
    {Follow : List Token → Prop} :
    Reads (fun _ => bindingEntry) slack (Declaration.pairLexemes entry) (declaredEntry entry) Follow := by
  intro n ts us hts hus hn
  obtain ⟨t, ts, rfl, ht, hts⟩ := List.map_eq_cons_iff.1 hts
  obtain ⟨u, ts, rfl, hu, hts⟩ := List.map_eq_cons_iff.1 hts
  obtain ⟨v, ts, rfl, hv, hnil⟩ := List.map_eq_cons_iff.1 hts
  obtain rfl := List.map_eq_nil_iff.1 hnil
  simp only [List.cons_append, List.nil_append, bindingEntry, expectWord_cons ht]
  simp only [bind, Except.bind, skipMark?_cons hu, bindingName, identifier?_eq hname hv]
  rfl

/-- A word is no punctuation mark. -/
theorem skipMark?_word {t : Token} {name : String} (h : t.lexeme = .ofWord name) (c : Char) (us : List Token) :
    skipMark? c (t :: us) = none := by
  apply skipMark?_eq_none
  rintro u ⟨⟩ heq
  rw [heq, Lexeme.ofWord] at h
  split at h <;> cases h

/-- Names that are declared from an array are read. -/
theorem reads_bindingNames {names : List String} (hne : names ≠ [])
    (hnames : ∀ name ∈ names, IsIdentifier name) :
    Reads bindingNames 6 (commaLexemes (names.map fun name => [.ofWord name])) (names.map .bindingIdentifier)
      (Next [.punctuation ']']) := by
  have hitems : names.map (fun name => ([Lexeme.ofWord name], bindingIdentifier name)) ≠ [] := by
    simpa using hne
  have h := reads_separated separates_bindingNames (show ']' ∈ _ by decide) hitems
    (List.forall_mem_map.2 fun name hname => reads_bindingName (hnames name hname))
  rw [List.map_map, List.map_map] at h
  exact h

/-- Names that are declared from an object are read. -/
theorem reads_bindingEntries {entries : List (String × String)} (hne : entries ≠ [])
    (hnames : ∀ entry ∈ entries, IsIdentifier entry.2) :
    Reads bindingEntries 6 (commaLexemes (entries.map Declaration.pairLexemes)) (entries.map declaredEntry)
      (Next [.punctuation '\x7d']) := by
  have hitems : entries.map (fun entry => (Declaration.pairLexemes entry, declaredEntry entry)) ≠ [] := by
    simpa using hne
  have h := reads_separated separates_bindingEntries (show '\x7d' ∈ _ by decide) hitems
    (List.forall_mem_map.2 fun entry hentry => reads_bindingEntry (hnames entry hentry))
  rw [List.map_map, List.map_map] at h
  exact h

/-- The lexemes of a declaration are read as the declaration. -/
theorem reads_declaration {d : Declaration} (h : d.IsCanonical) :
    Reads declaration 6 d.lexemes d.expression fun _ => True := by
  intro n ts us hts hus hn
  cases d with
  | single name =>
    obtain ⟨t, ts, rfl, ht, hnil⟩ := List.map_eq_cons_iff.1 hts
    obtain rfl := List.map_eq_nil_iff.1 hnil
    have hidentifier := identifier?_eq (h.names name List.mem_cons_self) ht
    simp only [List.singleton_append, declaration, skipMark?_word ht, bindingName, hidentifier,
      Declaration.expression]
  | array names =>
    obtain ⟨t, ts, rfl, ht, hts⟩ := List.map_eq_cons_iff.1 hts
    obtain ⟨ts, u, rfl, hts, hu⟩ := map_eq_append_singleton hts
    simp only [Declaration.lexemes, List.length_cons, List.length_append] at hn
    have hne : names ≠ [] := h.nonempty
    have hread := reads_bindingNames hne h.names (n := n) hts
      (next_cons (by rw [hu]; exact List.mem_cons_self) us) (by omega)
    simp only [List.cons_append, List.append_assoc, List.nil_append, declaration, skipMark?_cons ht, hread]
    simp only [bind, Except.bind, expectMark_cons hu]
    rfl
  | object entries =>
    obtain ⟨t, ts, rfl, ht, hts⟩ := List.map_eq_cons_iff.1 hts
    obtain ⟨ts, u, rfl, hts, hu⟩ := map_eq_append_singleton hts
    simp only [Declaration.lexemes, List.length_cons, List.length_append] at hn
    have hbracket : skipMark? '[' (t :: (ts ++ u :: us)) = none := by
      apply skipMark?_eq_none
      rintro v ⟨⟩ heq
      rw [heq] at ht
      exact absurd ht (by decide)
    have hne : entries ≠ [] := by simpa [Declaration.names] using h.nonempty
    have hread := reads_bindingEntries hne (List.forall_mem_map.1 h.names) (n := n) hts
      (next_cons (by rw [hu]; exact List.mem_cons_self) us) (by omega)
    simp only [List.cons_append, List.append_assoc, List.nil_append, declaration, hbracket, skipMark?_cons ht,
      hread]
    simp only [bind, Except.bind, expectMark_cons hu, List.map_map]
    rfl

end Grammar

/-- The text of an iteration denotes it. -/
theorem parseIteration_render {d : Declaration} (hd : d.IsCanonical) {iterable : Expression}
    (h : Canonical iterable) :
    parseIteration (render (.iteration d.expression iterable)) = .ok (.iteration d.expression iterable) := by
  obtain ⟨ts, rest, htokens, hts, hrest⟩ :=
    List.map_eq_append_iff.1 (map_lexeme_tokens_iteration hd h)
  obtain ⟨t, us, rfl, ht, hus⟩ := List.map_eq_cons_iff.1 hrest
  have hsteps : stepBound (ts ++ t :: us) = 16 * (d.lexemes.length + (lexemes iterable).length + 2) := by
    rw [stepBound, ← hts, ← hus]
    simp only [List.length_append, List.length_cons, List.length_map]
    omega
  have hdeclared : declaration (stepBound (ts ++ t :: us)) (ts ++ t :: us) = .ok (d.expression, t :: us) :=
    reads_declaration hd hts trivial (by omega)
  have hof : expectOf (t :: us) = .ok us := by
    simp [expectOf, Token.identifier?, ht]
  have hnext : Next closings [] := fun u hu => nomatch hu
  have hiterable : behaviors (stepBound (ts ++ t :: us)) (us ++ []) = .ok (iterable, []) :=
    ((readsAt_level h).mono h (level_le_six iterable)).reads_behaviors hus hnext (by omega)
  rw [List.append_nil] at hiterable
  rw [parseIteration, htokens]
  simp only [hdeclared, bind, Except.bind, hof, hiterable]
  rfl

end ViewTemplate.Expression
