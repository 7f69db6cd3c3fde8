import Mathlib.Data.List.TakeWhile
import ViewTemplate.Proofs.Markup.Scanning

/-!
# Legible trees

A tree is legible when every node of it, where it is written, is scanned as an item of its kind: names that
are read as they stand, texts that neither are empty nor touch, comments that end where they should, no
content in void elements, and no end tag in the content of an element without markup.

* `Legible` — the legible trees; `itemsOf` — the items their nodes are read as.
* `scans_renderAll` — what is written of legible nodes is scanned as their items.
* `Legible.tokenize_renderNodes` — the tokens of a whole written source.
-/

namespace ViewTemplate.Markup

open ViewTemplate.Source ViewTemplate.Text

/-! ### Names with rules of their own -/

/-- The elements at whose start a line feed is dropped. -/
def lineFeedNames : List String :=
  ["pre", "listing", "textarea"]

/-- The elements whose content holds no markup. -/
def rawNames : List String :=
  ["script", "style", "title", "textarea"]

/-- The elements whose content holds no markup but references. -/
def escapableNames : List String :=
  ["title", "textarea"]

/-- Among the elements with rules of their own the void ones have those of void elements. -/
theorem special?_isVoid {name : String} {rules : TagRules} (h : TagRules.special? name = some rules)
    (hvoid : rules.isVoid = true) : rules = TagRules.void := by
  unfold TagRules.special? at h
  split at h
  all_goals
    first
    | (cases h; cases hvoid)
    | (split at h
       · exact (Option.some.inj h).symm
       · cases h)

/-- The rules of a void element are the same for all of them. -/
theorem html_isVoid {name : String} (h : (TagRules.html name).isVoid = true) :
    TagRules.html name = TagRules.void := by
  unfold TagRules.html at h ⊢
  split
  · next hspecial =>
    rw [hspecial] at h
    exact special?_isVoid hspecial h
  · next hspecial =>
    simp only [hspecial] at h
    dsimp only
    split
    · next hlower =>
      rw [hlower] at h
      exact special?_isVoid hlower h
    · next hlower =>
      simp only [hlower] at h
      split at h <;> cases h

/-- Names in lower case have the rules they are listed with. -/
theorem html_of_lowerCase {name : String} (h : lowerCase name = name) :
    ((TagRules.html name).content ≠ .parsable → name ∈ rawNames) ∧
      ((TagRules.html name).content = .escapableRawText → name ∈ escapableNames) ∧
      ((TagRules.html name).ignoreFirstLineFeed = true → name ∈ lineFeedNames) := by
  have hspecial {rules : TagRules} (hrules : TagRules.special? name = some rules) :
      (rules.content ≠ .parsable → name ∈ rawNames) ∧
        (rules.content = .escapableRawText → name ∈ escapableNames) ∧
        (rules.ignoreFirstLineFeed = true → name ∈ lineFeedNames) := by
    unfold TagRules.special? at hrules
    split at hrules
    case h_19 =>
      split at hrules <;> cases hrules
      simp [TagRules.void, TagRules.withVoid, TagRules.standard]
    all_goals
      cases hrules
      simp [TagRules.endingBefore, TagRules.standard, rawNames, escapableNames, lineFeedNames]
  unfold TagRules.html
  dsimp only
  rw [h]
  cases hname : TagRules.special? name with
  | some rules => exact hspecial hname
  | none =>
    dsimp only
    split <;> simp [TagRules.standard]

/-! ### Legible trees -/

/-- Whether the node is a text. -/
def Node.isText : Node → Bool
  | .text _ _ => true
  | _ => false

/-- Characters that are all read as they stand: line endings other than the line feed become one, and a
source ends at NUL. -/
def IsPlain (cs : List Char) : Prop :=
  ∀ c ∈ cs, c ≠ '\r' ∧ c ≠ '\x00'

instance (cs : List Char) : Decidable (IsPlain cs) :=
  List.decidableBAll _ cs

/-- No element among the nodes ends an element of the given rules. -/
def KeepsOpen (rules : TagRules) (ns : List Node) : Prop :=
  ∀ n ∈ ns, ∀ t ∈ n.tag?, rules.isClosedByChild t.name = false

mutual

/-- A node that is read as an item of its kind where it is written. -/
def Node.Legible : Node → Prop
  | .text value _ => value ≠ "" ∧ IsPlain value.toList
  | .comment value _ => IsCommentText value ∧ IsPlain value.toList
  | .element tag children =>
    let rules := TagRules.html tag.name
    IsTag tag ∧ (∀ a ∈ tag.attributes, IsPlain a.value.toList) ∧ (rules.isVoid = true → children = []) ∧
      KeepsOpen rules children ∧
      (rules.content ≠ .parsable → (∀ n ∈ children, n.isText = true) ∧
        HoldsNoEndTag tag.name (renderAll true children).toList) ∧
      Legible children

/-- Nodes that are read as items of their kinds where they are written: no text follows another one. -/
def Legible : List Node → Prop
  | [] => True
  | n :: ns => n.Legible ∧ (n.isText = true → ∀ m ∈ ns.head?, m.isText = false) ∧ Legible ns

end

mutual

/-- The items that a node is read as where it was written. -/
def Node.items : Node → List Item
  | .text value _ => [.text value]
  | .comment value _ => [.comment value]
  | .element tag children =>
    let rules := TagRules.html tag.name
    .startTag tag.name tag.entries false ::
      if rules.isVoid then []
      else if rules.content = .parsable then itemsOf children ++ [.endTag tag.name]
      else [.rawText (contentText rules (renderAll true children).toList), .endTag tag.name]

/-- The items that nodes are read as where they were written. -/
def itemsOf : List Node → List Item
  | [] => []
  | n :: ns => n.items ++ itemsOf ns

end

/-! ### Scanning written trees -/

/-- A text ends before a start tag. -/
theorem breaks_renderStart {t : Tag} (ht : IsTag t) (rest : List Char) :
    Breaks (t.renderStart.toList ++ rest) := by
  obtain ⟨c, cs, hname, hc⟩ := ht.name.exists_cons
  rw [toList_renderStart, hname]
  exact .inr (opensMarkup_letter hc _)

/-- A text ends before an end tag. -/
theorem breaks_renderEnd {t : Tag} (ht : IsTag t) (rest : List Char) : Breaks (t.renderEnd.toList ++ rest) := by
  obtain ⟨c, cs, hname, hc⟩ := ht.name.exists_cons
  rw [toList_renderEnd, hname]
  exact .inr hc

/-- A text ends before whatever is written for an element or a comment. -/
theorem Node.Legible.breaks {n : Node} (hn : n.Legible) (htext : n.isText = false) (rest : List Char) :
    Breaks ((n.render false).toList ++ rest) := by
  cases n with
  | text value span => cases htext
  | comment value span =>
    rw [Node.render]
    simp [Breaks, opensMarkup]
  | element tag children =>
    obtain ⟨htag, -⟩ := hn
    rw [Node.render]
    split
    · exact breaks_renderStart htag rest
    · rw [String.toList_append, String.toList_append, List.append_assoc, List.append_assoc]
      exact breaks_renderStart htag _

/-- A start tag is written as something. -/
theorem renderStart_ne_nil (t : Tag) : t.renderStart.toList ≠ [] := by
  rw [toList_renderStart]
  exact List.cons_ne_nil _ _

/-- An end tag is scanned before anything that is. -/
theorem Scans.endTag {rest : List Char} {js : List Item} {t : Tag} (ht : IsTag t)
    (hrest : Scans TagRules.html rest js) :
    Scans TagRules.html (t.renderEnd.toList ++ rest) (.endTag t.name :: js) := by
  have hitem : ∀ {c : Cursor}, c.ahead = t.renderEnd.toList ++ rest →
      (scanItem TagRules.html c).Reads [.endTag t.name] rest := by
    intro c hc
    refine scanItem_reads_end _ ht.name ?_
    rw [hc, toList_renderEnd]
    simp
  exact Scans.append (by simp [toList_renderEnd]) hitem hrest

mutual

/-- A legible node is read as its items, where a text is followed by markup. -/
theorem scans_render {rest : List Char} {js : List Item} : (n : Node) → n.Legible →
    (n.isText = true → Breaks rest) → Scans TagRules.html rest js →
    Scans TagRules.html ((n.render false).toList ++ rest) (n.items ++ js)
  | .text value span, hn, hbreaks, hrest => by
    obtain ⟨hne, -⟩ := hn
    rw [Node.render, if_neg (by decide)]
    refine Scans.append ?_ (scanItem_reads_text _ hne (hbreaks rfl)) hrest
    intro hnil
    have hdecode := decode_escapeText value
    rw [hnil] at hdecode
    exact hne (String.toList_eq_nil_iff.1 hdecode.symm)
  | .comment value span, hn, hbreaks, hrest => by
    obtain ⟨hvalue, -⟩ := hn
    rw [Node.render]
    refine Scans.append (by simp) (fun hc => scanItem_reads_comment _ hvalue ?_) hrest
    rw [hc]
    simp
  | .element tag children, hn, hbreaks, hrest => by
    obtain ⟨htag, -, -, -, hraw, hchildren⟩ := hn
    rw [Node.render, Node.items]
    by_cases hvoid : (TagRules.html tag.name).isVoid = true
    · rw [if_pos hvoid, if_pos hvoid]
      have hcontent : (TagRules.html tag.name).content = .parsable := by
        rw [html_isVoid hvoid]
        rfl
      exact Scans.append (renderStart_ne_nil tag) (scanItem_reads_start _ htag hcontent) hrest
    · rw [if_neg hvoid, if_neg hvoid]
      by_cases hcontent : (TagRules.html tag.name).content = .parsable
      · rw [if_pos hcontent]
        have hinside := scans_renderAll children hchildren (breaks_renderEnd htag rest) (hrest.endTag htag)
        have hall := Scans.append (renderStart_ne_nil tag) (scanItem_reads_start _ htag hcontent) hinside
        simpa [hcontent] using hall
      · -- The start tag and the raw content are one item, since the scanner reads them at once.
        obtain ⟨-, hend⟩ := hraw hcontent
        have hall := Scans.append (w := tag.renderStart.toList ++ (renderAll true children).toList)
          (by simp [toList_renderStart])
          (fun hc => scanItem_reads_raw _ htag hcontent hend (by rw [hc, List.append_assoc])) (hrest.endTag htag)
        simpa [hcontent] using hall

/-- Legible nodes are read as their items, where a text is followed by markup. -/
theorem scans_renderAll {rest : List Char} {js : List Item} : (ns : List Node) → Legible ns →
    Breaks rest → Scans TagRules.html rest js →
    Scans TagRules.html ((renderAll false ns).toList ++ rest) (itemsOf ns ++ js)
  | [], _, _, hrest => by
    simpa [renderAll, itemsOf] using hrest
  | n :: ns, hns, hbreaks, hrest => by
    obtain ⟨hn, hnext, hns⟩ := hns
    have htail := scans_renderAll ns hns hbreaks hrest
    have hhead := scans_render n hn (fun htext => ?_) htail
    · simpa [renderAll, itemsOf] using hhead
    · cases ns with
      | nil => simpa [renderAll] using hbreaks
      | cons m ms =>
        obtain ⟨hm, -⟩ := hns
        rw [renderAll, String.toList_append, List.append_assoc]
        exact hm.breaks (hnext htext m rfl) _

end

/-! ### Plain characters -/

/-- No characters are plain. -/
theorem isPlain_nil : IsPlain [] :=
  List.forall_mem_nil _

/-- Characters are plain if the first is, and the others are. -/
theorem isPlain_cons {c : Char} {cs : List Char} :
    IsPlain (c :: cs) ↔ (c ≠ '\r' ∧ c ≠ '\x00') ∧ IsPlain cs :=
  List.forall_mem_cons

/-- Characters are plain together exactly if they are so apart. -/
theorem isPlain_append {cs ds : List Char} : IsPlain (cs ++ ds) ↔ IsPlain cs ∧ IsPlain ds :=
  List.forall_mem_append

/-- Plain characters have no line endings to unify. -/
theorem unifyLines_eq_self : (cs : List Char) → IsPlain cs → unifyLines cs = cs
  | [], _ => rfl
  | c :: cs, h => by
    obtain ⟨hc, hcs⟩ := List.forall_mem_cons.1 h
    rw [unifyLines.eq_3 c cs (fun _ hcr => absurd hcr hc.1), if_neg hc.1, unifyLines_eq_self cs hcs]

/-- Plain characters are kept to their end. -/
theorem beforeNul_eq_self {cs : List Char} (h : IsPlain cs) : beforeNul cs = cs := by
  unfold beforeNul
  rw [List.takeWhile_eq_self_iff]
  intro c hc
  simpa using (h c hc).2

/-- The names of tags and attributes are plain. -/
theorem IsNameText.isPlain {name : String} (h : IsNameText name) : IsPlain name.toList := by
  intro c hc
  have hend := h.unbroken c hc
  constructor <;> rintro rfl <;> cases hend

/-- A text that is written character by character is plain if it was. -/
theorem isPlain_flatMap {escape : Char → String}
    (h : ∀ c, escape c = String.singleton c ∨ IsPlain (escape c).toList) {cs : List Char} (hcs : IsPlain cs) :
    IsPlain (cs.flatMap fun c => (escape c).toList) := by
  intro d hd
  obtain ⟨c, hc, hd⟩ := List.mem_flatMap.1 hd
  rcases h c with hself | hplain
  · rw [hself, String.toList_singleton, List.mem_singleton] at hd
    exact hd ▸ hcs c hc
  · exact hplain d hd

/-- A plain text is so with its escapes. -/
theorem isPlain_escapeText {value : String} (h : IsPlain value.toList) : IsPlain (escapeText value).toList := by
  rw [toList_escapeText]
  refine isPlain_flatMap (fun c => ?_) h
  unfold escapeTextChar
  split
  · exact .inr (by simp [IsPlain])
  · exact .inr (by simp [IsPlain])
  · exact .inr (by simp [IsPlain])
  · exact .inr (by simp [IsPlain])
  · exact .inl rfl

/-- A plain value is so with its escapes. -/
theorem isPlain_escapeValue {value : String} (h : IsPlain value.toList) :
    IsPlain (escapeValue value).toList := by
  rw [toList_escapeValue]
  refine isPlain_flatMap (fun c => ?_) h
  unfold escapeValueChar
  split
  · exact .inr (by simp [IsPlain])
  · exact .inr (by simp [IsPlain])
  · exact .inr (by simp [IsPlain])
  · exact .inl rfl

/-- Attributes with plain values are written in plain characters. -/
theorem isPlain_renderAttributes (as : List Attribute) (hnames : ∀ a ∈ as, IsAttributeName a.name)
    (hvalues : ∀ a ∈ as, IsPlain a.value.toList) : IsPlain (renderAttributes as) := by
  induction as with
  | nil =>
    rw [renderAttributes_nil]
    exact isPlain_nil
  | cons a as ih =>
    obtain ⟨hname, hnames⟩ := List.forall_mem_cons.1 hnames
    obtain ⟨hvalue, hvalues⟩ := List.forall_mem_cons.1 hvalues
    rw [renderAttributes_cons]
    simp only [isPlain_cons, isPlain_append]
    exact ⟨by decide, hname.isPlain, by decide, by decide, isPlain_escapeValue hvalue, by decide,
      ih hnames hvalues⟩

mutual

/-- A legible node is written in plain characters. -/
theorem Node.Legible.isPlain {raw : Bool} : {n : Node} → n.Legible → IsPlain (n.render raw).toList
  | .text value span, ⟨_, hvalue⟩ => by
    rw [Node.render]
    split
    · exact hvalue
    · exact isPlain_escapeText hvalue
  | .comment value span, ⟨_, hvalue⟩ => by
    rw [Node.render, String.toList_append, String.toList_append, isPlain_append, isPlain_append]
    exact ⟨⟨by simp [IsPlain], hvalue⟩, by simp [IsPlain]⟩
  | .element tag children, ⟨htag, hvalues, _, _, _, hchildren⟩ => by
    have hstart : IsPlain tag.renderStart.toList := by
      have hattributes := isPlain_renderAttributes tag.attributes htag.attributes hvalues
      rw [toList_renderStart]
      simp only [isPlain_cons, isPlain_append]
      exact ⟨by decide, htag.name.isPlain, hattributes, by decide, isPlain_nil⟩
    have hend : IsPlain tag.renderEnd.toList := by
      rw [toList_renderEnd]
      simp only [isPlain_cons, isPlain_append]
      exact ⟨by decide, by decide, htag.name.isPlain, by decide, isPlain_nil⟩
    rw [Node.render]
    split
    · exact hstart
    · rw [String.toList_append, String.toList_append, isPlain_append, isPlain_append]
      exact ⟨⟨hstart, hchildren.isPlain⟩, hend⟩

/-- Legible nodes are written in plain characters. -/
theorem Legible.isPlain {raw : Bool} : {ns : List Node} → Legible ns → IsPlain (renderAll raw ns).toList
  | [], _ => by simp [renderAll, IsPlain]
  | n :: ns, ⟨hn, _, hns⟩ => by
    rw [renderAll, String.toList_append, isPlain_append]
    exact ⟨hn.isPlain, hns.isPlain⟩

end

/-- The tokens of legible nodes that were written are those of their items. -/
theorem Legible.tokenize_renderNodes {ns : List Node} (h : Legible ns) :
    ∃ ls, Spelling (itemsOf ns ++ [.endOfSource]) ls ∧
      (tokenize TagRules.html (renderNodes ns)).tokens.map Token.lexeme = ls ∧
      (tokenize TagRules.html (renderNodes ns)).faults = [] := by
  have hchars : beforeNul (unifyLines (renderNodes ns).toList) = (renderAll false ns).toList := by
    rw [renderNodes, unifyLines_eq_self _ h.isPlain, beforeNul_eq_self h.isPlain]
  have hscans := scans_renderAll ns h (.inl rfl) (Scans.nil TagRules.html)
  rw [List.append_nil] at hscans
  obtain ⟨ls, hls, hgives⟩ := hscans _ ⟨{}, (renderAll false ns).toList⟩ rfl (Nat.lt_succ_self _)
  refine ⟨ls, hls, ?_⟩
  unfold tokenize
  dsimp only
  rw [hchars]
  exact ⟨hgives.lexemes, hgives.faults⟩

end ViewTemplate.Markup
