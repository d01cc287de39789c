/-
Transcription.Proofs.Paragraphs — paragraphs around pages and the elements they may
not cross.

A scan over the tags of markup keeps the names of the open paragraphs, words,
punctuation marks, headings and supplied stretches. It fails where a paragraph opens
inside another one and where an end tag is not for the innermost element; where it
comes to its end with nothing open, the markup is `Paragraphed`.

Only page breaks open paragraphs. One that stands between words closes the paragraph
of the page before; the flag for an open page and what the scan has open agree then
(`scans_parts`). One that stands inside a word which is written as its nodes are
(`Part.Torn`) opens a paragraph in the word or closes one around it, and nothing that
follows makes up for this (`Fatal`).

**`paragraphed_iff`**: so the markup of a text is paragraphed exactly when no page
ends inside such a word.
-/
import Transcription.Proofs.Tags

namespace Transcription

open Markup

namespace Markup

/-! ## 1. The scan -/

/-- Whether a tag ends an element. -/
def isEndTag : Text → Bool
  | '<' :: '/' :: _ => true
  | _ => false

/-- Whether a tag is an empty element. -/
def isEmptyTag (tag : Text) : Bool :=
  match tag.reverse with
  | '>' :: '/' :: _ => true
  | _ => false

/-- The name of a paragraph. -/
def paragraph : Text :=
  "p"

/-- The elements that a scan follows. -/
def followed : List Text :=
  paragraph :: crossed

/-- An end tag takes its name off the open elements, which must be the innermost. -/
def ended (name : Text) : List Text → Option (List Text)
  | top :: rest => if top = name then some rest else none
  | [] => none

/-- The open elements after one more tag, the innermost first, unless the tag cannot
stand there. -/
def follow (opened : List Text) (tag : Text) : Option (List Text) :=
  let name := tagName tag
  if name ∉ followed ∨ isEmptyTag tag = true then some opened
  else if isEndTag tag = true then ended name opened
  else if name = paragraph ∧ name ∈ opened then none
  else some (name :: opened)

/-- Paragraphs are closed once each, hold no other paragraph, and cross no word,
punctuation mark, heading or supplied stretch. -/
def Paragraphed (t : Text) : Prop :=
  (tags t).foldlM follow [] = some []

instance (t : Text) : Decidable (Paragraphed t) :=
  inferInstanceAs (Decidable ((tags t).foldlM follow [] = some []))

/-- Tags that leave the open elements as they were. -/
def Neutral (ts : List Text) : Prop :=
  ∀ opened, ts.foldlM follow opened = some opened

section Follow

variable {name attrs tag : Text} {opened ts : List Text}

theorem follow_of_not_followed (h : tagName tag ∉ followed) : follow opened tag = some opened := by
  rw [follow, if_pos (.inl h)]

theorem isEmptyTag_endTag (hn : name ∈ followed) : isEmptyTag (endTag name) = false := by
  revert name
  decide

/-- A start tag with attributes ends in a quotation mark, so it does not look like an
empty element. -/
theorem isEmptyTag_startTag (hn : name ∈ followed) (ha : InTag attrs) :
    isEmptyTag (startTag name attrs) = false := by
  rcases List.eq_nil_or_concat attrs with rfl | ⟨front, c, rfl⟩
  · revert name
    decide
  · obtain rfl := ha.ends c (by simp)
    simp [startTag, isEmptyTag]

theorem isEndTag_startTag (hn : name ∈ followed) (attrs : Text) :
    isEndTag (startTag name attrs) = false := by
  have names : ∀ name ∈ followed, ∃ c more, name = c :: more ∧ c ≠ '/' := by
    intro name hn
    simp only [followed, crossed, List.mem_cons, List.not_mem_nil, or_false] at hn
    rcases hn with rfl | rfl | rfl | rfl | rfl <;> exact ⟨_, _, rfl, by decide⟩
  obtain ⟨c, more, rfl, hc⟩ := names name hn
  simp [startTag, isEndTag, hc]

theorem isName_of_followed (hn : name ∈ followed) : isName name = true := by
  revert name
  decide

/-- A start tag opens its element, unless that is a paragraph inside of a paragraph. -/
theorem follow_startTag (hn : name ∈ followed) (ha : InTag attrs) (opened : List Text) :
    follow opened (startTag name attrs)
      = if name = paragraph ∧ name ∈ opened then none else some (name :: opened) := by
  have start := tagName_startTag (isName_of_followed hn) ha
  simp [follow, start, isEmptyTag_startTag hn ha, isEndTag_startTag hn, hn]

/-- An end tag closes the innermost element, and no other. -/
theorem follow_endTag (hn : name ∈ followed) (top : Text) (opened : List Text) :
    follow (top :: opened) (endTag name) = if top = name then some opened else none := by
  have ends : isEndTag (endTag name) = true := rfl
  simp [follow, tagName_endTag (isName_of_followed hn), isEmptyTag_endTag hn, ends, hn, ended]

theorem followed_of_crossed (h : name ∈ crossed) : name ∈ followed ∧ name ≠ paragraph := by
  revert name
  decide

/-- What is not followed makes no difference. -/
theorem foldlM_follow_filter {q : Text → Bool}
    (h : ∀ tag ∈ ts, q tag = false → tagName tag ∉ followed) (opened : List Text) :
    (ts.filter q).foldlM follow opened = ts.foldlM follow opened := by
  induction ts generalizing opened with
  | nil => rfl
  | cons tag ts ih =>
    obtain ⟨ht, hts⟩ := List.forall_mem_cons.1 h
    cases hq : q tag with
    | true =>
      rw [List.filter_cons_of_pos hq, List.foldlM_cons, List.foldlM_cons]
      congr 1
      funext more
      exact ih hts more
    | false =>
      rw [List.filter_cons_of_neg (by simp [hq]), List.foldlM_cons,
        follow_of_not_followed (ht hq), ih hts]
      rfl

/-- Tags that are not followed, whole elements and ranges of characters leave the open
elements as they were. -/
theorem tolerates_neutral : Tolerates Neutral where
  nil := fun _ => rfl
  append ht hu opened := by
    rw [List.foldlM_append, ht]
    exact hu opened
  loose h opened := by
    have other : tagName _ ∉ followed := fun hf => h (by
      rcases List.mem_cons.1 hf with hp | hc
      · exact List.mem_append_left _ (hp ▸ List.mem_cons_self)
      · exact List.mem_append_right _ hc)
    rw [List.foldlM_cons, follow_of_not_followed other]
    rfl
  element {name attrs ts} hn ha ht opened := by
    obtain ⟨hf, hne⟩ := followed_of_crossed hn
    rw [List.foldlM_cons, follow_startTag hf ha, if_neg (fun h => hne h.1)]
    show (ts ++ [endTag name]).foldlM follow (name :: opened) = _
    rw [List.foldlM_append, ht]
    show [endTag name].foldlM follow (name :: opened) = _
    rw [List.foldlM_cons, follow_endTag hf, if_pos rfl]
    rfl
  ranges {ts us} same ht opened := by
    have skip (ts : List Text) : (ts.filter (tagName · ≠ ['c'])).foldlM follow opened
        = ts.foldlM follow opened :=
      foldlM_follow_filter (fun tag _ hq => by
        have range : tagName tag = ['c'] := by simpa using hq
        rw [range]
        decide) opened
    rw [← skip us, ← same, skip ts, ht]

end Follow

/-! ## 2. Markup in a scan -/

/-- Markup after which no scan comes to an end, wherever it stands. -/
def Fatal (t : Text) : Prop :=
  ∀ opened rest, (tags (t ++ rest)).foldlM follow opened = none

/-- Markup that leaves an open paragraph open, if a scan gets through it. -/
structure Holds (t : Text) : Prop where
  whole : Whole t
  holds {opened after : List Text} :
    (tags t).foldlM follow (paragraph :: opened) = some after → after = paragraph :: opened

/-- Markup that opens a paragraph in an element, if a scan gets through it. -/
structure Tears (t : Text) : Prop where
  whole : Whole t
  tears {name : Text} {opened after : List Text} : name ≠ paragraph →
    (tags t).foldlM follow (name :: opened) = some after → after = paragraph :: name :: opened

section Texts

variable {t u name attrs : Text}

/-- Whatever comes after it, such markup stays so. -/
theorem Fatal.append (h : Fatal t) (u : Text) : Fatal (t ++ u) := by
  intro opened rest
  rw [List.append_assoc]
  exact h opened (u ++ rest)

/-- Nor does whole markup before it help: it changes what is open at most. -/
theorem Fatal.after (hu : Fatal u) (ht : Whole t) : Fatal (t ++ u) := by
  intro opened rest
  rw [List.append_assoc, ht.tags_append, List.foldlM_append]
  cases (tags t).foldlM follow opened with
  | none => rfl
  | some after => exact hu after rest

theorem Fatal.not_paragraphed (h : Fatal t) (rest : Text) : ¬Paragraphed (t ++ rest) := by
  intro hp
  rw [Paragraphed, h] at hp
  cases hp

theorem holds_of_neutral (h : Passes Neutral t) : Holds t :=
  ⟨h.whole, fun {opened after} hs => by rw [h.tags] at hs; exact (Option.some.inj hs).symm⟩

theorem Holds.append (ht : Holds t) (hu : Holds u) : Holds (t ++ u) := by
  refine ⟨ht.whole.append hu.whole, fun {opened after} hs => ?_⟩
  rw [ht.whole.tags_append, List.foldlM_append] at hs
  obtain ⟨mid, first, second⟩ := Option.bind_eq_some_iff.1 hs
  rw [ht.holds first] at second
  exact hu.holds second

/-- A paragraph that has been opened is still open where what follows leaves it so. -/
theorem Tears.append (ht : Tears t) (hu : Holds u) : Tears (t ++ u) := by
  refine ⟨ht.whole.append hu.whole, fun {name opened after} hne hs => ?_⟩
  rw [ht.whole.tags_append, List.foldlM_append] at hs
  obtain ⟨mid, first, second⟩ := Option.bind_eq_some_iff.1 hs
  rw [ht.tears hne first] at second
  exact hu.holds second

/-- What comes before the paragraph has closed all that it opened. -/
theorem Tears.after (hu : Tears u) (ht : Passes Neutral t) : Tears (t ++ u) := by
  refine ⟨ht.whole.append hu.whole, fun {name opened after} hne hs => ?_⟩
  rw [ht.whole.tags_append, List.foldlM_append, ht.tags] at hs
  exact hu.tears hne hs

/-- An element with a paragraph opened in it does not end. -/
theorem Tears.fatal (h : Tears t) (hn : name ∈ crossed) (ha : InTag attrs) :
    Fatal (startTag name attrs ++ (t ++ endTag name)) := by
  intro opened rest
  obtain ⟨hf, hne⟩ := followed_of_crossed hn
  have opening : Complete (.tag (startTag name attrs)) :=
    complete_startTag (isName_of_followed hf) ha
  have ending : Complete (.tag (endTag name)) := complete_endTag (isName_of_followed hf)
  have shape : startTag name attrs ++ (t ++ endTag name) ++ rest
      = startTag name attrs ++ (t ++ (endTag name ++ rest)) := by
    simp only [List.append_assoc]
  have start : (tags (startTag name attrs)).foldlM follow opened = some (name :: opened) := by
    rw [tags_of_tag opening, List.foldlM_cons, follow_startTag hf ha, if_neg fun hp => hne hp.1]
    rfl
  rw [shape, Whole.tags_append (t := startTag name attrs) (whole_of_complete opening),
    List.foldlM_append, start]
  show (tags (t ++ (endTag name ++ rest))).foldlM follow (name :: opened) = none
  rw [h.whole.tags_append, List.foldlM_append]
  cases hs : (tags t).foldlM follow (name :: opened) with
  | none => rfl
  | some after =>
    rw [h.tears hne hs]
    show (tags (endTag name ++ rest)).foldlM follow (paragraph :: name :: opened) = none
    rw [Whole.tags_append (t := endTag name) (whole_of_complete ending), tags_of_tag ending,
      List.singleton_append, List.foldlM_cons, follow_endTag hf, if_neg (Ne.symm hne)]
    rfl

end Texts

end Markup

/-! ## 3. Pages that end inside words -/

/-- A page ends inside a word of the part, at any depth of blocks whose body is
written. -/
inductive Part.Torn : Part → Prop
  | word {kind : GroupKind} {children : List Part} {label : Text}
      (h : .leaf (.pageBreak label) ∈ children) : Torn (.group kind children)
  | inner {kind : GroupKind} {children : List Part} {p : Part} (h : p ∈ children) (hp : Torn p) :
      Torn (.group kind children)
  | body {kind : BlockKind} {body : List Part} {p : Part} (hk : kind ≠ .norm) (h : p ∈ body)
      (hp : Torn p) : Torn (.block kind body)

namespace Edition

/-- Some writing, one after the other. -/
def inTurn : List Writing → Writing
  | [] => pure []
  | w :: ws => do
      let first ← w
      let rest ← inTurn ws
      return first ++ rest

/-- What is written passes and opens no page, whatever the counters are. -/
def Keeps (P : List Text → Prop) (w : Writing) : Prop :=
  ∀ progress, Passes P (w progress).1 ∧ (w progress).2.inPage = progress.inPage

section Writings

variable {P : List Text → Prop} {w : Writing} {ws pre post : List Writing} {t : Text}
  {s : Settings} {a : Apparatus} {ps : List Part}

/-- A document writes its parts in turn, so that lemmas on lists of writings speak of it. -/
theorem parts_eq (s : Settings) (a : Apparatus) (ps : List Part) :
    parts s a ps = inTurn (ps.map (part s a)) := by
  induction ps with
  | nil => rfl
  | cons p ps ih => rw [parts, ih, List.map_cons, inTurn]

theorem fragments_eq (s : Settings) (a : Apparatus) (ps : List Part) :
    fragments s a ps = inTurn (ps.map (fragment s a)) := by
  induction ps with
  | nil => rfl
  | cons p ps ih => rw [fragments, ih, List.map_cons, inTurn]

theorem inTurn_cons (w : Writing) (ws : List Writing) (progress : Progress) :
    inTurn (w :: ws) progress
      = ((w progress).1 ++ (inTurn ws (w progress).2).1, (inTurn ws (w progress).2).2) := rfl

/-- The second part of a list goes on with the counters that the first part leaves. -/
theorem inTurn_append (pre post : List Writing) (progress : Progress) :
    inTurn (pre ++ post) progress
      = ((inTurn pre progress).1 ++ (inTurn post (inTurn pre progress).2).1,
        (inTurn post (inTurn pre progress).2).2) := by
  induction pre generalizing progress with
  | nil => rfl
  | cons w pre ih => rw [List.cons_append, inTurn_cons, ih, inTurn_cons, List.append_assoc]

theorem Keeps.pure (h : Passes P t) : Keeps P (pure t) :=
  fun _ => ⟨h, rfl⟩

/-- Writings that open no page open none together. -/
theorem keeps_inTurn (hP : Tolerates P) (h : ∀ w ∈ ws, Keeps P w) : Keeps P (inTurn ws) := by
  induction ws with
  | nil => exact .pure (.nil hP)
  | cons w ws ih =>
    obtain ⟨hw, hws⟩ := List.forall_mem_cons.1 h
    intro progress
    obtain ⟨first, same⟩ := hw progress
    obtain ⟨rest, still⟩ := ih hws (w progress).2
    exact ⟨.append hP first rest, still.trans same⟩

theorem whole_inTurn (h : ∀ w ∈ ws, ∀ progress, Whole (w progress).1) (progress : Progress) :
    Whole (inTurn ws progress).1 := by
  induction ws generalizing progress with
  | nil => exact whole_nil
  | cons w ws ih =>
    obtain ⟨hw, hws⟩ := List.forall_mem_cons.1 h
    exact (hw progress).append (ih hws _)

/-- One fatal writing after whole ones is enough. -/
theorem fatal_inTurn (hpre : ∀ w ∈ pre, ∀ progress, Whole (w progress).1)
    (hw : ∀ progress, Fatal (w progress).1) (post : List Writing) (progress : Progress) :
    Fatal (inTurn (pre ++ w :: post) progress).1 := by
  rw [inTurn_append]
  exact ((hw _).append _).after (whole_inTurn hpre progress)

end Writings

/-! ## 4. Words and blocks without such pages -/

section Parts

variable {s : Settings} {a : Apparatus} {p : Part} {ps children : List Part} {kind : GroupKind}
  {label content : Text} {n : Node} {progress : Progress}

theorem neutral_break {name : Text} (hn : isName name = true) (hf : name ∉ followed)
    (label : Option Text) : Passes Neutral (breakTag name label ++ "\n") :=
  passes_break hn fun opened => by
    rw [List.foldlM_cons, follow_of_not_followed (by rwa [tagName_breakTag hn])]
    rfl

theorem neutral_lineBreak (label : Option Text) :
    Passes Neutral (fragmentBreak (.lineBreak label)) := by
  rw [fragmentBreak_lineBreak]
  exact neutral_break (by decide) (by decide) label

theorem neutral_pageBreak (label : Text) : Passes Neutral (labelledBreak "pb" label) := by
  rw [labelledBreak_eq]
  exact neutral_break (by decide) (by decide) _

/-- In a block the break of a page is an empty element, like that of a line. -/
theorem neutral_fragmentBreak (n : Node) : Passes Neutral (fragmentBreak n) := by
  cases n with
  | lineBreak label => exact neutral_lineBreak label
  | pageBreak label => exact neutral_pageBreak label
  | _ => exact .nil tolerates_neutral

/-- Of the nodes only the break of a page opens a paragraph. -/
theorem keeps_leaf (h : n.InertName) (hp : ∀ label, n ≠ .pageBreak label) :
    Keeps Neutral (leaf s a n) := by
  cases n with
  | pageBreak label => exact absurd rfl (hp label)
  | lineBreak label =>
    cases label with
    | some label => exact fun _ => ⟨neutral_lineBreak (some label), rfl⟩
    | none =>
      refine fun progress => ⟨?_, rfl⟩
      show Passes Neutral (if s.autoLineNumbers then labelledBreak "lb" _
        else fragmentBreak (.lineBreak none))
      split
      · exact neutral_lineBreak (some _)
      · exact neutral_lineBreak none
  | _ => exact .pure (passes_inline tolerates_neutral h)

theorem neutral_blockElement (kind : BlockKind) (hc : Passes Neutral content) :
    Passes Neutral (blockElement kind content) := by
  cases kind with
  | supplied | head => exact passes_wrap tolerates_neutral (by decide) (by decide) hc
  | norm => exact hc

theorem neutral_unread (kind : BlockKind) (source : Text) :
    Passes Neutral (blockElement kind (remark "parse error" source)) :=
  neutral_blockElement kind (passes_remark tolerates_neutral source)

theorem normalizedParts_eq (a : Apparatus) (ps : List Part) :
    normalizedParts a ps = ps.flatMap (normalizedPart a) := by
  induction ps with
  | nil => rfl
  | cons p ps ih => rw [normalizedParts, ih, List.flatMap_cons]

/-- Where the normalized level alone is written, no word holds a break. -/
theorem neutral_normalizedPart (h : p.InertNames) : Passes Neutral (normalizedPart a p) := by
  induction h with
  | leaf inert =>
    exact .append tolerates_neutral (neutral_fragmentBreak _)
      (passes_normalizedOf tolerates_neutral inert)
  | @group kind children inert _ =>
    show Passes Neutral (if (a.normalized (Part.leaves children)).isEmpty then [] else _)
    have inert := Part.inertName_of_mem_leaves inert
    split
    · exact .nil tolerates_neutral
    · exact passes_readings tolerates_neutral (isName_groupTag kind) (by cases kind <;> decide)
        .nil (.nil tolerates_neutral) (.nil tolerates_neutral)
        (.flatMap tolerates_neutral fun n hn => passes_normalizedOf tolerates_neutral (inert n hn))
        (.nil tolerates_neutral)
  | @block kind body _ ih =>
    have inside : Passes Neutral (normalizedParts a body) := by
      rw [normalizedParts_eq]
      exact .flatMap tolerates_neutral ih
    cases kind with
    | head => exact .nil tolerates_neutral
    | supplied => exact neutral_blockElement .supplied inside
    | norm => exact neutral_blockElement .norm inside
  | @unread kind source =>
    cases kind with
    | head => exact .nil tolerates_neutral
    | supplied => exact neutral_unread .supplied source
    | norm => exact neutral_unread .norm source

/-- A part leaves the open elements as they were, except that a page break of a document
may open a paragraph. -/
structure Quiet (s : Settings) (a : Apparatus) (p : Part) : Prop where
  part : (∀ label, p ≠ .leaf (.pageBreak label)) → Keeps Neutral (part s a p)
  fragment : Keeps Neutral (fragment s a p)

/-- A node as it is in a document and in a block, where it opens no paragraph in any case. -/
theorem quiet_leaf (h : n.InertName) : Quiet s a (.leaf n) := by
  refine ⟨fun hp => ?_, ?_⟩
  · rw [part]
    exact keeps_leaf h fun label he => hp label (congrArg Part.leaf he)
  · rw [fragment]
    split
    · exact .pure (neutral_fragmentBreak n)
    · next inline => exact keeps_leaf h fun label he => inline (he ▸ rfl)

theorem inPage_wordSingle (a : Apparatus) (content : Text) (progress : Progress) :
    (wordSingle a content progress).2.inPage = progress.inPage := by
  unfold wordSingle
  split <;> rfl

/-- A group whose nodes are written through, if they are, holds no page break. -/
theorem quiet_group (h : ∀ p ∈ children, p.InertNames)
    (hc : s.multiLevel = true ∨ ∀ p ∈ children, Keeps Neutral (part s a p)) :
    Quiet s a (.group kind children) := by
  have levels (kind : GroupKind) : Keeps Neutral (pure (plainLevels a kind children [])) :=
    .pure (passes_plainLevels tolerates_neutral kind h)
  have inside (hs : ¬s.multiLevel = true) : Keeps Neutral (parts s a children) := by
    rw [parts_eq]
    exact keeps_inTurn tolerates_neutral (List.forall_mem_map.2 (hc.resolve_left hs))
  have single (hs : ¬s.multiLevel = true) (kind : GroupKind) :
      Keeps Neutral (return plainSingle kind (← parts s a children) []) := fun progress =>
    ⟨passes_plainSingle tolerates_neutral kind (inside hs progress).1, (inside hs progress).2⟩
  refine ⟨fun _ => ?_, ?_⟩
  · rw [part.eq_def]
    cases kind with
    | punctuation =>
      dsimp only
      split
      · exact levels .punctuation
      · next hs => exact single hs .punctuation
    | word =>
      dsimp only
      split
      · refine fun progress => ⟨passes_wordLevels tolerates_neutral h progress, ?_⟩
        rw [wordLevels_run]
      · next hs =>
        refine fun progress => ⟨?_, ?_⟩
        · exact passes_wordSingle tolerates_neutral (inside hs progress).1 _
        · exact (inPage_wordSingle a _ _).trans (inside hs progress).2
  · rw [fragment]
    split
    · exact levels kind
    · next hs => exact single hs kind

/-- A block is written with fragments alone, and these open no paragraph. -/
theorem quiet_block (h : ∀ p ∈ ps, p.InertNames) {kind : BlockKind}
    (hb : kind ≠ .norm → ∀ p ∈ ps, Quiet s a p) : Quiet s a (.block kind ps) := by
  have body (hk : kind ≠ .norm) : Passes Neutral (fragments s a ps .start).1 := by
    rw [fragments_eq]
    exact (keeps_inTurn tolerates_neutral
      (List.forall_mem_map.2 fun p hp => (hb hk p hp).fragment) .start).1
  cases kind with
  | norm =>
    have normalized : Keeps Neutral (pure (if s.multiLevel then normalizedParts a ps else [])) := by
      split
      · rw [normalizedParts_eq]
        exact .pure (.flatMap tolerates_neutral fun p hp => neutral_normalizedPart (h p hp))
      · exact .pure (.nil tolerates_neutral)
    exact ⟨fun _ => normalized, normalized⟩
  | head =>
    have element := Keeps.pure (neutral_blockElement .head (body (by decide)))
    exact ⟨fun _ => element, element⟩
  | supplied =>
    have element := Keeps.pure (neutral_blockElement .supplied (body (by decide)))
    exact ⟨fun _ => element, element⟩

theorem quiet_unread {kind : BlockKind} {source : Text} : Quiet s a (.unread kind source) := by
  have element : Keeps Neutral (pure (unreadBlock s kind source)) := by
    unfold unreadBlock
    split
    · exact .pure (.nil tolerates_neutral)
    · exact .pure (neutral_unread kind source)
  exact ⟨fun _ => element, element⟩

/-- A part is quiet if its words are written in their readings or if no page ends inside
of one, by induction on the part. -/
theorem quiet_of_not_torn (h : p.InertNames) (ht : s.multiLevel = true ∨ ¬p.Torn) :
    Quiet s a p := by
  induction h with
  | leaf inert => exact quiet_leaf inert
  | group inert ih =>
    refine quiet_group inert (ht.imp_right fun ht p hp => ?_)
    refine (ih p hp (.inr fun torn => ht (.inner hp torn))).part ?_
    rintro label rfl
    exact ht (.word hp)
  | block inert ih =>
    exact quiet_block inert fun hk p hp =>
      ih p hp (ht.imp_right fun ht torn => ht (.body hk hp torn))
  | unread => exact quiet_unread

end Parts

/-! ## 5. Page breaks -/

section Pages

variable {s : Settings} {label : Text} {progress : Progress} {opened : List Text}

/-- A page break and the paragraph after it. -/
def newPage (label : Text) : Text :=
  labelledBreak "pb" label ++ (startTag paragraph [] ++ "\n")

/-- The end of the paragraph before. -/
def pageEnd : Text :=
  endTag paragraph ++ "\n"

theorem complete_paragraph :
    Complete (.tag (startTag paragraph [])) ∧ Complete (.tag (endTag paragraph)) :=
  ⟨complete_startTag (by decide) .nil, complete_endTag (by decide)⟩

theorem whole_newPage (label : Text) : Whole (newPage label) :=
  (neutral_pageBreak label).whole.append (whole_line complete_paragraph.1)

/-- The paragraph of a new page fails inside of a paragraph. -/
theorem follow_newPage (label : Text) (opened : List Text) :
    (tags (newPage label)).foldlM follow opened
      = if paragraph ∈ opened then none else some (paragraph :: opened) := by
  rw [newPage, (neutral_pageBreak label).whole.tags_append, List.foldlM_append,
    (neutral_pageBreak label).tags]
  show (tags (startTag paragraph [] ++ "\n")).foldlM follow opened = _
  rw [tags_line complete_paragraph.1, List.foldlM_cons,
    follow_startTag (by decide) .nil]
  by_cases h : paragraph ∈ opened
  · rw [if_pos ⟨rfl, h⟩, if_pos h]
    rfl
  · rw [if_neg fun hp => h hp.2, if_neg h]
    rfl

/-- The paragraph of a page is closed only where it is the innermost element. -/
theorem follow_pageEnd (top : Text) (opened : List Text) :
    (tags pageEnd).foldlM follow (top :: opened)
      = if top = paragraph then some opened else none := by
  rw [pageEnd, tags_line complete_paragraph.2, List.foldlM_cons,
    follow_endTag (by decide)]
  split <;> rfl

/-- The paragraph before is closed if its page is open, and the page counts as open from
here on. -/
theorem pageBreak_run (hp : s.wrapPages = true) (label : Text) (progress : Progress) :
    pageBreak s label progress
      = ((if progress.inPage then pageEnd else []) ++ newPage label,
        { progress with inPage := true }) := by
  have shape (closing : Text) : closing ++ labelledBreak "pb" label ++ "<p>\n"
      = closing ++ newPage label := List.append_assoc ..
  rw [pageBreak, hp]
  show ((if progress.inPage then pageEnd else []) ++ labelledBreak "pb" label ++ "<p>\n", _) = _
  rw [shape]

theorem inPage_pageBreak (hp : s.wrapPages = true) (label : Text) (progress : Progress) :
    (pageBreak s label progress).2.inPage = true := by
  rw [pageBreak_run hp]

theorem pageBreak_plain (hp : s.wrapPages = false) (label : Text) (progress : Progress) :
    pageBreak s label progress = (labelledBreak "pb" label, progress) := by
  rw [pageBreak, hp]
  rfl

theorem whole_pageBreak (s : Settings) (label : Text) (progress : Progress) :
    Whole (pageBreak s label progress).1 := by
  cases hp : s.wrapPages with
  | false =>
    rw [pageBreak_plain hp]
    exact (neutral_pageBreak label).whole
  | true =>
    rw [pageBreak_run hp]
    refine Whole.append ?_ (whole_newPage label)
    split
    · exact whole_line complete_paragraph.2
    · exact whole_nil

/-- A page break closes the paragraph that is open on its page. -/
theorem follow_pageBreak (hp : s.wrapPages = true) (label : Text) (hi : progress.inPage = true)
    (top : Text) (opened : List Text) :
    (tags (pageBreak s label progress).1).foldlM follow (top :: opened)
      = if top = paragraph ∧ paragraph ∉ opened then some (paragraph :: opened) else none := by
  rw [pageBreak_run hp, hi]
  show (tags (pageEnd ++ newPage label)).foldlM follow (top :: opened) = _
  rw [Whole.tags_append (t := pageEnd) (whole_line complete_paragraph.2), List.foldlM_append,
    follow_pageEnd]
  by_cases ht : top = paragraph
  · rw [if_pos ht]
    show (tags (newPage label)).foldlM follow opened = _
    rw [follow_newPage]
    by_cases ho : paragraph ∈ opened <;> simp [ht, ho]
  · rw [if_neg ht, if_neg fun h => ht h.1]
    rfl

/-- With a page open, the next one takes over from its paragraph. -/
theorem holds_pageBreak (hp : s.wrapPages = true) (label : Text) (hi : progress.inPage = true) :
    Holds (pageBreak s label progress).1 := by
  refine ⟨whole_pageBreak s label progress, fun {opened after} h => ?_⟩
  rw [follow_pageBreak hp label hi] at h
  split at h
  · exact (Option.some.inj h).symm
  · cases h

/-- In an element, a break opens a paragraph, or fails to close one that lies outside. -/
theorem tears_pageBreak (hp : s.wrapPages = true) (label : Text) (progress : Progress) :
    Tears (pageBreak s label progress).1 := by
  refine ⟨whole_pageBreak s label progress, fun {name opened after} hne h => ?_⟩
  cases hi : progress.inPage with
  | true =>
    rw [follow_pageBreak hp label hi, if_neg fun hn => hne hn.1] at h
    cases h
  | false =>
    rw [pageBreak_run hp, hi] at h
    have opens : (tags (newPage label)).foldlM follow (name :: opened) = some after := h
    rw [follow_newPage] at opens
    split at opens
    · cases opens
    · exact (Option.some.inj opens).symm

end Pages

/-! ## 6. Torn words -/

section Torn

variable {s : Settings} {a : Apparatus} {p : Part} {ps children : List Part} {kind : GroupKind}
  {t content name attrs : Text} {label : Text}

/-- Where some member of a list has a property, there is a first one. -/
theorem exists_first {α : Type} {Q : α → Prop} {as : List α} (h : ∃ a ∈ as, Q a) :
    ∃ pre a post, as = pre ++ a :: post ∧ Q a ∧ ∀ b ∈ pre, ¬Q b := by
  induction as with
  | nil => obtain ⟨a, ha, -⟩ := h; cases ha
  | cons b as ih =>
    by_cases hb : Q b
    · exact ⟨[], b, as, rfl, hb, nofun⟩
    · obtain ⟨a, ha, hq⟩ := h
      rcases List.mem_cons.1 ha with rfl | ha
      · exact absurd hq hb
      · obtain ⟨pre, a, post, rfl, hq, none⟩ := ih ⟨a, ha, hq⟩
        exact ⟨b :: pre, a, post, rfl, hq, List.forall_mem_cons.2 ⟨hb, none⟩⟩

/-- Content that no element around it survives. -/
def Breaks (t : Text) : Prop :=
  Tears t ∨ Fatal t

theorem Breaks.append (h : Breaks t) {u : Text} (hu : Passes Neutral u) : Breaks (t ++ u) :=
  h.imp (fun tears => tears.append (holds_of_neutral hu)) fun fatal => fatal.append u

/-- The end tag of the element finds a paragraph, or is not reached. -/
theorem Breaks.fatal (h : Breaks t) (hn : name ∈ crossed) (ha : InTag attrs) :
    Fatal (startTag name attrs ++ (t ++ endTag name)) := by
  rcases h with tears | fatal
  · exact tears.fatal hn ha
  · exact (fatal.append _).after
      (whole_of_complete (complete_startTag (isName_of_followed (followed_of_crossed hn).1) ha))

/-- Empty content would leave the scan as it was. -/
theorem Breaks.isEmpty_eq_false (h : Breaks t) : t.isEmpty = false := by
  cases t with
  | cons c t => rfl
  | nil =>
    rcases h with tears | fatal
    · have outside : ([] : Text) ≠ paragraph := by decide
      have start : (tags []).foldlM follow [[]] = some [[]] := by rw [tags_nil]; rfl
      cases tears.tears outside start
    · have ends := fatal [] []
      rw [List.append_nil, tags_nil] at ends
      cases ends

/-- A word is not left out, as it has content, and its tags enclose what breaks it. -/
theorem fatal_wordSingle (h : Breaks content) (progress : Progress) :
    Fatal (wordSingle a content progress).1 := by
  have attrs : InTag (attributes (a.wordAttributes progress.wordIndex)) :=
    inTag_attributes (named_wordAttributes a progress.wordIndex)
  have noted := h.append (passes_notes tolerates_neutral a progress.wordIndex)
  have fatal := (noted.fatal (show ("w" : Text) ∈ crossed by decide) attrs).append "\n"
  have shape : (wordSingle a content progress).1
      = startTag "w" (attributes (a.wordAttributes progress.wordIndex))
        ++ (content ++ a.notes progress.wordIndex ++ endTag "w") ++ "\n" := by
    have opening : ("<w" : Text) = '<' :: "w" := rfl
    have ending : ("</w>\n" : Text) = endTag "w" ++ "\n" := rfl
    rw [wordSingle_run (List.isEmpty_eq_false_iff.1 h.isEmpty_eq_false), opening, ending, startTag]
    simp only [List.append_assoc, List.cons_append, List.nil_append]
  rw [shape]
  exact fatal

theorem fatal_plainSingle (h : Breaks content) (kind : GroupKind) :
    Fatal (plainSingle kind content []) := by
  have matters : groupTag kind ∈ crossed := by cases kind <;> decide
  have fatal := (h.fatal matters .nil).append "\n"
  have ending : (">\n" : Text) = ['>'] ++ "\n" := rfl
  rw [plainSingle, h.isEmpty_eq_false, ending]
  simpa [startTag, endTag] using fatal

theorem fatal_blockElement {kind : BlockKind} (hk : kind ≠ .norm) (h : Fatal content) :
    Fatal (blockElement kind content) := by
  have shape (name : Text) : wrap name content = startTag name [] ++ (content ++ endTag name) := by
    have ending : (">" : Text) = ['>'] := rfl
    rw [wrap, startTag, endTag, ending]
    simp only [List.append_assoc, List.cons_append, List.nil_append]
  have element (name : Text) (hn : name ∈ crossed) : Fatal (wrap name content) := by
    rw [shape]
    exact Breaks.fatal (.inr h) hn .nil
  cases kind with
  | norm => exact absurd rfl hk
  | head => exact element "head" (by decide)
  | supplied => exact element "supplied" (by decide)

/-- Every part that is quiet writes whole tags, the breaks of pages included. -/
theorem whole_part (h : Quiet s a p) (progress : Progress) : Whole (part s a p progress).1 := by
  by_cases hb : ∃ label, p = .leaf (.pageBreak label)
  · obtain ⟨label, rfl⟩ := hb
    rw [part]
    exact whole_pageBreak s label progress
  · exact (h.part (fun label he => hb ⟨label, he⟩) progress).1.whole

/-- The first torn part of a document is enough. -/
theorem fatal_parts (hq : ∀ p ∈ ps, ¬p.Torn → Quiet s a p)
    (hf : ∀ p ∈ ps, p.Torn → ∀ progress, Fatal (part s a p progress).1)
    (ht : ∃ p ∈ ps, p.Torn) (progress : Progress) :
    Fatal (inTurn (ps.map (part s a)) progress).1 := by
  obtain ⟨pre, p, post, rfl, torn, before⟩ := exists_first ht
  have whole : ∀ w ∈ pre.map (part s a), ∀ progress, Whole (w progress).1 :=
    List.forall_mem_map.2 fun q hm =>
      whole_part (hq q (List.mem_append_left _ hm) (before q hm))
  rw [List.map_append, List.map_cons]
  exact fatal_inTurn whole (hf p (List.mem_append_right _ List.mem_cons_self) torn) _ progress

section Single

variable (hp : s.wrapPages = true)

include hp

/-- After a page break in a word, a paragraph is open to the end of its nodes. -/
theorem holds_parts (h : ∀ p ∈ ps, Quiet s a p) (progress : Progress)
    (hi : progress.inPage = true) : Holds (inTurn (ps.map (part s a)) progress).1 := by
  induction ps generalizing progress with
  | nil => exact holds_of_neutral (.nil tolerates_neutral)
  | cons p ps ih =>
    obtain ⟨quiet, rest⟩ := List.forall_mem_cons.1 h
    by_cases hb : ∃ label, p = .leaf (.pageBreak label)
    · obtain ⟨label, rfl⟩ := hb
      have first : part s a (.leaf (.pageBreak label)) = pageBreak s label := by rw [part]; rfl
      rw [List.map_cons, first]
      exact (holds_pageBreak hp label hi).append (ih rest _ (inPage_pageBreak hp label progress))
    · obtain ⟨first, same⟩ := quiet.part (fun label he => hb ⟨label, he⟩) progress
      exact (holds_of_neutral first).append (ih rest _ (same.trans hi))

/-- The first break among the nodes of a word opens the paragraph, those after it take
over. -/
theorem tears_parts (h : ∀ p ∈ ps, Quiet s a p) (hb : .leaf (.pageBreak label) ∈ ps)
    (progress : Progress) : Tears (inTurn (ps.map (part s a)) progress).1 := by
  obtain ⟨pre, p, post, rfl, ⟨label, rfl⟩, before⟩ :=
    exists_first (Q := fun p => ∃ label, p = .leaf (.pageBreak label)) ⟨_, hb, label, rfl⟩
  have pre_keeps : Keeps Neutral (inTurn (pre.map (part s a))) :=
    keeps_inTurn tolerates_neutral (List.forall_mem_map.2 fun q hq =>
      (h q (List.mem_append_left _ hq)).part fun label he => before q hq ⟨label, he⟩)
  have first : part s a (.leaf (.pageBreak label)) = pageBreak s label := by rw [part]; rfl
  have post_quiet : ∀ q ∈ post, Quiet s a q := fun q hq =>
    h q (List.mem_append_right _ (List.mem_cons_of_mem _ hq))
  rw [List.map_append, List.map_cons, inTurn_append, first]
  refine Tears.after (Tears.append (tears_pageBreak hp label _) ?_) (pre_keeps progress).1
  exact holds_parts hp post_quiet _ (inPage_pageBreak hp label _)

/-- A page ends among the nodes themselves, or inside one of them. -/
theorem breaks_children (h : Part.Torn (.group kind children))
    (hq : ∀ p ∈ children, ¬p.Torn → Quiet s a p)
    (hf : ∀ p ∈ children, p.Torn → ∀ progress, Fatal (part s a p progress).1)
    (progress : Progress) : Breaks (parts s a children progress).1 := by
  rw [parts_eq]
  by_cases inner : ∃ p ∈ children, p.Torn
  · exact .inr (fatal_parts hq hf inner progress)
  · have quiet : ∀ p ∈ children, Quiet s a p := fun p hm =>
      hq p hm fun torn => inner ⟨p, hm, torn⟩
    cases h with
    | word hb => exact .inl (tears_parts hp quiet hb progress)
    | inner hm torn => exact absurd ⟨_, hm, torn⟩ inner

/-- No scan comes to an end after a torn part, by induction on the part. -/
theorem fatal_of_torn (hs : s.multiLevel = false) (h : p.InertNames) (ht : p.Torn) :
    (∀ progress, Fatal (part s a p progress).1)
      ∧ ∀ progress, Fatal (fragment s a p progress).1 := by
  have quiet {ps : List Part} (h : ∀ p ∈ ps, p.InertNames) : ∀ p ∈ ps, ¬p.Torn → Quiet s a p :=
    fun p hm torn => quiet_of_not_torn (h p hm) (.inr torn)
  induction h with
  | leaf => cases ht
  | unread => cases ht
  | @group kind children inert ih =>
    have content := breaks_children hp ht (quiet inert) fun q hm torn => (ih q hm torn).1
    refine ⟨fun progress => ?_, fun progress => ?_⟩
    · rw [part.eq_def, hs]
      cases kind with
      | word => exact fatal_wordSingle (content progress) _
      | punctuation => exact fatal_plainSingle (content progress) .punctuation
    · rw [fragment, hs]
      exact fatal_plainSingle (content progress) kind
  | @block kind body inert ih =>
    cases ht with
    | body hk hm torn =>
      obtain ⟨pre, q, post, rfl, torn, before⟩ := exists_first ⟨_, hm, torn⟩
      have whole : ∀ w ∈ pre.map (fragment s a), ∀ progress, Whole (w progress).1 :=
        List.forall_mem_map.2 fun r hr progress =>
          ((quiet inert r (List.mem_append_left _ hr) (before r hr)).fragment progress).1.whole
      have content : Fatal (fragments s a (pre ++ q :: post) .start).1 := by
        rw [fragments_eq, List.map_append, List.map_cons]
        exact fatal_inTurn whole (ih q (List.mem_append_right _ List.mem_cons_self) torn).2 _ _
      have element := fatal_blockElement hk content
      cases kind with
      | norm => exact absurd rfl hk
      | head | supplied => exact ⟨fun _ => element, fun _ => element⟩

/-! ## 7. Documents -/

/-- The paragraph of the page that is open, if one is. -/
def openPage (progress : Progress) : List Text :=
  if progress.inPage then [paragraph] else []

/-- One part: a break changes the flag and the scan alike, other parts change neither. -/
theorem scans_part (h : Quiet s a p) (progress : Progress) :
    (tags (part s a p progress).1).foldlM follow (openPage progress)
      = some (openPage (part s a p progress).2) := by
  by_cases hb : ∃ label, p = .leaf (.pageBreak label)
  · obtain ⟨label, rfl⟩ := hb
    have first : part s a (.leaf (.pageBreak label)) = pageBreak s label := by rw [part]; rfl
    have after : openPage (pageBreak s label progress).2 = [paragraph] := by
      rw [openPage, if_pos (inPage_pageBreak hp label progress)]
    rw [first, after]
    cases hi : progress.inPage with
    | true =>
      rw [openPage, if_pos hi, follow_pageBreak hp label hi]
      rfl
    | false =>
      have opens : (pageBreak s label progress).1 = newPage label := by
        rw [pageBreak_run hp, hi]
        rfl
      rw [openPage, hi, opens, follow_newPage]
      rfl
  · obtain ⟨passes, same⟩ := h.part (fun label he => hb ⟨label, he⟩) progress
    rw [passes.tags, openPage, openPage, same]

/-- What a scan has open agrees with the flag for an open page. -/
theorem scans_parts (h : ∀ p ∈ ps, Quiet s a p) (progress : Progress) :
    (tags (inTurn (ps.map (part s a)) progress).1).foldlM follow (openPage progress)
      = some (openPage (inTurn (ps.map (part s a)) progress).2) := by
  induction ps generalizing progress with
  | nil =>
    show (tags []).foldlM follow (openPage progress) = _
    rw [tags_nil]
    rfl
  | cons p ps ih =>
    obtain ⟨quiet, rest⟩ := List.forall_mem_cons.1 h
    show (tags ((part s a p progress).1 ++ _)).foldlM follow (openPage progress) = _
    rw [(whole_part quiet progress).tags_append, List.foldlM_append, scans_part hp quiet]
    exact ih rest _

end Single

end Torn

/-- The nodes that are written: in groups where words are wrapped. -/
def units (s : Settings) (ns : List Node) : List Node :=
  if s.wordWrap then Node.grouped ns else ns

theorem inertNames_units {s : Settings} {source : Text} {ns : List Node}
    (hl : Lexer.lex source = .ok ns) : ∀ p ∈ Part.ofNodes (units s ns), p.InertNames := by
  unfold units
  split
  · exact Part.inertNames_of_grouped_lex hl
  · exact Part.inertNames_of_lex hl

/-- At the end of a document the paragraph of the last page is closed if the flag says so. -/
theorem ofNodes_eq (s : Settings) (a : Apparatus) (ns : List Node) :
    let run := inTurn ((Part.ofNodes (units s ns)).map (part s a)) .start
    ofNodes s a ns = run.1 ++ if s.wrapPages && run.2.inPage then pageEnd else [] := by
  intro run
  have same : parts s a (Part.ofNodes (units s ns)) .start = run := by rw [parts_eq]
  have step : ofNodes s a ns = if s.wrapPages && run.2.inPage then run.1 ++ pageEnd else run.1 := by
    rw [← same]
    rfl
  rw [step]
  split
  · rfl
  · rw [List.append_nil]

/-- **Paragraphs around pages nest with words, punctuation marks, headings and supplied
stretches** exactly if no page ends inside a word that is written as its nodes are. -/
theorem paragraphed_iff {s : Settings} {a : Apparatus} {source : Text} {ns : List Node}
    (hl : Lexer.lex source = .ok ns) (hp : s.wrapPages = true) :
    ∃ xml, ofText s a source = .ok xml ∧ (Paragraphed xml
      ↔ s.multiLevel = true ∨ ∀ p ∈ Part.ofNodes (units s ns), ¬p.Torn) := by
  refine ⟨ofNodes s a ns, by rw [ofText, hl]; rfl, ?_⟩
  have inert := inertNames_units (s := s) hl
  constructor
  · intro nested
    cases single : s.multiLevel with
    | true => exact .inl rfl
    | false =>
      refine .inr fun p hm torn => ?_
      have fatal := fatal_parts (a := a)
        (fun q hq ht => quiet_of_not_torn (inert q hq) (.inr ht))
        (fun q hq ht => (fatal_of_torn hp single (inert q hq) ht).1) ⟨p, hm, torn⟩ .start
      rw [ofNodes_eq] at nested
      exact fatal.not_paragraphed _ nested
  · intro h
    have quiet : ∀ p ∈ Part.ofNodes (units s ns), Quiet s a p := fun p hm =>
      quiet_of_not_torn (inert p hm) (h.imp_right fun none => none p hm)
    have scanned := scans_parts hp quiet .start
    have whole := whole_inTurn (List.forall_mem_map.2 fun p hm => whole_part (quiet p hm)) .start
    rw [ofNodes_eq, Paragraphed, whole.tags_append, List.foldlM_append]
    generalize inTurn ((Part.ofNodes (units s ns)).map (part s a)) .start = run at scanned ⊢
    have scanned : (tags run.1).foldlM follow [] = some (openPage run.2) := scanned
    rw [scanned, hp, Option.bind_eq_bind, Option.bind_some]
    cases hi : run.2.inPage with
    | true =>
      rw [openPage, if_pos hi]
      show (tags pageEnd).foldlM follow [paragraph] = some []
      rw [follow_pageEnd, if_pos rfl]
    | false =>
      rw [openPage, hi]
      show (tags []).foldlM follow [] = some []
      rw [tags_nil]
      rfl

/-- Two words with a page break between them. -/
theorem paragraphed_between_words :
    ∃ xml, ofText ⟨true, false, false, true⟩ .empty
        ['a', ' ', '/', '/', '/', '1', ' ', 'b'] = .ok xml
      ∧ Paragraphed xml := by
  let s : Settings := ⟨true, false, false, true⟩
  let ns : List Node := [.text ['a', ' '], .pageBreak ['1'], .text [' ', 'b']]
  have sign : Lexer.construct ['/', '/', '/', '1', ' ', 'b']
      = .ok (some ([.pageBreak ['1']], [' ', 'b'])) := rfl
  have lexed : Lexer.lex ['a', ' ', '/', '/', '/', '1', ' ', 'b'] = .ok ns := by
    rw [Lexer.lex_char rfl, Lexer.lex_char rfl, Lexer.lex_construct sign, Lexer.lex_char rfl,
      Lexer.lex_char rfl, Lexer.lex_nil]
    rfl
  have text (t : Text) : Part.ofNode (.text t) = .leaf (.text t) := Part.ofNode_leaf rfl
  have page (l : Text) : Part.ofNode (.pageBreak l) = .leaf (.pageBreak l) := Part.ofNode_leaf rfl
  have written : Part.ofNodes (units s ns) = [.group .word [.leaf (.text ['a'])],
      .leaf (.pageBreak ['1']), .group .word [.leaf (.text ['b'])]] := by
    show Part.ofNodes [.group .word [.text ['a']], .pageBreak ['1'], .group .word [.text ['b']]] = _
    simp only [Part.ofNodes, Part.ofNode_group, text, page, List.map_cons, List.map_nil]
  have word (t : Text) : ¬(Part.group .word [.leaf (.text t)]).Torn := by
    intro torn
    cases torn with
    | word h => cases List.mem_singleton.1 h
    | inner h torn => cases List.mem_singleton.1 h; cases torn
  obtain ⟨xml, compiled, nests⟩ := paragraphed_iff (s := s) (a := .empty) lexed rfl
  refine ⟨xml, compiled, nests.2 (.inr ?_)⟩
  rw [written]
  have page : ¬(Part.leaf (.pageBreak ['1'])).Torn := fun torn => by cases torn
  exact List.forall_mem_cons.2 ⟨word _, List.forall_mem_cons.2 ⟨page,
    List.forall_mem_singleton.2 (word _)⟩⟩

/-- A word with a page break inside of it: the paragraph opens in the word. -/
theorem page_in_word :
    ∃ xml, ofText ⟨true, false, false, true⟩ .empty ['a', '/', '/', '/', '1', ' ', 'b'] = .ok xml
      ∧ xml = "<w>a<pb n=\"1\"/>\n<p>\n</w>\n<w>b</w>\n</p>\n" ∧ ¬Paragraphed xml := by
  have compiled : (ofText ⟨true, false, false, true⟩ .empty
      ['a', '/', '/', '/', '1', ' ', 'b']).toOption
      = some "<w>a<pb n=\"1\"/>\n<p>\n</w>\n<w>b</w>\n</p>\n" := by decide +kernel
  refine ⟨_, ?_, rfl, by decide +kernel⟩
  cases h : ofText ⟨true, false, false, true⟩ .empty ['a', '/', '/', '/', '1', ' ', 'b'] with
  | error e => rw [h] at compiled; cases compiled
  | ok xml => rw [h] at compiled; exact congrArg _ (Option.some.inj compiled)

end Edition

end Transcription
