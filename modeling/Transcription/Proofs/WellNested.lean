/-
Transcription.Proofs.WellNested — the markup of a transcription is well nested.

Everything that is written from the outside, which is the text of the nodes, the
substitutions of the dictionary, headwords, remarks and the sources of blocks that
cannot be read, is escaped on its way. The names of entities alone are written as
they are; the lexer lets none pass that holds a delimiter, at any depth of blocks
(`inertNames_of_grouped_lex`). From there the markup of each part is nested, in documents, in
fragments and at the normalized level alike (`written_of_inertNames`).

**`wellNested_ofText`**: so is the markup of every text that can be read. Paragraphs
around pages, which break elements apart where a page ends inside of one, and ranges
of characters, which may overlap, are left out.
-/
import Transcription.Edition.Document
import Transcription.Proofs.Nesting
import Transcription.Proofs.Words

namespace Transcription

open Markup Scan

/-! ## 1. Readings -/

/-- The name of a named character is inert. -/
def Node.InertName (n : Node) : Prop :=
  ∀ name, n = .entity name → Inert name

/-- Each reading is nested. -/
structure Readings.IsNested (r : Readings) : Prop where
  facsimile : Nested r.facsimile
  diplomatic : Nested r.diplomatic
  normalized : Nested r.normalized

/-- Every mark is written with an element that has a name. -/
theorem Mark.isName_tag (mark : Mark) : isName mark.tag = true := by
  cases mark <;> decide

namespace Apparatus

variable {a : Apparatus} {n : Node}

theorem nested_blank : Nested [' '] :=
  Inert.nested (by decide)

/-- Letters in the place of a named character, or else a reference to it. -/
theorem nested_letters {name : Text} (h : Inert name) (f : Text → Text) (letters : Option Text) :
    Nested (match letters with
      | some t => escape (f t)
      | none => reference name) := by
  cases letters with
  | some t => exact nested_escape (f t)
  | none => exact nested_reference h

/-- The facsimile writes an element, escaped text or a reference for a node. -/
theorem nested_facsimileOf (h : n.InertName) : Nested (a.facsimileOf n) := by
  cases n with
  | text content => exact nested_escape content
  | entity name => exact nested_letters (h name rfl) id (a.reduced name)
  | abbreviation abbr expansion => exact nested_element (by decide) abbr
  | gap quantity reading => exact nested_gap quantity
  | marked mark content =>
    cases mark with
    | supplied => exact .nil
    | deletion | addition | note | unclear => exact nested_element (Mark.isName_tag _) content
  | compoundJoin => exact nested_blank
  | _ => exact .nil

theorem nested_diplomaticOf (h : n.InertName) : Nested (a.diplomaticOf n) := by
  cases n with
  | text content => exact nested_escape content
  | entity name => exact nested_letters (h name rfl) id (a.resolved name)
  | abbreviation abbr expansion => exact nested_element (by decide) expansion
  | gap quantity reading =>
    show Nested (gapReading reading)
    unfold gapReading
    split
    · exact .nil
    · split
      · exact .nil
      · exact nested_element (by decide) _
  | marked mark content => exact nested_element mark.isName_tag content
  | compoundJoin => exact nested_blank
  | _ => exact .nil

theorem nested_normalizedOf (h : n.InertName) : Nested (a.normalizedOf n) := by
  cases n with
  | text content => exact nested_escape _
  | entity name => exact nested_letters (h name rfl) a.normalize (a.resolved name)
  | abbreviation abbr expansion => exact nested_element (by decide) _
  | gap quantity reading =>
    cases reading with
    | none => exact .nil
    | some t =>
      show Nested (if t.isEmpty then [] else element "supplied" (a.normalize t))
      split
      · exact .nil
      · exact nested_element (by decide) _
  | marked mark content => exact nested_element mark.isName_tag _
  | _ => exact .nil

end Apparatus

namespace Readings

variable {r : Readings} {tag attrs notes : Text}

/-- Three readings side by side, each in an element of its own. -/
theorem IsNested.write (hr : r.IsNested) (ht : isName tag = true) (ha : Attributed attrs)
    (hn : Nested notes) : Nested (r.write tag attrs notes) := by
  intro stack
  obtain ⟨place, hp, inside⟩ := ha stack tag (.name tag) (.inl rfl)
  -- the tags around each reading, with the elements that are open there
  have opens : Reads ⟨stack, place⟩ ">\n  <choice>\n    <me:facs>"
      ⟨"me:facs" :: "choice" :: tag :: stack, .content⟩ :=
    .cons (step_isAfter hp (by decide)) rfl
  have facs := (((reads_tagName ht).append inside).append opens).append (hr.facsimile _)
  have toDipl : Reads ⟨"me:facs" :: "choice" :: tag :: stack, .content⟩ "</me:facs>\n    <me:dipl>"
      ⟨"me:dipl" :: "choice" :: tag :: stack, .content⟩ := rfl
  have dipl := (facs.append toDipl).append (hr.diplomatic _)
  have toNorm : Reads ⟨"me:dipl" :: "choice" :: tag :: stack, .content⟩ "</me:dipl>\n    <me:norm>"
      ⟨"me:norm" :: "choice" :: tag :: stack, .content⟩ := rfl
  have norm := (dipl.append toNorm).append (hr.normalized _)
  have toNotes : Reads ⟨"me:norm" :: "choice" :: tag :: stack, .content⟩ "</me:norm>\n  </choice>"
      ⟨tag :: stack, .content⟩ := rfl
  have noted := (norm.append toNotes).append (hn _)
  have ends : Reads ⟨tag :: stack, .content⟩ "\n</" ⟨tag :: stack, .closing []⟩ := rfl
  have last : Reads ⟨tag :: stack, .closing tag⟩ ">\n" ⟨stack, .content⟩ :=
    .cons (step_end stack tag) rfl
  exact ((noted.append ends).append (reads_endName ht)).append last

end Readings

/-! ## 2. What headwords and remarks add -/

namespace Edition

/-- Every attribute has a name. -/
def Named (table : Table Text) : Prop :=
  ∀ entry ∈ table, isName entry.1 = true

section Attributes

variable {a : Apparatus} {index : Int} {table more : Table Text}

theorem Named.append (ht : Named table) (hm : Named more) : Named (table ++ more) :=
  List.forall_mem_append.2 ⟨ht, hm⟩

/-- An attribute that may be missing. -/
theorem named_attr? {α : Type} {name : Text} (hn : isName name = true) (encode : α → Text)
    (value : Option α) : Named (attr? name encode value) := by
  cases value with
  | none => exact nofun
  | some _ => exact List.forall_mem_singleton.2 hn

theorem named_ofObservation (o : Remark.Observation) : Named (ofObservation o).attrs := by
  unfold ofObservation
  split
  · exact (named_attr? (by decide) _ _).append (named_attr? (by decide) _ _)
  · exact ((named_attr? (by decide) _ _).append (named_attr? (by decide) _ _)).append
      (named_attr? (by decide) _ _)
  · exact (named_attr? (by decide) _ _).append (named_attr? (by decide) _ _)
  · exact (named_attr? (by decide) _ _).append (named_attr? (by decide) _ _)
  · exact nofun

/-- Attributes are named by the kind of remark, whatever its values are. -/
theorem named_ofRemark (r : Remark) : Named (ofRemark r).attrs := by
  unfold ofRemark
  split
  · exact nofun
  · exact named_attr? (by decide) _ _
  · exact named_ofObservation _
  · exact nofun

/-- The attributes of a word have names, whatever the headwords and remarks say. -/
theorem named_wordAttributes (a : Apparatus) (index : Int) : Named (a.wordAttributes index) := by
  have headword : Named (a.headwordAttributes index) := by
    unfold Apparatus.headwordAttributes
    split
    · exact nofun
    · have names : isName "lemma" = true ∧ isName "me:msa" = true := by decide
      exact List.forall_mem_cons.2 ⟨names.1, List.forall_mem_singleton.2 names.2⟩
  have remarks : Named (a.remarkAttributes index) := by
    refine Named.append (fun entry he => ?_) (named_attr? (by decide) _ _)
    obtain ⟨addendum, ha, he⟩ := List.mem_flatMap.1 he
    obtain ⟨r, -, rfl⟩ := List.mem_map.1 ha
    exact named_ofRemark r entry he
  exact headword.append remarks

theorem nested_noteOf (r : Remark) : Nested (Apparatus.noteOf r) := by
  unfold Apparatus.noteOf
  split
  · next text category _ _ =>
    have attrs : Attributed (attributes (attr? "type" id category)) :=
      attributed_attributes (named_attr? (by decide) id category)
    exact fun stack => @reads_element stack "note" _ _ _ _ _ rfl attrs (nested_escape text) rfl
  · exact .nil

/-- Notes stand behind the content of their word. -/
theorem nested_notes (a : Apparatus) (index : Int) : Nested (a.notes index) :=
  Nested.flatMap fun r _ => nested_noteOf r

end Attributes

end Edition

/-! ## 3. The parts of a text -/

/-- A property of parts that goes from the parts in the body of a block to the block, and that
breaks, words, punctuation marks and blocks that cannot be read have anyway. -/
structure Part.Hereditary (Q : Part → Prop) : Prop where
  leaf {n : Node} : n.Admissible → n.isBreak = true → Q (.leaf n)
  word {children : List Node} : children ≠ [] → (∀ n ∈ children, Node.InWord n) →
    Q (.group .word (children.map .leaf))
  punctuation (c : Char) : Q (.group .punctuation [.leaf (.text [c])])
  block {kind : BlockKind} {body : List Part} : (∀ p ∈ body, Q p) → Q (.block kind body)
  unread (kind : BlockKind) (source : Text) : Q (.unread kind source)

/-- Every named character of a part has an inert name, at any depth. -/
inductive Part.InertNames : Part → Prop
  | leaf {n : Node} (h : n.InertName) : InertNames (.leaf n)
  | group {kind : GroupKind} {children : List Part} (h : ∀ p ∈ children, InertNames p) :
      InertNames (.group kind children)
  | block {kind : BlockKind} {body : List Part} (h : ∀ p ∈ body, InertNames p) :
      InertNames (.block kind body)
  | unread {kind : BlockKind} {source : Text} : InertNames (.unread kind source)

namespace Part

open Node

variable {Q : Part → Prop} {n : Node} {ns : List Node} {t : Text}

/-- A node inside a word weighs nothing, as no block opens there. -/
theorem weight_of_inWord (h : InWord n) : n.weight = 0 := by
  cases n with
  | block _ _ | group _ _ => rcases h.inside with hi | hi <;> cases hi
  | _ => rfl

/-- The nodes of a word are leaves. -/
theorem ofNodes_inWord (h : ∀ n ∈ ns, InWord n) : ofNodes ns = ns.map .leaf :=
  List.map_congr_left fun n hn => ofNode_leaf (weight_of_inWord (h n hn))

/-- What comes out of grouping has the property if it does as a block. -/
theorem Hereditary.of_grouped (hQ : Hereditary Q) (h : Grouped n)
    (hb : ∀ kind body, n = .block kind body → Q (ofNode n)) : Q (ofNode n) := by
  cases n with
  | group kind children =>
    rw [ofNode_group]
    cases kind with
    | word =>
      rw [ofNodes_inWord h.2.1]
      exact hQ.word h.1 h.2.1
    | punctuation =>
      obtain ⟨c, -, rfl⟩ := h
      have single : ofNodes [.text [c]] = [.leaf (.text [c])] :=
        congrArg (List.cons · []) (ofNode_leaf rfl)
      rw [single]
      exact hQ.punctuation c
  | block kind body => exact hb kind body rfl
  | lineBreak label | pageBreak label =>
    rw [ofNode_leaf rfl]
    exact hQ.leaf h.2 rfl
  | _ => cases h.1

/-- The body of a block was lexed: by induction on the length of the body, which holds the
bodies of the blocks inside. -/
theorem Hereditary.of_block (hQ : Hereditary Q) (kind : BlockKind) (body : Text) :
    Q (ofNode (.block kind body)) := by
  cases hl : Lexer.lex body with
  | error e => rw [ofNode_unread hl]; exact hQ.unread kind body
  | ok ns =>
    rw [ofNode_block hl]
    refine hQ.block fun p hp => ?_
    obtain ⟨m, hm, rfl⟩ := List.mem_map.1 hp
    refine hQ.of_grouped (grouped_of_lex hl m hm) fun inner source he => ?_
    have shorter : source.length < body.length := by
      have := weight_of_body hl hm
      simp only [he, weight] at this
      omega
    rw [he]
    exact hQ.of_block inner source
termination_by body.length

/-- All parts of a text that can be read have such a property. -/
theorem Hereditary.of_lex (hQ : Hereditary Q) (h : Lexer.lex t = .ok ns) :
    ∀ p ∈ ofNodes (grouped ns), Q p := by
  intro p hp
  obtain ⟨n, hn, rfl⟩ := List.mem_map.1 hp
  exact hQ.of_grouped (grouped_of_lex h n hn) fun kind body he => he ▸ hQ.of_block kind body

/-- So have the parts of a text without groups, if all leaves have it. -/
theorem Hereditary.of_flat_lex (hQ : Hereditary Q) (leaf : ∀ n : Node, n.Admissible → Q (.leaf n))
    (h : Lexer.lex t = .ok ns) : ∀ p ∈ ofNodes ns, Q p := by
  intro p hp
  obtain ⟨n, hn, rfl⟩ := List.mem_map.1 hp
  have admissible := (Lexer.lexed_of_lex h).admissible n hn
  cases n with
  | group kind children => exact absurd admissible id
  | block kind body => exact hQ.of_block kind body
  | _ =>
    rw [ofNode_leaf rfl]
    exact leaf _ admissible

theorem inertName_of_admissible (h : n.Admissible) : n.InertName := by
  rintro name rfl
  exact inert_of_isNameChar h.2

theorem hereditary_inertNames : Hereditary InertNames where
  leaf h _ := .leaf (inertName_of_admissible h)
  word _ inside := .group (List.forall_mem_map.2 fun n hn =>
    .leaf (inertName_of_admissible (inside n hn).admissible))
  punctuation _ := .group (List.forall_mem_singleton.2 (.leaf nofun))
  block := .block
  unread _ _ := .unread

/-- Words and punctuation marks that are read hold what is read. -/
theorem inertNames_of_grouped_lex (h : Lexer.lex t = .ok ns) :
    ∀ p ∈ ofNodes (grouped ns), InertNames p :=
  hereditary_inertNames.of_lex h

theorem inertNames_of_lex (h : Lexer.lex t = .ok ns) : ∀ p ∈ ofNodes ns, InertNames p :=
  hereditary_inertNames.of_flat_lex (fun _ ha => .leaf (inertName_of_admissible ha)) h

/-- The nodes of a group are among its parts. -/
theorem inertName_of_mem_leaves {ps : List Part} (h : ∀ p ∈ ps, InertNames p) :
    ∀ n ∈ leaves ps, n.InertName := by
  intro n hn
  obtain ⟨p, hp, hl⟩ := List.mem_filterMap.1 hn
  cases h p hp with
  | leaf inert =>
    cases hl
    exact inert
  | group _ | block _ | unread => cases hl

end Part

/-! ## 4. Breaks, leaves and words -/

namespace Edition

/-- Whatever the counters are, what is written is nested. -/
def Writes (w : Writing) : Prop :=
  ∀ progress, Nested (w progress).1

variable {s : Settings} {a : Apparatus} {n : Node} {children : List Part} {kind : GroupKind}
  {t name label content : Text}

theorem Writes.pure (h : Nested t) : Writes (pure t) :=
  fun _ => h

/-- One piece of writing after the other: the second one starts with the counters that
the first one leaves. -/
theorem Writes.bind {w : Writing} {f : Text → Writing} (hw : Writes w)
    (hf : ∀ t, Nested t → Writes (f t)) : Writes (w >>= f) :=
  fun progress => hf _ (hw progress) _

theorem nested_newline : Nested "\n" :=
  Inert.nested (by decide)

theorem nested_labelledBreak (hn : isName name = true) (label : Text) :
    Nested (labelledBreak name label) := by
  have labelled : Attributed (attr "n" label) := attributed_attr (by decide) label
  have whole := (nested_emptyTag hn labelled).append nested_newline
  rw [List.append_assoc] at whole
  exact whole

/-- A break is an empty element on a line. -/
theorem nested_fragmentBreak (n : Node) : Nested (fragmentBreak n) := by
  cases n with
  | pageBreak label => exact nested_labelledBreak (by decide) label
  | lineBreak label =>
    cases label with
    | some label => exact nested_labelledBreak (by decide) label
    | none => exact fun _ => rfl
  | _ => exact .nil

theorem nested_inline (h : n.InertName) : Nested (inline a n) := by
  cases n with
  | text content => exact nested_escape content
  | entity name => exact Apparatus.nested_letters (h name rfl) id (a.registry.resolve name)
  | abbreviation abbr expansion =>
    exact nested_wrap (by decide)
      ((nested_element (by decide) abbr).append (nested_element (by decide) expansion))
  | gap quantity reading =>
    refine (nested_gap quantity).append ?_
    cases reading with
    | none => exact .nil
    | some t => exact nested_element (by decide) t
  | marked mark content => exact nested_element mark.isName_tag content
  | compoundJoin => exact Apparatus.nested_blank
  | _ => exact .nil

/-- Without paragraphs around pages, no node opens an element that it does not close. -/
theorem writes_leaf (hp : s.wrapPages = false) (h : n.InertName) : Writes (leaf s a n) := by
  cases n with
  | lineBreak label =>
    intro progress
    cases label with
    | some label => exact nested_labelledBreak (by decide) label
    | none =>
      show Nested (if s.autoLineNumbers then labelledBreak "lb" _
        else fragmentBreak (.lineBreak none))
      split
      · exact nested_labelledBreak (by decide) _
      · exact nested_fragmentBreak _
  | pageBreak label =>
    have plain : pageBreak s label = pure (labelledBreak "pb" label) := by
      rw [pageBreak, hp]
      rfl
    show Writes (pageBreak s label)
    rw [plain]
    exact .pure (nested_labelledBreak (by decide) label)
  | _ => exact .pure (nested_inline h)

theorem isName_groupTag (kind : GroupKind) : isName (groupTag kind) = true := by
  cases kind <;> decide

theorem isNested_readings (h : ∀ p ∈ children, Part.InertNames p) :
    (readings a children).IsNested := by
  have inert := Part.inertName_of_mem_leaves h
  exact ⟨.flatMap fun n hn => Apparatus.nested_facsimileOf (inert n hn),
    .flatMap fun n hn => Apparatus.nested_diplomaticOf (inert n hn),
    .flatMap fun n hn => Apparatus.nested_normalizedOf (inert n hn)⟩

/-- A group is left out where it has no reading. -/
theorem nested_plainLevels (h : ∀ p ∈ children, Part.InertNames p) :
    Nested (plainLevels a kind children []) := by
  unfold plainLevels
  dsimp only
  split
  · exact .nil
  · exact (isNested_readings h).write (isName_groupTag kind) .nil .nil

/-- The readings that a word shows: its headword may give the normalized one. -/
def shown (a : Apparatus) (children : List Part) (index : Nat) : Readings :=
  match a.storedNormalized index with
  | some stored => { readings a children with normalized := escape stored }
  | none => readings a children

theorem shown_eq (a : Apparatus) (children : List Part) (index : Nat) :
    let r := readings a children
    shown a children index
      = { r with normalized := ((a.storedNormalized index).map escape).getD r.normalized } := by
  unfold shown
  cases a.storedNormalized index <;> rfl

theorem isNested_shown (h : ∀ p ∈ children, Part.InertNames p) (index : Nat) :
    (shown a children index).IsNested := by
  have read : (readings a children).IsNested := isNested_readings h
  unfold shown
  split
  · exact ⟨read.facsimile, read.diplomatic, nested_escape _⟩
  · exact read

/-- A word with its readings, when no range of characters is in its facsimile. -/
theorem wordLevels_eq (progress : Progress)
    (hr : CharacterRange.ofWord a progress.wordIndex = []) :
    let index := progress.wordIndex
    (wordLevels a children progress).1
      = if (shown a children index).isEmpty then []
        else (shown a children index).write (groupTag .word)
          (attributes (a.wordAttributes index)) (a.notes index) := by
  intro index
  -- once the index is taken, all that is left is a choice by the readings
  have step : wordLevels a children progress
      = (if (shown a children index).isEmpty then (pure [] : Writing)
        else pure ({ shown a children index with
            facsimile := CharacterRange.inject (shown a children index).facsimile
              (CharacterRange.ofWord a index) }.write
          (groupTag .word) (attributes (a.wordAttributes index)) (a.notes index)))
        { progress with wordIndex := index + 1 } := rfl
  rw [step, hr]
  split <;> rfl

/-- Without ranges of characters the facsimile is put in as it is. -/
theorem writes_wordLevels (hr : ∀ index : Nat, CharacterRange.ofWord a index = [])
    (h : ∀ p ∈ children, Part.InertNames p) : Writes (wordLevels a children) := by
  intro progress
  rw [wordLevels_eq progress (hr _)]
  split
  · exact .nil
  · exact (isNested_shown h _).write (by decide) (attributed_attributes (named_wordAttributes a _))
      (nested_notes a _)

theorem nested_plainSingle (hc : Nested content) : Nested (plainSingle kind content []) := by
  unfold plainSingle
  split
  · exact .nil
  · exact nested_tagged (isName_groupTag kind) .nil hc nested_newline

/-- A word on one level that has content takes an index, and changes no other counter. -/
theorem wordSingle_run (h : content ≠ []) (progress : Progress) :
    wordSingle a content progress = ("<w" ++ attributes (a.wordAttributes progress.wordIndex)
      ++ '>' :: content ++ a.notes progress.wordIndex ++ "</w>\n",
      { progress with wordIndex := progress.wordIndex + 1 }) := by
  unfold wordSingle
  rw [if_neg (by simpa using h)]
  rfl

/-- On one level a word is an element around what its nodes write. -/
theorem writes_wordSingle (hc : Nested content) : Writes (wordSingle a content) := by
  intro progress
  by_cases none : content = []
  · subst none
    exact .nil
  · have named := attributed_attributes (named_wordAttributes a progress.wordIndex)
    have inside := hc.append (nested_notes a progress.wordIndex)
    rw [wordSingle_run none]
    intro stack
    have whole := @reads_element stack "w" _ _ "<w" "</w>\n" _ rfl named inside rfl
    simpa only [List.append_assoc, List.cons_append] using whole

/-! ## 5. Documents and fragments -/

section Documents

variable {p : Part} {ps : List Part} {ns : List Node} {source : Text}

theorem writes_parts (h : ∀ p ∈ ps, Writes (part s a p)) : Writes (parts s a ps) := by
  induction ps with
  | nil => exact .pure .nil
  | cons p ps ih =>
    obtain ⟨hp, hps⟩ := List.forall_mem_cons.1 h
    rw [parts]
    exact hp.bind fun first hf => (ih hps).bind fun rest hr => .pure (hf.append hr)

theorem writes_fragments (h : ∀ p ∈ ps, Writes (fragment s a p)) : Writes (fragments s a ps) := by
  induction ps with
  | nil => exact .pure .nil
  | cons p ps ih =>
    obtain ⟨hp, hps⟩ := List.forall_mem_cons.1 h
    rw [fragments]
    exact hp.bind fun first hf => (ih hps).bind fun rest hr => .pure (hf.append hr)

theorem nested_normalizedParts (h : ∀ p ∈ ps, Nested (normalizedPart a p)) :
    Nested (normalizedParts a ps) := by
  induction ps with
  | nil => exact .nil
  | cons p ps ih =>
    obtain ⟨hp, hps⟩ := List.forall_mem_cons.1 h
    exact hp.append (ih hps)

/-- A block is an element around its content, or the content alone. -/
theorem nested_blockElement (kind : BlockKind) (hc : Nested content) :
    Nested (blockElement kind content) := by
  cases kind with
  | supplied | head => exact nested_wrap (by decide) hc
  | norm => exact hc

theorem nested_unread (kind : BlockKind) (source : Text) :
    Nested (blockElement kind (remark "parse error" source)) :=
  nested_blockElement kind (nested_remark (by decide) source)

/-- A part leaves nested markup wherever it stands: in a document, in a fragment and
where the normalized level alone is written. -/
structure Written (s : Settings) (a : Apparatus) (p : Part) : Prop where
  part : Writes (part s a p)
  fragment : Writes (fragment s a p)
  normalized : Nested (normalizedPart a p)

theorem written_leaf (hp : s.wrapPages = false) (h : n.InertName) : Written s a (.leaf n) := by
  refine ⟨by rw [part]; exact writes_leaf hp h, ?_, ?_⟩
  · rw [fragment]
    split
    · exact .pure (nested_fragmentBreak n)
    · exact writes_leaf hp h
  · exact (nested_fragmentBreak n).append (Apparatus.nested_normalizedOf h)

/-- A group in a document, in a block and at the normalized level. -/
theorem written_group
    (hr : s.multiLevel = true → ∀ index : Nat, CharacterRange.ofWord a index = [])
    (h : ∀ p ∈ children, Part.InertNames p) (hc : ∀ p ∈ children, Written s a p) :
    Written s a (.group kind children) := by
  have single : Writes (parts s a children) := writes_parts fun p hp => (hc p hp).part
  refine ⟨?_, ?_, ?_⟩
  · cases kind with
    | word =>
      rw [part]
      split
      · next multi => exact writes_wordLevels (hr multi) h
      · exact single.bind fun content hc => writes_wordSingle hc
    | punctuation =>
      rw [part]
      split
      · exact .pure (nested_plainLevels h)
      · exact single.bind fun content hc => .pure (nested_plainSingle hc)
  · rw [fragment]
    split
    · exact .pure (nested_plainLevels h)
    · exact single.bind fun content hc => .pure (nested_plainSingle hc)
  · show Nested (if (a.normalized (Part.leaves children)).isEmpty then [] else _)
    split
    · exact .nil
    · have normalized : Readings.IsNested ⟨[], [], a.normalized (Part.leaves children)⟩ :=
        ⟨.nil, .nil, (isNested_readings h).normalized⟩
      exact normalized.write (isName_groupTag kind) .nil .nil

/-- A block, from the parts in it. -/
theorem written_block {kind : BlockKind} (hb : ∀ p ∈ ps, Written s a p) :
    Written s a (.block kind ps) := by
  have body : Nested (normalizedParts a ps) :=
    nested_normalizedParts fun p hp => (hb p hp).normalized
  have inner : Nested (fragments s a ps .start).1 :=
    writes_fragments (fun p hp => (hb p hp).fragment) .start
  have normalized : Writes (pure (if s.multiLevel then normalizedParts a ps else [])) := by
    split
    · exact .pure body
    · exact .pure .nil
  have element (kind : BlockKind) : Writes (pure (blockElement kind (fragments s a ps .start).1)) :=
    .pure (nested_blockElement kind inner)
  cases kind with
  | norm => exact ⟨normalized, normalized, body⟩
  | head => exact ⟨element .head, element .head, .nil⟩
  | supplied =>
    exact ⟨element .supplied, element .supplied, nested_blockElement .supplied body⟩

theorem written_unread {kind : BlockKind} : Written s a (.unread kind source) := by
  have element : Writes (pure (unreadBlock s kind source)) := by
    unfold unreadBlock
    split
    · exact .pure .nil
    · exact .pure (nested_unread kind source)
  cases kind with
  | head => exact ⟨element, element, .nil⟩
  | supplied => exact ⟨element, element, nested_unread .supplied source⟩
  | norm => exact ⟨element, element, nested_unread .norm source⟩

/-- A part with inert names leaves nested markup, by induction on the part. -/
theorem written_of_inertNames (hp : s.wrapPages = false)
    (hr : s.multiLevel = true → ∀ index : Nat, CharacterRange.ofWord a index = [])
    (h : p.InertNames) : Written s a p := by
  induction h with
  | leaf inert => exact written_leaf hp inert
  | group inert ih => exact written_group hr inert ih
  | block _ ih => exact written_block ih
  | unread => exact written_unread

/-- **The markup of a text is well nested.** Every start tag is matched by its end tag,
no angle bracket is left over outside of tags and comments, and every attribute has a
value in quotes that none breaks out of. -/
theorem wellNested_ofText (hl : Lexer.lex source = .ok ns) (hp : s.wrapPages = false)
    (hr : s.multiLevel = true → ∀ index : Nat, CharacterRange.ofWord a index = []) :
    ∃ xml, ofText s a source = .ok xml ∧ WellNested xml := by
  refine ⟨ofNodes s a ns, by rw [ofText, hl]; rfl, Nested.wellNested ?_⟩
  have inert : ∀ p ∈ Part.ofNodes (if s.wordWrap then Node.grouped ns else ns), p.InertNames := by
    split
    · exact Part.inertNames_of_grouped_lex hl
    · exact Part.inertNames_of_lex hl
  have body := writes_parts (fun p hm => (written_of_inertNames hp hr (inert p hm)).part) .start
  have whole : ofNodes s a ns
      = (parts s a (Part.ofNodes (if s.wordWrap then Node.grouped ns else ns)) .start).1 := by
    rw [ofNodes, hp]
    rfl
  rw [whole]
  exact body

/-- A word whose headword holds delimiters, and a heading, in three readings. -/
theorem wellNested_ofText_heading :
    let s : Settings := ⟨true, false, true, false⟩
    let a : Apparatus := { Apparatus.empty with headwords := [(0, ⟨"<\">", "xNC", none⟩)] }
    ∃ xml, ofText s a ['a', '.', 'h', 'e', 'a', 'd', '{', 'b', '}'] = .ok xml
      ∧ WellNested xml := by
  intro s a
  have letter : Lexer.construct ['a', '.', 'h', 'e', 'a', 'd', '{', 'b', '}'] = .ok none := rfl
  have heading : Lexer.construct ['.', 'h', 'e', 'a', 'd', '{', 'b', '}']
      = .ok (some ([.block .head ['b']], [])) := rfl
  have lexed : Lexer.lex ['a', '.', 'h', 'e', 'a', 'd', '{', 'b', '}']
      = .ok [.text ['a'], .block .head ['b']] := by
    rw [Lexer.lex_char letter, Lexer.lex_construct heading, Lexer.lex_nil]
    rfl
  have plain (index : Nat) : CharacterRange.ofWord a index = [] := List.mergeSort_nil
  exact wellNested_ofText lexed rfl fun _ => plain

end Documents

end Edition

end Transcription
