/-
Transcription.Proofs.Tags — the tags of markup, and what is written around them.

Markup is cut into tags and visible characters as for the ranges of characters
(`CharacterRange.pieces`). Where a text ends with a piece that nothing after it can
change, it is `Whole`, and its tags come before those of whatever follows
(`Whole.tags_append`).

What is asked of tags later, that they leave the open elements as they were or that
no break is among them, is asked of lists of tags. `Tolerates` names what the writers
of markup need of such a property; markup that is whole and whose tags have it
`Passes`. One lemma for each writer follows, and they hold with ranges of characters
too: **`passes_inject`**, since elements around ranges come between the tags that were
there and take none away.
-/
import Transcription.Edition.Document
import Transcription.Proofs.WellNested

namespace Transcription.Markup

open CharacterRange

/-! ## 1. Pieces that nothing changes -/

/-- The text that a piece was cut from. -/
def pieceText : Piece → Text
  | .tag t | .visible t => t

/-- The tag that a piece is. -/
def tag? : Piece → Option Text
  | .tag t => some t
  | .visible _ => none

/-- The tags of markup in their order. -/
def tags (t : Text) : List Text :=
  (pieces t).filterMap tag?

/-- A piece that is cut off alike whatever follows it. -/
def Complete (p : Piece) : Prop :=
  ∀ rest, pieces (pieceText p ++ rest) = p :: pieces rest

/-- Markup whose last piece is complete, as all before it are. -/
def Whole (t : Text) : Prop :=
  ∀ p ∈ pieces t, Complete p

section Pieces

variable {t u body name : Text} {c : Char} {p : Piece} {ps : List Piece}

/-- A piece goes on to its first closing sign, whatever follows. -/
theorem through_append {mark : Char} (h : mark ∉ body) (rest : Text) :
    through mark (body ++ mark :: rest) = (body ++ [mark], rest) := by
  rw [through, Lexer.upTo?_append h]

theorem through_append_self (mark : Char) (t : Text) :
    (through mark t).1 ++ (through mark t).2 = t := by
  unfold through
  split
  · next before rest h => rw [Text.upTo?_eq h, List.append_assoc, List.singleton_append]
  · exact List.append_nil t

theorem complete_char (less : c ≠ '<') (amp : c ≠ '&') : Complete (.visible [c]) := by
  intro rest
  show pieces (c :: rest) = _
  rw [pieces, if_neg less, if_neg amp]

/-- What stands between angle brackets, without one that closes, is one tag. -/
theorem complete_tag (h : '>' ∉ body) : Complete (.tag ('<' :: body ++ ['>'])) := by
  intro rest
  have shape : '<' :: body ++ ['>'] ++ rest = '<' :: (body ++ '>' :: rest) := by
    simp only [List.cons_append, List.append_assoc, List.nil_append]
  rw [pieceText, shape, pieces, if_pos rfl, through_append h]
  rfl

/-- A reference is one character that is seen. -/
theorem complete_reference (h : ';' ∉ name) : Complete (.visible (reference name)) := by
  intro rest
  have shape : reference name ++ rest = '&' :: (name ++ ';' :: rest) := by
    simp only [reference, List.cons_append, List.append_assoc, List.nil_append]
  rw [pieceText, shape, pieces, if_neg (by decide), if_pos rfl, through_append h]
  rfl

/-- A character is one piece, escaped or not. -/
theorem complete_escapeChar (c : Char) : Complete (.visible (escapeChar c)) := by
  have names : ∀ name ∈ predefined, ';' ∉ name := by decide
  rcases escapeChar_cases c with ⟨name, hn, shape, -⟩ | ⟨shape, less, -, -, amp⟩
  · rw [shape]
    exact complete_reference (names name hn)
  · rw [shape]
    exact complete_char less amp

/-- Nothing is lost in the cutting. -/
theorem flatMap_pieces (t : Text) : (pieces t).flatMap pieceText = t := by
  fun_induction pieces t with
  | case1 => rfl
  | case2 t ih => rw [List.flatMap_cons, ih, pieceText, List.cons_append, through_append_self]
  | case3 t _ ih => rw [List.flatMap_cons, ih, pieceText, List.cons_append, through_append_self]
  | case4 c t _ _ ih => rw [List.flatMap_cons, ih, pieceText, List.singleton_append]

/-- Complete pieces one after the other are cut where they were put together. -/
theorem pieces_flatMap (h : ∀ p ∈ ps, Complete p) (u : Text) :
    pieces (ps.flatMap pieceText ++ u) = ps ++ pieces u := by
  induction ps with
  | nil => rfl
  | cons p ps ih =>
    obtain ⟨hp, hps⟩ := List.forall_mem_cons.1 h
    rw [List.flatMap_cons, List.append_assoc, hp, ih hps, List.cons_append]

/-- Pieces that are put together are cut again into themselves. -/
theorem pieces_flatMap_self (h : ∀ p ∈ ps, Complete p) : pieces (ps.flatMap pieceText) = ps := by
  have cut := pieces_flatMap h []
  rwa [pieces, List.append_nil, List.append_nil] at cut

theorem Whole.pieces_append (h : Whole t) (u : Text) : pieces (t ++ u) = pieces t ++ pieces u := by
  have cut := pieces_flatMap h u
  rwa [flatMap_pieces] at cut

theorem Whole.tags_append (h : Whole t) (u : Text) : tags (t ++ u) = tags t ++ tags u := by
  rw [tags, h.pieces_append, List.filterMap_append, tags, tags]

/-- Whole markup ends where a piece ends, so that two of its kind make a third. -/
theorem Whole.append (ht : Whole t) (hu : Whole u) : Whole (t ++ u) := by
  intro p hp
  rw [ht.pieces_append] at hp
  exact (List.mem_append.1 hp).elim (ht p) (hu p)

theorem pieces_of_complete (h : Complete p) : pieces (pieceText p) = [p] := by
  have cut := h []
  rwa [List.append_nil, pieces] at cut

theorem whole_of_complete (h : Complete p) : Whole (pieceText p) := by
  rw [Whole, pieces_of_complete h]
  exact List.forall_mem_singleton.2 h

theorem tags_of_visible (h : Complete (.visible t)) : tags t = [] := by
  have cut : pieces t = [.visible t] := pieces_of_complete h
  rw [tags, cut]
  rfl

theorem tags_of_tag (h : Complete (.tag t)) : tags t = [t] := by
  have cut : pieces t = [.tag t] := pieces_of_complete h
  rw [tags, cut]
  rfl

theorem whole_nil : Whole [] := by
  rw [Whole, pieces]
  exact List.forall_mem_nil _

@[simp] theorem tags_nil : tags [] = [] := by
  rw [tags, pieces]
  rfl

theorem complete_newline : Complete (.visible "\n") :=
  complete_char (by decide) (by decide)

/-- A tag on a line of its own. -/
theorem whole_line (h : Complete (.tag t)) : Whole (t ++ "\n") :=
  Whole.append (whole_of_complete h) (whole_of_complete complete_newline)

/-- The line feed behind a tag is text. -/
theorem tags_line (h : Complete (.tag t)) : tags (t ++ "\n") = [t] := by
  rw [Whole.tags_append (t := t) (whole_of_complete h), tags_of_tag h,
    tags_of_visible complete_newline, List.append_nil]

end Pieces

/-! ## 2. Names of tags -/

/-- The name in a tag. -/
def tagName (tag : Text) : Text :=
  (tag.dropWhile ['<', '/'].contains).takeWhile fun c => !([' ', '/', '>'].contains c)

/-- The start tag of an element, its attributes given as markup. -/
def startTag (name attrs : Text) : Text :=
  '<' :: name ++ attrs ++ ['>']

/-- The end tag of an element. -/
def endTag (name : Text) : Text :=
  "</" ++ name ++ ['>']

/-- What stands in a start tag after the name. -/
structure InTag (attrs : Text) : Prop where
  open_ended : '>' ∉ attrs
  begins : ∀ c ∈ attrs.head?, c = ' '
  ends : ∀ c ∈ attrs.getLast?, c = '\x22'

section Names

variable {name attrs more rest : Text} {table : Table Text} {d : Char}

/-- A name holds no sign of a tag. -/
theorem not_mem_of_isName (hn : isName name = true) :
    ∀ c ∈ name, c ∉ [' ', '/', '>', '<', '&'] := by
  have signs : ∀ c ∈ [' ', '/', '>', '<', '&'], Xml.isNameRest c = false :=
    Text.forall_of_check (by decide)
  intro c hc sign
  have goesOn := isNameRest_of_isName hn c hc
  rw [signs c sign] at goesOn
  cases goesOn

/-- A name stops where a blank, a stroke or the end of the tag comes. -/
theorem takeWhile_name (hne : name ≠ []) (plain : ∀ c ∈ name, c ∉ [' ', '/', '>', '<', '&'])
    (hd : d ∈ [' ', '/', '>']) (rest : Text) :
    ((name ++ d :: rest).dropWhile ['<', '/'].contains).takeWhile
      (fun c => !([' ', '/', '>'].contains c)) = name := by
  have kept : ∀ c ∈ name, (!([' ', '/', '>'].contains c)) = true := fun c hc => by
    have h := plain c hc
    simp only [List.mem_cons, not_or] at h
    simp [h.1, h.2.1, h.2.2.1]
  have stop : (!([' ', '/', '>'].contains d)) = false := by
    rw [List.contains_iff_mem.2 hd]
    rfl
  obtain ⟨c, name, rfl⟩ := List.exists_cons_of_ne_nil hne
  have first : ['<', '/'].contains c = false := by
    have h := plain c List.mem_cons_self
    simp only [List.mem_cons, not_or] at h
    simp [h.2.1, h.2.2.2.1]
  rw [List.cons_append, List.dropWhile_cons_of_neg (by rw [first]; decide), ← List.cons_append,
    List.takeWhile_append_of_pos kept, List.takeWhile_cons_of_neg (by rw [stop]; decide),
    List.append_nil]

theorem ne_nil_of_isName (hn : isName name = true) : name ≠ [] := by
  rintro rfl
  cases hn

theorem tagName_open (hn : isName name = true) (hd : d ∈ [' ', '/', '>']) (rest : Text) :
    tagName ('<' :: (name ++ d :: rest)) = name :=
  takeWhile_name (ne_nil_of_isName hn) (not_mem_of_isName hn) hd rest

@[simp] theorem tagName_endTag (hn : isName name = true) : tagName (endTag name) = name :=
  takeWhile_name (ne_nil_of_isName hn) (not_mem_of_isName hn) (d := '>') (by decide) []

theorem InTag.nil : InTag [] :=
  ⟨nofun, nofun, nofun⟩

/-- The name stands before the attributes, or else before the end of the tag. -/
theorem tagName_inTag (hn : isName name = true) (ha : InTag attrs) (hd : d ∈ [' ', '/', '>'])
    (rest : Text) : tagName ('<' :: (name ++ (attrs ++ d :: rest))) = name := by
  cases attrs with
  | nil => exact tagName_open hn hd rest
  | cons c attrs =>
    obtain rfl := ha.begins c rfl
    exact tagName_open hn (by decide) _

/-- Attributes begin with a blank, and so the name of a start tag is what stands before
them. -/
theorem tagName_startTag (hn : isName name = true) (ha : InTag attrs) :
    tagName (startTag name attrs) = name := by
  have named := tagName_inTag hn ha (d := '>') (by decide) []
  simpa only [startTag, List.cons_append, List.append_assoc] using named

/-- Attributes of either kind begin with a blank and end in a quotation mark. -/
theorem InTag.append (ha : InTag attrs) (hm : InTag more) : InTag (attrs ++ more) := by
  refine ⟨?_, fun c hc => ?_, fun c hc => ?_⟩
  · rw [List.mem_append]
    exact fun h => h.elim ha.open_ended hm.open_ended
  · cases attrs with
    | nil => exact hm.begins c hc
    | cons d attrs => exact ha.begins c hc
  · cases more with
    | nil => exact ha.ends c (by rwa [List.append_nil] at hc)
    | cons d more =>
      have last : (attrs ++ d :: more).getLast? = (d :: more).getLast? := by
        rw [List.getLast?_append, List.getLast?_cons, Option.some_or]
      rw [last] at hc
      exact hm.ends c hc

/-- An escaped value holds no angle bracket that would end the tag. -/
theorem inTag_quoted (hn : isName name = true) {value : Text} (hv : Inert value) :
    InTag (' ' :: name ++ "=\"" ++ value ++ "\"") := by
  refine ⟨fun h => ?_, fun c hc => ?_, fun c hc => ?_⟩
  · simp only [List.cons_append, List.mem_cons, List.mem_append] at h
    rcases h with h | ((h | h) | h) | h
    · cases h
    · exact not_mem_of_isName hn _ h (by decide)
    · revert h; decide
    · exact (hv _ h).2.1 rfl
    · revert h; decide
  · exact (Option.some.inj hc).symm
  · rw [List.getLast?_append] at hc
    exact (Option.some.inj hc).symm

theorem inTag_attr (hn : isName name = true) (value : Text) : InTag (attr name value) :=
  inTag_quoted hn (inert_escape value)

theorem inTag_attributes (h : ∀ entry ∈ table, isName entry.1 = true) :
    InTag (attributes table) := by
  induction table with
  | nil => exact .nil
  | cons entry table ih =>
    obtain ⟨he, ht⟩ := List.forall_mem_cons.1 h
    exact (inTag_attr he entry.2).append (ih ht)

theorem inTag_gapAttributes (quantity : Option Nat) : InTag (gapAttributes quantity) := by
  have reason : InTag " reason=\"illegible\"" :=
    @inTag_quoted "reason" (by decide) "illegible" (by decide)
  cases quantity with
  | none => exact reason
  | some n =>
    have count : InTag (" quantity=\"" ++ Text.ofNat n ++ "\"") :=
      @inTag_quoted "quantity" (by decide) _ (inert_ofNat n)
    have unit : InTag " unit=\"chars\"" := @inTag_quoted "unit" (by decide) "chars" (by decide)
    exact (reason.append count).append unit

/-- Neither a name nor attributes close the tag that they stand in. -/
theorem complete_startTag (hn : isName name = true) (ha : InTag attrs) :
    Complete (.tag (startTag name attrs)) := by
  refine complete_tag fun hm => ?_
  rcases List.mem_append.1 hm with hm | hm
  · exact not_mem_of_isName hn _ hm (by decide)
  · exact ha.open_ended hm

theorem complete_endTag (hn : isName name = true) : Complete (.tag (endTag name)) := by
  refine @complete_tag ('/' :: name) fun hm => ?_
  rcases List.mem_cons.1 hm with hc | hm
  · cases hc
  · exact not_mem_of_isName hn _ hm (by decide)

/-- Nor does the stroke of an empty element. -/
theorem complete_emptyTag (hn : isName name = true) (ha : InTag attrs) :
    Complete (.tag ('<' :: name ++ attrs ++ "/>")) := by
  have shape : '<' :: name ++ attrs ++ "/>" = '<' :: (name ++ (attrs ++ ['/'])) ++ ['>'] := by
    simp
  rw [shape]
  refine complete_tag fun hm => ?_
  rcases List.mem_append.1 hm with hm | hm
  · exact not_mem_of_isName hn _ hm (by decide)
  · rcases List.mem_append.1 hm with hm | hm
    · exact ha.open_ended hm
    · revert hm; decide

theorem complete_gap (quantity : Option Nat) : Complete (.tag (gap quantity)) := by
  rw [gap_eq]
  exact complete_emptyTag (by decide) (inTag_gapAttributes quantity)

theorem tagName_emptyTag (hn : isName name = true) (ha : InTag attrs) :
    tagName ('<' :: name ++ attrs ++ "/>") = name := by
  have named := tagName_inTag hn ha (d := '/') (by decide) ['>']
  have ending : ("/>" : Text) = '/' :: ['>'] := rfl
  rw [ending]
  simpa only [List.cons_append, List.append_assoc] using named

theorem sorted_attr? (name : Text) (value : Option Text) :
    Table.sorted (Edition.attr? name id value) = Edition.attr? name id value := by
  cases value with
  | none => exact List.mergeSort_nil
  | some value => exact List.mergeSort_singleton _

/-- The tag of a break. -/
def breakTag (name : Text) (label : Option Text) : Text :=
  emptyTag name (Edition.attr? "n" id label)

theorem inTag_label (label : Option Text) : InTag (attributes (Edition.attr? "n" id label)) :=
  inTag_attributes (Edition.named_attr? (by decide) id label)

/-- The label of a break is its one attribute, so that nothing has to be sorted. -/
theorem breakTag_eq (name : Text) (label : Option Text) :
    breakTag name label = '<' :: name ++ attributes (Edition.attr? "n" id label) ++ "/>" := by
  rw [breakTag, emptyTag, sorted_attr?]

theorem tagName_breakTag (hn : isName name = true) (label : Option Text) :
    tagName (breakTag name label) = name := by
  rw [breakTag_eq]
  exact tagName_emptyTag hn (inTag_label label)

theorem complete_breakTag (hn : isName name = true) (label : Option Text) :
    Complete (.tag (breakTag name label)) := by
  rw [breakTag_eq]
  exact complete_emptyTag hn (inTag_label label)

/-- Breaks of lines and of pages are one tag on a line, with or without a label. -/
theorem labelledBreak_eq (name label : Text) :
    Edition.labelledBreak name label = breakTag name (some label) ++ "\n" := by
  have single : attributes (Edition.attr? "n" id (some label)) = attr "n" label :=
    List.append_nil _
  have ending : ("/>\n" : Text) = "/>" ++ "\n" := rfl
  rw [Edition.labelledBreak, breakTag_eq, single, ending, List.append_assoc _ ("/>" : Text)]

theorem fragmentBreak_lineBreak (label : Option Text) :
    Edition.fragmentBreak (.lineBreak label) = breakTag "lb" label ++ "\n" := by
  cases label with
  | none => rw [breakTag_eq]; rfl
  | some label => exact labelledBreak_eq "lb" label

end Names

/-! ## 3. What markup passes -/

/-- The elements that a paragraph around a page may not cross. -/
def crossed : List Text :=
  ["w", "pc", "head", "supplied"]

/-- The elements of paragraphs around pages and of breaks. -/
def surface : List Text :=
  ["p", "lb", "pb"]

/-- A property of lists of tags that all writers of markup keep up, those of breaks
and paragraphs apart. -/
structure Tolerates (P : List Text → Prop) : Prop where
  nil : P []
  append {ts us : List Text} : P ts → P us → P (ts ++ us)
  loose {tag : Text} : tagName tag ∉ surface ++ crossed → P [tag]
  element {name attrs : Text} {ts : List Text} : name ∈ crossed → InTag attrs → P ts →
    P (startTag name attrs :: (ts ++ [endTag name]))
  /-- Elements around ranges of characters make no difference. -/
  ranges {ts us : List Text} :
    ts.filter (tagName · ≠ ['c']) = us.filter (tagName · ≠ ['c']) → P ts → P us

/-- Markup whose pieces are complete and whose tags have a property. -/
structure Passes (P : List Text → Prop) (t : Text) : Prop where
  whole : Whole t
  tags : P (tags t)

section Writers

variable {P : List Text → Prop} (hP : Tolerates P)
  {t u name attrs content rest body : Text}

/-- A break stands on a line of its own. -/
theorem passes_break {label : Option Text} (hn : isName name = true)
    (hb : P [breakTag name label]) : Passes P (breakTag name label ++ "\n") := by
  have complete := complete_breakTag hn label
  exact ⟨whole_line complete, by rwa [tags_line complete]⟩

include hP

theorem Passes.nil : Passes P [] :=
  ⟨whole_nil, by rw [tags_nil]; exact hP.nil⟩

/-- Tags of whole markup are those of its two halves, in their order. -/
theorem Passes.append (ht : Passes P t) (hu : Passes P u) : Passes P (t ++ u) :=
  ⟨ht.whole.append hu.whole, by rw [ht.whole.tags_append]; exact hP.append ht.tags hu.tags⟩

theorem Passes.flatMap {α : Type} {f : α → Text} {as : List α} (h : ∀ a ∈ as, Passes P (f a)) :
    Passes P (as.flatMap f) := by
  induction as with
  | nil => exact .nil hP
  | cons a as ih =>
    obtain ⟨ha, has⟩ := List.forall_mem_cons.1 h
    exact .append hP ha (ih has)

/-- A piece that is seen adds no tag. -/
theorem passes_visible (h : Complete (.visible t)) : Passes P t :=
  ⟨whole_of_complete h, by rw [tags_of_visible h]; exact hP.nil⟩

/-- Text without the two opening signs is cut into its characters. -/
theorem passes_text (h : ∀ c ∈ t, c ≠ '<' ∧ c ≠ '&') : Passes P t := by
  induction t with
  | nil => exact .nil hP
  | cons c t ih =>
    obtain ⟨⟨less, amp⟩, ht⟩ := List.forall_mem_cons.1 h
    exact .append hP (passes_visible hP (complete_char less amp)) (ih ht)

/-- A semicolon ends whatever reference is open. By induction on the length, since a
reference is passed over in one. -/
theorem passes_closed (h : '<' ∉ t) : Passes P (t ++ [';']) := by
  induction hn : t.length using Nat.strongRecOn generalizing t with
  | ind n ih =>
    cases t with
    | nil => exact passes_visible hP (complete_char (by decide) (by decide))
    | cons c t =>
      obtain ⟨less, ht⟩ := not_or.1 (fun hm => h (List.mem_cons.2 hm))
      rw [List.length_cons] at hn
      by_cases amp : c = '&'
      · by_cases semicolon : ';' ∈ t
        · obtain ⟨before, after, rfl, fresh⟩ := List.eq_append_cons_of_mem semicolon
          have later := ih after.length (by simp at hn; omega) (t := after)
            (fun hm => ht (by simp [hm])) rfl
          have whole := Passes.append hP (passes_visible hP (complete_reference fresh)) later
          simpa [reference, amp] using whole
        · rw [amp]
          exact passes_visible hP (complete_reference semicolon)
      · have first : Passes P [c] := passes_visible hP (complete_char (Ne.symm less) amp)
        have whole := Passes.append hP first (ih t.length (by omega) ht rfl)
        exact whole

/-- A name in a reference may hold a semicolon; the rest of it is text then. -/
theorem passes_reference (h : Inert name) : Passes P (reference name) := by
  refine passes_closed hP (t := '&' :: name) fun hm => ?_
  rcases List.mem_cons.1 hm with hc | hm
  · cases hc
  · exact (h _ hm).1 rfl

theorem passes_escape (t : Text) : Passes P (escape t) :=
  .flatMap hP fun c _ => passes_visible hP (complete_escapeChar c)

/-- A tag of no element that matters. -/
theorem passes_tag (h : '>' ∉ body)
    (hn : tagName ('<' :: body ++ ['>']) ∉ surface ++ crossed) :
    Passes P ('<' :: body ++ ['>']) := by
  have complete := complete_tag h
  exact ⟨whole_of_complete complete, by rw [tags_of_tag complete]; exact hP.loose hn⟩

/-- An element with attributes, and what follows it. -/
theorem passes_tagged (hn : isName name = true) (hne : name ∉ surface)
    (ha : InTag attrs) (hc : Passes P content) (hr : Passes P rest) :
    Passes P ('<' :: name ++ attrs ++ '>' :: content ++ "</" ++ name ++ '>' :: rest) := by
  have opening := complete_startTag hn ha
  have ending := complete_endTag hn
  have whole : Whole (startTag name attrs ++ (content ++ endTag name)) :=
    (whole_of_complete opening).append (hc.whole.append (whole_of_complete ending))
  have listed : tags (startTag name attrs ++ (content ++ endTag name))
      = startTag name attrs :: (tags content ++ [endTag name]) := by
    rw [Whole.tags_append (t := startTag name attrs) (whole_of_complete opening),
      hc.whole.tags_append, tags_of_tag opening, tags_of_tag ending, List.singleton_append]
  have element : Passes P (startTag name attrs ++ (content ++ endTag name)) := by
    refine ⟨whole, listed ▸ ?_⟩
    by_cases hx : name ∈ crossed
    · exact hP.element hx ha hc.tags
    · have loose : name ∉ surface ++ crossed := by
        simp only [List.mem_append, not_or]
        exact ⟨hne, hx⟩
      have first : P [startTag name attrs] := hP.loose (by rwa [tagName_startTag hn ha])
      have last : P [endTag name] := hP.loose (by rwa [tagName_endTag hn])
      exact hP.append first (hP.append hc.tags last)
  have all := Passes.append hP element hr
  simpa [startTag, endTag] using all

/-- An element other than a paragraph or a break, around content that passes. -/
theorem passes_wrap (hn : isName name = true) (hne : name ∉ surface)
    (hc : Passes P content) : Passes P (wrap name content) := by
  have whole := passes_tagged hP hn hne .nil hc (.nil hP)
  rwa [List.append_nil] at whole

theorem passes_element (hn : isName name = true) (hne : name ∉ surface)
    (content : Text) : Passes P (element name content) :=
  passes_wrap hP hn hne (passes_escape hP content)

/-- An empty tag. -/
theorem passes_emptyTag (hn : isName name = true) (hne : name ∉ surface ++ crossed)
    (ha : InTag attrs) : Passes P ('<' :: name ++ attrs ++ "/>") := by
  have complete := complete_emptyTag hn ha
  refine ⟨whole_of_complete complete, ?_⟩
  rw [tags_of_tag complete]
  exact hP.loose ((tagName_emptyTag hn ha).symm ▸ hne)

/-- The mark of a gap. -/
theorem passes_gap (quantity : Option Nat) : Passes P (gap quantity) := by
  have name : isName ("gap" : Text) = true ∧ ("gap" : Text) ∉ surface ++ crossed := by decide
  rw [gap_eq]
  exact passes_emptyTag hP name.1 name.2 (inTag_gapAttributes quantity)

/-- A comment about a source, which cannot end it. -/
theorem passes_remark (source : Text) : Passes P (remark "parse error" source) := by
  have parts : remark "parse error" source
      = '<' :: "!-- parse error: " ++ escape source ++ (" --" ++ ['>']) := rfl
  have shape : remark "parse error" source
      = '<' :: ("!-- parse error: " ++ escape source ++ " --") ++ ['>'] := by
    rw [parts]
    simp only [List.append_assoc, List.cons_append]
  have named : tagName (remark "parse error" source) = "!--" := by
    have sign : remark "parse error" source
        = '<' :: ("!--" ++ ' ' :: ("parse error: " ++ escape source ++ (" --" ++ ['>']))) := rfl
    rw [sign]
    exact takeWhile_name (by decide) (Text.forall_of_check (by decide)) (by decide) _
  rw [shape] at named ⊢
  refine passes_tag hP (fun hm => ?_) (by rw [named]; decide)
  simp only [List.mem_append] at hm
  rcases hm with (hm | hm) | hm
  · revert hm; decide
  · exact (inert_escape source _ hm).2.1 rfl
  · revert hm; decide

/-- The readings of a word inside a choice. -/
theorem passes_readings {r : Readings} {notes : Text} (hn : isName name = true)
    (hne : name ∉ surface) (ha : InTag attrs) (facs : Passes P r.facsimile)
    (dipl : Passes P r.diplomatic) (norm : Passes P r.normalized) (hnotes : Passes P notes) :
    Passes P (r.write name attrs notes) := by
  have gap (t : Text) (h : t.all (fun c => c ≠ '<' ∧ c ≠ '&') = true) : Passes P t :=
    passes_text hP (Text.forall_of_check h)
  have level (tag : Text) (h : tag ∈ (["me:facs", "me:dipl", "me:norm", "choice"] : List Text))
      {content : Text} (hc : Passes P content) : Passes P (wrap tag content) := by
    have names : ∀ tag ∈ (["me:facs", "me:dipl", "me:norm", "choice"] : List Text),
        isName tag = true ∧ tag ∉ surface := by decide
    exact passes_wrap hP (names tag h).1 (names tag h).2 hc
  have levels := Passes.append hP (level "me:facs" (by decide) facs)
    (.append hP (gap "\n    " (by decide))
      (.append hP (level "me:dipl" (by decide) dipl)
        (.append hP (gap "\n    " (by decide)) (level "me:norm" (by decide) norm))))
  have choice := level "choice" (by decide)
    (.append hP (gap "\n    " (by decide)) (.append hP levels (gap "\n  " (by decide))))
  have whole := passes_tagged hP hn hne ha
    (Passes.append hP (gap "\n  " (by decide))
      (.append hP choice (.append hP hnotes (gap "\n" (by decide))))) (gap "\n" (by decide))
  have shape : r.write name attrs notes = '<' :: name ++ attrs ++ '>' :: ("\n  "
      ++ (wrap "choice" ("\n    " ++ ((wrap "me:facs" r.facsimile ++ ("\n    "
        ++ (wrap "me:dipl" r.diplomatic ++ ("\n    " ++ wrap "me:norm" r.normalized)))) ++ "\n  "))
      ++ (notes ++ "\n"))) ++ "</" ++ name ++ '>' :: "\n" := by
    have first : (">\n  <choice>\n    <me:facs>" : Text) = '>' :: ("\n  "
        ++ '<' :: ("choice" ++ '>' :: ("\n    " ++ '<' :: ("me:facs" ++ ['>'])))) := rfl
    have second : ("</me:facs>\n    <me:dipl>" : Text) = "</" ++ ("me:facs"
        ++ (">" ++ ("\n    " ++ '<' :: ("me:dipl" ++ ['>'])))) := rfl
    have third : ("</me:dipl>\n    <me:norm>" : Text) = "</" ++ ("me:dipl"
        ++ (">" ++ ("\n    " ++ '<' :: ("me:norm" ++ ['>'])))) := rfl
    have fourth : ("</me:norm>\n  </choice>" : Text) = "</" ++ ("me:norm"
        ++ (">" ++ ("\n  " ++ ("</" ++ ("choice" ++ ">"))))) := rfl
    have last : ("\n</" : Text) = "\n" ++ "</" := rfl
    have ending : (">\n" : Text) = '>' :: "\n" := rfl
    rw [Readings.write, first, second, third, fourth, last, ending]
    simp only [wrap, List.append_assoc, List.cons_append, List.nil_append]
  rw [shape]
  exact whole

/-! ## 4. Nodes, notes and breaks -/

variable {a : Apparatus} {n : Node}

/-- Letters in the place of a named character, or else a reference to it. -/
theorem passes_letters (h : Inert name) (f : Text → Text) (letters : Option Text) :
    Passes P (match letters with
      | some t => escape (f t)
      | none => reference name) := by
  cases letters with
  | some t => exact passes_escape hP (f t)
  | none => exact passes_reference hP h

theorem passes_mark (mark : Mark) (content : Text) : Passes P (element mark.tag content) :=
  passes_element hP mark.isName_tag (by cases mark <;> decide) content

theorem passes_blank : Passes P [' '] :=
  passes_text hP (Text.forall_of_check (by decide))

/-- The facsimile leaves supplied text out, and a gap is an empty element there. -/
theorem passes_facsimileOf (h : n.InertName) : Passes P (a.facsimileOf n) := by
  cases n with
  | text content => exact passes_escape hP content
  | entity name => exact passes_letters hP (h name rfl) id (a.reduced name)
  | abbreviation abbr expansion => exact passes_element hP (by decide) (by decide) abbr
  | gap quantity reading => exact passes_gap hP quantity
  | marked mark content =>
    cases mark with
    | supplied => exact .nil hP
    | deletion | addition | note | unclear => exact passes_mark hP _ content
  | compoundJoin => exact passes_blank hP
  | _ => exact .nil hP

/-- The diplomatic level writes the reading of a gap, where there is one, as supplied. -/
theorem passes_diplomaticOf (h : n.InertName) : Passes P (a.diplomaticOf n) := by
  cases n with
  | text content => exact passes_escape hP content
  | entity name => exact passes_letters hP (h name rfl) id (a.resolved name)
  | abbreviation abbr expansion => exact passes_element hP (by decide) (by decide) expansion
  | gap quantity reading =>
    show Passes P (Apparatus.gapReading reading)
    unfold Apparatus.gapReading
    split
    · exact .nil hP
    · split
      · exact .nil hP
      · exact passes_element hP (by decide) (by decide) _
  | marked mark content => exact passes_mark hP mark content
  | compoundJoin => exact passes_blank hP
  | _ => exact .nil hP

/-- The normalized level writes other text into the same elements. -/
theorem passes_normalizedOf (h : n.InertName) : Passes P (a.normalizedOf n) := by
  cases n with
  | text content => exact passes_escape hP _
  | entity name => exact passes_letters hP (h name rfl) a.normalize (a.resolved name)
  | abbreviation abbr expansion => exact passes_element hP (by decide) (by decide) _
  | gap quantity reading =>
    cases reading with
    | none => exact .nil hP
    | some t =>
      show Passes P (if t.isEmpty then [] else element "supplied" (a.normalize t))
      split
      · exact .nil hP
      · exact passes_element hP (by decide) (by decide) _
  | marked mark content => exact passes_mark hP mark _
  | _ => exact .nil hP

theorem passes_inline (h : n.InertName) : Passes P (Edition.inline a n) := by
  cases n with
  | text content => exact passes_escape hP content
  | entity name => exact passes_letters hP (h name rfl) id (a.registry.resolve name)
  | abbreviation abbr expansion =>
    exact passes_wrap hP (by decide) (by decide) (.append hP
      (passes_element hP (by decide) (by decide) abbr)
      (passes_element hP (by decide) (by decide) expansion))
  | gap quantity reading =>
    refine .append hP (passes_gap hP quantity) ?_
    cases reading with
    | none => exact .nil hP
    | some t => exact passes_element hP (by decide) (by decide) t
  | marked mark content => exact passes_mark hP mark content
  | compoundJoin => exact passes_blank hP
  | _ => exact .nil hP

/-- A note is an element like any other, with its category for an attribute. -/
theorem passes_noteOf (r : Remark) : Passes P (Apparatus.noteOf r) := by
  unfold Apparatus.noteOf
  split
  · next text category _ _ =>
    have attrs : InTag (attributes (Edition.attr? "type" id category)) :=
      inTag_attributes (Edition.named_attr? (by decide) id category)
    have name : isName ("note" : Text) = true ∧ ("note" : Text) ∉ surface := by decide
    have whole := passes_tagged hP name.1 name.2 attrs
      (passes_escape hP text) (.nil hP)
    have opening : ("<note" : Text) = '<' :: "note" := rfl
    have ending : ("</note>" : Text) = "</" ++ ("note" ++ ['>']) := rfl
    rw [opening, ending]
    simpa only [List.append_assoc] using whole
  · exact .nil hP

theorem passes_notes (a : Apparatus) (index : Int) : Passes P (a.notes index) :=
  .flatMap hP fun r _ => passes_noteOf hP r

end Writers

/-! ## 5. Ranges of characters -/

section Ranges

variable {r : CharacterRange} {t u : Text} {ts us : List Text} {ps : List Piece}

/-- Whole markup with these tags besides those around ranges of characters. -/
structure Shows (t : Text) (ts : List Text) : Prop where
  whole : Whole t
  tags : (tags t).filter (tagName · ≠ ['c']) = ts

/-- What is shown of two halves is shown of the whole. -/
theorem Shows.append (ht : Shows t ts) (hu : Shows u us) : Shows (t ++ u) (ts ++ us) :=
  ⟨ht.whole.append hu.whole, by rw [ht.whole.tags_append, List.filter_append, ht.tags, hu.tags]⟩

theorem shows_nil : Shows [] [] :=
  ⟨whole_nil, by rw [tags_nil]; rfl⟩

theorem shows_range {tag : Text} (hc : Complete (.tag tag)) (hn : tagName tag = ['c']) :
    Shows tag [] := by
  refine ⟨whole_of_complete hc, ?_⟩
  rw [tags_of_tag hc]
  simp [hn]

/-- A range is opened by a start tag with its kind. -/
theorem openTag_eq (r : CharacterRange) : r.openTag = startTag ['c'] (attr "type" r.kind) := by
  have parts : r.openTag = '<' :: (['c'] ++ ' ' :: ("type" ++ "=\"")) ++ escape r.kind
      ++ ("\"" ++ ['>']) := rfl
  rw [parts, startTag, attr]
  simp only [List.append_assoc, List.cons_append]

theorem shows_openTag (r : CharacterRange) : Shows r.openTag [] := by
  have kind : InTag (attr "type" r.kind) := inTag_attr (by decide) r.kind
  rw [openTag_eq]
  exact shows_range (complete_startTag (by decide) kind) (tagName_startTag (by decide) kind)

theorem shows_closeTags (count : Nat) : Shows (closeTags count) [] := by
  induction count with
  | zero => exact shows_nil
  | succ count ih =>
    have ends : Shows (endTag ['c']) [] :=
      shows_range (complete_endTag (by decide)) (tagName_endTag (by decide))
    exact ends.append ih

/-- Ranges that begin at a place add start tags alone, and these are not shown. -/
theorem shows_openAt (index : Int) (later : List CharacterRange) :
    Shows (openAt index later).1 [] := by
  induction later with
  | nil => exact shows_nil
  | cons r later ih =>
    rw [openAt]
    split
    · exact (shows_openTag r).append ih
    · exact shows_nil

/-- Elements around ranges stand between complete pieces and take no tag away. -/
theorem shows_injectFrom (h : ∀ p ∈ ps, Complete p) (later : List CharacterRange)
    (stops : List Int) (index : Int) :
    Shows (injectFrom later stops index ps)
      ((ps.filterMap tag?).filter (tagName · ≠ ['c'])) := by
  induction ps generalizing later stops index with
  | nil => exact shows_closeTags stops.length
  | cons p ps ih =>
    obtain ⟨hp, hps⟩ := List.forall_mem_cons.1 h
    cases p with
    | tag t =>
      have first : Shows t ([t].filter (tagName · ≠ ['c'])) :=
        ⟨whole_of_complete hp, by rw [tags_of_tag hp]⟩
      have all := first.append (ih hps later stops index)
      rw [← List.filter_append] at all
      exact all
    | visible t =>
      have first : Shows t [] := ⟨whole_of_complete hp, by rw [tags_of_visible hp]; rfl⟩
      have opened := (shows_openAt index later).append first
      exact (opened.append (shows_closeTags _)).append (ih hps _ _ _)

/-- **Ranges of characters make no difference** to what markup passes, wherever they
begin and end. -/
theorem passes_inject {P : List Text → Prop} (hP : Tolerates P) (h : Passes P t)
    (ranges : List CharacterRange) : Passes P (inject t ranges) := by
  rw [inject]
  split
  · exact h
  · have shown := shows_injectFrom h.whole ranges [] 0
    exact ⟨shown.whole, hP.ranges shown.tags.symm h.tags⟩

end Ranges

/-! ## 6. Words -/

section Words

variable {P : List Text → Prop} (hP : Tolerates P) {a : Apparatus} {children : List Part}
  {content : Text}

include hP

/-- A group without attributes, or nothing where all its readings are empty. -/
theorem passes_plainLevels (kind : GroupKind) (h : ∀ p ∈ children, p.InertNames) :
    Passes P (Edition.plainLevels a kind children []) := by
  have inert := Part.inertName_of_mem_leaves h
  unfold Edition.plainLevels
  dsimp only
  split
  · exact .nil hP
  · exact passes_readings hP (Edition.isName_groupTag kind) (by cases kind <;> decide) .nil
      (.flatMap hP fun n hn => passes_facsimileOf hP (inert n hn))
      (.flatMap hP fun n hn => passes_diplomaticOf hP (inert n hn))
      (.flatMap hP fun n hn => passes_normalizedOf hP (inert n hn)) (.nil hP)

omit hP in
/-- A word with its readings takes an index, and changes no other counter. -/
theorem wordLevels_run (progress : Edition.Progress) :
    let index := progress.wordIndex
    let r := Edition.shown a children index
    Edition.wordLevels a children progress
      = (if r.isEmpty then [] else
          { r with facsimile := inject r.facsimile (ofWord a index) }.write
            (Edition.groupTag .word) (attributes (a.wordAttributes index)) (a.notes index),
        { progress with wordIndex := index + 1 }) := by
  intro index r
  -- once the index is taken, all that is left is a choice by the readings
  have step : Edition.wordLevels a children progress
      = (if r.isEmpty then (pure [] : Edition.Writing)
        else pure ({ r with facsimile := inject r.facsimile (ofWord a index) }.write
          (Edition.groupTag .word) (attributes (a.wordAttributes index)) (a.notes index)))
        { progress with wordIndex := index + 1 } := rfl
  rw [step]
  split <;> rfl

/-- The ranges in the facsimile of a word make no difference to what passes. -/
theorem passes_wordLevels (h : ∀ p ∈ children, p.InertNames) (progress : Edition.Progress) :
    Passes P (Edition.wordLevels a children progress).1 := by
  have inert := Part.inertName_of_mem_leaves h
  let index : Int := progress.wordIndex
  let r := Edition.shown a children progress.wordIndex
  have read : r.facsimile = a.facsimile (Part.leaves children)
      ∧ r.diplomatic = a.diplomatic (Part.leaves children) := by
    simp only [r, Edition.shown]
    split <;> exact ⟨rfl, rfl⟩
  have facs : Passes P r.facsimile := by
    rw [read.1]
    exact .flatMap hP fun n hn => passes_facsimileOf hP (inert n hn)
  have dipl : Passes P r.diplomatic := by
    rw [read.2]
    exact .flatMap hP fun n hn => passes_diplomaticOf hP (inert n hn)
  have norm : Passes P r.normalized := by
    simp only [r, Edition.shown]
    split
    · exact passes_escape hP _
    · exact .flatMap hP fun n hn => passes_normalizedOf hP (inert n hn)
  have attrs : InTag (attributes (a.wordAttributes index)) :=
    inTag_attributes (Edition.named_wordAttributes a index)
  have name : isName ("w" : Text) = true ∧ ("w" : Text) ∉ surface := by decide
  have written := passes_readings hP name.1 name.2 attrs
    (r := { r with facsimile := inject r.facsimile (ofWord a index) })
    (passes_inject hP facs (ofWord a index)) dipl norm (passes_notes hP a index)
  rw [wordLevels_run]
  dsimp only
  split
  · exact .nil hP
  · exact written

theorem passes_plainSingle (kind : GroupKind) (hc : Passes P content) :
    Passes P (Edition.plainSingle kind content []) := by
  unfold Edition.plainSingle
  split
  · exact .nil hP
  · exact passes_tagged hP (Edition.isName_groupTag kind) (by cases kind <;> decide) .nil hc
      (passes_text hP (Text.forall_of_check (t := "\n") (by decide)))

/-- A word around content that passes, with its notes. -/
theorem passes_wordSingle (hc : Passes P content) (progress : Edition.Progress) :
    Passes P (Edition.wordSingle a content progress).1 := by
  by_cases none : content = []
  · subst none
    exact .nil hP
  · have attrs : InTag (attributes (a.wordAttributes progress.wordIndex)) :=
      inTag_attributes (Edition.named_wordAttributes a progress.wordIndex)
    have name : isName ("w" : Text) = true ∧ ("w" : Text) ∉ surface := by decide
    have whole := passes_tagged hP name.1 name.2 attrs
      (.append hP hc (passes_notes hP a progress.wordIndex))
      (passes_text hP (Text.forall_of_check (t := "\n") (by decide)))
    have opening : ("<w" : Text) = '<' :: "w" := rfl
    have ending : ("</w>\n" : Text) = "</" ++ ("w" ++ '>' :: "\n") := rfl
    rw [Edition.wordSingle_run none, opening, ending]
    simpa only [List.append_assoc, List.cons_append] using whole

end Words

end Transcription.Markup
