/-
Transcription.Proofs.BreakTags — the breaks of a transcription at the levels of its
manuscript.

Where words are written in their readings, a break inside a word has no reading and is
left out; grouping alone decides which breaks these are and drops none (`breaks_grouped`).
Every other break is written as one tag of its kind, with its label if it has one.

Neither a word nor a node of text shows a tag that could be taken for a break, whatever
headwords and remarks add to it and wherever ranges of characters begin and end
(`tolerates_breakless`). So **`breakTags_ofText`**: the break tags of the markup are
those of the breaks between words, in their order, and what the blocks between them
show on their own.
-/
import Transcription.Proofs.GroupShapes
import Transcription.Proofs.Paragraphs

namespace Transcription

open Markup

namespace Markup

/-! ## 1. Tags of breaks -/

/-- Whether a tag is one of a line or page break. -/
def isBreakTag (tag : Text) : Bool :=
  [("lb" : Text), "pb"].contains (tagName tag)

/-- The tags of breaks in markup, in their order. -/
def breakTags (t : Text) : List Text :=
  (tags t).filter isBreakTag

/-- No tag is one of a break. -/
def Breakless (ts : List Text) : Prop :=
  ts.filter isBreakTag = []

section Tags

variable {t u tag name : Text} {ts : List Text} {label : Option Text}

theorem isBreakTag_of_name (h : name ∉ surface) (hn : tagName tag = name) :
    isBreakTag tag = false := by
  rw [isBreakTag, hn]
  revert h
  simp [surface]

theorem breakless_single (h : isBreakTag tag = false) : Breakless [tag] := by
  simp [Breakless, h]

theorem breakless_append {us : List Text} (ht : Breakless ts) (hu : Breakless us) :
    Breakless (ts ++ us) := by
  rw [Breakless, List.filter_append, ht, hu, List.append_nil]

theorem tolerates_breakless : Tolerates Breakless where
  nil := rfl
  append := breakless_append
  loose h := breakless_single (isBreakTag_of_name (fun hs => h (List.mem_append_left _ hs)) rfl)
  element {name attrs ts} hn ha ht := by
    obtain ⟨hf, -⟩ := followed_of_crossed hn
    have other : name ∉ surface := by
      revert name
      decide
    have first := breakless_single
      (isBreakTag_of_name other (tagName_startTag (isName_of_followed hf) ha))
    have last := breakless_single
      (isBreakTag_of_name other (tagName_endTag (isName_of_followed hf)))
    exact breakless_append first (breakless_append ht last)
  ranges {ts us} same ht := by
    have skip (ts : List Text) :
        (ts.filter (tagName · ≠ ['c'])).filter isBreakTag = ts.filter isBreakTag := by
      rw [List.filter_filter]
      refine List.filter_congr fun tag _ => ?_
      by_cases range : tagName tag = ['c']
      · rw [isBreakTag_of_name (show ['c'] ∉ surface by decide) range]
        rfl
      · simp [range]
    rw [Breakless, ← skip us, ← same, skip ts, ht]

theorem breakTags_append (ht : Whole t) (u : Text) :
    breakTags (t ++ u) = breakTags t ++ breakTags u := by
  rw [breakTags, ht.tags_append, List.filter_append, breakTags, breakTags]

theorem breakTags_of_breakless (h : Passes Breakless t) : breakTags t = [] :=
  h.tags

@[simp] theorem breakTags_nil : breakTags [] = [] := by
  rw [breakTags, tags_nil]
  rfl

/-- A break shows its tag. -/
theorem breakTags_break (hn : name = "lb" ∨ name = "pb") (label : Option Text) :
    breakTags (breakTag name label ++ "\n") = [breakTag name label] := by
  have named : isName name = true := by rcases hn with rfl | rfl <;> decide
  have shown : isBreakTag (breakTag name label) = true := by
    rw [isBreakTag, tagName_breakTag named]
    rcases hn with rfl | rfl <;> decide
  rw [breakTags, tags_line (complete_breakTag named label), List.filter_cons_of_pos shown,
    List.filter_nil]

end Tags

end Markup

/-! ## 2. Breaks inside words and between them -/

namespace Node

/-- The breaks of a unit: itself, or those inside a word. -/
def breaks : Node → List Node
  | .group _ children => children.filter isBreak
  | n => [n].filter isBreak

open Pending

section Grouping

variable {n : Node} {ns : List Node}

theorem breaks_of_not_group (hn : ∀ kind children, n ≠ .group kind children) :
    breaks n = [n].filter isBreak := by
  cases n with
  | group kind children => exact absurd rfl (hn kind children)
  | _ => rfl

theorem flatMap_breaks (h : ∀ n ∈ ns, ∀ kind children, n ≠ .group kind children) :
    ns.flatMap breaks = ns.filter isBreak := by
  induction ns with
  | nil => rfl
  | cons n ns ih =>
    obtain ⟨hn, hns⟩ := List.forall_mem_cons.1 h
    rw [List.flatMap_cons, ih hns, breaks_of_not_group hn, ← List.filter_append]
    rfl

theorem breaks_eq_placed (n : Node) : breaks n = (placed n).map Prod.fst := by
  cases n with
  | group kind children =>
    show children.filter isBreak = ((children.filter isBreak).map fun m => (m, true)).map Prod.fst
    rw [List.map_map]
    exact (List.map_id _).symm
  | _ => rfl

theorem crossings_fst (marks : List Char) (before ns : List Node) :
    (crossings marks before ns).map Prod.fst = ns.filter isBreak := by
  induction ns generalizing before with
  | nil => rfl
  | cons n ns ih =>
    cases hb : n.isBreak with
    | true => rw [crossings, if_pos hb, List.map_cons, ih, List.filter_cons_of_pos hb]
    | false =>
      have other : ¬n.isBreak = true := Bool.eq_false_iff.1 hb
      rw [crossings, if_neg other, ih, List.filter_cons_of_neg other]

/-- Grouping keeps every break, between words or inside one, in their order. -/
theorem breaks_grouped (h : ∀ n ∈ ns, ∀ kind children, n ≠ .group kind children) :
    (grouped ns).flatMap breaks = ns.filter isBreak :=
  calc (grouped ns).flatMap breaks
      = ((grouped ns).flatMap placed).map Prod.fst := by
        rw [List.map_flatMap]
        exact congrArg (List.flatMap · _) (funext breaks_eq_placed)
    _ = (crossings punctuationMarks [] ns).map Prod.fst :=
        congrArg (List.map Prod.fst) (placed_groupFrom h follows_start)
    _ = ns.filter isBreak := crossings_fst punctuationMarks [] ns

end Grouping

end Node

/-! ## 3. Tags of units -/

namespace Edition

/-- The tag of a line break with the number of its line. -/
def lineTag (s : Settings) (number : Nat) (label : Option Text) : Text :=
  breakTag "lb" (label.or (if s.autoLineNumbers then some (Text.ofNat number) else none))

/-- The break tags that units show after a number of line breaks: one for each break
between words, none for a word, and for a block those that it shows on its own. -/
def unitTags (s : Settings) (a : Apparatus) : (lines : Nat) → List Node → List Text
  | _, [] => []
  | lines, .lineBreak label :: ns => lineTag s (lines + 1) label :: unitTags s a (lines + 1) ns
  | lines, .pageBreak label :: ns => breakTag "pb" (some label) :: unitTags s a lines ns
  | lines, .block kind body :: ns =>
      breakTags (part s a (Part.ofNode (.block kind body)) .start).1 ++ unitTags s a lines ns
  | lines, _ :: ns => unitTags s a lines ns

section Units

variable {s : Settings} {a : Apparatus} {n : Node} {ns : List Node} {progress : Progress}
  {source : Text}

theorem breakTags_lineBreak (label : Option Text) (progress : Progress) :
    breakTags (lineBreak s label progress).1
      = [lineTag s (progress.lineNumber + 1) label]
    ∧ (lineBreak s label progress).2.lineNumber = progress.lineNumber + 1 := by
  have text : (lineBreak s label progress).1
      = lineTag s (progress.lineNumber + 1) label ++ "\n" := by
    cases label with
    | some label => exact labelledBreak_eq "lb" label
    | none =>
      show (if s.autoLineNumbers then labelledBreak "lb" (Text.ofNat (progress.lineNumber + 1))
        else fragmentBreak (.lineBreak none)) = _
      rw [lineTag]
      split
      · exact labelledBreak_eq "lb" _
      · exact fragmentBreak_lineBreak none
  refine ⟨?_, ?_⟩
  · rw [text]
    exact breakTags_break (.inl rfl) _
  · cases label <;> rfl

theorem breakTags_pageBreak (label : Text) (progress : Progress) :
    breakTags (pageBreak s label progress).1 = [breakTag "pb" (some label)]
    ∧ (pageBreak s label progress).2.lineNumber = progress.lineNumber := by
  have sign : breakTags (labelledBreak "pb" label) = [breakTag "pb" (some label)] := by
    rw [labelledBreak_eq]
    exact breakTags_break (.inr rfl) _
  have paragraphs : breakTags (startTag paragraph [] ++ "\n") = []
      ∧ breakTags pageEnd = [] := by
    constructor
    · rw [breakTags, tags_line complete_paragraph.1]
      rfl
    · rw [breakTags, pageEnd, tags_line complete_paragraph.2]
      rfl
  have opens : breakTags (newPage label) = [breakTag "pb" (some label)] := by
    rw [newPage, breakTags_append (neutral_pageBreak label).whole, sign, paragraphs.1]
    rfl
  cases hp : s.wrapPages with
  | false =>
    rw [pageBreak_plain hp]
    exact ⟨sign, rfl⟩
  | true =>
    rw [pageBreak_run hp]
    refine ⟨?_, rfl⟩
    dsimp only
    split
    · rw [breakTags_append (t := pageEnd) (whole_line complete_paragraph.2), paragraphs.2, opens]
      rfl
    · exact opens

/-- A block has counters of its own. -/
theorem part_block (kind : BlockKind) (body : Text) (progress : Progress) :
    part s a (Part.ofNode (.block kind body)) progress
      = ((part s a (Part.ofNode (.block kind body)) .start).1, progress) := by
  cases hl : Lexer.lex body with
  | error e =>
    rw [Part.ofNode_unread hl]
    cases kind <;> rfl
  | ok ns =>
    rw [Part.ofNode_block hl]
    cases kind <;> rfl

theorem breakTags_leaf (h : n.InertName) (hb : n.isBreak = false) (progress : Progress) :
    breakTags (leaf s a n progress).1 = [] ∧ (leaf s a n progress).2 = progress := by
  have text : leaf s a n = pure (inline a n) := by
    cases n with
    | lineBreak | pageBreak => cases hb
    | _ => rfl
  rw [text]
  exact ⟨breakTags_of_breakless (passes_inline tolerates_breakless h), rfl⟩

/-- A word or punctuation mark in its readings shows no break. -/
theorem breakTags_group {kind : GroupKind} {children : List Part} (hs : s.multiLevel = true)
    (h : ∀ p ∈ children, p.InertNames) (progress : Progress) :
    breakTags (part s a (.group kind children) progress).1 = []
    ∧ (part s a (.group kind children) progress).2.lineNumber = progress.lineNumber := by
  rw [part.eq_def]
  cases kind with
  | word =>
    simp only [hs, if_true]
    refine ⟨breakTags_of_breakless (passes_wordLevels tolerates_breakless h progress), ?_⟩
    rw [wordLevels_run]
  | punctuation =>
    simp only [hs, if_true]
    exact ⟨breakTags_of_breakless (passes_plainLevels tolerates_breakless .punctuation h), rfl⟩

/-- What a unit shows comes before what the units after it show. -/
theorem breakTags_unit (hs : s.multiLevel = true) (h : (Part.ofNode n).InertNames)
    (progress : Progress) (ns : List Node) :
    breakTags (part s a (Part.ofNode n) progress).1
        ++ unitTags s a (part s a (Part.ofNode n) progress).2.lineNumber ns
      = unitTags s a progress.lineNumber (n :: ns) := by
  have inline_node (hw : n.weight = 0) (hb : n.isBreak = false)
      (shown : unitTags s a progress.lineNumber (n :: ns) = unitTags s a progress.lineNumber ns) :
      breakTags (part s a (Part.ofNode n) progress).1
        ++ unitTags s a (part s a (Part.ofNode n) progress).2.lineNumber ns
      = unitTags s a progress.lineNumber (n :: ns) := by
    rw [Part.ofNode_leaf hw] at h ⊢
    cases h with
    | leaf inert =>
      obtain ⟨none, same⟩ := breakTags_leaf (s := s) (a := a) inert hb progress
      rw [part, none, same, shown]
      rfl
  cases n with
  | lineBreak label =>
    obtain ⟨tag, counted⟩ := breakTags_lineBreak (s := s) label progress
    have first : part s a (.leaf (.lineBreak label)) = lineBreak s label := by rw [part]; rfl
    rw [Part.ofNode_leaf rfl, first, tag, counted]
    rfl
  | pageBreak label =>
    obtain ⟨tag, same⟩ := breakTags_pageBreak (s := s) label progress
    have first : part s a (.leaf (.pageBreak label)) = pageBreak s label := by rw [part]; rfl
    rw [Part.ofNode_leaf rfl, first, tag, same]
    rfl
  | block kind body =>
    rw [part_block]
    rfl
  | group kind children =>
    rw [Part.ofNode_group] at h ⊢
    cases h with
    | group inert =>
      rw [(breakTags_group hs inert progress).1, (breakTags_group hs inert progress).2]
      rfl
  | _ => exact inline_node rfl rfl rfl

theorem breakTags_units (hs : s.multiLevel = true)
    (h : ∀ n ∈ ns, (Part.ofNode n).InertNames) (progress : Progress) :
    breakTags (inTurn ((Part.ofNodes ns).map (part s a)) progress).1
      = unitTags s a progress.lineNumber ns := by
  induction ns generalizing progress with
  | nil => exact breakTags_nil
  | cons n ns ih =>
    obtain ⟨hn, hns⟩ := List.forall_mem_cons.1 h
    have whole := whole_part (quiet_of_not_torn (a := a) hn (.inl hs)) progress
    show breakTags ((part s a (Part.ofNode n) progress).1 ++ _) = _
    rw [breakTags_append whole, ← breakTags_unit hs hn]
    congr 1
    exact ih hns _

/-- **At the levels of a manuscript every break between words is shown once**, in its
place among the others and with its label; a break inside a word is not shown. Grouping
brings every break of the transcription to one of the two places. -/
theorem breakTags_ofText (hs : s.multiLevel = true) (hl : Lexer.lex source = .ok ns) :
    ∃ xml, ofText s a source = .ok xml
      ∧ breakTags xml = unitTags s a 0 (units s ns)
      ∧ (units s ns).flatMap Node.breaks = ns.filter Node.isBreak := by
  have inert := inertNames_units (s := s) hl
  have no_group : ∀ n ∈ ns, ∀ kind children, n ≠ .group kind children := by
    rintro n hn kind children rfl
    exact (Lexer.lexed_of_lex hl).admissible _ hn
  refine ⟨ofNodes s a ns, by rw [ofText, hl]; rfl, ?_, ?_⟩
  · have shown := breakTags_units (a := a) hs
      (fun n hn => inert _ (List.mem_map_of_mem hn)) .start
    have whole := whole_inTurn (List.forall_mem_map.2 fun p hm =>
      whole_part (quiet_of_not_torn (a := a) (inert p hm) (.inl hs))) .start
    have ending : breakTags (if s.wrapPages && (inTurn ((Part.ofNodes (units s ns)).map
        (part s a)) .start).2.inPage then pageEnd else []) = [] := by
      split
      · rw [breakTags, pageEnd, tags_line complete_paragraph.2]
        rfl
      · exact breakTags_nil
    rw [ofNodes_eq, breakTags_append whole, shown, ending, List.append_nil]
    rfl
  · unfold units
    split
    · exact Node.breaks_grouped no_group
    · exact Node.flatMap_breaks no_group

/-- Two words with a line break between them. -/
theorem breakTags_between_words :
    ∃ xml, ofText ⟨true, false, true, false⟩ .empty ['a', ' ', '/', '/', '2', ' ', 'b'] = .ok xml
      ∧ breakTags xml = [breakTag "lb" (some "2")] := by
  have sign : Lexer.construct ['/', '/', '2', ' ', 'b']
      = .ok (some ([.lineBreak (some ['2'])], [' ', 'b'])) := rfl
  have lexed : Lexer.lex ['a', ' ', '/', '/', '2', ' ', 'b']
      = .ok [.text ['a', ' '], .lineBreak (some ['2']), .text [' ', 'b']] := by
    rw [Lexer.lex_char rfl, Lexer.lex_char rfl, Lexer.lex_construct sign, Lexer.lex_char rfl,
      Lexer.lex_char rfl, Lexer.lex_nil]
    rfl
  obtain ⟨xml, compiled, shown, -⟩ :=
    breakTags_ofText (s := ⟨true, false, true, false⟩) (a := .empty) rfl lexed
  exact ⟨xml, compiled, shown⟩

/-- A line break inside a word is in the transcription and not in its markup. -/
theorem break_in_word :
    ∃ ns xml, Lexer.lex ['a', 'b', '/', '/', '2', 'c', 'd'] = .ok ns
      ∧ ns.filter Node.isBreak = [.lineBreak (some ['2'])]
      ∧ ofText ⟨true, false, true, false⟩ .empty ['a', 'b', '/', '/', '2', 'c', 'd'] = .ok xml
      ∧ breakTags xml = [] := by
  have sign : Lexer.construct ['/', '/', '2', 'c', 'd']
      = .ok (some ([.lineBreak (some ['2'])], ['c', 'd'])) := rfl
  have lexed : Lexer.lex ['a', 'b', '/', '/', '2', 'c', 'd']
      = .ok [.text ['a', 'b'], .lineBreak (some ['2']), .text ['c', 'd']] := by
    rw [Lexer.lex_char rfl, Lexer.lex_char rfl, Lexer.lex_construct sign, Lexer.lex_char rfl,
      Lexer.lex_char rfl, Lexer.lex_nil]
    rfl
  have compiled : (ofText ⟨true, false, true, false⟩ .empty
      ['a', 'b', '/', '/', '2', 'c', 'd']).toOption.map breakTags = some [] := by decide +kernel
  cases h : ofText ⟨true, false, true, false⟩ .empty ['a', 'b', '/', '/', '2', 'c', 'd'] with
  | error e => rw [h] at compiled; cases compiled
  | ok xml =>
    rw [h] at compiled
    exact ⟨_, xml, lexed, rfl, rfl, Option.some.inj compiled⟩

end Units

end Edition

end Transcription
