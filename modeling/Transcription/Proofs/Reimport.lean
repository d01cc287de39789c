/-
Transcription.Proofs.Reimport — plain writing, compiled and imported again.

Letters, blanks and line breaks labelled with digits are compiled as a tree with two
kinds of elements, words and line breaks (`bodyTree`, `ofText_plain`). Nothing in it
needs a reference, so the document around it is read as this very tree
(`read_document`). What is left is the importer on the tree: the content of a word
(`gives_wordTree`), the word (`word_wordTree`), and the run of words and breaks, written
out as one text (`flattened_bodyTree`).

## The line feed after a break

A break is compiled as its element and a line feed, inside a word as well. The importer
reads the line feed as a blank where text follows. A word that goes on after a break
comes back with a blank there, as two words (`reimported_in_two`); a break at the end of
its word, and a break between words, come back as they were.

**`contents_reimported_iff`** therefore says which transcriptions come back: those where
text stands right after a break in no word. It also says what comes back from the
others, the lines of each word one by one.
-/
import Transcription.Import.Document
import Transcription.Proofs.Fragments
import Transcription.Proofs.OrderlyContent
import Transcription.Proofs.WordLines
import Transcription.Proofs.WrittenMarkup

namespace Transcription

open Xml (IsPlainChar IsPlainName PlainAll writeAll depthAll descendantsAll)
open Node (lines spacedLines endsLine InWord PlainGroup Grouped isScript)

/-! ## 1. The tree of plain writing -/

namespace Edition

/-- The tag of a word. -/
def wordTag : Xml.Tag :=
  ⟨⟨[], "w"⟩, [], [], []⟩

/-- The tag of a line break with its label. -/
def lineBreakTag (label : Text) : Xml.Tag :=
  ⟨⟨[], "lb"⟩, [], [("n", label)], []⟩

/-- Text as a node, unless it is empty. -/
def textTree (t : Text) : List Xml.Node :=
  if t.isEmpty then [] else [.text t]

/-- The content of a word, after text that is still open. Each break has a line feed
after it, and text goes on from there. -/
def wordTree (pending : Text) : List Node → List Xml.Node
  | [] => textTree pending
  | .text content :: ns => wordTree (pending ++ content) ns
  | .lineBreak label :: ns =>
      textTree pending ++ .element (lineBreakTag (label.getD [])) [] :: wordTree ['\n'] ns
  | _ :: ns => wordTree pending ns

/-- A group with the line feed after it. -/
def groupTree : Node → List Xml.Node
  | .group _ children => [.element wordTag (wordTree [] children), .text ['\n']]
  | .lineBreak label => [.element (lineBreakTag (label.getD [])) [], .text ['\n']]
  | _ => []

/-- The groups of a text one after the other. -/
def bodyTree (gs : List Node) : List Xml.Node :=
  gs.flatMap groupTree

section Trees

variable {c : Char} {label pending : Text} {ns gs : List Node}

/-- What lies in ranges of a document that hold no special character is plain. -/
theorem isPlainChar_of_covers {ranges : Unicode.Ranges}
    (inside : ∀ r ∈ ranges, ∃ s ∈ Xml.documentRanges, s.1 ≤ r.1 ∧ r.2 ≤ s.2)
    (noSign : ∀ d ∈ ['\r', '&', '<', '>', '\x22', '\x27'], ranges.covers d.toNat = false)
    (h : ranges.covers c.toNat = true) : IsPlainChar c := by
  have other (d : Char) (hd : d ∈ ['\r', '&', '<', '>', '\x22', '\x27']) : c ≠ d := by
    rintro rfl
    rw [noSign c hd] at h
    cases h
  have stays : Markup.escapeChar c = [c] := by simp [Markup.escapeChar, other]
  exact ⟨Xml.isDocumentPoint_of_covers inside h, other '\r' (by simp), stays⟩

theorem isPlainChar_of_isLetter (hc : isLetter c = true) : IsPlainChar c :=
  isPlainChar_of_covers (by decide +kernel) (Text.forall_of_check (by decide)) hc

theorem isPlainChar_of_isDigit (hc : Text.isDigit c = true) :
    IsPlainChar c ∧ (Xml.isSpace c = true → c = ' ') := by
  have digits : Unicode.Ranges.covers [(0x30, 0x39)] c.toNat = true := by
    simp only [Text.isDigit, Bool.and_eq_true, decide_eq_true_eq] at hc
    have low : 0x30 ≤ c.toNat := hc.1
    have high : c.toNat ≤ 0x39 := hc.2
    simp [Unicode.Ranges.covers, high, Nat.not_lt.2 low]
  have noBlank : ∀ d ∈ ['\t', '\n', '\r'], Text.isDigit d = false :=
    Text.forall_of_check (by decide)
  have other (d : Char) (hd : d ∈ ['\t', '\n', '\r']) : c ≠ d := by
    rintro rfl
    rw [noBlank c hd] at hc
    cases hc
  have noSign := Text.forall_of_check (t := ['\r', '&', '<', '>', '\x22', '\x27'])
    (p := fun d => Unicode.Ranges.covers [(0x30, 0x39)] d.toNat = false) (by decide)
  refine ⟨isPlainChar_of_covers (by decide) noSign digits, fun hs => ?_⟩
  simpa [Xml.isSpace, other] using hs

theorem isPlainChar_lineFeed : IsPlainChar '\n' :=
  ⟨by decide, by decide, by decide⟩

theorem plain_wordTag : wordTag.Plain where
  name := ⟨rfl, Xml.isPlainName_of_check (by decide)⟩
  alone := ⟨rfl, rfl⟩
  attrs := nofun
  distinct := .nil

theorem plain_lineBreakTag (h : ∀ c ∈ label, Text.isDigit c = true) :
    (lineBreakTag label).Plain where
  name := ⟨rfl, show IsPlainName ("lb" : Text) from Xml.isPlainName_of_check (by decide)⟩
  alone := ⟨rfl, rfl⟩
  attrs a ha := by
    have name : IsPlainName ("n" : Text) ∧ ("n" : Text) ≠ ("xmlns" : Text) :=
      ⟨Xml.isPlainName_of_check (by decide), by decide⟩
    rw [List.mem_singleton.1 ha]
    exact ⟨name.1, name.2, fun c hc => isPlainChar_of_isDigit (h c hc)⟩
  distinct := List.nodup_singleton _

theorem plainAll_textTree (hp : ∀ c ∈ pending, IsPlainChar c) : PlainAll (textTree pending) := by
  unfold textTree
  split
  · trivial
  · next hne => exact ⟨⟨by simpa using hne, hp⟩, fun _ => nofun, trivial⟩

/-- Text before an element. -/
theorem plainAll_textTree_append (hp : ∀ c ∈ pending, IsPlainChar c) {tag : Xml.Tag}
    {children ns : List Xml.Node} (h : PlainAll (.element tag children :: ns)) :
    PlainAll (textTree pending ++ .element tag children :: ns) := by
  unfold textTree
  split
  · exact h
  · next hne => exact ⟨⟨by simpa using hne, hp⟩, fun _ m hm => by cases hm; rfl, h⟩

theorem plainAll_wordTree (h : ∀ n ∈ ns, n.Plain isLetter) :
    ∀ {pending : Text}, (∀ c ∈ pending, IsPlainChar c) → PlainAll (wordTree pending ns) := by
  induction ns with
  | nil => exact fun hp => plainAll_textTree hp
  | cons n ns ih =>
    intro pending hp
    obtain ⟨hn, hns⟩ := List.forall_mem_cons.1 h
    cases n with
    | text content =>
      exact ih hns (List.forall_mem_append.2 ⟨hp, fun c hc => isPlainChar_of_isLetter (hn c hc)⟩)
    | lineBreak label =>
      cases label with
      | none => cases hn
      | some label =>
        refine plainAll_textTree_append hp ⟨⟨plain_lineBreakTag hn, trivial⟩, nofun, ?_⟩
        exact ih hns (by simpa using isPlainChar_lineFeed)
    | _ => cases hn

theorem head?_bodyTree (h : ∀ g ∈ gs, PlainGroup g) :
    ∀ m ∈ (bodyTree gs).head?, m.isText = false := by
  cases gs with
  | nil => nofun
  | cons g gs =>
    have hg := h g List.mem_cons_self
    intro m hm
    cases g with
    | group kind children | lineBreak label =>
      cases hm
      rfl
    | _ => cases hg

/-- The tree of the groups of plain writing is plain. -/
theorem plainAll_bodyTree (h : ∀ g ∈ gs, PlainGroup g) : PlainAll (bodyTree gs) := by
  induction gs with
  | nil => trivial
  | cons g gs ih =>
    obtain ⟨hg, hgs⟩ := List.forall_mem_cons.1 h
    have rest := ih hgs
    have feed : PlainAll (.text ['\n'] :: bodyTree gs) :=
      ⟨⟨nofun, by simpa using isPlainChar_lineFeed⟩, fun _ => head?_bodyTree hgs, rest⟩
    cases g with
    | group kind children =>
      cases kind with
      | word => exact ⟨⟨plain_wordTag, plainAll_wordTree hg nofun⟩, nofun, feed⟩
      | punctuation => cases hg
    | lineBreak label =>
      cases label with
      | none => cases hg
      | some label => exact ⟨⟨plain_lineBreakTag hg, trivial⟩, nofun, feed⟩
    | _ => cases hg

theorem depthAll_append (ns ms : List Xml.Node) :
    depthAll (ns ++ ms) = max (depthAll ns) (depthAll ms) := by
  induction ns with
  | nil => exact (Nat.zero_max _).symm
  | cons n ns ih => rw [List.cons_append, depthAll, depthAll, ih, Nat.max_assoc]

theorem depthAll_textTree (t : Text) : depthAll (textTree t) = 0 := by
  unfold textTree
  split <;> rfl

theorem depthAll_wordTree (ns : List Node) :
    ∀ pending : Text, depthAll (wordTree pending ns) ≤ 1 := by
  induction ns with
  | nil => exact fun pending => by rw [wordTree, depthAll_textTree]; omega
  | cons n ns ih =>
    intro pending
    cases n with
    | text content => exact ih _
    | lineBreak label =>
      have rest := ih ['\n']
      rw [wordTree, depthAll_append, depthAll_textTree, depthAll]
      exact Nat.max_le.2 ⟨by omega, Nat.max_le.2 ⟨Nat.le_refl 1, rest⟩⟩
    | _ => exact ih _

theorem depthAll_bodyTree (gs : List Node) : depthAll (bodyTree gs) ≤ 2 := by
  induction gs with
  | nil => exact Nat.zero_le 2
  | cons g gs ih =>
    have one : depthAll (groupTree g) ≤ 2 := by
      cases g with
      | group kind children =>
        have inner := depthAll_wordTree children []
        simp only [groupTree, depthAll, Xml.Node.depth]
        omega
      | lineBreak label => simp only [groupTree, depthAll, Xml.Node.depth]; omega
      | _ => exact Nat.zero_le 2
    rw [bodyTree, List.flatMap_cons, depthAll_append]
    exact Nat.max_le.2 ⟨one, ih⟩

end Trees

/-! ## 2. What is compiled -/

section Compiled

variable {s : Settings} {a : Apparatus} {t u pending : Text} {n g : Node}
  {ns gs children : List Node}

theorem writeAll_append (ns ms : List Xml.Node) :
    writeAll (ns ++ ms) = writeAll ns ++ writeAll ms := by
  induction ns with
  | nil => rfl
  | cons n ns ih => rw [List.cons_append, writeAll, writeAll, ih, List.append_assoc]

theorem writeAll_textTree (hp : ∀ c ∈ pending, IsPlainChar c) :
    writeAll (textTree pending) = pending := by
  unfold textTree
  split
  · next he => exact (List.isEmpty_iff.1 he).symm
  · rw [writeAll, Xml.Node.write, Xml.escapeText_plain hp]
    exact List.append_nil pending

/-- A labelled break is compiled as its element with a line feed after it. -/
theorem labelledBreak_eq (label : Text) :
    labelledBreak "lb" label = (Xml.Node.element (lineBreakTag label) []).write ++ ['\n'] := by
  have attributes : Markup.attributes (lineBreakTag label).attrs = Markup.attr "n" label :=
    List.flatMap_singleton _ _
  have parts : labelledBreak "lb" label
      = '<' :: ['l', 'b'] ++ Markup.attr "n" label ++ ['/', '>', '\n'] := rfl
  have tag : (Xml.Node.element (lineBreakTag label) []).write
      = '<' :: ['l', 'b'] ++ Markup.attributes (lineBreakTag label).attrs ++ ['/', '>'] := rfl
  rw [parts, tag, attributes]
  simp

/-- A text of plain characters is compiled as it stands. -/
theorem says_text {content : Text} (h : ∀ c ∈ content, IsPlainChar c) :
    Says (part s a (Part.ofNode (.text content))) content := by
  have leafed : part s a (Part.ofNode (.text content)) = pure (Markup.escape content) := by
    rw [Part.ofNode_leaf rfl, part]
    rfl
  rw [leafed, Xml.escape_plain h]
  exact .pure content

theorem says_labelledBreak (label : Text) :
    Says (part s a (Part.ofNode (.lineBreak (some label)))) (labelledBreak "lb" label) := by
  have leafed : part s a (Part.ofNode (.lineBreak (some label))) = lineBreak s (some label) := by
    rw [Part.ofNode_leaf rfl, part]
    rfl
  rw [leafed]
  exact fun progress => rfl

theorem Says.parts_cons (first : Says (part s a (Part.ofNode n)) t)
    (rest : Says (parts s a (Part.ofNodes ns)) u) :
    Says (parts s a (Part.ofNodes (n :: ns))) (t ++ u) := by
  rw [Part.ofNodes, List.map_cons, parts]
  exact first.bind (rest.bind (.pure _))

/-- The content of a word is compiled as its tree. -/
theorem says_wordTree (h : ∀ n ∈ ns, n.Plain isLetter) :
    ∃ t, Says (parts s a (Part.ofNodes ns)) t
      ∧ ∀ pending, (∀ c ∈ pending, IsPlainChar c) →
        writeAll (wordTree pending ns) = pending ++ t := by
  induction ns with
  | nil => exact ⟨[], .pure [], fun pending hp => by rw [wordTree, writeAll_textTree hp]; simp⟩
  | cons n ns ih =>
    obtain ⟨hn, hns⟩ := List.forall_mem_cons.1 h
    obtain ⟨t, written, tree⟩ := ih hns
    cases n with
    | text content =>
      have plain : ∀ c ∈ content, IsPlainChar c := fun c hc => isPlainChar_of_isLetter (hn c hc)
      refine ⟨content ++ t, (says_text plain).parts_cons written, fun pending hp => ?_⟩
      rw [wordTree, tree _ (List.forall_mem_append.2 ⟨hp, plain⟩), List.append_assoc]
    | lineBreak label =>
      cases label with
      | none => cases hn
      | some label =>
        refine ⟨labelledBreak "lb" label ++ t, (says_labelledBreak label).parts_cons written,
          fun pending hp => ?_⟩
        rw [wordTree, writeAll_append, writeAll_textTree hp, writeAll,
          tree _ (by simpa using isPlainChar_lineFeed), labelledBreak_eq]
        simp
    | _ => cases hn

theorem wordTree_ne_nil (h : ∀ n ∈ ns, n.Plain isLetter) (hw : ∀ n ∈ ns, InWord n) :
    ∀ pending : Text, pending ≠ [] ∨ ns ≠ [] → wordTree pending ns ≠ [] := by
  induction ns with
  | nil =>
    intro pending hne
    have full : pending.isEmpty = false := by simpa using hne
    rw [wordTree, textTree, full]
    nofun
  | cons n ns ih =>
    intro pending _
    obtain ⟨hn, hns⟩ := List.forall_mem_cons.1 h
    obtain ⟨wn, wns⟩ := List.forall_mem_cons.1 hw
    cases n with
    | text content =>
      have solid : content ≠ [] := wn.admissible
      exact ih hns wns _ (.inl (by simp [solid]))
    | lineBreak label => simp [wordTree]
    | _ => cases hn

theorem writeAll_ne_nil {ms : List Xml.Node} (h : PlainAll ms) (hne : ms ≠ []) :
    writeAll ms ≠ [] := by
  cases ms with
  | nil => exact absurd rfl hne
  | cons m ms =>
    intro he
    have empty := (List.append_eq_nil_iff.1 he).1
    cases m with
    | text t =>
      rw [Xml.Node.write, Xml.escapeText_plain h.1.2] at empty
      exact h.1.1 empty
    | element tag children => cases children <;> cases empty
    | comment _ | reference _ | instruction => exact h.1

theorem says_word (hm : s.multiLevel = false) (ha : a.Silent)
    (hg : PlainGroup (.group .word children)) (hw : Grouped (.group .word children)) :
    Says (part s a (Part.ofNode (.group .word children)))
      (writeAll (groupTree (.group .word children))) := by
  have filled := wordTree_ne_nil hg hw.2.1 [] (.inr hw.1)
  have plain : PlainAll (wordTree [] children) := plainAll_wordTree hg nofun
  obtain ⟨t, written, tree⟩ := @says_wordTree s a children hg
  have content : writeAll (wordTree [] children) = t := tree [] nofun
  have full : t.isEmpty = false := by simpa [content] using writeAll_ne_nil plain filled
  have single : plainSingle .word t [] = writeAll (groupTree (.group .word children)) := by
    have element : (Xml.Node.element wordTag (wordTree [] children)).write
        = "<w>".toList ++ t ++ "</w>".toList := by
      rw [Xml.Node.write_element filled, content]
      rfl
    have tree : writeAll (groupTree (.group .word children))
        = (Xml.Node.element wordTag (wordTree [] children)).write ++ ['\n'] := rfl
    rw [plainSingle, full, tree, element]
    simp [groupTag]
  rw [Part.ofNode_group, part, hm, ← single]
  exact written.bind (says_wordSingle ha t)

/-- A group is compiled as its tree. -/
theorem says_groupTree (hm : s.multiLevel = false) (ha : a.Silent) (hg : PlainGroup g)
    (hw : Grouped g) : Says (part s a (Part.ofNode g)) (writeAll (groupTree g)) := by
  cases g with
  | group kind children =>
    cases kind with
    | punctuation => cases hg
    | word => exact says_word hm ha hg hw
  | lineBreak label =>
    cases label with
    | none => cases hg
    | some label =>
      have tree : writeAll (groupTree (.lineBreak (some label))) = labelledBreak "lb" label := by
        rw [labelledBreak_eq]
        rfl
      rw [tree]
      exact says_labelledBreak label
  | _ => cases hg

theorem says_bodyTree (hm : s.multiLevel = false) (ha : a.Silent) (hg : ∀ g ∈ gs, PlainGroup g)
    (hw : ∀ g ∈ gs, Grouped g) : Says (parts s a (Part.ofNodes gs)) (writeAll (bodyTree gs)) := by
  induction gs with
  | nil => exact .pure []
  | cons g gs ih =>
    obtain ⟨gg, ggs⟩ := List.forall_mem_cons.1 hg
    obtain ⟨wg, wgs⟩ := List.forall_mem_cons.1 hw
    have tree : writeAll (bodyTree (g :: gs))
        = writeAll (groupTree g) ++ writeAll (bodyTree gs) := by
      rw [bodyTree, List.flatMap_cons, writeAll_append, ← bodyTree]
    rw [tree]
    exact (says_groupTree hm ha gg wg).parts_cons (ih ggs wgs)

/-- **Plain writing is compiled as the tree of its groups.** -/
theorem ofText_plain (hs : s.wordWrap = true) (hm : s.multiLevel = false)
    (hp : s.wrapPages = false) (ha : a.Silent) {source : Text} (hl : Lexer.lex source = .ok ns)
    (hn : ∀ n ∈ ns, n.Plain isScript) :
    ofText s a source = .ok (writeAll (bodyTree (Node.grouped ns))) := by
  have written := says_bodyTree hm ha (fun g hg => Node.plainGroup_of_mem hn hg)
    (Node.grouped_of_lex hl) .start
  rw [ofText, hl]
  refine congrArg Except.ok ?_
  rw [ofNodes, hs, hp]
  exact written

end Compiled

end Edition

namespace Import

open Edition (wordTag lineBreakTag textTree wordTree groupTree bodyTree)
open Node (TakesMarks EndsSolid Reads writeChildren)

/-! ## 3. The document -/

/-- The tags around compiled text. -/
def rootTag : Xml.Tag :=
  ⟨⟨[], "TEI"⟩, [], [], []⟩

/-- The tag of the body. -/
def bodyTag : Xml.Tag :=
  ⟨⟨[], "body"⟩, [], [], []⟩

/-- Compiled text as a document. -/
def document (xml : Text) : Text :=
  "<TEI><body>" ++ xml ++ "</body></TEI>"

section Document

variable {read : Text → Option Xml.Element} {gs : List Node}

theorem plain_rootTag : rootTag.Plain where
  name := ⟨rfl, Xml.isPlainName_of_check (by decide)⟩
  alone := ⟨rfl, rfl⟩
  attrs := nofun
  distinct := .nil

theorem plain_bodyTag : bodyTag.Plain where
  name := ⟨rfl, Xml.isPlainName_of_check (by decide)⟩
  alone := ⟨rfl, rfl⟩
  attrs := nofun
  distinct := .nil

theorem descendantsAll_append (ns ms : List Xml.Node) :
    descendantsAll (ns ++ ms) = descendantsAll ns ++ descendantsAll ms := by
  induction ns with
  | nil => rfl
  | cons n ns ih => rw [List.cons_append, descendantsAll, descendantsAll, ih, List.append_assoc]

theorem descendantsAll_textTree (t : Text) : descendantsAll (textTree t) = [] := by
  unfold textTree
  split <;> rfl

/-- In a word of plain writing there are line breaks only. -/
theorem localName_wordTree (ns : List Node) : ∀ pending : Text,
    ∀ e ∈ descendantsAll (wordTree pending ns), e.tag.localName = ("lb" : Text) := by
  induction ns with
  | nil =>
    intro pending e he
    rw [wordTree, descendantsAll_textTree] at he
    cases he
  | cons n ns ih =>
    intro pending e he
    cases n with
    | text content => exact ih _ e he
    | lineBreak label =>
      rw [wordTree, descendantsAll_append, descendantsAll_textTree] at he
      rcases List.mem_cons.1 he with rfl | he
      · rfl
      · exact ih _ e he
    | _ => exact ih _ e he

/-- In the body of plain writing there are words and line breaks only. -/
theorem localName_bodyTree (gs : List Node) : ∀ e ∈ descendantsAll (bodyTree gs),
    e.tag.localName = ("w" : Text) ∨ e.tag.localName = ("lb" : Text) := by
  induction gs with
  | nil => nofun
  | cons g gs ih =>
    intro e he
    rw [bodyTree, List.flatMap_cons, descendantsAll_append] at he
    rcases List.mem_append.1 he with he | he
    · cases g with
      | group kind children =>
        rcases List.mem_append.1 he with he | he
        · rcases List.mem_cons.1 he with rfl | he
          · exact .inl rfl
          · exact .inr (localName_wordTree children [] e he)
        · cases he
      | lineBreak label =>
        cases List.mem_singleton.1 he
        exact .inr rfl
      | _ => cases he
    · exact ih e he

/-- A document of plain writing is read as the tree of its groups. -/
theorem read_document (hread : Xml.ReadsPlain read) (h : ∀ g ∈ gs, PlainGroup g) :
    read (document (writeAll (bodyTree gs)))
      = some ⟨rootTag, [.element bodyTag (bodyTree gs)]⟩ := by
  have shape : document (writeAll (bodyTree gs))
      = rootTag.opening ++ (bodyTag.opening ++ writeAll (bodyTree gs) ++ bodyTag.closing)
        ++ rootTag.closing := by
    have whole (xml : Text) : document xml
        = ['<', 'T', 'E', 'I', '>', '<', 'b', 'o', 'd', 'y', '>'] ++ xml
          ++ ['<', '/', 'b', 'o', 'd', 'y', '>', '<', '/', 'T', 'E', 'I', '>'] := rfl
    have outer : rootTag.opening = ['<', 'T', 'E', 'I', '>']
        ∧ rootTag.closing = ['<', '/', 'T', 'E', 'I', '>'] := ⟨rfl, rfl⟩
    have inner : bodyTag.opening = ['<', 'b', 'o', 'd', 'y', '>']
        ∧ bodyTag.closing = ['<', '/', 'b', 'o', 'd', 'y', '>'] := ⟨rfl, rfl⟩
    rw [outer.1, outer.2, inner.1, inner.2, whole]
    simp only [List.append_assoc, List.cons_append, List.nil_append]
  rw [shape]
  by_cases hne : bodyTree gs = []
  · rw [hne, writeAll, List.append_nil]
    exact hread.hollow plain_rootTag plain_bodyTag
  · have markup : rootTag.opening
        ++ (bodyTag.opening ++ writeAll (bodyTree gs) ++ bodyTag.closing) ++ rootTag.closing
          = (Xml.Node.element rootTag [.element bodyTag (bodyTree gs)]).write := by
      rw [Xml.Node.write_element (List.cons_ne_nil _ _), writeAll, writeAll, List.append_nil,
        Xml.Node.write_element hne]
    have depth := Edition.depthAll_bodyTree gs
    rw [markup]
    refine hread.write ⟨plain_rootTag, ⟨plain_bodyTag, Edition.plainAll_bodyTree h⟩, nofun,
      trivial⟩ ?_
    simp only [Xml.Node.depth, depthAll, Xml.greatestDepth]
    omega

/-- It is imported with that tree as its body. -/
theorem ofText_document (hread : Xml.ReadsPlain read) (h : ∀ g ∈ gs, PlainGroup g) :
    ofText (document (writeAll (bodyTree gs))) read
      = .ok (ofBody (document (writeAll (bodyTree gs))) ⟨bodyTag, bodyTree gs⟩) := by
  have found : bodyOf? ⟨rootTag, [.element bodyTag (bodyTree gs)]⟩ = some ⟨bodyTag, bodyTree gs⟩ :=
    rfl
  have before : invalidName? ⟨rootTag, [.element bodyTag (bodyTree gs)]⟩ = none := by
    have all : visited ⟨rootTag, [.element bodyTag (bodyTree gs)]⟩
        = ⟨rootTag, [.element bodyTag (bodyTree gs)]⟩ :: descendantsAll (bodyTree gs) := rfl
    rw [invalidName?, all]
    refine List.find?_eq_none.2 ?_
    simp only [List.map_cons, List.forall_mem_cons, List.forall_mem_map]
    refine ⟨by decide, fun e he => ?_⟩
    rcases localName_bodyTree gs e he with hn | hn <;> rw [hn] <;> decide
  rw [ofText, read_document hread h]
  simp only [before, found]

end Document

/-! ## 4. Words -/

section Words

variable {read : ContentReader} {t out out' pending label : Text} {n : Node}
  {ns children : List Node}

/-- After a line feed it is read with a blank before it. -/
theorem appendText_lineFeed (hne : t ≠ []) (ht : ∀ c ∈ t, isBlank c = false) (out : Text)
    (more : Bool) : appendText out ('\n' :: t) more = spaced out ++ t := by
  have blank : isBlank '\n' = true := by decide
  have words : Text.words ('\n' :: t) = [t] := by
    rw [Text.words.eq_def]
    simp only [blank, if_true, words_solid hne ht]
  have last : ('\n' :: t).getLast? = t.getLast? := by
    cases t with
    | nil => exact absurd rfl hne
    | cons c t => rfl
  simp [appendText, words, Text.join, hne, blank, last, endBlank_solid ht]

/-- The line feed alone adds nothing. -/
theorem appendText_feed (out : Text) (more : Bool) : appendText out ['\n'] more = out :=
  rfl

theorem appendAll_textTree (hp : ∀ more, appendText out pending more = out')
    (rest : List Xml.Node) :
    appendAll read true out (textTree pending ++ rest) = appendAll read true out' rest := by
  unfold textTree
  split
  · next he =>
    have nothing : appendText out [] true = out := rfl
    rw [List.isEmpty_iff.1 he] at hp
    rw [← hp true, nothing]
    rfl
  · rw [List.cons_append, appendAll, hp]
    rfl

/-- A break is read as its sign. -/
theorem gives_line (rest : List Xml.Node) {P : Text → Prop}
    (h : Gives (appendAll read true (out ++ (Node.lineBreak (some label)).writeIn true) rest) P) :
    Gives (appendAll read true out (.element (lineBreakTag label) [] :: rest)) P := by
  have sign : appendElement read true out (lineBreakTag label) []
      = do
        set true
        return out ++ (Node.lineBreak (some label)).writeIn true := rfl
  have other : (lineBreakTag label).localName ≠ ("gap" : Text) := by
    show ("lb" : Text) ≠ ("gap" : Text)
    decide
  rw [appendAll_element other, sign]
  exact fun met => h true

/-- The text that nodes begin with. -/
def firstText : List Node → Text
  | .text content :: _ => content
  | _ => []

theorem firstText_of_noText (h : ∀ m ∈ ns.head?, m.isText = false) : firstText ns = [] := by
  cases ns with
  | nil => rfl
  | cons n ns =>
    cases n with
    | text content => exact absurd (h _ rfl) nofun
    | _ => rfl

theorem spaced_of_endsSolid (h : EndsSolid out) : spaced out = out ++ [' '] := by
  have last := Segment.endsIn_of_endsSolid h
  obtain ⟨init, c, rfl, -⟩ := h
  simp [spaced, last]

/-- What follows a break in a word: a line feed, and text with a blank before it if text
comes next. -/
theorem appendText_after_line (hn : n.isBreak = true) (ho : EndsSolid out)
    (h : ∀ n ∈ ns, InWord n) (more : Bool) :
    appendText out (['\n'] ++ firstText ns) more
      = out ++ (if endsLine n ns then [' '] else []) ++ firstText ns := by
  have feed := appendText_feed out more
  cases ns with
  | nil => simpa [endsLine, firstText] using feed
  | cons m ns =>
    cases m with
    | text content =>
      have solid := (h _ List.mem_cons_self).solid content rfl
      have line : endsLine n (.text content :: ns) = true := by rw [endsLine, hn]; rfl
      have read := appendText_lineFeed (h _ List.mem_cons_self).admissible
        (fun c hc => (solid c hc).1) out more
      rw [line, if_pos rfl, ← spaced_of_endsSolid ho]
      exact read
    | _ => simpa [endsLine, firstText, Node.isText] using feed

/-- The content of a word is read with a blank wherever a line ends in it. `base` is what
the text so far becomes with the pending text, up to the text that comes next. -/
theorem gives_wordTree (h : ∀ n ∈ ns, n.Plain isLetter) (hw : ∀ n ∈ ns, InWord n)
    (hj : Node.Joined ns none) : ∀ {out base pending : Text},
      (∀ more, appendText out (pending ++ firstText ns) more = base ++ firstText ns) →
        Gives (appendAll read true out (wordTree pending ns)) (· = base ++ spacedLines ns) := by
  induction ns with
  | nil =>
    intro out base pending hb
    have last : ∀ more, appendText out pending more = base := by simpa [firstText] using hb
    have whole : appendAll read true out (wordTree pending []) = pure base := by
      have tree : appendAll read true out (textTree pending ++ []) = appendAll read true base [] :=
        appendAll_textTree last []
      rwa [List.append_nil, appendAll] at tree
    rw [whole]
    exact gives_pure (List.append_nil base).symm
  | cons n ns ih =>
    obtain ⟨hn, hns⟩ := List.forall_mem_cons.1 h
    obtain ⟨wn, wns⟩ := List.forall_mem_cons.1 hw
    obtain ⟨jn, jns⟩ := hj
    intro out base pending hb
    cases n with
    | text content =>
      rw [Option.or_none] at jn
      have next := firstText_of_noText jn.2
      have here : firstText (.text content :: ns) = content := rfl
      -- what is pending and this text are one text of the document
      have open_ : ∀ more, appendText out (pending ++ content ++ firstText ns) more
          = base ++ content ++ firstText ns := by
        simpa only [next, here, List.append_nil] using hb
      have tree : wordTree pending (.text content :: ns) = wordTree (pending ++ content) ns := rfl
      rw [tree, Node.spacedLines_text, ← List.append_assoc]
      exact ih hns wns jns open_
    | lineBreak label =>
      cases label with
      | none => cases hn
      | some label =>
        have before : ∀ more, appendText out pending more = base := by simpa [firstText] using hb
        rw [wordTree, Node.spacedLines_cons, appendAll_textTree before]
        refine gives_line _ ?_
        have ends : EndsSolid (base ++ (Node.lineBreak (some label)).writeIn true) :=
          (Node.endsSolid_break .line (some label) true).append base
        have line : (Node.lineBreak (some label)).isBreak = true := rfl
        simpa using ih hns wns jns (appendText_after_line line ends wns)
    | _ => cases hn

/-- A node of a word is not written with a blank first. -/
theorem not_isBlank_firstChar {c : Char} (hn : InWord n) (hc : n.firstChar = some c) :
    isBlank c = false := by
  cases ht : n.isText with
  | true =>
    cases n with
    | text content => exact (hn.solid content rfl c (List.mem_of_head? hc)).1
    | _ => cases ht
  | false =>
    have signs : ∀ d ∈ ['.', '[', '<', '-', '+', '^', '?', ':', '~'], isBlank d = false :=
      Text.forall_of_check (by decide)
    obtain ⟨d, hd, first⟩ := Node.firstChar_mem hn ht
    cases hc.symm.trans first
    exact signs c hd

theorem trim_spacedLines (hg : Grouped (.group .word children)) (hr : Node.Readable children) :
    Text.trim (spacedLines children) = spacedLines children := by
  have trimmed := (Node.takesMarks_lines hg hr).2.trim_append (u := []) nofun
  rw [List.append_nil] at trimmed
  obtain ⟨n, ns, rfl⟩ := List.exists_cons_of_ne_nil hg.1
  have inside := hg.2.1 n List.mem_cons_self
  obtain ⟨c, first, -⟩ := Node.exists_firstChar inside
  have solid := not_isBlank_firstChar inside first
  have begins : (spacedLines (n :: ns)).head? = some c := by
    rw [Node.spacedLines_cons, List.append_assoc, List.head?_append]
    rw [Node.firstChar] at first
    rw [first]
    rfl
  obtain ⟨t, shape⟩ := List.head?_eq_some_iff.1 begins
  rw [trimmed, shape]
  exact List.dropWhile_cons_of_neg (by simp [solid])

/-- A word whose elements are line breaks has no levels: its content is read, without the
blanks around it. -/
theorem word_of_lines {ms : List Xml.Node}
    (h : ∀ e ∈ descendantsAll ms, e.tag.localName = ("lb" : Text)) :
    word read true ms = Text.trim <$> read true ms := by
  have absent (level : Text) (hl : level ≠ ("lb" : Text)) : Xml.findFirst? level ms = none := by
    refine List.find?_eq_none.2 fun e he => ?_
    rw [h e he]
    simpa using Ne.symm hl
  simp only [word, levelAbbreviation, levels, levelText, absent "facs" (by decide),
    absent "dipl" (by decide), absent "norm" (by decide), pure_bind]
  rfl

theorem appendText_firstText (h : ∀ n ∈ ns, InWord n) (more : Bool) :
    appendText [] ([] ++ firstText ns) more = [] ++ firstText ns := by
  cases ns with
  | nil => rfl
  | cons n ns =>
    cases n with
    | text content =>
      have inside := h _ List.mem_cons_self
      have solid := inside.solid content rfl
      exact appendText_solid inside.admissible (fun c hc => (solid c hc).1) [] more
    | _ => rfl

/-- A word of plain writing is read with a blank wherever a line ends in it. -/
theorem word_wordTree (hp : PlainGroup (.group .word children))
    (hg : Grouped (.group .word children)) :
    (run (word content true (wordTree [] children))).1 = spacedLines children := by
  obtain ⟨hne, hw, hj⟩ := hg
  have inner : Gives (content true (wordTree [] children)) (· = spacedLines children) :=
    gives_wordTree hp hw hj (appendText_firstText hw)
  have trimmed : Gives (Text.trim <$> content true (wordTree [] children))
      (· = Text.trim (spacedLines children)) :=
    inner.map fun t ht => congrArg Text.trim ht
  rw [word_of_lines (localName_wordTree children [])]
  exact (trimmed false).trans (trim_spacedLines ⟨hne, hw, hj⟩ (Node.readable_of_plain hp hw))

end Words

/-! ## 5. The text -/

section Texts

open Segment (Cursor Flattened Spaced project projectFrom)

variable {c : Cursor} {core tail : Text} {ts : List Text} {done : List Segment} {g : Node}
  {gs children : List Node} {label : Text}

theorem draftsAll_append (ns ms : List Xml.Node) :
    draftsAll (ns ++ ms) = draftsAll ns ++ draftsAll ms := by
  induction ns with
  | nil => rfl
  | cons n ns ih => rw [List.cons_append, draftsAll, draftsAll, ih, List.append_assoc]

theorem flattened_word (hp : PlainGroup (.group .word children))
    (hg : Grouped (.group .word children)) (h : Flattened c core tail ts done) (hs : Spaced done)
    (first : Int) :
    ∃ s, draftsAll (groupTree (.group .word children)) = [s, ofRun ['\n']]
      ∧ ∃ core' tail', core ++ tail ++ (project c (s first)).1 = core' ++ tail'
        ∧ Flattened (project c (s first)).2 core' tail'
          (ts ++ Node.lineTokens (.group .word children)) (done ++ [s first]) := by
  obtain ⟨marks, ends⟩ := Node.takesMarks_lines hg (Node.readable_of_plain hp hg.2.1)
  refine ⟨wordDraft wordTag (wordTree [] children) (word content true (wordTree [] children)),
    rfl, ?_⟩
  have segment : ∃ xml attrs breaksLine,
      wordDraft wordTag (wordTree [] children) (word content true (wordTree [] children)) first
        = .word first xml (spacedLines children) attrs breaksLine := by
    rw [← word_wordTree hp hg]
    exact ⟨_, _, _, rfl⟩
  obtain ⟨xml, attrs, breaksLine, segment⟩ := segment
  rw [segment]
  refine ⟨core ++ (tail ++ c.beforeWord) ++ spacedLines children, [], by simp [project], ?_⟩
  exact h.word marks ends rfl hs

theorem flattened_line (hp : PlainGroup (.lineBreak (some label)))
    (h : Flattened c core tail ts done) (first : Int) :
    ∃ s, draftsAll (groupTree (.lineBreak (some label))) = [s, ofRun ['\n']]
      ∧ ∃ core' tail', core ++ tail ++ (project c (s first)).1 = core' ++ tail'
        ∧ Flattened (project c (s first)).2 core' tail'
          (ts ++ Node.lineTokens (.lineBreak (some label))) (done ++ [s first]) := by
  refine ⟨fun id => .milestone .line id (lineBreakTag label).values, rfl, ?_⟩
  have labels : ∀ t ∈ some label, '}' ∉ t := by
    rintro t ⟨⟩ hm
    exact absurd (hp _ hm) (by decide)
  have reads := Node.reads_break .line labels
  have written : Segment.breakText .line (lineBreakTag label).values
      = BreakKind.line.write (some label) false := rfl
  refine ⟨_, _, ?_, h.line reads (Node.endsSolid_break .line (some label) false) _⟩
  simp [project, written]

/-- A group of plain writing is two segments, its own and a line feed. Its own is written
as the group, with a blank wherever a line ends in it. -/
theorem flattened_group (hp : PlainGroup g) (hg : Grouped g) (h : Flattened c core tail ts done)
    (hs : Spaced done) (first : Int) :
    ∃ s, draftsAll (groupTree g) = [s, ofRun ['\n']]
      ∧ ∃ core' tail', core ++ tail ++ (project c (s first)).1 = core' ++ tail'
        ∧ Flattened (project c (s first)).2 core' tail' (ts ++ g.lineTokens)
          (done ++ [s first]) := by
  cases g with
  | group kind children =>
    cases kind with
    | punctuation => cases hp
    | word => exact flattened_word hp hg h hs first
  | lineBreak label =>
    cases label with
    | none => cases hp
    | some label => exact flattened_line hp h first
  | _ => cases hp

/-- The groups of plain writing go on from any place where a word may come. -/
theorem flattened_bodyTree (hp : ∀ g ∈ gs, PlainGroup g) (hg : ∀ g ∈ gs, Grouped g)
    (h : Flattened c core tail ts done) (hs : Spaced done) (first : Int) :
    ∃ core' tail' c' done',
      core ++ tail ++ projectFrom c (numberFrom first (draftsAll (bodyTree gs))) = core' ++ tail'
        ∧ Flattened c' core' tail' (ts ++ gs.flatMap Node.lineTokens) done' := by
  induction gs generalizing c core tail ts done first with
  | nil =>
    have nothing : projectFrom c (numberFrom first (draftsAll (bodyTree []))) = [] := rfl
    exact ⟨core, tail, c, done, by rw [nothing, List.append_nil], by simpa using h⟩
  | cons g gs ih =>
    obtain ⟨pg, pgs⟩ := List.forall_mem_cons.1 hp
    obtain ⟨gg, ggs⟩ := List.forall_mem_cons.1 hg
    obtain ⟨s, drafted, core₁, tail₁, text, step⟩ := flattened_group pg gg h hs first
    let feed : Segment := .whitespace (first + 1) ['\n']
    have blank := @Flattened.unwritten _ _ _ _ _ feed step rfl
    obtain ⟨core₂, tail₂, c₂, done₂, run, last⟩ :=
      ih pgs ggs blank (Segment.spaced_snoc _ rfl rfl) (first + 1 + 1)
    refine ⟨core₂, tail₂, c₂, done₂, ?_, by simpa [List.append_assoc] using last⟩
    have shape : draftsAll (bodyTree (g :: gs)) = s :: ofRun ['\n'] :: draftsAll (bodyTree gs) := by
      rw [bodyTree, List.flatMap_cons, draftsAll_append, drafted]
      rfl
    have written : projectFrom c (numberFrom first (s :: ofRun ['\n'] :: draftsAll (bodyTree gs)))
        = (project c (s first)).1 ++ projectFrom (project (project c (s first)).2 feed).2
            (numberFrom (first + 1 + 1) (draftsAll (bodyTree gs))) := rfl
    rw [shape, written, ← List.append_assoc, text]
    exact run

/-- The text of a body of plain writing is read as its groups with a blank wherever a line
ends in them. -/
theorem reads_toText_bodyTree (hp : ∀ g ∈ gs, PlainGroup g) (hg : ∀ g ∈ gs, Grouped g) :
    Reads (Segment.toText (segments ⟨bodyTag, bodyTree gs⟩)) (gs.flatMap Node.lineTokens) := by
  have start : Spaced [] := by
    intro before s between he
    cases before <;> cases he
  obtain ⟨core, tail, c, done, text, last⟩ :=
    flattened_bodyTree hp hg Segment.flattened_start start 0
  replace text : projectFrom .start (numberFrom 0 (draftsAll (bodyTree gs))) = core ++ tail := text
  rw [Segment.toText, segments, text]
  exact last.reads_trim

end Texts

/-! ## 6. Sources -/

section Sources

variable {read : Text → Option Xml.Element} {s : Settings} {a : Apparatus} {source : Text}
  {ns : List Node}

/-- **Plain writing comes back as it was if and only if text stands right after a break in
no word**, with any reader that reads plain markup. -/
theorem contents_reimported_iff (hread : Xml.ReadsPlain read) (hs : s.wordWrap = true)
    (hm : s.multiLevel = false) (hp : s.wrapPages = false) (ha : a.Silent)
    (hl : Lexer.lex source = .ok ns) (hn : ∀ n ∈ ns, n.Plain isScript) :
    ∃ xml i, Edition.ofText s a source = .ok xml ∧ ofText (document xml) read = .ok i
      ∧ (∃ ms, Lexer.lex i.dsl = .ok ms)
      ∧ Token.contents i.dsl = (Node.grouped ns).flatMap Node.lineTokens
      ∧ (Token.contents i.dsl = Token.contents source
          ↔ ∀ children, .group .word children ∈ Node.grouped ns → ¬Node.RunsOn children) := by
  have plain : ∀ g ∈ Node.grouped ns, PlainGroup g := fun g hg => Node.plainGroup_of_mem hn hg
  have closed := Node.grouped_of_lex hl
  have compiled := Edition.ofText_plain hs hm hp ha hl hn
  have reads := reads_toText_bodyTree plain closed
  obtain ⟨i, imported, dsl⟩ : ∃ i, ofText (document (writeAll (bodyTree (Node.grouped ns)))) read
      = .ok i ∧ i.dsl = Segment.toText (segments ⟨bodyTag, bodyTree (Node.grouped ns)⟩) :=
    ⟨_, ofText_document hread plain, rfl⟩
  rw [← dsl] at reads
  refine ⟨_, i, compiled, imported, reads.imp fun _ h => h.1, reads.contents, ?_⟩
  rw [reads.contents, Lexer.contents_of_lex hl]
  exact Node.lineTokens_eq_iff closed

/-- A word that ends with its line comes back as it was. -/
theorem contents_reimported_line_end :
    ∃ xml i, Edition.ofText ⟨true, false, false, false⟩ .empty
        ['u', 'p', 'p', '/', '/', '2', ' ', 'h', 'a', 'f'] = .ok xml
      ∧ ofText (document xml) = .ok i
      ∧ Token.contents i.dsl
        = Token.contents ['u', 'p', 'p', '/', '/', '2', ' ', 'h', 'a', 'f'] := by
  let ns : List Node := [.text ['u', 'p', 'p'], .lineBreak (some ['2']), .text [' ', 'h', 'a', 'f']]
  have sign : Lexer.construct ['/', '/', '2', ' ', 'h', 'a', 'f']
      = .ok (some ([.lineBreak (some ['2'])], [' ', 'h', 'a', 'f'])) := rfl
  have lexed : Lexer.lex ['u', 'p', 'p', '/', '/', '2', ' ', 'h', 'a', 'f'] = .ok ns := by
    rw [Lexer.lex_char rfl, Lexer.lex_char rfl, Lexer.lex_char rfl, Lexer.lex_construct sign,
      Lexer.lex_char rfl, Lexer.lex_char rfl, Lexer.lex_char rfl, Lexer.lex_char rfl,
      Lexer.lex_nil]
    rfl
  have plain : ∀ n ∈ ns, n.Plain isScript := by
    have first : (Node.text ['u', 'p', 'p']).Plain isScript := Text.forall_of_check (by decide)
    have line : (Node.lineBreak (some ['2'])).Plain isScript := Text.forall_of_check (by decide)
    have last : (Node.text [' ', 'h', 'a', 'f']).Plain isScript :=
      Text.forall_of_check (by decide)
    simpa [ns] using ⟨first, line, last⟩
  have groups : Node.grouped ns = [.group .word [.text ['u', 'p', 'p'], .lineBreak (some ['2'])],
      .group .word [.text ['h', 'a', 'f']]] := rfl
  obtain ⟨xml, i, compiled, imported, -, -, same⟩ :=
    contents_reimported_iff (s := ⟨true, false, false, false⟩) (a := .empty)
      Xml.readsPlain_read? rfl rfl rfl ⟨fun _ => rfl, fun _ => rfl⟩ lexed plain
  refine ⟨xml, i, compiled, imported, same.2 fun children hm => ?_⟩
  have ends (n : Node) : ¬Node.RunsOn [n] := by
    rw [← Node.one_lt_length_lines]
    exact Nat.lt_irrefl 1
  rw [groups] at hm
  simp only [List.mem_cons, List.not_mem_nil, or_false, Node.group.injEq, true_and] at hm
  rcases hm with rfl | rfl
  · rw [Node.runsOn_cons]
    exact not_or.2 ⟨Bool.false_ne_true, ends _⟩
  · exact ends _

/-- A word that goes on in the next line comes back in two. -/
theorem reimported_in_two :
    ∃ i, Edition.ofText ⟨true, false, false, false⟩ .empty
        ['u', 'p', 'p', '/', '/', '2', 'h', 'a', 'f']
          = .ok "<w>upp<lb n=\"2\"/>\nhaf</w>\n"
      ∧ ofText (document "<w>upp<lb n=\"2\"/>\nhaf</w>\n") = .ok i
      ∧ i.dsl = "upp~//\x7b2\x7d haf"
      ∧ Token.contents i.dsl
        ≠ Token.contents ['u', 'p', 'p', '/', '/', '2', 'h', 'a', 'f'] := by
  have compiled : Edition.ofText ⟨true, false, false, false⟩ .empty
      ['u', 'p', 'p', '/', '/', '2', 'h', 'a', 'f']
        = .ok "<w>upp<lb n=\"2\"/>\nhaf</w>\n" := by decide +kernel
  have imported : (ofText (document "<w>upp<lb n=\"2\"/>\nhaf</w>\n")).toOption.map Import.dsl
      = some "upp~//\x7b2\x7d haf" := by decide +kernel
  have tokens : Token.contents "upp~//\x7b2\x7d haf"
      ≠ Token.contents ['u', 'p', 'p', '/', '/', '2', 'h', 'a', 'f'] := by decide +kernel
  cases hi : ofText (document "<w>upp<lb n=\"2\"/>\nhaf</w>\n") with
  | error e => rw [hi] at imported; cases imported
  | ok i =>
    rw [hi] at imported
    have dsl : i.dsl = "upp~//\x7b2\x7d haf" := Option.some.inj imported
    exact ⟨i, compiled, rfl, dsl, by rwa [dsl]⟩

end Sources

end Import

end Transcription
