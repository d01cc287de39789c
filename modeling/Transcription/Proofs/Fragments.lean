/-
Transcription.Proofs.Fragments — a fragment is marked up as a document is.

A document takes an index for each word and counts its lines and pages; a fragment
counts nothing. The counters show in the markup only through headwords and remarks,
through the numbers of unlabelled lines and through the paragraphs around pages. Where
none of these is asked for, the text that is written does not depend on the counters
(`Says`), and document and fragment write the same text for every part (`alike_part`),
by induction on the part.

**`ofText_eq_ofFragment`**: so the markup of a text that can be read is its markup as a
fragment, on one level and on three.
-/
import Transcription.Proofs.WellNested

namespace Transcription

/-! ## 1. Nothing to say about words -/

namespace Apparatus

/-- No word has a headword, and there is no remark on any. -/
structure Silent (a : Apparatus) : Prop where
  headword : ∀ index : Nat, a.headword? index = none
  remarks : ∀ index : Nat, a.remarksOn index = []

variable {a : Apparatus} (h : a.Silent) (index : Nat)
include h

theorem Silent.wordAttributes : a.wordAttributes index = [] := by
  have head : a.headwordAttributes index = [] := by rw [headwordAttributes, h.headword]
  have rest : a.remarkAttributes index = [] := by rw [remarkAttributes, h.remarks]; rfl
  rw [Apparatus.wordAttributes, head, rest, List.append_nil]

theorem Silent.notes : a.notes index = [] := by
  rw [Apparatus.notes, h.remarks, List.flatMap_nil]

theorem Silent.storedNormalized : a.storedNormalized index = none := by
  rw [Apparatus.storedNormalized, h.headword, Option.bind_none]

theorem Silent.ofWord : CharacterRange.ofWord a index = [] := by
  rw [CharacterRange.ofWord, h.remarks]
  exact List.mergeSort_nil

end Apparatus

namespace Edition

variable {s : Settings} {a : Apparatus} {n : Node} {children : List Part}
  {v w : Writing} {t u : Text}

/-! ## 2. Text that does not depend on the counters -/

/-- The text that is written, whatever the counters are. -/
def Says (w : Writing) (t : Text) : Prop :=
  ∀ progress, (w progress).1 = t

theorem Says.pure (t : Text) : Says (pure t) t :=
  fun _ => rfl

theorem Says.bind {f : Text → Writing} (hw : Says w t) (hf : Says (f t) u) :
    Says (w >>= f) u := by
  intro progress
  show (f (w progress).1 (w progress).2).1 = u
  rw [hw progress]
  exact hf _

/-- Two ways to write the same text. -/
def Alike (v w : Writing) : Prop :=
  ∃ t, Says v t ∧ Says w t

theorem Alike.pure (t : Text) : Alike (pure t) (pure t) :=
  ⟨t, .pure t, .pure t⟩

/-! ## 3. Leaves and groups -/

theorem says_lineBreak (hn : s.autoLineNumbers = false) (label : Option Text) :
    Says (lineBreak s label) (fragmentBreak (.lineBreak label)) := by
  intro progress
  cases label with
  | some label => rfl
  | none =>
    show (if s.autoLineNumbers then labelledBreak "lb" _ else fragmentBreak (.lineBreak none)) = _
    rw [hn]
    rfl

theorem says_pageBreak (hp : s.wrapPages = false) (label : Text) :
    Says (pageBreak s label) (fragmentBreak (.pageBreak label)) := by
  rw [pageBreak, hp]
  exact .pure _

theorem alike_leaf (hn : s.autoLineNumbers = false) (hp : s.wrapPages = false) :
    Alike (leaf s a n) (if n.isBreak then pure (fragmentBreak n) else leaf s a n) := by
  cases n with
  | lineBreak label => exact ⟨_, says_lineBreak hn label, .pure _⟩
  | pageBreak label => exact ⟨_, says_pageBreak hp label, .pure _⟩
  | _ => exact .pure _

theorem says_wordLevels (ha : a.Silent) :
    Says (wordLevels a children) (plainLevels a .word children []) := by
  intro progress
  have read : shown a children progress.wordIndex = readings a children := by
    rw [shown, ha.storedNormalized]
  rw [wordLevels_eq progress (ha.ofWord _), read, ha.wordAttributes, ha.notes]
  rfl

theorem says_wordSingle (ha : a.Silent) (content : Text) :
    Says (wordSingle a content) (plainSingle .word content []) := by
  unfold wordSingle plainSingle
  split
  · exact .pure []
  · intro progress
    show "<w" ++ Markup.attributes (a.wordAttributes progress.wordIndex) ++ '>' :: content
      ++ a.notes progress.wordIndex ++ "</w>\n" = _
    rw [ha.wordAttributes, ha.notes, List.append_nil]
    simp [groupTag, Markup.attributes]

/-- A group, once its children say the same at any count. -/
theorem alike_group (ha : a.Silent) {kind : GroupKind} (hc : Says (parts s a children) t) :
    Alike (part s a (.group kind children)) (fragment s a (.group kind children)) := by
  have single (kind : GroupKind) :
      Says (do return plainSingle kind (← parts s a children) []) (plainSingle kind t []) :=
    hc.bind (.pure _)
  cases kind with
  | word =>
    rw [part, fragment]
    split
    · exact ⟨_, says_wordLevels ha, .pure _⟩
    · exact ⟨_, hc.bind (says_wordSingle ha t), single .word⟩
  | punctuation =>
    rw [part, fragment]
    split
    · exact .pure _
    · exact ⟨_, single .punctuation, single .punctuation⟩

/-! ## 4. Parts -/

mutual

/-- A document and a fragment write the same text for a part. -/
theorem alike_part (hn : s.autoLineNumbers = false) (hp : s.wrapPages = false) (ha : a.Silent) :
    ∀ p, Alike (part s a p) (fragment s a p)
  | .leaf n => by
      rw [part, fragment]
      exact alike_leaf hn hp
  | .group kind children =>
      let ⟨_, inside, _⟩ := alike_parts hn hp ha children
      alike_group ha inside
  | .block kind body => by cases kind <;> exact .pure _
  | .unread kind source => by
      rw [part, fragment]
      exact .pure _

/-- A document and a fragment write the same text for a sequence of parts. -/
theorem alike_parts (hn : s.autoLineNumbers = false) (hp : s.wrapPages = false) (ha : a.Silent) :
    ∀ ps, Alike (parts s a ps) (fragments s a ps)
  | [] => .pure []
  | p :: ps => by
      obtain ⟨first, hd, hf⟩ := alike_part hn hp ha p
      obtain ⟨rest, hds, hfs⟩ := alike_parts hn hp ha ps
      rw [parts, fragments]
      exact ⟨first ++ rest, hd.bind (hds.bind (.pure _)), hf.bind (hfs.bind (.pure _))⟩

end

/-! ## 5. Whole texts -/

/-- **A text is marked up as a fragment is**: with words in elements, lines not numbered,
pages not wrapped and nothing said about the words. -/
theorem ofText_eq_ofFragment {source : Text} {ns : List Node} (hl : Lexer.lex source = .ok ns)
    (hw : s.wordWrap = true) (hn : s.autoLineNumbers = false) (hp : s.wrapPages = false)
    (ha : a.Silent) : ofText s a source = .ok (ofFragment s a source) := by
  have grouped : Part.ofText? source = some (Part.ofNodes (Node.grouped ns)) := by
    rw [Part.ofText?, hl]
  obtain ⟨t, document, piece⟩ := alike_parts hn hp ha (Part.ofNodes (Node.grouped ns))
  have whole : ofNodes s a ns = (parts s a (Part.ofNodes (Node.grouped ns)) .start).1 := by
    rw [ofNodes, hw, hp]
    rfl
  rw [ofText, hl, ofFragment, grouped]
  show Except.ok (ofNodes s a ns) = .ok (fragments s a (Part.ofNodes (Node.grouped ns)) .start).1
  rw [whole, document, piece]

/-- A word with a line break inside and a heading, on three levels. -/
theorem ofText_eq_ofFragment_heading :
    let s : Settings := ⟨true, false, true, false⟩
    ofText s .empty ['a', '~', '/', '/', 'b', '.', 'h', 'e', 'a', 'd', '{', 'c', '}']
      = .ok (ofFragment s .empty
          ['a', '~', '/', '/', 'b', '.', 'h', 'e', 'a', 'd', '{', 'c', '}']) := by
  intro s
  have first : Lexer.construct ['a', '~', '/', '/', 'b', '.', 'h', 'e', 'a', 'd', '{', 'c', '}']
      = .ok none := rfl
  have line : Lexer.construct ['~', '/', '/', 'b', '.', 'h', 'e', 'a', 'd', '{', 'c', '}']
      = .ok (some ([.continuation, .lineBreak none],
        ['b', '.', 'h', 'e', 'a', 'd', '{', 'c', '}'])) := rfl
  have second : Lexer.construct ['b', '.', 'h', 'e', 'a', 'd', '{', 'c', '}'] = .ok none := rfl
  have heading : Lexer.construct ['.', 'h', 'e', 'a', 'd', '{', 'c', '}']
      = .ok (some ([.block .head ['c']], [])) := rfl
  have lexed := Lexer.lex_char first
  rw [Lexer.lex_construct line, Lexer.lex_char second, Lexer.lex_construct heading,
    Lexer.lex_nil] at lexed
  exact ofText_eq_ofFragment lexed rfl rfl rfl ⟨fun _ => rfl, fun _ => rfl⟩

end Edition

end Transcription
