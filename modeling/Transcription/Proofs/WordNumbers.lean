/-
Transcription.Proofs.WordNumbers — the headword and the remarks that a word gets.

Headwords and remarks are kept by the indices of words. What they say about a word is looked
up in one place only, where the word is written, and all else is written as if there were
none (`Apparatus.bare`): the counter of words and the entries under its numbers make no
difference to breaks, to punctuation marks, to whole blocks with the words in them
(`hereditary_undisturbed`) and to the content of words.

On one level a word takes its index only if it has content. A word of a text has some, since
every node in a word shows something when no name stands for the empty text
(`leaf_ne_nil`), and so it takes an index where one level is written just as where all
levels are.

**`words_numbered`**: the words of a text are written with their indices in turn, the k-th
word with the headword, the remarks, the ranges of characters and the notes of k, on one
level and on three alike.
-/
import Transcription.Proofs.Paragraphs

namespace Transcription

open Markup

/-- Named characters and the rules between the levels, with nothing to say about words. -/
def Apparatus.bare (a : Apparatus) : Apparatus :=
  { a with headwords := [], remarks := none }

namespace Edition

variable {s : Settings} {a : Apparatus} {n : Node} {ns : List Node} {p : Part} {ps : List Part}
  {progress : Progress} {index : Nat}

/-! ## 1. The outline of a text -/

/-- A word, by its readings on three levels and its content on one, or the markup between
words. -/
inductive Outline where
  | word (r : Readings) (content : Text)
  | other (markup : Text)
  deriving Repr

/-- A unit of a text that is written after others. -/
def outline (s : Settings) (a : Apparatus) (progress : Progress) : Node → Outline
  | .group .word children =>
      .word (readings a (Part.ofNodes children)) (parts s a (Part.ofNodes children) progress).1
  | n => .other (part s a (Part.ofNode n) progress).1

/-- The units of a text one after the other, and the end of the last page. -/
def outlines (s : Settings) (a : Apparatus) (progress : Progress) : List Node → List Outline
  | [] => [.other (if s.wrapPages && progress.inPage then pageEnd else [])]
  | n :: ns =>
      outline s a progress n :: outlines s a (part s a (Part.ofNode n) progress).2 ns

/-- A word as it is written with an index. -/
def wordAt (s : Settings) (a : Apparatus) (index : Nat) (r : Readings) (content : Text) : Text :=
  if s.multiLevel then
    let r := { r with
      normalized := ((a.storedNormalized index).map escape).getD r.normalized }
    if r.isEmpty then []
    else
      let facsimile := CharacterRange.inject r.facsimile (CharacterRange.ofWord a index)
      { r with facsimile }.write (groupTag .word) (attributes (a.wordAttributes index))
        (a.notes index)
  else
    "<w" ++ attributes (a.wordAttributes index) ++ '>' :: content ++ a.notes index ++ "</w>\n"

/-- Words with their indices, from one on, and what stands between them. -/
def numbered (s : Settings) (a : Apparatus) : (index : Nat) → List Outline → Text
  | _, [] => []
  | index, .word r content :: os => wordAt s a index r content ++ numbered s a (index + 1) os
  | index, .other markup :: os => markup ++ numbered s a index os

/-! ## 2. Writing without a look at words -/

/-- The same markup, and the same counts of lines and pages, whatever the index of the next
word is; the first leaves this index as it is. -/
def Unnumbered (v w : Writing) : Prop :=
  ∀ (progress : Progress) (index : Nat), v { progress with wordIndex := index }
    = ((w progress).1, { (w progress).2 with wordIndex := index })

section Writings

variable {v w : Writing} {t : Text} {f g : Text → Writing}

theorem Unnumbered.pure (t : Text) : Unnumbered (pure t) (pure t) :=
  fun _ _ => rfl

theorem Unnumbered.bind (h : Unnumbered v w) (hf : ∀ t, Unnumbered (f t) (g t)) :
    Unnumbered (v >>= f) (w >>= g) := by
  intro progress index
  show f (v { progress with wordIndex := index }).1 (v { progress with wordIndex := index }).2 = _
  rw [h progress index]
  exact hf _ _ _

theorem Unnumbered.text (h : Unnumbered v w) (progress : Progress) :
    (v progress).1 = (w progress).1 := by
  have run : v progress = _ := h progress progress.wordIndex
  rw [run]

theorem leaf_bare (s : Settings) (a : Apparatus) (n : Node) : leaf s a.bare n = leaf s a n := by
  cases n <;> rfl

theorem unnumbered_leaf (s : Settings) (a : Apparatus) (n : Node) :
    Unnumbered (leaf s a n) (leaf s a n) := by
  cases n with
  | lineBreak label => cases label <;> exact fun _ _ => rfl
  | pageBreak label =>
    show Unnumbered (pageBreak s label) (pageBreak s label)
    unfold pageBreak
    split
    · exact fun _ _ => rfl
    · exact .pure _
  | _ => exact .pure _

/-- One part after the other, in a document and in a fragment alike. -/
theorem unnumbered_inTurn {u v : Part → Writing} (h : ∀ p ∈ ps, Unnumbered (u p) (v p)) :
    Unnumbered (inTurn (ps.map u)) (inTurn (ps.map v)) := by
  induction ps with
  | nil => exact .pure []
  | cons p ps ih =>
    obtain ⟨hp, hps⟩ := List.forall_mem_cons.1 h
    exact hp.bind fun first => (ih hps).bind fun rest => .pure _

/-- Leaves look nothing up. -/
theorem unnumbered_leaves (s : Settings) (a : Apparatus) (ns : List Node) :
    Unnumbered (parts s a (ns.map .leaf)) (parts s a.bare (ns.map .leaf)) := by
  rw [parts_eq, parts_eq]
  refine unnumbered_inTurn (List.forall_mem_map.2 fun n _ => ?_)
  rw [part, part, leaf_bare]
  exact unnumbered_leaf s a n

end Writings

/-! ## 3. Parts -/

/-- A part that is written without a look at words, unless it is a word itself. -/
structure Undisturbed (s : Settings) (a : Apparatus) (p : Part) : Prop where
  part : (∀ children, p ≠ .group .word children) →
    Unnumbered (part s a p) (Edition.part s a.bare p)
  fragment : Unnumbered (fragment s a p) (Edition.fragment s a.bare p)
  normalized : normalizedPart a.bare p = normalizedPart a p

theorem undisturbed_group {kind : GroupKind} (children : List Node) :
    Undisturbed s a (.group kind (children.map .leaf)) := by
  have leaves := unnumbered_leaves s a children
  have single (kind : GroupKind) : Unnumbered
      (do return plainSingle kind (← parts s a (children.map .leaf)) [])
      (do return plainSingle kind (← parts s a.bare (children.map .leaf)) []) :=
    leaves.bind fun _ => .pure _
  have levels : plainLevels a.bare kind (children.map .leaf) []
      = plainLevels a kind (children.map .leaf) [] := rfl
  refine ⟨fun other => ?_, ?_, rfl⟩
  · cases kind with
    | word => exact absurd rfl (other _)
    | punctuation =>
      rw [part, part, levels]
      split
      · exact .pure _
      · exact single .punctuation
  · rw [fragment, fragment, levels]
    split
    · exact .pure _
    · exact single kind

theorem undisturbed_block {kind : BlockKind} (h : ∀ p ∈ ps, Undisturbed s a p) :
    Undisturbed s a (.block kind ps) := by
  have inner : (fragments s a.bare ps .start).1 = (fragments s a ps .start).1 := by
    rw [fragments_eq, fragments_eq]
    exact ((unnumbered_inTurn fun p hp => (h p hp).fragment).text .start).symm
  have normalized : normalizedParts a.bare ps = normalizedParts a ps := by
    rw [normalizedParts_eq, normalizedParts_eq, List.flatMap_def, List.flatMap_def,
      List.map_congr_left fun p hp => (h p hp).normalized]
  have same (kind : BlockKind) : part s a.bare (.block kind ps) = part s a (.block kind ps)
      ∧ fragment s a.bare (.block kind ps) = fragment s a (.block kind ps) := by
    cases kind <;> simp only [part, fragment, inner, normalized, and_self]
  have constant (kind : BlockKind) : ∃ t, part s a (.block kind ps) = pure t
      ∧ fragment s a (.block kind ps) = pure t := by
    cases kind <;> simp only [part, fragment] <;> exact ⟨_, rfl, rfl⟩
  obtain ⟨t, document, alone⟩ := constant kind
  refine ⟨fun _ => ?_, ?_, ?_⟩
  · rw [(same kind).1, document]
    exact .pure t
  · rw [(same kind).2, alone]
    exact .pure t
  · cases kind <;> simp only [normalizedPart, normalized]

theorem hereditary_undisturbed (s : Settings) (a : Apparatus) :
    Part.Hereditary (Undisturbed s a) where
  leaf {n} _ hb := by
    refine ⟨fun _ => ?_, ?_, rfl⟩
    · rw [part, part, leaf_bare]
      exact unnumbered_leaf s a n
    · rw [fragment, fragment, if_pos hb, if_pos hb]
      exact .pure _
  word _ _ := undisturbed_group _
  punctuation c := undisturbed_group [.text [c]]
  block := undisturbed_block
  unread kind source := by
    cases kind <;> exact ⟨fun _ => .pure _, .pure _, rfl⟩

/-! ## 4. Words -/

section Words

theorem escape_ne_nil {t : Text} (h : t ≠ []) : escape t ≠ [] := by
  cases t with
  | nil => exact absurd rfl h
  | cons c t =>
    have first : escapeChar c ≠ [] := by
      unfold escapeChar
      repeat' split
      all_goals exact nofun
    exact List.append_ne_nil_of_left_ne_nil first _

/-- Every node in a word shows something, since no name stands for nothing. -/
theorem leaf_ne_nil (named : ∀ name, a.registry.resolve name ≠ some []) (h : n.InWord)
    (progress : Progress) : (leaf s a n progress).1 ≠ [] := by
  cases n with
  | text content => exact escape_ne_nil h.admissible
  | entity name =>
    have text : (leaf s a (.entity name) progress).1 = inline a (.entity name) := rfl
    rw [text, inline]
    split
    · next char found => exact escape_ne_nil fun none => named name (none ▸ found)
    · exact List.cons_ne_nil _ _
  | lineBreak label =>
    cases label with
    | some label => exact List.cons_ne_nil _ _
    | none =>
      show (if s.autoLineNumbers then labelledBreak "lb" _
        else fragmentBreak (.lineBreak none)) ≠ []
      split <;> exact List.cons_ne_nil _ _
  | pageBreak label =>
    show (pageBreak s label progress).1 ≠ []
    cases hp : s.wrapPages with
    | false => rw [pageBreak_plain hp]; exact List.cons_ne_nil _ _
    | true =>
      have opens : newPage label ≠ [] := List.cons_ne_nil _ _
      rw [pageBreak_run hp]
      exact List.append_ne_nil_of_right_ne_nil _ opens
  | block _ _ | group _ _ | continuation | boundary => rcases h.inside with hi | hi <;> cases hi
  | gap quantity reading => cases quantity <;> exact List.cons_ne_nil _ _
  | abbreviation _ _ | marked _ _ | compoundJoin => exact List.cons_ne_nil _ _

/-- The content of a word is not empty. -/
theorem parts_ne_nil (named : ∀ name, a.registry.resolve name ≠ some []) (hne : ns ≠ [])
    (inside : ∀ n ∈ ns, n.InWord) (progress : Progress) :
    (parts s a (ns.map .leaf) progress).1 ≠ [] := by
  cases ns with
  | nil => exact absurd rfl hne
  | cons n ns =>
    rw [List.map_cons, parts, part]
    exact List.append_ne_nil_of_left_ne_nil
      (leaf_ne_nil named (inside n List.mem_cons_self) progress) _

/-- A word is written with the index that is next, and takes it. -/
theorem part_word (named : ∀ name, a.registry.resolve name ≠ some []) (hne : ns ≠ [])
    (inside : ∀ n ∈ ns, n.InWord) (progress : Progress) (index : Nat) :
    let children := ns.map .leaf
    part s a (.group .word children) { progress with wordIndex := index }
      = (wordAt s a index (readings a.bare children) (parts s a.bare children progress).1,
        { (part s a.bare (.group .word children) progress).2 with wordIndex := index + 1 }) := by
  intro children
  rw [part, part]
  cases hs : s.multiLevel with
  | true =>
    show wordLevels a _ _ = (_, { (wordLevels a.bare _ progress).2 with wordIndex := index + 1 })
    rw [wordLevels_run, wordLevels_run, shown_eq, wordAt, if_pos hs]
    rfl
  | false =>
    have content : (parts s a.bare children progress).1 ≠ [] :=
      parts_ne_nil (a := a.bare) named hne inside progress
    have run : parts s a children _ = _ := unnumbered_leaves s a ns progress index
    show wordSingle a (parts s a children { progress with wordIndex := index }).1
        (parts s a children { progress with wordIndex := index }).2
      = (_, { (wordSingle a.bare (parts s a.bare children progress).1
        (parts s a.bare children progress).2).2 with wordIndex := index + 1 })
    rw [run, wordSingle_run content, wordSingle_run content, wordAt, if_neg (by rw [hs]; decide)]

end Words

/-! ## 5. Texts -/

section Texts

variable {source : Text}

/-- From an index on, a unit is written as its outline says, and the ones after it from another
index on. -/
def FollowsOutline (s : Settings) (a : Apparatus) (progress : Progress) (index : Nat) (n : Node) :
    Prop :=
  ∃ t next, part s a (Part.ofNode n) { progress with wordIndex := index }
      = (t, { (part s a.bare (Part.ofNode n) progress).2 with wordIndex := next })
    ∧ ∀ os, numbered s a index (outline s a.bare progress n :: os) = t ++ numbered s a next os

/-- A unit that is no word takes no index. -/
theorem followsOutline_other (hn : Undisturbed s a (Part.ofNode n))
    (hw : ∀ children, Part.ofNode n ≠ .group .word children)
    (ho : outline s a.bare progress n = .other (part s a.bare (Part.ofNode n) progress).1) :
    FollowsOutline s a progress index n :=
  ⟨_, index, hn.part hw progress index, fun os => by rw [ho, numbered]⟩

/-- A word takes the index that is next, and no other unit takes one. -/
theorem followsOutline (named : ∀ name, a.registry.resolve name ≠ some []) (hg : n.Grouped)
    (hn : Undisturbed s a (Part.ofNode n)) (progress : Progress) (index : Nat) :
    FollowsOutline s a progress index n := by
  cases n with
  | group kind children =>
    cases kind with
    | punctuation => exact followsOutline_other hn (by rw [Part.ofNode_group]; exact nofun) rfl
    | word =>
      obtain ⟨hne, inside, -⟩ := hg
      refine ⟨_, index + 1, ?_, fun os => rfl⟩
      rw [Part.ofNode_group, Part.ofNodes_inWord inside]
      exact part_word named hne inside progress index
  | block kind body =>
    refine followsOutline_other hn (fun children => ?_) rfl
    cases hl : Lexer.lex body with
    | error e => rw [Part.ofNode_unread hl]; exact nofun
    | ok ns => rw [Part.ofNode_block hl]; exact nofun
  | _ => exact followsOutline_other hn (by rw [Part.ofNode_leaf rfl]; exact nofun) rfl

/-- Units are written with the indices of their words: by induction on the units. -/
theorem numbered_outlines (named : ∀ name, a.registry.resolve name ≠ some [])
    (hg : ∀ n ∈ ns, n.Grouped) (hn : ∀ n ∈ ns, Undisturbed s a (Part.ofNode n))
    (progress : Progress) (index : Nat) :
    let run := inTurn ((Part.ofNodes ns).map (part s a)) { progress with wordIndex := index }
    run.1 ++ (if s.wrapPages && run.2.inPage then pageEnd else [])
      = numbered s a index (outlines s a.bare progress ns) := by
  induction ns generalizing progress index with
  | nil => exact (List.append_nil _).symm
  | cons n ns ih =>
    obtain ⟨first, hg⟩ := List.forall_mem_cons.1 hg
    obtain ⟨alone, hn⟩ := List.forall_mem_cons.1 hn
    obtain ⟨t, next, here, written⟩ := followsOutline named first alone progress index
    have rest := ih hg hn (part s a.bare (Part.ofNode n) progress).2 next
    intro run
    have step : run = _ := inTurn_cons ..
    rw [here] at step
    rw [outlines, written, ← rest, step, List.append_assoc]
    rfl

/-- **Words are numbered alike on one level and on three.** For every text that can be read
and every apparatus in which no name stands for the empty text, where words are wrapped: the
text is the outline of its groups, written with the words numbered from zero on. Each word
among the groups takes one index, also when there is nothing to show of it, and is written
with what the headwords and remarks say about this index; nothing else takes an index or
depends on headwords and remarks, since outlines come without them. -/
theorem words_numbered {ns : List Node} (hl : Lexer.lex source = .ok ns)
    (hw : s.wordWrap = true) (named : ∀ name, a.registry.resolve name ≠ some []) :
    ofText s a source
      = .ok (numbered s a 0 (outlines s a.bare .start (Node.grouped ns))) := by
  have whole : units s ns = Node.grouped ns := if_pos hw
  have written := numbered_outlines (s := s) (a := a) named (Node.grouped_of_lex hl)
    (fun n hn => (hereditary_undisturbed s a).of_lex hl _ (List.mem_map_of_mem hn)) .start 0
  rw [← written, ofText, hl]
  show Except.ok (ofNodes s a ns) = _
  rw [ofNodes_eq, whole]
  rfl

/-- Two words with a heading between them: the word in the heading takes no index. -/
theorem words_numbered_around_heading :
    let s : Settings := ⟨true, false, false, false⟩
    let a : Apparatus :=
      { Apparatus.empty with headwords := [(0, ⟨"p", "xNC", none⟩), (1, ⟨"q", "xAJ", none⟩)] }
    let source : Text := ['a', '.', 'h', 'e', 'a', 'd', '{', 'x', '}', 'b']
    ∃ ns, Lexer.lex source = .ok ns ∧ s.wordWrap = true
      ∧ (∀ name, a.registry.resolve name ≠ some [])
      ∧ ofText s a source = .ok ("<w lemma=\"p\" me:msa=\"xNC\">a</w>\n<head><w>x</w>\n</head>"
        ++ "<w lemma=\"q\" me:msa=\"xAJ\">b</w>\n") := by
  intro s a source
  have heading : Lexer.construct ['.', 'h', 'e', 'a', 'd', '{', 'x', '}', 'b']
      = .ok (some ([.block .head ['x']], ['b'])) := rfl
  have lexed : Lexer.lex source = .ok [.text ['a'], .block .head ['x'], .text ['b']] := by
    rw [Lexer.lex_char rfl, Lexer.lex_construct heading, Lexer.lex_char rfl, Lexer.lex_nil]
    rfl
  have named : ∀ name, a.registry.resolve name ≠ some [] := fun _ => nofun
  refine ⟨_, lexed, rfl, named, ?_⟩
  rw [words_numbered lexed rfl named]
  refine congrArg Except.ok ?_
  decide +kernel

end Texts

end Edition

end Transcription
