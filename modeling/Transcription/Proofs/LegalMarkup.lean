/-
Transcription.Proofs.LegalMarkup — when the references and comments of a text are legal.

A named character is left as a reference where nothing is known of it, and which tables are
asked depends on the place: the registry alone where one level is written, the dictionary
alone for the facsimile, both for the other levels and at the normalized level of a block
(`View.letters`). The source of a block becomes a comment where its body cannot be read and
the block is not left out (`View.inside?`). A part with something of the kind that no markup
may hold is `Illegal`.

Each part is legal markup exactly if it is not illegal (`Legible`), by induction on the blocks
in blocks (`hereditary_legible`). So **`legal_iff`**: the markup of a text is legal exactly if
no part of it is illegal.
-/
import Transcription.Proofs.Paragraphs
import Transcription.Proofs.Quotes

namespace Transcription

open Markup

/-! ## 1. What is left as a reference, and what becomes a comment -/

/-- How a part is looked at: as it is written in documents and fragments, or at the normalized
level alone. -/
inductive View where
  | full
  | normalized
  deriving DecidableEq, Repr

/-- What a named character stands for, if for anything. In a group on three levels the facsimile
decides, since it is the only level that does not look at the registry. -/
def View.letters (s : Settings) (a : Apparatus) (inGroup : Bool) : View → Text → Option Text
  | .full => if s.multiLevel && inGroup then a.reduced else a.registry.resolve
  | .normalized => a.resolved

/-- How the body of a block is looked at, unless the block is left out. -/
def View.inside? (s : Settings) : View → BlockKind → Option View
  | .full, .norm => if s.multiLevel then some .normalized else none
  | .full, _ => some .full
  | .normalized, .head => none
  | .normalized, _ => some .normalized

/-- A part that is written with a reference to something that is no name, or with a source in a
comment in which two dashes stand side by side, at any depth of blocks. -/
inductive Part.Illegal (s : Settings) (a : Apparatus) : View → Part → Prop
  | leaf {view : View} {n : Node} (h : ¬n.Referable (view.letters s a false)) :
      Illegal s a view (.leaf n)
  | group {view : View} {kind : GroupKind} {children : List Part} {n : Node}
      (hn : .leaf n ∈ children) (h : ¬n.Referable (view.letters s a true)) :
      Illegal s a view (.group kind children)
  | block {view inner : View} {kind : BlockKind} {body : List Part} {p : Part}
      (hi : view.inside? s kind = some inner) (hp : p ∈ body) (h : Illegal s a inner p) :
      Illegal s a view (.block kind body)
  | unread {view : View} {kind : BlockKind} {source : Text}
      (hi : view.inside? s kind ≠ none) (h : source.holds "--" = true) :
      Illegal s a view (.unread kind source)

section Parts

variable {s : Settings} {a : Apparatus} {view inner : View} {n : Node} {ns : List Node}
  {kind : GroupKind} {block : BlockKind} {body : List Part} {source : Text}

theorem Part.not_illegal_leaf :
    ¬(Part.leaf n).Illegal s a view ↔ n.Referable (view.letters s a false) := by
  refine ⟨fun legal => Classical.byContradiction fun h => legal (.leaf h),
    fun legal illegal => ?_⟩
  cases illegal with
  | leaf h => exact h legal

/-- The names of a word are looked up where the levels of a group look, all of them in one
place. -/
theorem Part.not_illegal_group :
    ¬(Part.group kind (ns.map .leaf)).Illegal s a view
      ↔ ∀ n ∈ ns, n.Referable (view.letters s a true) := by
  refine ⟨fun legal n hn => Classical.byContradiction fun h =>
    legal (.group (List.mem_map_of_mem hn) h), fun legal illegal => ?_⟩
  cases illegal with
  | group hn h =>
    obtain ⟨m, hm, he⟩ := List.mem_map.1 hn
    cases he
    exact h (legal _ hm)

/-- A block that is shown is as legal as what stands in it, looked at as the block asks. -/
theorem Part.not_illegal_block (hi : view.inside? s block = some inner) :
    ¬(Part.block block body).Illegal s a view ↔ ∀ p ∈ body, ¬p.Illegal s a inner := by
  refine ⟨fun legal p hp illegal => legal (.block hi hp illegal), fun legal illegal => ?_⟩
  cases illegal with
  | block other hp h =>
    obtain rfl := Option.some.inj (hi.symm.trans other)
    exact legal _ hp h

/-- A block that is left out writes nothing that could be illegal. -/
theorem Part.not_illegal_hidden (hi : view.inside? s block = none) :
    ¬(Part.block block body).Illegal s a view := by
  intro illegal
  cases illegal with
  | block other => rw [hi] at other; cases other

theorem Part.not_illegal_unread_hidden (hi : view.inside? s block = none) :
    ¬(Part.unread block source).Illegal s a view := by
  intro illegal
  cases illegal with
  | unread other => exact other hi

/-- Of a block that cannot be read the source is shown, so its dashes count and its names
do not. -/
theorem Part.not_illegal_unread (hi : view.inside? s block = some inner) :
    ¬(Part.unread block source).Illegal s a view ↔ source.holds "--" = false := by
  have shown : view.inside? s block ≠ none := by rw [hi]; exact nofun
  rw [← Bool.not_eq_true]
  refine not_congr ⟨fun illegal => ?_, .unread shown⟩
  cases illegal with
  | unread _ h => exact h

end Parts

namespace Edition

variable {s : Settings} {a : Apparatus} {n : Node} {ns : List Node} {kind : GroupKind}
  {content : Text}

/-! ## 2. Breaks and inline nodes -/

theorem safe_pages : Safe pageEnd ∧ ∀ label, Safe (newPage label) :=
  ⟨safe_silent (by decide), fun label =>
    (safe_labelledBreak (by decide) label).before (safe_silent (by decide))⟩

/-- A page is its break, between the tags of two pages where pages are wrapped; its label
is escaped. -/
theorem safe_pageBreak (s : Settings) (label : Text) (progress : Progress) :
    Safe (pageBreak s label progress).1 := by
  cases hp : s.wrapPages with
  | false =>
    rw [pageBreak_plain hp]
    exact safe_labelledBreak (by decide) label
  | true =>
    rw [pageBreak_run hp]
    refine (safe_pages.2 label).after ?_
    split
    · exact safe_pages.1
    · exact safe_nil

/-- Of the nodes outside words only a named character can be illegal; breaks are written
with escaped labels. -/
theorem legalIff_leaf (h : n.ClosedName) (progress : Progress) :
    LegalIff (n.Referable a.registry.resolve) (leaf s a n progress).1 := by
  cases n with
  | lineBreak label =>
    refine safe_referable ?_ nofun
    cases label with
    | some label => exact safe_labelledBreak (by decide) label
    | none =>
      show Safe (if s.autoLineNumbers then labelledBreak "lb" _
        else fragmentBreak (.lineBreak none))
      split
      · exact safe_labelledBreak (by decide) _
      · exact safe_fragmentBreak _
  | pageBreak label => exact safe_referable (safe_pageBreak s label progress) nofun
  | _ => exact legalIff_inline h

/-- One piece of writing after the other. -/
theorem legalIff_inTurn {α : Type} {P : α → Prop} {f : α → Writing} {as : List α}
    (h : ∀ x ∈ as, ∀ progress, LegalIff (P x) (f x progress).1) (progress : Progress) :
    LegalIff (∀ x ∈ as, P x) (inTurn (as.map f) progress).1 := by
  induction as generalizing progress with
  | nil => exact safe_nil.congr (iff_of_true trivial nofun)
  | cons x as ih =>
    obtain ⟨hx, has⟩ := List.forall_mem_cons.1 h
    exact ((hx progress).append (ih has _)).congr List.forall_mem_cons.symm

/-! ## 3. Words -/

section Words

variable {P Q R : Prop} {r : Readings} {full tag attrs notes : Text}

/-- The attributes of a word come from tables, and their names are names. -/
theorem safe_wordAttributes (a : Apparatus) (index : Int) :
    Safe (attributes (a.wordAttributes index)) :=
  safe_attributes (named_wordAttributes a index)

/-- Readings that are left out where there is nothing to show. Where the facsimile is legal, so
are the other levels. -/
theorem legalIff_levels (hn : isName tag = true) (ha : Safe attrs)
    (facs : LegalIff P r.facsimile) (ranged : LegalIff P full) (dipl : LegalIff Q r.diplomatic)
    (norm : LegalIff R r.normalized) (hq : P → Q) (hr : P → R) (hnotes : Safe notes) :
    LegalIff P (if r.isEmpty then [] else { r with facsimile := full }.write tag attrs notes) := by
  split
  · next empty =>
    have nothing : r.facsimile = [] := by
      simp only [Readings.isEmpty, Bool.and_eq_true, List.isEmpty_iff] at empty
      exact empty.1.1
    rwa [nothing] at facs
  · refine (LegalIff.write (r := { r with facsimile := full }) hn ha ranged dipl norm
      hnotes).congr ?_
    exact ⟨fun h => h.1.1, fun h => ⟨⟨h, hq h⟩, hr h⟩⟩

theorem leaves_leaves (ns : List Node) : Part.leaves (ns.map .leaf) = ns := by
  rw [Part.leaves, List.filterMap_map]
  exact List.filterMap_some

/-- A name that is reduced to letters stands for them on the other levels too. -/
theorem referable_resolved (h : ∀ n ∈ ns, n.Referable a.reduced) :
    ∀ n ∈ ns, n.Referable a.resolved :=
  fun n hn name he unknown => h n hn name he (Option.or_eq_none_iff.1 unknown).1

/-- The readings of nodes, of which the facsimile decides. -/
theorem legalIff_readings (h : ∀ n ∈ ns, n.ClosedName) :
    LegalIff (∀ n ∈ ns, n.Referable a.reduced) (a.facsimile ns)
      ∧ LegalIff (∀ n ∈ ns, n.Referable a.resolved) (a.diplomatic ns)
      ∧ LegalIff (∀ n ∈ ns, n.Referable a.resolved) (a.normalized ns) :=
  ⟨.flatMap fun n hn => legalIff_facsimileOf (h n hn),
    .flatMap fun n hn => legalIff_diplomaticOf (h n hn),
    .flatMap fun n hn => legalIff_normalizedOf (h n hn)⟩

/-- A group in a block has neither attributes nor ranges, and its facsimile decides. -/
theorem legalIff_plainLevels (h : ∀ n ∈ ns, n.ClosedName) :
    LegalIff (∀ n ∈ ns, n.Referable a.reduced) (plainLevels a kind (ns.map .leaf) []) := by
  obtain ⟨facs, dipl, norm⟩ := legalIff_readings (a := a) h
  rw [plainLevels, readings, leaves_leaves]
  exact legalIff_levels (r := ⟨a.facsimile ns, a.diplomatic ns, a.normalized ns⟩)
    (isName_groupTag kind) safe_nil facs facs dipl norm referable_resolved referable_resolved
    safe_nil

/-- A word on three levels is legal if its facsimile is: the other levels look in more
tables, ranges only add tags, and a headword is escaped. -/
theorem legalIff_wordLevels (h : ∀ n ∈ ns, n.ClosedName) (progress : Progress) :
    LegalIff (∀ n ∈ ns, n.Referable a.reduced) (wordLevels a (ns.map .leaf) progress).1 := by
  obtain ⟨facs, dipl, norm⟩ := legalIff_readings (a := a) h
  have parted : Parted (a.facsimile ns) := .flatMap fun n hn => parted_facsimileOf (h n hn)
  let index := progress.wordIndex
  let attrs := attributes (a.wordAttributes index)
  have ranged := facs.inject parted (CharacterRange.ofWord a index)
  have attributed : Safe attrs := safe_wordAttributes a index
  rw [wordLevels_run, shown_eq, readings, leaves_leaves]
  -- the headword may give the normalized reading
  cases a.storedNormalized index with
  | none =>
    exact legalIff_levels (r := ⟨a.facsimile ns, a.diplomatic ns, a.normalized ns⟩)
      (isName_groupTag .word) attributed facs ranged dipl norm referable_resolved
      referable_resolved (safe_notes a index)
  | some stored =>
    exact legalIff_levels (r := ⟨a.facsimile ns, a.diplomatic ns, escape stored⟩)
      (isName_groupTag .word) attributed facs ranged dipl (safe_escape stored) referable_resolved
      (fun _ => trivial) (safe_notes a index)

/-- On one level a word puts a tag around what its nodes write, or writes nothing. -/
theorem legalIff_wordSingle {P : Prop} (hc : LegalIff P content) (progress : Progress) :
    LegalIff P (wordSingle a content progress).1 := by
  by_cases none : content = []
  · subst none
    exact hc
  · have inner : LegalIff P ('>' :: content) := hc.after (safe_silent (t := ['>']) rfl)
    have opened : Safe ("<w" ++ attributes (a.wordAttributes progress.wordIndex)) :=
      (safe_silent (by decide)).before (safe_wordAttributes a _)
    rw [wordSingle_run none]
    exact ((inner.after opened).before (safe_notes a _)).before (safe_silent (by decide))

theorem legalIff_plainSingle {P : Prop} (hc : LegalIff P content) :
    LegalIff P (plainSingle kind content []) := by
  unfold plainSingle
  split
  · next empty => rwa [List.isEmpty_iff.1 empty] at hc
  · exact LegalIff.tagged (isName_groupTag kind) safe_nil hc (safe_silent (t := ">\n") (by decide))

end Words

/-! ## 4. Parts -/

section Parts

variable {p : Part} {ps : List Part} {block : BlockKind} {source : Text}

/-- What a part writes is legal exactly if the part is, in documents and fragments and at the
normalized level alone. -/
structure Legible (s : Settings) (a : Apparatus) (p : Part) : Prop where
  part (progress : Progress) : LegalIff (¬p.Illegal s a .full) (part s a p progress).1
  fragment (progress : Progress) : LegalIff (¬p.Illegal s a .full) (fragment s a p progress).1
  normalized : LegalIff (¬p.Illegal s a .normalized) (normalizedPart a p)

/-- A node outside words; a break in a block is written for itself and refers to nothing. -/
theorem legible_leaf (h : n.ClosedName) : Legible s a (.leaf n) := by
  have direct : View.full.letters s a false = a.registry.resolve := by
    rw [View.letters, Bool.and_false]
    rfl
  have leaf (progress : Progress) :
      LegalIff (¬(Part.leaf n).Illegal s a .full) (leaf s a n progress).1 :=
    (legalIff_leaf h progress).congr (by rw [Part.not_illegal_leaf, direct])
  refine ⟨leaf, fun progress => ?_, ?_⟩
  · rw [fragment]
    split
    · next broken =>
      refine (safe_fragmentBreak n).congr (iff_of_true trivial ?_)
      rw [Part.not_illegal_leaf]
      rintro name rfl
      cases broken
    · exact leaf progress
  · refine LegalIff.congr ?_ Part.not_illegal_leaf.symm
    exact (legalIff_normalizedOf h).after (safe_fragmentBreak n)

theorem legalIff_leaves (h : ∀ n ∈ ns, n.ClosedName) (progress : Progress) :
    LegalIff (∀ n ∈ ns, n.Referable a.registry.resolve)
      (parts s a (ns.map .leaf) progress).1 := by
  rw [parts_eq, List.map_map]
  refine legalIff_inTurn (fun n hn progress => ?_) progress
  show LegalIff _ (part s a (.leaf n) progress).1
  rw [part]
  exact legalIff_leaf (h n hn) progress

/-- At the normalized level alone the dictionary is asked after the registry. -/
theorem legalIff_normalizedGroup (h : ∀ n ∈ ns, n.ClosedName) :
    LegalIff (∀ n ∈ ns, n.Referable a.resolved)
      (normalizedPart a (.group kind (ns.map .leaf))) := by
  have norm := (legalIff_readings (a := a) h).2.2
  show LegalIff _ (if (a.normalized (Part.leaves (ns.map .leaf))).isEmpty then [] else
    Readings.write ⟨[], [], a.normalized (Part.leaves (ns.map .leaf))⟩ (groupTag kind) [] [])
  rw [leaves_leaves]
  split
  · next empty => rwa [List.isEmpty_iff.1 empty] at norm
  · refine (LegalIff.write (r := ⟨[], [], a.normalized ns⟩) (isName_groupTag kind) safe_nil
      safe_nil safe_nil norm safe_nil).congr ?_
    simp only [true_and]

/-- A group of nodes; which table its names are looked up in depends on how many levels
are written. -/
theorem legible_group (h : ∀ n ∈ ns, n.ClosedName) :
    Legible s a (.group kind (ns.map .leaf)) := by
  have decides {view : View} (letters : Text → Option Text) (he : view.letters s a true = letters) :
      (∀ n ∈ ns, n.Referable letters) ↔ ¬(Part.group kind (ns.map .leaf)).Illegal s a view := by
    rw [Part.not_illegal_group, he]
  have normalized : LegalIff (¬(Part.group kind (ns.map .leaf)).Illegal s a .normalized)
      (normalizedPart a (.group kind (ns.map .leaf))) :=
    (legalIff_normalizedGroup h).congr (decides a.resolved rfl)
  cases hm : s.multiLevel with
  | true =>
    have condition := decides a.reduced (by rw [View.letters, hm]; rfl)
    refine ⟨fun progress => .congr ?_ condition, fun progress => .congr ?_ condition, normalized⟩
    · cases kind with
      | word =>
        rw [part, hm]
        exact legalIff_wordLevels h progress
      | punctuation =>
        rw [part, hm]
        exact legalIff_plainLevels h
    · rw [fragment, hm]
      exact legalIff_plainLevels h
  | false =>
    have condition := decides a.registry.resolve (by rw [View.letters, hm]; rfl)
    have inside := legalIff_leaves (s := s) (a := a) h
    refine ⟨fun progress => .congr ?_ condition, fun progress => .congr ?_ condition, normalized⟩
    · cases kind with
      | word =>
        rw [part, hm]
        exact legalIff_wordSingle (inside progress) _
      | punctuation =>
        rw [part, hm]
        exact legalIff_plainSingle (inside progress)
    · rw [fragment, hm]
      exact legalIff_plainSingle (inside progress)

theorem LegalIff.blockElement {P : Prop} (block : BlockKind) (hc : LegalIff P content) :
    LegalIff P (blockElement block content) := by
  cases block with
  | supplied | head => exact hc.wrap (by decide)
  | norm => exact hc

/-- A block, given that what stands in it is legible: the cases are those of
`View.inside?`. -/
theorem legible_block (h : ∀ p ∈ ps, Legible s a p) : Legible s a (.block block ps) := by
  have full : LegalIff (∀ p ∈ ps, ¬p.Illegal s a .full) (fragments s a ps .start).1 := by
    rw [fragments_eq]
    exact legalIff_inTurn (fun p hp => (h p hp).fragment) .start
  have norm : LegalIff (∀ p ∈ ps, ¬p.Illegal s a .normalized) (normalizedParts a ps) := by
    rw [normalizedParts_eq]
    exact .flatMap fun p hp => (h p hp).normalized
  have element {view inner : View} {content : Text}
      (hc : LegalIff (∀ p ∈ ps, ¬p.Illegal s a inner) content) (block : BlockKind)
      (hi : view.inside? s block = some inner) :
      LegalIff (¬(Part.block block ps).Illegal s a view) (blockElement block content) :=
    (LegalIff.blockElement block hc).congr (Part.not_illegal_block hi).symm
  have hidden {view : View} (block : BlockKind) (hi : view.inside? s block = none) :
      LegalIff (¬(Part.block block ps).Illegal s a view) [] :=
    safe_nil.congr (iff_of_true trivial (Part.not_illegal_hidden hi))
  cases block with
  | supplied => exact ⟨fun _ => element full .supplied rfl, fun _ => element full .supplied rfl,
      element norm .supplied rfl⟩
  | head => exact ⟨fun _ => element full .head rfl, fun _ => element full .head rfl,
      hidden .head rfl⟩
  | norm =>
    have only : LegalIff (¬(Part.block .norm ps).Illegal s a .full)
        (if s.multiLevel then normalizedParts a ps else []) := by
      split
      · next hm => exact element norm .norm (by rw [View.inside?, if_pos hm])
      · next hm => exact hidden .norm (by rw [View.inside?, if_neg hm])
    exact ⟨fun _ => only, fun _ => only, element norm .norm rfl⟩

/-- A block that cannot be read becomes a comment, and a comment is legal if it has no two
dashes in a row. -/
theorem legible_unread : Legible s a (.unread block source) := by
  have comment (view : View) {inner : View} (block : BlockKind)
      (hi : view.inside? s block = some inner) :
      LegalIff (¬(Part.unread block source).Illegal s a view)
        (blockElement block (remark "parse error" source)) :=
    (LegalIff.blockElement block (legalIff_remark source)).congr (Part.not_illegal_unread hi).symm
  have hidden {view : View} (block : BlockKind) (hi : view.inside? s block = none) :
      LegalIff (¬(Part.unread block source).Illegal s a view) [] :=
    safe_nil.congr (iff_of_true trivial (Part.not_illegal_unread_hidden hi))
  cases block with
  | supplied =>
    have element := comment .full .supplied rfl
    exact ⟨fun _ => element, fun _ => element, comment .normalized .supplied rfl⟩
  | head =>
    have element := comment .full .head rfl
    exact ⟨fun _ => element, fun _ => element, hidden .head rfl⟩
  | norm =>
    have only : LegalIff (¬(Part.unread .norm source).Illegal s a .full)
        (unreadBlock s .norm source) := by
      cases hm : s.multiLevel with
      | true =>
        rw [unreadBlock, hm]
        exact comment .full .norm (by rw [View.inside?, if_pos hm])
      | false =>
        rw [unreadBlock, hm]
        exact hidden .norm (by rw [View.inside?, hm]; rfl)
    exact ⟨fun _ => only, fun _ => only, comment .normalized .norm rfl⟩

/-- No name that is read holds the sign that would end a reference. -/
theorem closedName_of_admissible (h : n.Admissible) : n.ClosedName := by
  rintro name rfl
  exact not_mem_of_isNameChar h.2

/-- The induction on the blocks in blocks of a text. -/
theorem hereditary_legible (s : Settings) (a : Apparatus) : Part.Hereditary (Legible s a) where
  leaf h _ := legible_leaf (closedName_of_admissible h)
  word _ inside := legible_group fun n hn => closedName_of_admissible (inside n hn).admissible
  punctuation c := @legible_group s a [.text [c]] _ (List.forall_mem_singleton.2 nofun)
  block := legible_block
  unread _ _ := legible_unread

theorem legible_units (hl : Lexer.lex source = .ok ns) :
    ∀ p ∈ Part.ofNodes (units s ns), Legible s a p := by
  unfold units
  split
  · exact (hereditary_legible s a).of_lex hl
  · exact (hereditary_legible s a).of_flat_lex
      (fun n h => legible_leaf (closedName_of_admissible h)) hl

/-- **Markup is legal exactly if no name and no source stands in the way.** For every text that
can be read, all settings and every apparatus: all references in the markup are predefined or to
names, and all comments hold no two dashes in a row, exactly if no part of the text is written
with a named character left as a reference that is not spelled as a name, and none with a source
in a comment that has two dashes in a row itself. -/
theorem legal_iff (hl : Lexer.lex source = .ok ns) :
    ∃ xml, ofText s a source = .ok xml
      ∧ (Legal xml ↔ ∀ p ∈ Part.ofNodes (units s ns), ¬p.Illegal s a .full) := by
  refine ⟨ofNodes s a ns, by rw [ofText, hl]; rfl, ?_⟩
  have body := legalIff_inTurn (fun p hp => (legible_units (s := s) (a := a) hl p hp).part) .start
  rw [ofNodes_eq]
  refine (body.before ?_).legal
  split
  · exact safe_pages.1
  · exact safe_nil

/-- A word with a named character that nothing is known of, and a heading that cannot be read. -/
theorem legal_iff_unread :
    let s : Settings := ⟨true, false, true, false⟩
    let source : Text := [':', 'e', ':', '.', 'h', 'e', 'a', 'd', '{', '-', '<', '}']
    ∃ ns xml, Lexer.lex source = .ok ns ∧ ofText s .empty source = .ok xml ∧ Legal xml := by
  intro s source
  have heading : Lexer.construct ['.', 'h', 'e', 'a', 'd', '{', '-', '<', '}']
      = .ok (some ([.block .head ['-', '<']], [])) := rfl
  have reference : Lexer.construct source
      = .ok (some ([.entity ['e']], ['.', 'h', 'e', 'a', 'd', '{', '-', '<', '}'])) := rfl
  have lexed : Lexer.lex source = .ok [.entity ['e'], .block .head ['-', '<']] := by
    rw [Lexer.lex_construct reference, Lexer.lex_construct heading, Lexer.lex_nil]
    rfl
  have unread : Part.ofNode (.block .head ['-', '<']) = .unread .head ['-', '<'] := by
    have fails : (Lexer.lex ['-', '<']).toOption = none := by decide +kernel
    cases h : Lexer.lex ['-', '<'] with
    | ok ns => rw [h] at fails; cases fails
    | error e => exact Part.ofNode_unread h
  have leaf : Part.ofNodes [.entity ['e']] = [Node.entity ['e']].map .leaf :=
    congrArg (List.cons · []) (Part.ofNode_leaf rfl)
  obtain ⟨xml, compiled, legal⟩ := legal_iff (s := s) (a := .empty) lexed
  refine ⟨_, xml, lexed, compiled, legal.2 ?_⟩
  have written : Part.ofNodes (units s [.entity ['e'], .block .head ['-', '<']])
      = [.group .word ([Node.entity ['e']].map .leaf), .unread .head ['-', '<']] := by
    show Part.ofNodes [.group .word [.entity ['e']], .block .head ['-', '<']] = _
    rw [Part.ofNodes, List.map_cons, List.map_cons, Part.ofNode_group, leaf, unread]
    rfl
  rw [written]
  refine List.forall_mem_cons.2 ⟨?_, List.forall_mem_singleton.2 ?_⟩
  · rw [Part.not_illegal_group, List.forall_mem_singleton]
    rintro name he -
    cases he
    decide
  · exact (Part.not_illegal_unread rfl).2 (by decide)

/-- A name that begins with a digit, and dashes in a heading that cannot be read. -/
theorem not_legal_digit :
    (ofText .plain .empty [':', '5', ':'] = .ok "&5;" ∧ ¬Legal "&5;")
    ∧ ofText .plain .empty ['.', 'h', 'e', 'a', 'd', '{', 'a', '-', '-', '<', '}']
        = .ok "<head><!-- parse error: a--&lt; --></head>"
      ∧ ¬Legal "<head><!-- parse error: a--&lt; --></head>" := by
  have compiles {source xml : Text} (h : (ofText .plain .empty source).toOption = some xml) :
      ofText .plain .empty source = .ok xml := by
    cases ht : ofText .plain .empty source with
    | error e => rw [ht] at h; cases h
    | ok other => rw [ht] at h; exact congrArg _ (Option.some.inj h)
  exact ⟨⟨compiles (by decide +kernel), by decide +kernel⟩, compiles (by decide +kernel),
    by decide +kernel⟩

end Parts

end Edition

end Transcription
