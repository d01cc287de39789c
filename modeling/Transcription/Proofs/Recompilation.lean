/-
Transcription.Proofs.Recompilation — what stands in the place of a segment whose
text has changed.

The text of a change is the written form of a group of the edited text
(`mem_grouped_of_newText`), and how it is read again tells what is compiled. A word
that becomes a word keeps the attributes of its element, a heading and a
punctuation mark are compiled as pieces of their own. Where kinds differ, the
element of the segment stays: around the text as it is for a punctuation mark, and
around a comment for a word that becomes a mark or a break. A break stays as it was.

**`reconstruct_modify`** says this for every change that is computed.
-/
import Transcription.Proofs.LocalEdits
import Transcription.Proofs.WrittenGroup
import Transcription.Proofs.Placement

namespace Transcription

/-- Markup with attributes written into its first tag. -/
def Markup.withAttributes (attrs : Text) : Text → Text
  | '<' :: t => '<' :: (t.takeWhile (· ≠ '>') ++ attrs ++ t.dropWhile (· ≠ '>'))
  | t => t

namespace Node

/-- A text is read as one group. -/
def ReadsAs (t : Text) (g : Node) : Prop :=
  ∃ ns, Lexer.lex t = .ok ns ∧ grouped ns = [g]

end Node

namespace Edition

/-! ## 1. One group on its own -/

open Node Lexer

variable {s : Settings} {a : Apparatus} {t attrs : Text} {g : Node} {children : List Node}
  {kind : GroupKind}

theorem ofText?_of_readsAs (h : ReadsAs t g) : Part.ofText? t = some [Part.ofNode g] := by
  obtain ⟨ns, hl, hg⟩ := h
  simp only [Part.ofText?, hl, hg, Part.ofNodes, List.map_cons, List.map_nil]

/-- One group as a piece of its own. -/
theorem ofFragment_group (h : ReadsAs t (.group kind children)) :
    ofFragment s a t = loneGroup s a kind (Part.ofNodes children) [] := by
  rw [ofFragment, ofText?_of_readsAs h, Part.ofNode_group]
  show (fragments s a [.group kind (Part.ofNodes children)] .start).1 = _
  cases hm : s.multiLevel with
  | true =>
    simp only [fragments, fragment, loneGroup, hm, if_true]
    exact List.append_nil _
  | false =>
    simp only [fragments, fragment, loneGroup, hm, Bool.false_eq_true, if_false]
    exact List.append_nil _

theorem withAttributes_tag {tag rest : Text} (h : '>' ∉ tag) :
    Markup.withAttributes attrs ('<' :: (tag ++ '>' :: rest))
      = '<' :: (tag ++ attrs ++ '>' :: rest) := by
  have passes := passes_of_not_mem h
  rw [Markup.withAttributes, List.takeWhile_append_of_pos passes,
    List.dropWhile_append_of_pos passes]
  simp

/-- What readings are written as after their first tag. -/
theorem exists_write (r : Readings) (tag notes : Text) :
    ∃ rest, ∀ attrs, r.write tag attrs notes = '<' :: (tag ++ attrs ++ '>' :: rest) := by
  refine ⟨"\n  <choice>\n    <me:facs>" ++ r.facsimile
    ++ "</me:facs>\n    <me:dipl>" ++ r.diplomatic
    ++ "</me:dipl>\n    <me:norm>" ++ r.normalized
    ++ "</me:norm>\n  </choice>" ++ notes ++ "\n</" ++ tag ++ ">\n", fun attrs => ?_⟩
  have first : (">\n  <choice>\n    <me:facs>" : Text)
      = '>' :: ("\n  <choice>\n    <me:facs>" : Text) := rfl
  rw [Readings.write, first]
  simp only [List.append_assoc, List.cons_append]

/-- Attributes stand in the first tag of a group, if anything is written. -/
theorem loneGroup_attributes (s : Settings) (a : Apparatus) (kind : GroupKind) (ps : List Part)
    (attrs : Text) :
    loneGroup s a kind ps attrs = Markup.withAttributes attrs (loneGroup s a kind ps []) := by
  have tag : '>' ∉ groupTag kind := by cases kind <;> decide
  unfold loneGroup
  split
  · unfold plainLevels
    dsimp only
    split
    · rfl
    · obtain ⟨rest, hr⟩ := exists_write (readings a ps) (groupTag kind) []
      rw [hr, hr, List.append_nil, withAttributes_tag tag]
  · unfold plainSingle
    split
    · rfl
    · have shape (content attrs : Text) : '<' :: groupTag kind ++ attrs ++ '>' :: content
            ++ "</" ++ groupTag kind ++ ">\n"
          = '<' :: (groupTag kind ++ attrs
            ++ '>' :: (content ++ "</" ++ groupTag kind ++ ">\n")) := by
        simp only [List.append_assoc, List.cons_append]
      rw [shape, shape, List.append_nil, withAttributes_tag tag]

end Edition

namespace Patch

open Node Lexer Edition

/-! ## 2. What takes the place of a segment -/

/-- What stands in the place of a segment whose text becomes the group `g`, written
as `dsl`. What a block with no heading makes of a word is left open. -/
def Replaced (s : Settings) (a : Apparatus) (dsl : Text) (g : Node) (out : Text) : Segment → Prop
  | .word _ _ _ attrs _ =>
      match g with
      | .group .word _ => (∃ ks, ReadsAs dsl (.group .word ks)) →
          out = Markup.withAttributes (Markup.attributes attrs.sorted) (ofFragment s a dsl)
      | .block .head _ => out = ofFragment s a dsl
      | .block _ _ => True
      | _ => out = "<w>" ++ Markup.remark "no word content" dsl ++ "</w>\n"
  | .punctuation _ _ _ =>
      match g with
      | .group .word _ => (∃ ks, ReadsAs dsl (.group .word ks)) →
          out = Markup.element "pc" dsl ++ "\n"
      | .group .punctuation _ => out = ofFragment s a dsl
      | _ => out = Markup.element "pc" dsl ++ "\n"
  | segment => out = segment.serialize

/-! ## 3. Headings -/

section Headings

variable {g : Node} {t : Text} {children : List Node}

theorem trimStart_of_head? {c : Char} (hc : isBlank c = false) (h : t.head? = some c) :
    t.trimStart = t := by
  obtain ⟨u, rfl⟩ := List.head?_eq_some_iff.1 h
  exact List.dropWhile_cons_of_neg (by simp [hc])

/-- Text that begins otherwise is no heading. -/
theorem isHeading_of_head? {c : Char} (hc : c ≠ '.') (hb : isBlank c = false)
    (h : t.head? = some c) : isHeading t = false := by
  obtain ⟨u, rfl⟩ := List.head?_eq_some_iff.1 h
  rw [isHeading, trimStart_of_head? hb rfl]
  have other : Text.after? BlockKind.head.opening (c :: u) = none := by
    show (if '.' = c then _ else none) = none
    rw [if_neg (Ne.symm hc)]
  rw [Text.startsWith, other]
  rfl

/-- Whether a group is a heading. -/
def isHead : Node → Bool
  | .block .head _ => true
  | _ => false

/-- A word is not written as a heading. -/
theorem isHeading_writeChildren (hw : ∀ n ∈ children, InWord n) (hne : children ≠ []) :
    isHeading (writeChildren children) = false := by
  cases children with
  | nil => exact absurd rfl hne
  | cons n children =>
    have first : (writeChildren (n :: children)).head? = n.firstChar := head?_writeChildren hw
    have hn := hw n List.mem_cons_self
    have signs : ∀ c ∈ ['[', '<', '-', '+', '^', '?', ':', '~'], c ≠ '.' ∧ isBlank c = false :=
      Text.forall_of_check (by decide)
    have sign {c : Char} (hc : c ∈ ['[', '<', '-', '+', '^', '?', ':', '~'])
        (hf : n.firstChar = some c) : isHeading (writeChildren (n :: children)) = false :=
      isHeading_of_head? (signs c hc).1 (signs c hc).2 (first.trans hf)
    cases n with
    | text content =>
      obtain ⟨c, content, rfl⟩ := List.exists_cons_of_ne_nil hn.admissible
      obtain ⟨blank, mark⟩ := hn.solid _ rfl c List.mem_cons_self
      refine isHeading_of_head? ?_ blank first
      rintro rfl
      exact mark (by decide)
    | abbreviation abbr expansion =>
      show isHeading ((Node.abbreviation abbr expansion).writeIn true ++ _) = false
      rw [writeIn_abbreviation, isHeading, trimStart_of_head? (by decide) rfl]
      rfl
    | gap quantity reading => exact @sign '[' (by decide) rfl
    | marked mark content => cases mark <;> exact sign (by decide) rfl
    | entity name => exact @sign ':' (by decide) rfl
    | compoundJoin => exact @sign '~' (by decide) rfl
    | lineBreak label => exact sign (by decide) (firstChar_of_isBreak rfl)
    | pageBreak label => exact sign (by decide) (firstChar_of_isBreak rfl)
    | continuation | boundary | block _ _ | group _ _ => rcases hn.inside with hi | hi <;> cases hi

/-- No group but a heading is written as one. -/
theorem isHeading_write (hg : Grouped g) : isHeading g.write = isHead g := by
  cases g with
  | group kind children =>
    cases kind with
    | word => exact isHeading_writeChildren hg.2.1 hg.1
    | punctuation =>
      obtain ⟨c, hc, rfl⟩ := hg
      have marks : ∀ c ∈ punctuationMarks, isHeading [c] = false :=
        Text.forall_of_check (by decide)
      exact marks c hc
  | block kind body =>
    have shape := writeIn_block false [] kind body
    rw [List.append_nil] at shape
    rw [write, shape, isHeading]
    cases kind <;> (rw [trimStart_of_head? (by decide) rfl]; rfl)
  | lineBreak label =>
    exact isHeading_of_head? (by decide) (by decide) (head?_write_break .line label)
  | pageBreak label =>
    exact isHeading_of_head? (by decide) (by decide) (head?_write_break .page (some label))
  | _ => cases hg.1

end Headings

/-! ## 4. Changes -/

section Changes

variable {s : Settings} {a : Apparatus} {g : Node} {dsl edited : Text} {ns : List Node}
  {ss : List Segment} {segment : Segment} {ops : List Patch} {op : Patch} {t : Token}

/-- What is no word is read back. -/
theorem readsAs_write (hg : Grouped g) (hw : ∀ children, g ≠ .group .word children) :
    ReadsAs g.write g := by
  refine lex_write_of_grouped hg ⟨fun n hn hb => ?_, fun before n content after he hb => ?_⟩
  · cases g with
    | group kind children =>
      cases kind with
      | word => exact absurd rfl (hw children)
      | punctuation =>
        obtain ⟨c, -, rfl⟩ := hg
        rw [List.mem_singleton.1 hn] at hb
        cases hb
    | _ => cases hn
  · cases g with
    | group kind children =>
      cases kind with
      | word => exact absurd rfl (hw children)
      | punctuation =>
        obtain ⟨c, -, rfl⟩ := hg
        have := congrArg List.length he
        simp [Node.children] at this
        omega
    | _ => simp [Node.children] at he

/-- Text that is read as a group of another kind holds no group of a kind. -/
theorem firstGroup?_ofNode (hg : Grouped g) (kind : GroupKind)
    (ho : ∀ children, g ≠ .group kind children) : firstGroup? kind [Part.ofNode g] = none := by
  cases g with
  | group other children =>
    have differs : other ≠ kind := by
      rintro rfl
      exact ho children rfl
    rw [Part.ofNode_group]
    simp [firstGroup?, differs]
  | block other body =>
    cases hl : lex body with
    | ok ns => rw [Part.ofNode_block hl]; rfl
    | error e => rw [Part.ofNode_unread hl]; rfl
  | lineBreak label => rw [Part.ofNode_leaf rfl]; rfl
  | pageBreak label => rw [Part.ofNode_leaf rfl]; rfl
  | _ => cases hg.1

theorem ofWord_word {ks : List Node} (h : ReadsAs dsl (.group .word ks)) (attrs : Table Text) :
    ofWord s a dsl attrs
      = Markup.withAttributes (Markup.attributes attrs.sorted) (ofFragment s a dsl) := by
  rw [ofFragment_group h, ← loneGroup_attributes, ofWord, ofText?_of_readsAs h, Part.ofNode_group]
  rfl

theorem ofWord_other (h : ReadsAs dsl g) (hf : firstGroup? .word [Part.ofNode g] = none)
    (attrs : Table Text) :
    ofWord s a dsl attrs = "<w>" ++ Markup.remark "no word content" dsl ++ "</w>\n" := by
  rw [ofWord, ofText?_of_readsAs h]
  simp only [hf]

theorem ofPunctuation_mark {ks : List Node} (h : ReadsAs dsl (.group .punctuation ks)) :
    ofPunctuation s a dsl = ofFragment s a dsl := by
  rw [ofFragment_group h, ofPunctuation, ofText?_of_readsAs h, Part.ofNode_group]
  rfl

theorem ofPunctuation_other (h : ReadsAs dsl g)
    (hf : firstGroup? .punctuation [Part.ofNode g] = none) :
    ofPunctuation s a dsl = Markup.element "pc" dsl ++ "\n" := by
  rw [ofPunctuation, ofText?_of_readsAs h]
  simp only [hf]

/-- A group that is read back takes the place of a segment. -/
theorem replaced_recompile (hg : Grouped g) (segment : Segment) :
    Replaced s a g.write g (recompile s a g.write segment) segment := by
  cases segment with
  | structural _ _ | milestone _ _ _ | whitespace _ _ => rfl
  | word id xml dsl attrs breaks =>
    rw [recompile, isHeading_write hg]
    have other (hw : ∀ children, g ≠ .group .word children) : ofWord s a g.write attrs
        = "<w>" ++ Markup.remark "no word content" g.write ++ "</w>\n" :=
      ofWord_other (readsAs_write hg hw) (firstGroup?_ofNode hg .word hw) attrs
    cases g with
    | group kind children =>
      cases kind with
      | word => exact fun ⟨ks, hk⟩ => ofWord_word hk attrs
      | punctuation => exact other nofun
    | block kind body =>
      cases kind with
      | head => rfl
      | supplied | norm => trivial
    | lineBreak label => exact other nofun
    | pageBreak label => exact other nofun
    | _ => cases hg.1
  | punctuation id xml dsl =>
    rw [recompile]
    have other (hw : ∀ children, g ≠ .group .word children)
        (hp : ∀ children, g ≠ .group .punctuation children) :
        ofPunctuation s a g.write = Markup.element "pc" g.write ++ "\n" :=
      ofPunctuation_other (readsAs_write hg hw) (firstGroup?_ofNode hg .punctuation hp)
    cases g with
    | group kind children =>
      cases kind with
      | word =>
        rintro ⟨ks, hk⟩
        refine ofPunctuation_other hk ?_
        rw [Part.ofNode_group]
        rfl
      | punctuation => exact ofPunctuation_mark (readsAs_write hg nofun)
    | block kind body => exact other nofun nofun
    | lineBreak label => exact other nofun nofun
    | pageBreak label => exact other nofun nofun
    | _ => cases hg.1

/-- Among operations on different segments, an operation is the one on its
segment. -/
theorem onSegment?_of_mem (hn : (targets ops).Nodup) (ho : op ∈ ops)
    (hs : op.target? = some segment.id) : onSegment? ops segment = some op := by
  induction ops with
  | nil => cases ho
  | cons first ops ih =>
    rcases List.mem_cons.1 ho with rfl | hm
    · exact List.find?_cons_of_pos (by simpa using hs)
    · have listed : segment.id ∈ targets ops := List.mem_filterMap.2 ⟨op, hm, hs⟩
      cases hf : first.target? with
      | none =>
        have skip : targets (first :: ops) = targets ops := by simp [targets, hf]
        rw [skip] at hn
        rw [onSegment?, List.find?_cons_of_neg (by simp [hf])]
        exact ih hn hm
      | some id =>
        rw [targets_cons hf] at hn
        obtain ⟨hid, hn⟩ := List.nodup_cons.1 hn
        have other : first.target? ≠ some segment.id := by
          rw [hf]
          rintro he
          exact hid (Option.some.inj he ▸ listed)
        rw [onSegment?, List.find?_cons_of_neg (by simpa using other)]
        exact ih hn hm

/-- One segment with one group of other text is changed. -/
theorem compute_single (ht : Token.ofSegments [segment] = [t]) (hr : ReadsAs edited g)
    (hc : t.content ≠ g.write) (hd : Text.trim (Segment.toText [segment]) ≠ Text.trim edited)
    (limit : Int) : compute [segment] edited limit = [.modify t.id g.write] := by
  obtain ⟨ns, hl, hg⟩ := hr
  have tokens : Token.contents edited = [g.write] := by
    rw [Token.contents, hl]
    simp [hg]
  simp only [compute, if_neg hd, ht, tokens]
  exact @diff_change t g.write [] [] hc limit

theorem reconstruct_single (hc : segment.isContent = true) :
    reconstruct s a [segment] [.modify segment.id dsl] = recompile s a dsl segment := by
  simp [reconstruct, hc, insertions, target?, apply, allInsertions]

/-- **Every change is in its place.** It is the written form of a group of the edited
text, and the group tells, with the kind of the segment, what stands there. -/
theorem reconstruct_modify (s : Settings) (a : Apparatus) (limit : Int)
    (distinct : (ss.map Segment.id).Nodup) (hl : lex edited = .ok ns) :
    let ops := compute ss edited limit
    reconstruct s a ss ops
        = placed (fun anchor => fragments s a (insertedAt ops anchor)) (outcome s a ops) none ss
      ∧ ∀ id dsl, .modify id dsl ∈ ops → ∃ segment ∈ ss, segment.id = id
        ∧ ∃ g ∈ grouped ns, dsl = g.write ∧ (Readable g.children → ReadsAs dsl g)
          ∧ Replaced s a dsl g (outcome s a ops segment) segment := by
  intro ops
  have ht : targets ops = (Token.ofSegments ss).map Token.id := targets_compute ss edited limit
  refine ⟨?_, fun id dsl ho => ?_⟩
  · have fresh : (none :: (ss.map Segment.id).map some).Nodup :=
      List.nodup_cons.2 ⟨by simp, distinct.map fun _ _ => Option.some.inj⟩
    rw [List.map_map] at fresh
    exact reconstruct_placed s a ht fresh
  · have listed : id ∈ targets ops := List.mem_filterMap.2 ⟨_, ho, rfl⟩
    obtain ⟨segment, hs, rfl⟩ := List.mem_map.1 (mem_ids_of_token (ht ▸ listed))
    obtain ⟨g, hg, rfl⟩ := mem_grouped_of_newText hl ho rfl
    have closed := grouped_of_lex hl g hg
    have once : (targets ops).Nodup := by
      rw [ht]
      exact distinct.sublist ((tokens_sublist ss).trans (List.filter_sublist.map _))
    refine ⟨segment, hs, rfl, g, hg, rfl, lex_write_of_grouped closed, ?_⟩
    rw [outcome, onSegment?_of_mem once ho rfl]
    exact replaced_recompile closed segment

/-- A word in the place of a word keeps the attributes of its element. -/
theorem reconstruct_modify_word :
    let word : Segment := .word 7 "<w lemma=\"x\">a</w>" "a" [("lemma", "x")] false
    let ops := compute [word] "b" 1000
    Patch.modify 7 "b" ∈ ops ∧ ∃ g ∈ grouped [.text ['b']], "b" = g.write
      ∧ Replaced .plain .empty "b" g (outcome .plain .empty ops word) word := by
  intro word ops
  have distinct : ([word].map Segment.id).Nodup := by decide
  have lexed : lex "b" = .ok [.text ['b']] := by
    have plain : construct ['b'] = .ok none := rfl
    show lex ['b'] = _
    rw [lex_char plain, lex_nil]
    rfl
  have reads : ReadsAs "b" (.group .word [.text ['b']]) := ⟨_, lexed, rfl⟩
  have changed : ops = [.modify 7 "b"] :=
    @compute_single _ _ word ⟨"a", 7⟩ rfl reads (by decide) (by decide) 1000
  have mem : Patch.modify 7 "b" ∈ ops := changed ▸ List.mem_singleton.2 rfl
  obtain ⟨-, compiled⟩ := reconstruct_modify .plain .empty 1000 distinct lexed
  obtain ⟨segment, hs, -, g, hg, text, -, out⟩ := compiled 7 "b" mem
  rw [List.mem_singleton.1 hs] at out
  exact ⟨mem, g, hg, text, out⟩

/-- A segment whose change does not stand for its new text: it becomes `out`, which is
not the markup of that text, whatever attributes this has. -/
def Unlike (segment : Segment) (edited dsl out : Text) : Prop :=
  (∃ ns, lex edited = .ok ns) ∧ compute [segment] edited 1000 = [.modify segment.id dsl]
    ∧ reconstruct .plain .empty [segment] [.modify segment.id dsl] = out
    ∧ ∀ attrs, out ≠ Markup.withAttributes attrs (ofFragment .plain .empty dsl)

theorem unlike_single {out fragment : Text} (ht : Token.ofSegments [segment] = [t])
    (hid : t.id = segment.id) (hr : ReadsAs edited g) (hc : t.content ≠ g.write)
    (hd : Text.trim (Segment.toText [segment]) ≠ Text.trim edited)
    (ho : recompile .plain .empty g.write segment = out)
    (hf : ofFragment .plain .empty g.write = fragment)
    (hne : ∀ attrs, out ≠ Markup.withAttributes attrs fragment) :
    Unlike segment edited g.write out := by
  have content : segment.isContent = true := by
    have listed : t ∈ Token.ofSegments [segment] := ht ▸ List.mem_singleton.2 rfl
    obtain ⟨other, hm, found⟩ := List.mem_filterMap.1 listed
    rw [List.mem_singleton.1 hm] at found
    exact (id_of_ofSegment? found).2
  refine ⟨hr.imp fun _ h => h.1, hid ▸ compute_single ht hr hc hd 1000, ?_, hf ▸ hne⟩
  rw [reconstruct_single content, ho]

/-- A line break that stays, a word that becomes a comment, a mark that holds a word,
and a word of which the rest is dropped behind a label that ends early. -/
theorem changes_not_compiled :
    Unlike (.milestone .line 0 [("n", "1")]) "//2" "//2" "<lb n=\"1\"/>"
      ∧ Unlike (.word 0 "<w>a</w>" "a" [] false) "." "." "<w><!-- no word content: . --></w>\n"
      ∧ Unlike (.punctuation 0 "<pc>.</pc>" ".") "a" "a" "<pc>a</pc>\n"
      ∧ Unlike (.word 0 "<w>c</w>" "c" [] false) ['a', '/', '/', '/', '}', '.', 'b']
        ['a', '~', '/', '/', '/', '{', '}', '.', 'b', '}'] "<w>a<pb n=\"\"/>\n</w>\n" := by
  have plain (c : Char) (hc : construct [c] = .ok none) : lex [c] = .ok [.text [c]] := by
    rw [lex_char hc, lex_nil]
    rfl
  have leaf (t : Text) : Part.ofNode (.text t) = .leaf (.text t) := Part.ofNode_leaf rfl
  have page (l : Text) : Part.ofNode (.pageBreak l) = .leaf (.pageBreak l) :=
    Part.ofNode_leaf rfl
  refine ⟨?_, ?_, ?_, ?_⟩
  · have reads : ReadsAs "//2" (.lineBreak (some "2")) :=
      @readsAs_write (.lineBreak (some "2")) ⟨rfl, fun t ht => by cases ht; decide⟩ nofun
    have fragment : ofFragment .plain .empty "//2" = "<lb n=\"2\"/>\n" := by
      rw [ofFragment, ofText?_of_readsAs reads, Part.ofNode_leaf rfl]
      rfl
    have stays : recompile .plain .empty "//2" (.milestone .line 0 [("n", "1")])
        = "<lb n=\"1\"/>" := by
      simp only [recompile, Segment.serialize, Markup.emptyTag, Table.sorted,
        List.mergeSort_singleton]
      rfl
    refine @unlike_single _ _ _ ⟨"//1", 0⟩ _ _ rfl rfl reads (by decide) (by decide) stays
      fragment ?_
    intro attrs he
    cases he
  · have reads : ReadsAs "." (.group .punctuation [.text "."]) :=
      @readsAs_write (.group .punctuation [.text "."]) ⟨'.', by decide, rfl⟩ nofun
    have fragment : ofFragment .plain .empty "." = "<pc>.</pc>\n" := by
      rw [ofFragment_group reads, Part.ofNodes, List.map_singleton, leaf]
      rfl
    have comment : recompile .plain .empty "." (.word 0 "<w>a</w>" "a" [] false)
        = "<w><!-- no word content: . --></w>\n" := by
      show ofWord .plain .empty "." [] = _
      rw [ofWord_other reads (by rw [Part.ofNode_group]; rfl)]
      rfl
    refine @unlike_single _ _ _ ⟨"a", 0⟩ _ _ rfl rfl reads (by decide) (by decide) comment
      fragment ?_
    intro attrs he
    cases he
  · have reads : ReadsAs "a" (.group .word [.text "a"]) := ⟨_, plain 'a' rfl, rfl⟩
    have fragment : ofFragment .plain .empty "a" = "<w>a</w>\n" := by
      rw [ofFragment_group reads, Part.ofNodes, List.map_singleton, leaf]
      rfl
    have mark : recompile .plain .empty "a" (.punctuation 0 "<pc>.</pc>" ".") = "<pc>a</pc>\n" := by
      show ofPunctuation .plain .empty "a" = _
      rw [ofPunctuation_other reads (by rw [Part.ofNode_group]; rfl)]
      rfl
    refine @unlike_single _ _ _ ⟨".", 0⟩ _ _ rfl rfl reads (by decide) (by decide) mark fragment ?_
    intro attrs he
    cases he
  · have broken : construct ['/', '/', '/', '}', '.', 'b']
        = .ok (some ([.pageBreak ['}', '.', 'b']], [])) := rfl
    have edited : ReadsAs ['a', '/', '/', '/', '}', '.', 'b']
        (.group .word [.text ['a'], .pageBreak ['}', '.', 'b']]) := by
      have start : construct ['a', '/', '/', '/', '}', '.', 'b'] = .ok none := rfl
      refine ⟨_, by rw [lex_char start, lex_construct broken, lex_nil]; rfl, rfl⟩
    have text : Part.ofText? ['a', '~', '/', '/', '/', '{', '}', '.', 'b', '}']
        = some [.group .word [.leaf (.text ['a']), .leaf (.pageBreak [])],
          .group .punctuation [.leaf (.text ['.'])], .group .word [.leaf (.text ['b', '}'])]] := by
      have start : construct ['a', '~', '/', '/', '/', '{', '}', '.', 'b', '}'] = .ok none := rfl
      have early : construct ['~', '/', '/', '/', '{', '}', '.', 'b', '}']
          = .ok (some ([.continuation, .pageBreak []], ['.', 'b', '}'])) := rfl
      have point : construct ['.', 'b', '}'] = .ok none := rfl
      have letter : construct ['b', '}'] = .ok none := rfl
      have read : lex ['a', '~', '/', '/', '/', '{', '}', '.', 'b', '}']
          = .ok [.text ['a'], .continuation, .pageBreak [], .text ['.', 'b', '}']] := by
        rw [lex_char start, lex_construct early, lex_char point, lex_char letter, plain '}' rfl]
        rfl
      have groups : grouped [.text ['a'], .continuation, .pageBreak [], .text ['.', 'b', '}']]
          = [.group .word [.text ['a'], .pageBreak []], .group .punctuation [.text ['.']],
            .group .word [.text ['b', '}']]] := rfl
      rw [Part.ofText?, read]
      simp only [groups, Part.ofNodes, List.map_cons, List.map_nil, Part.ofNode_group, leaf, page]
    have fragment : ofFragment .plain .empty ['a', '~', '/', '/', '/', '{', '}', '.', 'b', '}']
        = "<w>a<pb n=\"\"/>\n</w>\n<pc>.</pc>\n<w>b\x7d</w>\n" := by
      rw [ofFragment, text]
      rfl
    have first : recompile .plain .empty ['a', '~', '/', '/', '/', '{', '}', '.', 'b', '}']
        (.word 0 "<w>c</w>" "c" [] false) = "<w>a<pb n=\"\"/>\n</w>\n" := by
      show ofWord .plain .empty _ [] = _
      have sorted : Table.sorted ([] : Table Text) = [] := List.mergeSort_nil
      rw [ofWord, text, sorted]
      rfl
    refine @unlike_single _ _ _ ⟨"c", 0⟩ _ _ rfl rfl edited (by decide) (by decide) first
      fragment ?_
    intro attrs he
    have := congrArg List.length he
    simp [Markup.withAttributes] at this

end Changes

end Patch

end Transcription
