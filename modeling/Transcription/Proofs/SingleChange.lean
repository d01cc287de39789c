/-
Transcription.Proofs.SingleChange — one changed word changes one segment.

Where the tokens of edited text are those of the segments but for one, the alignment
keeps what stands before it and what stands after it, and is left with one token on
either side (`diff_change`); with these operations every other segment comes out as it
stands (`reconstruct_change`). Whether the tokens are those of the segments is a question
to the projection: a run of plain text is one segment, but where it holds a punctuation
mark it is read as a word and a mark.

**`one_word_changed`**: of an imported document with other letters in the place of a word,
the operations are the single change if and only if the text is read as the tokens of its
segments, which it is where each segment reads back as itself and words are separated.

A document where it is not: the mark after the last word is part of its segment
(`change_before_mark`).
-/
import Mathlib.Data.List.DropRight
import Transcription.Proofs.LocalEdits
import Transcription.Proofs.Projection
import Transcription.Proofs.Recompilation
import Transcription.Proofs.Unedited

namespace Transcription

open Lexer Node

/-! ## 1. Words of letters -/

theorem not_isBlank_of_isLetter {c : Char} (hc : isLetter c = true) : isBlank c = false := by
  by_contra hb
  have name := not_isNameChar_of_isBlank (by simpa using hb)
  simp [isNameChar, hc] at name

theorem not_mem_marks_of_isLetter {c : Char} (hc : isLetter c = true) : c ∉ punctuationMarks := by
  have no_mark : ∀ d ∈ punctuationMarks, isLetter d = false := Text.forall_of_check (by decide)
  exact fun hm => by simpa [hc] using no_mark c hm

section Letters

variable {r : Text} (hr : ∀ c ∈ r, isLetter c = true)
include hr

theorem lex_letters : lex r = .ok (Pending.textNode r) := by
  induction r with
  | nil => exact lex_nil
  | cons c r ih =>
    obtain ⟨hc, hr⟩ := List.forall_mem_cons.1 hr
    have no_sign : ∀ d ∈ openingSigns, isLetter d = false := Text.forall_of_check (by decide)
    have plain : c ∉ openingSigns := fun hm => by simpa [hc] using no_sign c hm
    rw [lex_char (construct_of_noSign plain r), ih hr]
    cases r <;> rfl

theorem solid_letters : Solid r :=
  fun c hc => ⟨not_isBlank_of_isLetter (hr c hc), not_mem_marks_of_isLetter (hr c hc)⟩

/-- Letters are one word, which is written as they are. -/
theorem grouped_letters (hne : r ≠ []) :
    grouped (Pending.textNode r) = [.group .word [.text r]] := by
  have node : Pending.textNode r = [.text r] := by simp [Pending.textNode, hne]
  obtain ⟨w, cut⟩ := cutText_solid (solid_letters hr) [] [] false
  rw [List.nil_append, List.nil_append, node] at cut
  rw [node]
  show (cutText punctuationMarks r [] [] false).1
    ++ Pending.closeWord (cutText punctuationMarks r [] [] false).2.1 = _
  rw [cut]
  rfl

theorem readsBack_letters (hne : r ≠ []) (id : Int) (xml : Text) (attrs : Table Text)
    (breaksLine : Bool) : (Segment.word id xml r attrs breaksLine).ReadsBack :=
  ⟨Pending.textNode r, .group .word [.text r], lex_letters hr, grouped_letters hr hne, rfl,
    List.append_nil r⟩

end Letters

/-! ## 2. One changed token -/

namespace Patch

section Diff

variable {x : Token} {y : Text} {before after : List Token}

theorem script_change (x : Token) (y : Text) :
    Script (before ++ x :: after) (keeps before ++ .modify x.id y :: keeps after)
      (before.map Token.content ++ y :: after.map Token.content) :=
  (script_keeps before).append (.modify x y (script_keeps after))

/-- The operations change one token and keep all others if and only if the edited text
is read as the tokens with that one changed, and is not the text as it was. -/
theorem compute_change_iff {ss : List Segment} (ht : Token.ofSegments ss = before ++ x :: after)
    (h : x.content ≠ y) (edited : Text) (limit : Int) :
    compute ss edited limit = keeps before ++ .modify x.id y :: keeps after
      ↔ Text.trim (Segment.toText ss) ≠ Text.trim edited
        ∧ Token.contents edited = before.map Token.content ++ y :: after.map Token.content := by
  simp only [compute, ht]
  split
  · next same =>
    refine ⟨fun he => ?_, fun hd => absurd same hd.1⟩
    simp only [keeps, List.map_append, List.map_cons] at he
    cases (List.cons.inj (List.append_cancel_left he)).1
  · next other =>
    constructor
    · intro he
      have script := script_diff (before ++ x :: after) (Token.contents edited) limit
      rw [he] at script
      exact ⟨other, script.replay_eq.symm.trans (script_change x y).replay_eq⟩
    · rintro ⟨-, contents⟩
      rw [contents, diff_change h]

end Diff

/-! ## 3. Every other segment stays -/

section Frame

variable (s : Settings) (a : Apparatus) {word : Segment} {done after : List Segment} {t : Token}

theorem token_target (ht : Token.ofSegment? word = some t) (y : Text) :
    (Patch.modify t.id y).target? = some word.id :=
  congrArg some (id_of_ofSegment? ht).1

/-- With one segment changed and all others kept, all others come out as they stand. -/
theorem reconstruct_change (distinct : ((done ++ word :: after).map Segment.id).Nodup)
    (ht : Token.ofSegment? word = some t) (y : Text) :
    reconstruct s a (done ++ word :: after)
        (keeps (Token.ofSegments done) ++ .modify t.id y :: keeps (Token.ofSegments after))
      = done.flatMap Segment.serialize ++ recompile s a y word
        ++ after.flatMap Segment.serialize := by
  rw [List.map_append, List.map_cons] at distinct
  obtain ⟨before, wordLater, apart⟩ := List.nodup_append.1 distinct
  obtain ⟨hw, later⟩ := List.nodup_cons.1 wordLater
  have target := token_target ht y
  have addressed : targets (.modify t.id y :: keeps (Token.ofSegments after))
      = word.id :: (Token.ofSegments after).map Token.id := by
    rw [targets_cons target, targets_keeps]
  have skipped : ∀ segment ∈ done,
      segment.id ∉ targets (.modify t.id y :: keeps (Token.ofSegments after)) := by
    intro segment hs hm
    rw [addressed] at hm
    refine apart _ (List.mem_map_of_mem hs) _ ?_ rfl
    exact (List.mem_cons.1 hm).elim (fun he => he ▸ List.mem_cons_self)
      fun hl => List.mem_cons_of_mem _ (mem_ids_of_token hl)
  have step := @reconstruct_addressed s a word after [] (keeps (Token.ofSegments after))
    (id_of_ofSegment? ht).2 (.modify t.id y) target
  rw [reconstruct_keeps_append s a before (.inr ⟨_, _, _, rfl, target⟩) skipped,
    List.append_assoc, ← reconstruct_keeps s a later]
  exact congrArg _ step

end Frame

end Patch

/-! ## 4. Texts of segments -/

theorem Text.trim_trim (t : Text) : trim (trim t) = trim t := by
  have first : trimStart (trim t) = trim t := by
    refine List.dropWhile_eq_self_iff.2 fun hl => ?_
    have start : trim t <+: trimStart t := List.rdropWhile_prefix isBlank (trimStart t)
    rw [start.getElem hl]
    exact List.dropWhile_get_zero_not _ _ _
  have last : trimEnd (trim t) = trim t := List.rdropWhile_idempotent isBlank (trimStart t)
  rw [trim, first, last]

namespace Segment

variable {c : Cursor} {core tail : Text} {ts : List Text} {done ss ss' : List Segment}

theorem trim_toText (ss : List Segment) : Text.trim (toText ss) = toText ss :=
  Text.trim_trim _

/-- What has been written reads the same without the blanks around it. -/
theorem Flattened.reads_trim (h : Flattened c core tail ts done) :
    Reads (Text.trim (core ++ tail)) ts := by
  rcases h.ends with rfl | ends
  · have blank : tail.trimStart = [] := List.dropWhile_eq_nil_iff.2 h.blank
    rw [List.nil_append, Text.trim, blank]
    exact h.reads
  · rw [ends.trim_append h.blank]
    exact h.reads.trimStart

theorem reads_toText (hr : ∀ s ∈ ss, s.ReadsBack) (hs : Separated ss) :
    Reads (toText ss) ((Token.ofSegments ss).map Token.content) := by
  obtain ⟨core, tail, c, text, last⟩ := @flattened_run _ _ _ _ [] _ hr hs flattened_start
  replace text : projectFrom .start ss = core ++ tail := text
  rw [toText, text]
  exact last.reads_trim

/-- All that separation asks about a segment. -/
def shape (s : Segment) : Bool × Bool × Bool :=
  (s.isToken, s.isWord, s.separates)

theorem Separated.congr (hs : Separated ss) (h : ss.map shape = ss'.map shape) :
    Separated ss' := by
  rintro _ w after rfl hw before s between rfl token rest
  simp only [List.map_append, List.map_cons] at h
  obtain ⟨upTo, following, rfl, hu, hf⟩ := List.map_eq_append_iff.1 h
  obtain ⟨w', after', rfl, hw', -⟩ := List.map_eq_cons_iff.1 hf
  obtain ⟨before', following, rfl, -, hf⟩ := List.map_eq_append_iff.1 hu
  obtain ⟨s', between', rfl, hs', hb⟩ := List.map_eq_cons_iff.1 hf
  simp only [shape, Prod.mk.injEq] at hw' hs'
  have same : ∀ m ∈ between', ∃ n ∈ between, shape n = shape m := fun m hm =>
    List.mem_map.1 (hb ▸ List.mem_map_of_mem hm)
  obtain ⟨m, hm, separates⟩ := hs _ w' after' rfl (hw'.2.1.trans hw) before' s' between' rfl
    (hs'.1.trans token) fun m hm => by
      obtain ⟨n, hn, he⟩ := same m hm
      simp only [shape, Prod.mk.injEq] at he
      rw [← he.1, rest n hn]
  obtain ⟨n, hn, he⟩ := same m hm
  simp only [shape, Prod.mk.injEq] at he
  exact ⟨n, hn, he.2.2.trans separates⟩

end Segment

/-! ## 5. Words -/

namespace Patch

open Segment

section Words

variable {xml dsl r : Text} {id : Int} {attrs : Table Text} {breaksLine : Bool}
  {done after : List Segment}

theorem ofSegments_word (hd : dsl.trim.isEmpty = false) :
    Token.ofSegments (done ++ .word id xml dsl attrs breaksLine :: after)
      = Token.ofSegments done ++ ⟨dsl, id⟩ :: Token.ofSegments after := by
  have token : Token.ofSegment? (.word id xml dsl attrs breaksLine) = some ⟨dsl, id⟩ := by
    simp [Token.ofSegment?, hd]
  simp only [Token.ofSegments, List.filterMap_append, List.filterMap_cons_some token]

/-- The contents of the tokens with one changed are those of the segments with one word
changed. -/
theorem contents_word (hd : dsl.trim.isEmpty = false) :
    (Token.ofSegments (done ++ .word id xml dsl attrs breaksLine :: after)).map Token.content
      = (Token.ofSegments done).map Token.content
        ++ dsl :: (Token.ofSegments after).map Token.content := by
  rw [ofSegments_word hd, List.map_append, List.map_cons]

theorem isEmpty_trim_letters (hr : ∀ c ∈ r, isLetter c = true) (hne : r ≠ []) :
    r.trim.isEmpty = false :=
  (endsSolid_of_forall hne fun c hm => not_isBlank_of_isLetter (hr c hm)).isEmpty_trim

/-- With letters in the place of a word, the operations are the single change if and only if
the text is another one and is read as the tokens of its segments. -/
theorem compute_word_iff (hd : dsl.trim.isEmpty = false) (hr : ∀ c ∈ r, isLetter c = true)
    (hne : r ≠ []) (hc : dsl ≠ r) (limit : Int) :
    let ss := done ++ .word id xml dsl attrs breaksLine :: after
    let changed := done ++ .word id xml r attrs breaksLine :: after
    compute ss (toText changed) limit
        = keeps (Token.ofSegments done) ++ .modify id r :: keeps (Token.ofSegments after)
      ↔ toText ss ≠ toText changed
        ∧ Token.contents (toText changed) = (Token.ofSegments changed).map Token.content := by
  intro ss changed
  have tokens : Token.ofSegments ss
      = Token.ofSegments done ++ ⟨dsl, id⟩ :: Token.ofSegments after := ofSegments_word hd
  have general := compute_change_iff tokens hc (toText changed) limit
  rwa [trim_toText, trim_toText, ← contents_word (isEmpty_trim_letters hr hne)] at general

/-- It is the single change where each segment reads back as itself and words are separated. -/
theorem compute_word (hd : dsl.trim.isEmpty = false) (hr : ∀ c ∈ r, isLetter c = true)
    (hne : r ≠ []) (hc : dsl ≠ r)
    (readsBack : ∀ s ∈ done ++ .word id xml dsl attrs breaksLine :: after, s.ReadsBack)
    (separated : Separated (done ++ .word id xml dsl attrs breaksLine :: after)) (limit : Int) :
    compute (done ++ .word id xml dsl attrs breaksLine :: after)
        (toText (done ++ .word id xml r attrs breaksLine :: after)) limit
      = keeps (Token.ofSegments done) ++ .modify id r :: keeps (Token.ofSegments after) := by
  have reads := (reads_toText readsBack separated).contents
  have readsBack' : ∀ s ∈ done ++ .word id xml r attrs breaksLine :: after, s.ReadsBack := by
    simp only [List.forall_mem_append, List.forall_mem_cons] at readsBack ⊢
    exact ⟨readsBack.1, readsBack_letters hr hne id xml attrs breaksLine, readsBack.2.2⟩
  have separated' : Separated (done ++ .word id xml r attrs breaksLine :: after) :=
    separated.congr (by simp only [List.map_append, List.map_cons]; rfl)
  have reads' := (reads_toText readsBack' separated').contents
  refine (compute_word_iff hd hr hne hc limit).2 ⟨fun same => ?_, reads'⟩
  -- the same text cannot be read both ways
  have equal := reads.symm.trans ((congrArg Token.contents same).trans reads')
  rw [contents_word hd, contents_word (isEmpty_trim_letters hr hne)] at equal
  exact hc (List.cons.inj (List.append_cancel_left equal)).1

end Words

end Patch

/-! ## 6. Documents -/

namespace Import

open Patch Segment

variable {source xml dsl r : Text} {read : Text → Option Xml.Element} {i : Import} {id : Int}
  {attrs : Table Text} {breaksLine : Bool} {done after : List Segment}

/-- **One changed word changes one segment**, of an imported document with other letters in
the place of a word, if and only if the text is read as the tokens of its segments. It is
where each segment reads back as itself and words are separated. All other segments then
come out as they stand. -/
theorem one_word_changed (h : ofText source read = .ok i)
    (hs : i.manifest.segments = done ++ .word id xml dsl attrs breaksLine :: after)
    (hd : dsl.trim.isEmpty = false) (hr : ∀ c ∈ r, isLetter c = true) (hne : r ≠ [])
    (hc : dsl ≠ r) (limit : Int) :
    let ss := i.manifest.segments
    let changed := done ++ .word id xml r attrs breaksLine :: after
    let edited := toText changed
    let ops := keeps (Token.ofSegments done) ++ .modify id r :: keeps (Token.ofSegments after)
    ((∀ s ∈ ss, s.ReadsBack) → Separated ss → compute ss edited limit = ops)
      ∧ (compute ss edited limit = ops ↔ toText ss ≠ edited
          ∧ Token.contents edited = (Token.ofSegments changed).map Token.content)
      ∧ (compute ss edited limit = ops → ∀ (s : Settings) (a : Apparatus),
          reconstruct s a ss (compute ss edited limit)
            = done.flatMap Segment.serialize ++ recompile s a r (.word id xml dsl attrs breaksLine)
              ++ after.flatMap Segment.serialize) := by
  intro ss changed edited ops
  have whole : ss = done ++ .word id xml dsl attrs breaksLine :: after := hs
  have token : Token.ofSegment? (.word id xml dsl attrs breaksLine) = some ⟨dsl, id⟩ := by
    simp [Token.ofSegment?, hd]
  rw [whole]
  refine ⟨fun readsBack separated => compute_word hd hr hne hc readsBack separated limit,
    compute_word_iff hd hr hne hc limit, fun he s a => ?_⟩
  rw [he]
  exact reconstruct_change s a (hs ▸ nodup_ids h) token r

/-- The second word of a body, with an attribute. -/
theorem one_word_changed_second :
    let source : Text := "<TEI><body><w>a</w> <w lemma=\"x\">b</w></body></TEI>"
    ∃ i, ofText source = .ok i
      ∧ compute i.manifest.segments "a c" 1000 = [.keep 0, .modify 2 "c"]
      ∧ ∀ (s : Settings) (a : Apparatus),
          reconstruct s a i.manifest.segments (compute i.manifest.segments "a c" 1000)
            = "<w>a</w> ".toList ++ Edition.ofWord s a "c" [("lemma", "x")] := by
  intro source
  let first : Segment := .word 0 "<w>a</w>" "a" [] false
  let second : Segment := .word 2 "<w lemma=\"x\">b</w>" "b" [("lemma", "x")] false
  let i : Import :=
    { dsl := "a b"
      manifest :=
        { segments := [first, .whitespace 1 " ", second]
          isMultilevel := false
          preamble := "<TEI>"
          bodyOpenTag := "<body>"
          postamble := "</TEI>" }
      bodyXml := "<body><w>a</w> <w lemma=\"x\">b</w></body>" }
  have imported : ofText source = .ok i := by decide +kernel
  have readsBack : ∀ s ∈ i.manifest.segments, s.ReadsBack := by
    simp only [i, List.forall_mem_cons]
    exact ⟨@readsBack_letters "a" (Text.forall_of_check (by decide)) (by decide) _ _ _ _, trivial,
      @readsBack_letters "b" (Text.forall_of_check (by decide)) (by decide) _ _ _ _, nofun⟩
  have separated : Separated i.manifest.segments := by
    intro done w after he word before s between hd token rest
    simp only [i, List.cons_eq_append_iff, List.nil_eq_append_iff, List.cons.injEq, reduceCtorEq,
      and_false, or_false, exists_false] at he
    -- the second word is the only one that something stands before
    obtain ⟨rfl, -, -⟩ | ⟨_, rfl, ⟨-, rfl, -⟩ | ⟨_, rfl, rfl, -⟩⟩ := he
    · simp at hd
    · cases word
    · simp only [List.cons_eq_append_iff, List.nil_eq_append_iff, List.cons.injEq, reduceCtorEq,
        and_false, or_false, exists_false] at hd
      obtain ⟨-, -, rfl⟩ | ⟨_, -, -, rfl, -⟩ := hd
      · exact ⟨_, List.mem_cons_self, rfl⟩
      · cases token
  obtain ⟨single, -, frame⟩ := @one_word_changed source _ "b" "c" _ i 2 _ _
    [first, .whitespace 1 " "] [] imported rfl (by decide) (Text.forall_of_check (by decide))
    (by decide) (by decide) 1000
  have ops := single readsBack separated
  exact ⟨i, imported, ops, fun s a => (frame ops s a).trans (List.append_nil _)⟩

/-- A mark right after the last word of a text: it is in the segment of the word, and is
read apart from it. Another word in the place of the first one is aligned with both. -/
theorem change_before_mark :
    let source : Text := "<TEI><body><p>a b.</p></body></TEI>"
    let done : List Segment := [.structural 0 "<p>"]
    let after : List Segment :=
      [.whitespace 2 " ", .word 3 "b." "b." [] false, .structural 4 "</p>"]
    ∃ i, ofText source = .ok i ∧ i.manifest.segments = done ++ .word 1 "a" "a" [] false :: after
      ∧ ∀ limit,
        compute i.manifest.segments (toText (done ++ .word 1 "a" "c" [] false :: after)) limit
          ≠ keeps (Token.ofSegments done) ++ .modify 1 "c" :: keeps (Token.ofSegments after) := by
  intro source done after
  let i : Import :=
    { dsl := "a b."
      manifest :=
        { segments := done ++ .word 1 "a" "a" [] false :: after
          isMultilevel := false
          preamble := "<TEI>"
          bodyOpenTag := "<body>"
          postamble := "</TEI>" }
      bodyXml := "<body><p>a b.</p></body>" }
  have imported : ofText source = .ok i := by decide +kernel
  refine ⟨i, imported, rfl, fun limit single => ?_⟩
  have tokens : Token.ofSegments i.manifest.segments
      = Token.ofSegments done ++ ⟨"a", 1⟩ :: Token.ofSegments after := rfl
  have contents := ((compute_change_iff tokens (by decide) _ limit).1 single).2
  have text : toText (done ++ .word 1 "a" "c" [] false :: after) = ['c', ' ', 'b', '.'] := by decide
  have lexed : lex ['c', ' ', 'b', '.'] = .ok [.text ['c', ' ', 'b', '.']] := by
    have first : construct ['c', ' ', 'b', '.'] = .ok none := rfl
    have blank : construct [' ', 'b', '.'] = .ok none := rfl
    have second : construct ['b', '.'] = .ok none := rfl
    have mark : construct ['.'] = .ok none := rfl
    rw [lex_char first, lex_char blank, lex_char second, lex_char mark, lex_nil]
    rfl
  rw [text, contents_of_lex lexed] at contents
  revert contents
  decide

end Import

end Transcription
