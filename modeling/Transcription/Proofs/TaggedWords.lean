/-
Transcription.Proofs.TaggedWords — bodies in which words stand apart.

Whether the segments of a body read back, and its words are separated, can be told from
the body. A walk over its nodes keeps one thing, whether there is room for a word: there is
at the start and after a blank or a break, and none after a word or a punctuation mark
(`roomAfter?`). It stops where a word stands without room, and at what may not read back.
Words are elements with letters in them, or letters in running text; punctuation marks are
elements with one mark.

**`goes_draftsAll`**: the segments of such a body go on with room for every word.
**`tagged_word_changed`**: in such a body other letters in the place of a word are one
change, and all other segments come out as they stand.
-/
import Transcription.Proofs.CarriedText
import Transcription.Proofs.SingleChange

namespace Transcription

open Lexer

/-! ## 1. Segments with room for words -/

namespace Segment

/-- Segments that read back, from a place with room for a word or without to such a place.
A word needs room and leaves none, a punctuation mark leaves none, and room comes with what
separates. -/
inductive Goes : Bool → List Segment → Bool → Prop
  | nil {room : Bool} : Goes room [] room
  | word {s : Segment} {ss : List Segment} {last : Bool} : s.isWord = true → s.ReadsBack →
      Goes false ss last → Goes true (s :: ss) last
  | mark {room : Bool} {s : Segment} {ss : List Segment} {last : Bool} : s.isWord = false →
      s.isToken = true → s.ReadsBack → Goes false ss last → Goes room (s :: ss) last
  | other {room : Bool} {s : Segment} {ss : List Segment} {last : Bool} : s.isToken = false →
      s.ReadsBack → Goes (room || s.separates) ss last → Goes room (s :: ss) last

section Goes

variable {room next last : Bool} {s : Segment} {ss rest done : List Segment}

/-- Where the first segments leave room or none, the others go on. -/
theorem Goes.append (h : Goes room ss next) (hr : Goes next rest last) :
    Goes room (ss ++ rest) last := by
  induction h with
  | nil => exact hr
  | word hw hb _ ih => exact .word hw hb (ih hr)
  | mark hw ht hb _ ih => exact .mark hw ht hb (ih hr)
  | other ht hb _ ih => exact .other ht hb (ih hr)

theorem Goes.readsBack (h : Goes room ss last) : ∀ s ∈ ss, s.ReadsBack := by
  induction h with
  | nil => exact nofun
  | word _ hb _ ih | mark _ _ hb _ ih | other _ hb _ ih => exact List.forall_mem_cons.2 ⟨hb, ih⟩

theorem separated_nil : Separated [] := by
  intro done w after h
  simp at h

/-- A word at the end needs what separates since the token before it; any other segment
needs nothing. -/
theorem separated_snoc (h : Separated done) (hw : s.isWord = true → Spaced done) :
    Separated (done ++ [s]) := by
  intro before w after he word
  rcases List.eq_nil_or_concat after with rfl | ⟨after, x, rfl⟩
  · obtain ⟨rfl, same⟩ := List.append_inj' he rfl
    cases same
    exact hw word
  · rw [List.concat_eq_append, ← List.cons_append, ← List.append_assoc] at he
    exact h before w after (List.append_inj' he rfl).1 word

/-- A segment that is no token leaves a separated end as it was. -/
theorem spaced_snoc_other (h : Spaced done) (ht : s.isToken = false) : Spaced (done ++ [s]) := by
  intro before t between he token rest
  rcases List.eq_nil_or_concat between with rfl | ⟨between, x, rfl⟩
  · cases (List.append_inj' he rfl).2
    rw [ht] at token
    cases token
  · rw [List.concat_eq_append, ← List.cons_append, ← List.append_assoc] at he
    obtain ⟨rfl, -⟩ := List.append_inj' he rfl
    rw [List.concat_eq_append] at rest ⊢
    obtain ⟨m, hm, separates⟩ := h before t between rfl token fun m hm =>
      rest m (List.mem_append_left _ hm)
    exact ⟨m, List.mem_append_left _ hm, separates⟩

/-- Where there is room whenever a word comes, words are separated. -/
theorem Goes.separated (h : Goes room ss last) (hd : Separated done)
    (hs : room = true → Spaced done) : Separated (done ++ ss) := by
  induction h generalizing done with
  | nil => simpa using hd
  | word hw hb _ ih => simpa using ih (separated_snoc hd fun _ => hs rfl) nofun
  | mark hw ht hb _ ih => simpa using ih (separated_snoc hd fun h => by simp [hw] at h) nofun
  | @other room s ss last ht hb _ ih =>
    have plain : s.isWord = false := by cases s <;> first | rfl | cases ht
    have after : (room || s.separates) = true → Spaced (done ++ [s]) := fun h =>
      (Bool.or_eq_true_iff.1 h).elim (fun hr => spaced_snoc_other (hs hr) ht) (spaced_snoc done ht)
    simpa using ih (separated_snoc hd fun h => by simp [plain] at h) after

theorem Goes.separated_start (h : Goes true ss last) : Separated ss := by
  have start : Spaced [] := by
    intro before s between he
    simp at he
  simpa using h.separated separated_nil fun _ => start

end Goes

end Segment

/-! ## 2. Bodies -/

namespace Import

open Segment Patch Node
open Xml (Tag)

/-- A nonempty text of letters. -/
def spelled (t : Text) : Bool :=
  !t.isEmpty && t.all isLetter

/-- Whether there is room for a word after a run of text; nothing where the run stands
without room, or has anything but letters or blanks in it. -/
def roomAfterRun? (room : Bool) (run : Text) : Option Bool :=
  if Text.allBlank run then some (room || isSeparating run)
  else if room && spelled run then some false
  else none

/-- The text that is all there is in an element. -/
def onlyText? : List Xml.Node → Option Text
  | [.text t] => some t
  | _ => none

/-- Whether there is room for a word after an element that is one segment; nothing where it
is a word without room, or need not read back. -/
def roomAfterSegment? (room : Bool) (tag : Tag) (ns : List Xml.Node) : Option Bool :=
  let name := tag.localName
  if name = ("w" : Text) then
    if (onlyText? ns).any fun t => room && spelled t then some false else none
  else if name = ("pc" : Text) then
    if (onlyText? ns).any fun t => t.length = 1 && t.all (fun c => c ∈ punctuationMarks ∧ c ≠ '[')
    then some false else none
  else if name = ("lb" : Text) ∨ name = ("pb" : Text) then
    if (tag.values.get? "n").all (fun t => '}' ∉ t) then some true else none
  else if name = ("handShift" : Text) then some room
  else none

mutual

/-- Whether there is room for a word after a node; nothing where a word in it stands without
room, or something in it need not read back. -/
def roomAfter? (room : Bool) : Xml.Node → Option Bool
  | .text t => (runs t).foldlM roomAfterRun? room
  | .comment _ | .instruction => some room
  | .reference _ => none
  | .element tag ns =>
      if (elementDraft? tag ns).isSome then roomAfterSegment? room tag ns
      else roomAfterAll? room ns

/-- Whether there is room for a word after some nodes. -/
def roomAfterAll? (room : Bool) : List Xml.Node → Option Bool
  | [] => some room
  | n :: ns => (roomAfter? room n).bind fun next => roomAfterAll? next ns

end

section Text

variable {t : Text}

/-- Text alone, without blanks, is read as it stands, in a word or a punctuation mark. -/
theorem run_levels_text (hne : t ≠ []) (ht : ∀ c ∈ t, isBlank c = false) :
    (run (levels content true [.text t])).1 = t := by
  have read : content true [.text t] = pure t := by
    show pure (appendText [] t false) = pure t
    rw [appendText_solid hne ht, List.nil_append]
  have alone : levels content true [.text t] = Text.trim <$> content true [.text t] := rfl
  rw [alone, read]
  exact trim_solid ht

theorem run_word_text (hne : t ≠ []) (ht : ∀ c ∈ t, isBlank c = false) :
    (run (word content true [.text t])).1 = t :=
  run_levels_text hne ht

theorem of_spelled (h : spelled t = true) : t ≠ [] ∧ ∀ c ∈ t, isLetter c = true := by
  simpa [spelled] using h

theorem not_isBlank_of_spelled (h : spelled t = true) : ∀ c ∈ t, isBlank c = false :=
  fun c hc => not_isBlank_of_isLetter ((of_spelled h).2 c hc)

end Text

/-! ## 3. The segments of a body -/

section Drafts

variable {room next last : Bool} {tag : Tag} {ns : List Xml.Node} {d : Draft} {t : Text}

/-- An element with a checked text in it has nothing else. -/
theorem exists_onlyText {p : Text → Bool} (h : (onlyText? ns).any p = true) :
    ∃ t, ns = [.text t] ∧ p t = true := by
  unfold onlyText? at h
  split at h
  · exact ⟨_, rfl, h⟩
  · cases h

/-- Letters read back as one word, which takes the room. -/
theorem goes_word (hs : spelled t = true) (id : Int) (xml : Text) (attrs : Table Text)
    (breaksLine : Bool) : Goes true [.word id xml t attrs breaksLine] false := by
  obtain ⟨hne, letters⟩ := of_spelled hs
  exact .word rfl (readsBack_letters letters hne _ _ _ _) .nil

/-- A segment that nothing is asked of and that does not separate. -/
theorem goes_past {s : Segment} (ht : s.isToken = false) (hb : s.ReadsBack)
    (hs : s.separates = false) : Goes room [s] room := by
  refine .other ht hb ?_
  rw [hs, Bool.or_false]
  exact .nil

/-- A segment that separates makes room, whatever stood before it. -/
theorem goes_break {s : Segment} (ht : s.isToken = false) (hs : s.separates = true)
    (hb : s.ReadsBack) : Goes room [s] true := by
  refine .other ht hb ?_
  rw [hs, Bool.or_true]
  exact .nil

/-- Runs of text: blank ones make room where they call for a space, and letters take it. -/
theorem goes_runs (rs : List Text) (h : rs.foldlM roomAfterRun? room = some last) (first : Int) :
    Goes room (numberFrom first (rs.map ofRun)) last := by
  induction rs generalizing room first with
  | nil =>
    cases h
    exact .nil
  | cons r rs ih =>
    rw [List.foldlM_cons] at h
    obtain ⟨next, hr, rest⟩ := Option.bind_eq_some_iff.1 h
    have here : Goes room [ofRun r first] next := by
      unfold roomAfterRun? at hr
      unfold ofRun
      split at hr
      · next hb =>
        cases hr
        rw [if_pos hb]
        exact .other rfl trivial .nil
      · next hb =>
        rw [if_neg hb]
        split at hr
        · next hs =>
          cases hr
          obtain ⟨rfl, hs⟩ := Bool.and_eq_true_iff.1 hs
          exact goes_word hs _ _ _ _
        · cases hr
    exact here.append (ih rest (first + 1))

/-- An element with letters in it, where there is room, is a word of these letters. -/
theorem goes_wordDraft (h : (onlyText? ns).any (fun t => room && spelled t) = true) (id : Int) :
    Goes room [wordDraft tag ns (word content true ns) id] false := by
  obtain ⟨t, rfl, ht⟩ := exists_onlyText h
  obtain ⟨rfl, hs⟩ := Bool.and_eq_true_iff.1 ht
  unfold wordDraft
  dsimp only
  rw [run_word_text (of_spelled hs).1 (not_isBlank_of_spelled hs)]
  exact goes_word hs _ _ _ _

/-- An element with one punctuation mark in it needs no room. -/
theorem goes_punctuation
    (h : (onlyText? ns).any
      (fun t => t.length = 1 && t.all (fun c => c ∈ punctuationMarks ∧ c ≠ '[')) = true)
    (id : Int) (xml : Text) :
    Goes room [.punctuation id xml (run (levels content true ns)).1] false := by
  obtain ⟨t, rfl, ht⟩ := exists_onlyText h
  obtain ⟨single, marks⟩ := Bool.and_eq_true_iff.1 ht
  obtain ⟨c, rfl⟩ := List.length_eq_one_iff.1 (of_decide_eq_true single)
  have mark : IsMark c := by simpa [IsMark] using marks
  have solid : ∀ d ∈ [c], isBlank d = false := by simpa using not_isBlank_of_isMark mark
  rw [run_levels_text (List.cons_ne_nil c []) solid]
  exact .mark rfl rfl ⟨c, mark, rfl⟩ .nil

/-- What stands for an element that may be passed. -/
theorem goes_elementDraft (hd : elementDraft? tag ns = some d)
    (h : roomAfterSegment? room tag ns = some next) (first : Int) : Goes room [d first] next := by
  -- both definitions go by the name of the element, in the same order
  unfold elementDraft? at hd
  unfold roomAfterSegment? at h
  dsimp only at hd h
  split at hd
  · next hn =>
    cases hd
    rw [if_pos hn] at h
    obtain ⟨hw, he⟩ := Option.ite_none_right_eq_some.1 h
    cases he
    exact goes_wordDraft hw first
  next hw =>
  rw [if_neg hw] at h
  split at hd
  · next hn =>
    cases hd
    rw [if_pos hn] at h
    obtain ⟨hm, he⟩ := Option.ite_none_right_eq_some.1 h
    cases he
    exact goes_punctuation hm first _
  next hp =>
  rw [if_neg hp] at h
  split at hd
  · next hn =>
    cases hd
    rw [if_pos (.inl hn)] at h
    obtain ⟨hl, he⟩ := Option.ite_none_right_eq_some.1 h
    cases he
    exact goes_break rfl rfl (by simpa [ReadsBack, Option.all_eq_true] using hl)
  next hlb =>
  split at hd
  · next hn =>
    cases hd
    rw [if_pos (.inr hn)] at h
    obtain ⟨hl, he⟩ := Option.ite_none_right_eq_some.1 h
    cases he
    exact goes_break rfl rfl (by simpa [ReadsBack, Option.all_eq_true] using hl)
  next hpb =>
  rw [if_neg (not_or.2 ⟨hlb, hpb⟩)] at h
  split at hd
  · next hn =>
    cases hd
    rw [if_pos hn] at h
    cases h
    exact goes_past rfl trivial rfl
  · next hn =>
    rw [if_neg hn] at h
    cases h

mutual

/-- A node is its one segment, or the segments of the nodes in it between tags that are
passed over. -/
theorem goes_drafts : ∀ (n : Xml.Node) {room next : Bool}, roomAfter? room n = some next →
    ∀ first, Goes room (numberFrom first (drafts n)) next
  | .text t, _, _, h, first => goes_runs (runs t) h first
  | .comment t, _, _, h, first => by
    cases h
    exact goes_past rfl trivial rfl
  | .reference name, _, _, h, first => by cases h
  | .instruction, _, _, h, first => by
    cases h
    exact .nil
  | .element tag ns, room, next, h, first => by
    unfold roomAfter? at h
    unfold drafts
    split
    · next found hf =>
      rw [hf] at h
      exact goes_elementDraft hf h first
    · next hf =>
      rw [hf] at h
      replace h : roomAfterAll? room ns = some next := h
      split
      · next he =>
        rw [List.isEmpty_iff.1 he] at h
        cases h
        exact goes_past rfl trivial rfl
      · have opened : Goes room [.structural first tag.opening] room := goes_past rfl trivial rfl
        have inner := goes_draftsAll ns h (first + 1)
        rw [numberFrom_append]
        exact (opened.append inner).append (goes_past rfl trivial rfl)

theorem goes_draftsAll : ∀ (ns : List Xml.Node) {room last : Bool},
    roomAfterAll? room ns = some last → ∀ first, Goes room (numberFrom first (draftsAll ns)) last
  | [], _, _, h, first => by
    cases h
    exact .nil
  | n :: ns, _, _, h, first => by
    obtain ⟨next, here, rest⟩ := Option.bind_eq_some_iff.1 h
    rw [draftsAll, numberFrom_append]
    exact (goes_drafts n here first).append (goes_draftsAll ns rest _)

end

end Drafts

/-! ## 4. A changed word -/

section Documents

variable {source xml dsl r : Text} {read : Text → Option Xml.Element} {i : Import}
  {root body : Xml.Element} {id : Int} {attrs : Table Text} {breaksLine : Bool}
  {done after : List Segment}

/-- A word that reads back has something to read. -/
theorem isEmpty_trim_word (h : (Segment.word id xml dsl attrs breaksLine).ReadsBack) :
    dsl.trim.isEmpty = false := by
  obtain ⟨ns, g, hl, hg, hk, rfl⟩ := h
  exact (takesMarks_word hl hg hk).2.isEmpty_trim

/-- **In a body with room for its words, one changed word is one change**, and all other
segments come out as they stand. -/
theorem tagged_word_changed (h : ofText source read = .ok i) (hr : read source = some root)
    (hb : bodyOf? root = some body) (room : (roomAfterAll? true body.children).isSome = true)
    (hs : i.manifest.segments = done ++ .word id xml dsl attrs breaksLine :: after)
    (hl : ∀ c ∈ r, isLetter c = true) (hne : r ≠ []) (hc : dsl ≠ r) (limit : Int) :
    let ops := keeps (Token.ofSegments done) ++ .modify id r :: keeps (Token.ofSegments after)
    compute i.manifest.segments (toText (done ++ .word id xml r attrs breaksLine :: after)) limit
        = ops
      ∧ ∀ (s : Settings) (a : Apparatus), reconstruct s a i.manifest.segments ops
          = done.flatMap Segment.serialize ++ recompile s a r (.word id xml dsl attrs breaksLine)
            ++ after.flatMap Segment.serialize := by
  intro ops
  obtain ⟨last, hlast⟩ := Option.isSome_iff_exists.1 room
  have goes : Goes true i.manifest.segments last := by
    obtain ⟨root', body', hr', hb', rfl⟩ := exists_body h
    cases hr.symm.trans hr'
    cases hb.symm.trans hb'
    exact goes_draftsAll body.children hlast 0
  have distinct := nodup_ids h
  rw [hs] at goes distinct ⊢
  have readsBack := goes.readsBack
  have hd : dsl.trim.isEmpty = false :=
    isEmpty_trim_word (readsBack (.word id xml dsl attrs breaksLine) (by simp))
  have token : Token.ofSegment? (.word id xml dsl attrs breaksLine) = some ⟨dsl, id⟩ := by
    simp [Token.ofSegment?, hd]
  exact ⟨compute_word hd hl hne hc readsBack goes.separated_start limit,
    fun s a => reconstruct_change s a distinct token r⟩

/-- Two words and a mark at the end of a line, and a word in running text. -/
example :
    let tag (name : Text) : Tag := ⟨⟨[], name⟩, [], [], []⟩
    let element (name t : Text) : Xml.Node := .element (tag name) [.text t]
    roomAfterAll? true [.element (tag "p") [element "w" "a", .text " ", element "w" "b",
      element "pc" ".", .element (tag "lb") [], .text "c\n"]] = some true := by decide +kernel

end Documents

end Import

end Transcription
