/-
Transcription.Proofs.CrossedElements — elements around ranges of characters, among the
elements that the facsimile of a word has already.

Ranges count characters and know nothing of the elements these stand in. The tag that opens
a range is put right before its first character and the tag that closes it right after its
last one, so that each of them is inside of an element exactly if that character is. Where a
range has one of its ends in an element and the other outside (`Crosses`), its tags and those
of the element do not match.

The pieces between two tags of the facsimile leave the elements around them as they are,
while ranges open and close (`Passage`): a range that opened before the last tag must not end
among them, and those that opened since and go on are then the innermost elements.
**`wellNested_inject_iff`**: the markup of the facsimile with the elements around the ranges
is well nested if and only if no range crosses an element.
-/
import Transcription.Proofs.RangeElements

namespace Transcription

open Markup Scan

/-! ## 1. Elements of the facsimile -/

/-- The name and the content of the element that a node is shown as in the facsimile. -/
def Node.facsimileElement? : Node → Option (Text × Text)
  | .abbreviation abbr _ => some ("abbr", abbr)
  | .marked .supplied _ => none
  | .marked mark content => some (mark.tag, content)
  | _ => none

namespace CharacterRange

/-- The elements of a facsimile, each as the range of its characters, where the first node
stands at a place. The kind of such a range is the name of the element. -/
def facsimileElements (a : Apparatus) (place : Int) : List Node → List CharacterRange
  | [] => []
  | n :: ns =>
      let next := place + width (pieces (a.facsimileOf n))
      match n.facsimileElement? with
      | some (name, _) => ⟨place, next, name⟩ :: facsimileElements a next ns
      | none => facsimileElements a next ns

/-- A range has one of its ends in an element and the other one outside. -/
def Crosses (r e : CharacterRange) : Prop :=
  r.start < e.start ∧ e.start < r.stop ∧ r.stop ≤ e.stop
    ∨ e.start ≤ r.start ∧ r.start < e.stop ∧ e.stop < r.stop

instance (r e : CharacterRange) : Decidable (Crosses r e) :=
  inferInstanceAs (Decidable (_ ∨ _))

/-- Pieces that leave the open elements of the markup as they are: characters and empty
tags. -/
def Calm (ps : List Piece) : Prop :=
  ∀ p ∈ ps, Nested (pieceText p)

section Facsimile

variable {a : Apparatus} {n : Node} {ns : List Node} {name content t : Text} {ps qs : List Piece}

theorem width_append (ps qs : List Piece) : width (ps ++ qs) = width ps + width qs := by
  rw [width, List.countP_append]
  exact Int.natCast_add _ _

/-- Tags around pieces show nothing. -/
theorem width_tagged (opening ending : Text) (ps : List Piece) :
    width (.tag opening :: (ps ++ [.tag ending])) = width ps := by
  rw [width_tag, width_append]
  exact Int.add_zero _

theorem calm_of_inert (h : Inert t) : Calm (pieces t) := by
  intro p hp
  have inside : ∀ c ∈ pieceText p, c ∈ t := fun c hc =>
    flatMap_pieces t ▸ List.mem_flatMap.2 ⟨p, hp, hc⟩
  exact Inert.nested fun c hc => h c (inside c hc)

/-- The mark of a gap is one empty tag. -/
theorem calm_gap (quantity : Option Nat) : Calm (pieces (gap quantity)) := by
  have single : pieces (gap quantity) = [.tag (gap quantity)] :=
    pieces_of_complete (complete_gap quantity)
  rw [single]
  exact List.forall_mem_singleton.2 (nested_gap quantity)

/-- What is shown as no element has no tags but empty ones. -/
theorem calm_facsimileOf (none : n.facsimileElement? = none) (inert : n.InertName) :
    Calm (pieces (a.facsimileOf n)) := by
  have nothing : Calm (pieces []) := calm_of_inert (by decide)
  cases n with
  | text content => exact calm_of_inert (inert_escape content)
  | entity name =>
    refine calm_of_inert ?_
    rw [Apparatus.facsimileOf]
    split
    · exact inert_escape _
    · exact inert_reference (inert name rfl)
  | gap quantity reading => exact calm_gap quantity
  | marked mark content =>
    cases mark with
    | supplied => exact nothing
    | _ => cases none
  | compoundJoin => exact calm_of_inert (t := [' ']) (by decide)
  | abbreviation abbr expansion => cases none
  | _ => exact nothing

/-- All other nodes are shown as an element around text. -/
theorem facsimileOf_element (h : n.facsimileElement? = some (name, content)) :
    a.facsimileOf n = element name content ∧ isName name = true ∧ name ≠ ['c'] := by
  cases n with
  | abbreviation abbr expansion =>
    cases h
    exact ⟨rfl, by decide, by decide⟩
  | marked mark text =>
    cases mark with
    | supplied => cases h
    | deletion | addition | note | unclear =>
      cases h
      exact ⟨rfl, by decide, by decide⟩
  | _ => cases h

/-- Every list of tags. -/
theorem tolerates_all : Tolerates fun _ => True :=
  ⟨trivial, fun _ _ => trivial, fun _ => trivial, fun _ _ _ => trivial, fun _ _ => trivial⟩

/-- An element is its start tag, the characters of its content and its end tag. -/
theorem pieces_element (hn : isName name = true) (content : Text) :
    pieces (element name content) = .tag (startTag name []) :: (pieces (escape content)
      ++ [.tag (endTag name)]) := by
  have opening := complete_startTag hn .nil
  have ending := complete_endTag hn
  have inside : Whole (escape content) := (passes_escape tolerates_all content).whole
  have shape : element name content
      = pieceText (.tag (startTag name [])) ++ (escape content ++ endTag name) := by
    simp [element, wrap, pieceText, startTag, endTag]
  rw [shape, opening, inside.pieces_append]
  exact congrArg (Piece.tag _ :: pieces (escape content) ++ ·) (pieces_of_complete ending)

theorem pieces_facsimile_cons (inert : n.InertName) (ns : List Node) :
    pieces (a.facsimile (n :: ns)) = pieces (a.facsimileOf n) ++ pieces (a.facsimile ns) :=
  (passes_facsimileOf tolerates_all inert).whole.pieces_append _

/-- The elements of a facsimile come from its first place on. -/
theorem start_of_mem_facsimileElements {place : Int} {e : CharacterRange}
    (h : e ∈ facsimileElements a place ns) : place ≤ e.start := by
  induction ns generalizing place with
  | nil => cases h
  | cons n ns ih =>
    have ahead := width_nonneg (pieces (a.facsimileOf n))
    rw [facsimileElements] at h
    split at h
    · rcases List.mem_cons.1 h with rfl | h
      · exact Int.le_refl _
      · have later := ih h
        omega
    · have later := ih h
      omega

end Facsimile

/-! ## 2. Items that match -/

/-- With these elements open, the items close each of them and all that they open. -/
def Matched (stack : List Text) (is : List Item) : Prop :=
  Reads ⟨stack, .content⟩ (is.flatMap Item.text) .start

section Matches

variable {stack base : List Text} {is : List Item} {p : Piece} {name : Text}

theorem matched_calm (h : Nested (pieceText p)) :
    Matched stack (.kept p :: is) ↔ Matched stack is :=
  (h stack).after_iff

theorem matched_startTag (hn : isName name = true) :
    Matched stack (.kept (.tag (startTag name [])) :: is) ↔ Matched (name :: stack) is :=
  (reads_start (reads_tagName hn) .nil).after_iff

theorem matched_endTag (hn : isName name = true) :
    Matched stack (.kept (.tag (endTag name)) :: is)
      ↔ ∃ outer, stack = name :: outer ∧ Matched outer is := by
  show Reads _ (endTag name ++ is.flatMap Item.text) _ ↔ _
  rw [endTag, List.append_assoc]
  exact reads_end_iff hn

theorem matched_closes : Matched stack (.closes :: is)
    ↔ ∃ outer, stack = ['c'] :: outer ∧ Matched outer is :=
  matched_endTag (show isName ['c'] = true by decide)

theorem matched_opens (kind : Text) :
    Matched stack (.opens kind :: is) ↔ Matched (['c'] :: stack) is := by
  have opens : Reads ⟨stack, .content⟩ (openTag ⟨0, 0, kind⟩) ⟨['c'] :: stack, .content⟩ := by
    rw [openTag_eq]
    exact reads_start (reads_tagName (by decide)) (attributed_attr (by decide) kind)
  exact opens.after_iff

/-- Elements around ranges, inside of other elements. -/
def inRanges (count : Nat) (base : List Text) : List Text :=
  List.replicate count ['c'] ++ base

theorem inRanges_add (m n : Nat) (base : List Text) :
    inRanges (m + n) base = inRanges m (inRanges n base) := by
  rw [inRanges, inRanges, inRanges, ← List.replicate_append_replicate, List.append_assoc]

theorem matched_opening (opened : List CharacterRange) :
    Matched stack (opened.map (.opens ·.kind) ++ is)
      ↔ Matched (inRanges opened.length stack) is := by
  induction opened generalizing stack with
  | nil => exact Iff.rfl
  | cons r opened ih =>
    rw [List.length_cons, inRanges_add]
    exact (matched_opens r.kind).trans ih

theorem matched_closing (count : Nat) :
    Matched (inRanges count stack) (List.replicate count .closes ++ is) ↔ Matched stack is := by
  induction count with
  | zero => exact Iff.rfl
  | succ count ih =>
    refine matched_closes.trans ⟨?_, fun h => ⟨inRanges count stack, rfl, ih.2 h⟩⟩
    rintro ⟨outer, same, h⟩
    obtain rfl := (List.cons.inj same).2
    exact ih.1 h

/-- More ranges cannot be closed than are the innermost elements. -/
theorem not_matched_closing (hb : base.head? ≠ some ['c']) {few many : Nat} (h : few < many) :
    ¬Matched (inRanges few base) (List.replicate many .closes ++ is) := by
  obtain ⟨extra, rfl⟩ := Nat.exists_eq_add_of_lt h
  rw [Nat.add_assoc, ← List.replicate_append_replicate, List.append_assoc, matched_closing,
    List.replicate_succ, List.cons_append, matched_closes]
  rintro ⟨outer, rfl, -⟩
  exact hb rfl

end Matches

/-! ## 3. From one tag to the next -/

/-- What is left of the markup closes the ranges that opened since the last tag, which are
the innermost elements, and then the elements around them, in which the ranges that opened
before the tag are. -/
def Closes (base : List Text) (inner outer later : List CharacterRange) (place : Int)
    (ps : List Piece) : Prop :=
  Matched (inRanges inner.length base)
    (itemsFrom later ((inner ++ outer).reverse.map stop) place ps)

/-- What pieces between two tags do. Either a range that opened before them ends there, which
cannot be, or all of these go on; then some ranges that opened since, the inner ones, go on
too. -/
inductive Passage (base : List Text) (inner outer later : List CharacterRange) (place : Int)
    (ps : List Piece) : Prop
  | stuck {r : CharacterRange} (hr : r ∈ outer) (ends : r.stop ≤ place + width ps)
      (stops : ∀ more, ¬Closes base inner outer later place (ps ++ more))
  | through {inner' later' : List CharacterRange}
      (next : Open (place + width ps) (inner' ++ outer) later')
      (held : ∀ r, r ∈ inner' ↔ (r ∈ inner ∨ r ∈ later ∧ r.start < place + width ps)
        ∧ place + width ps < r.stop)
      (waiting : ∀ r, r ∈ later' ↔ r ∈ later ∧ place + width ps ≤ r.start)
      (goesOn : ∀ more, Closes base inner outer later place (ps ++ more)
        ↔ Closes base inner' outer later' (place + width ps) more)

section Passages

variable {base : List Text} {inner outer later : List CharacterRange} {place : Int}
  {ps : List Piece}

/-- One character: the ranges that start there open, and those that end with it close. -/
theorem passage_visible {t : Text} (hb : base.head? ≠ some ['c']) (ht : Nested t)
    (h : Open place (inner ++ outer) later) :
    Passage base inner outer later place [.visible t] := by
  obtain ⟨closing, rest, same, ends, next, items⟩ := exists_turn h
  have one : place + width [.visible t] = place + 1 := rfl
  let starting := later.takeWhile (·.start = place)
  let later' := later.dropWhile (·.start = place)
  have split : later = starting ++ later' := List.takeWhile_append_dropWhile.symm
  have starts : ∀ r ∈ starting, r.start = place :=
    fun r hr => by simpa using List.all_eq_true.1 List.all_takeWhile r hr
  -- after the character, with the ranges that start there open
  have turn (more : List Piece) : Closes base inner outer later place ([.visible t] ++ more)
      ↔ Matched (inRanges (starting.length + inner.length) base)
        (List.replicate closing.length .closes
          ++ itemsFrom later' (rest.reverse.map stop) (place + 1) more) := by
    rw [Closes, List.singleton_append, items, matched_opening, matched_calm (p := .visible t) ht,
      inRanges_add]
  rw [← List.append_assoc] at same
  -- the ranges that close are among those that opened since, or there are more of them
  have reach : (∃ r ∈ outer, r.stop = place + 1 ∧ starting.length + inner.length < closing.length)
      ∨ ∃ inner', starting.reverse ++ inner = closing ++ inner' ∧ rest = inner' ++ outer := by
    rcases List.append_eq_append_iff.1 same with ⟨past, rfl, left⟩ | kept
    · cases past with
      | nil => exact .inr ⟨[], by rw [List.append_nil, List.append_nil], left.symm⟩
      | cons r past =>
        exact .inl ⟨r, left ▸ List.mem_append_left _ List.mem_cons_self,
          ends r (List.mem_append_right _ List.mem_cons_self), by simp [starting]⟩
    · exact .inr kept
  rcases reach with ⟨r, hr, last, more⟩ | ⟨inner', left, rfl⟩
  · refine .stuck hr (by omega) fun ps => ?_
    rw [turn]
    exact not_matched_closing hb more
  · have counted : starting.length + inner.length = closing.length + inner'.length := by
      simpa using congrArg List.length left
    refine .through next (fun r => ?_) (fun r => ?_) fun more => ?_
    · rw [one]
      constructor
      · intro hr
        have member : r ∈ starting.reverse ++ inner := left ▸ List.mem_append_right _ hr
        refine ⟨?_, next.goesOn r (List.mem_append_left _ hr)⟩
        rcases List.mem_append.1 member with hs | hi
        · have hs := List.mem_reverse.1 hs
          have first := starts r hs
          exact .inr ⟨split ▸ List.mem_append_left _ hs, by omega⟩
        · exact .inl hi
      · rintro ⟨hr, longer⟩
        have member : r ∈ starting.reverse ++ inner := by
          rcases hr with hi | ⟨hl, early⟩
          · exact List.mem_append_right _ hi
          · rw [split] at hl
            rcases List.mem_append.1 hl with hs | hl
            · exact List.mem_append_left _ (List.mem_reverse.2 hs)
            · have waits := next.waits r hl
              omega
        rw [left] at member
        refine (List.mem_append.1 member).resolve_left fun hc => ?_
        have last := ends r hc
        omega
    · rw [one]
      refine ⟨fun hr => ⟨split ▸ List.mem_append_right _ hr, next.waits r hr⟩, ?_⟩
      rintro ⟨hr, late⟩
      rw [split] at hr
      refine (List.mem_append.1 hr).resolve_left fun hs => ?_
      have first := starts r hs
      omega
    · rw [turn, counted, inRanges_add, matched_closing, Closes, one]

/-- Where there is no character, no range opens or closes. -/
theorem passage_still (h : Open place (inner ++ outer) later) (still : width ps = 0)
    (skips : ∀ more, Closes base inner outer later place (ps ++ more)
      ↔ Closes base inner outer later place more) :
    Passage base inner outer later place ps := by
  have same : place + width ps = place := by rw [still, Int.add_zero]
  refine .through (by rwa [same]) (fun r => ?_) (fun r => ?_) fun more => by rw [skips, same]
  · rw [same]
    refine ⟨fun hr => ⟨.inl hr, h.goesOn r (List.mem_append_left _ hr)⟩, ?_⟩
    rintro ⟨hi | ⟨hl, early⟩, -⟩
    · exact hi
    · have waits := h.waits r hl
      omega
  · rw [same]
    exact ⟨fun hr => ⟨hr, h.waits r hr⟩, fun hr => hr.1⟩

/-- What one stretch of pieces does, and then the next one. -/
theorem Passage.append {qs : List Piece} (hp : Passage base inner outer later place ps)
    (hq : ∀ inner' later', Open (place + width ps) (inner' ++ outer) later' →
      Passage base inner' outer later' (place + width ps) qs) :
    Passage base inner outer later place (ps ++ qs) := by
  have ahead := width_nonneg qs
  have total : place + width ps + width qs = place + width (ps ++ qs) := by
    rw [width_append, Int.add_assoc]
  cases hp with
  | stuck hr ends stops =>
    refine .stuck hr (by omega) fun more => ?_
    rw [List.append_assoc]
    exact stops _
  | @through inner' later' next held waiting goesOn =>
    cases hq inner' later' next with
    | stuck hr ends stops =>
      refine .stuck hr (by omega) fun more => ?_
      rw [List.append_assoc, goesOn]
      exact stops more
    | through last held' waiting' goesOn' =>
      rw [total] at last
      refine .through last (fun r => ?_) (fun r => ?_) fun more => ?_
      · rw [held', held, waiting, total]
        constructor
        · rintro ⟨⟨(hi | ⟨hl, early⟩), -⟩ | ⟨⟨hl, -⟩, early⟩, longer⟩
          · exact ⟨.inl hi, longer⟩
          · exact ⟨.inr ⟨hl, by omega⟩, longer⟩
          · exact ⟨.inr ⟨hl, early⟩, longer⟩
        · rintro ⟨hi | ⟨hl, early⟩, longer⟩
          · exact ⟨.inl ⟨.inl hi, by omega⟩, longer⟩
          · by_cases first : r.start < place + width ps
            · exact ⟨.inl ⟨.inr ⟨hl, first⟩, by omega⟩, longer⟩
            · exact ⟨.inr ⟨⟨hl, by omega⟩, early⟩, longer⟩
      · rw [waiting', waiting, total]
        exact ⟨fun ⟨⟨hl, _⟩, late⟩ => ⟨hl, late⟩, fun ⟨hl, late⟩ => ⟨⟨hl, by omega⟩, late⟩⟩
      · rw [List.append_assoc, goesOn, goesOn', total]

/-- Ranges open and close among calm pieces as if there were no elements around. -/
theorem passage_calm (hb : base.head? ≠ some ['c']) (calm : Calm ps)
    (h : Open place (inner ++ outer) later) : Passage base inner outer later place ps := by
  induction ps generalizing inner later place with
  | nil => exact passage_still h rfl fun _ => Iff.rfl
  | cons p ps ih =>
    obtain ⟨hp, calm⟩ := List.forall_mem_cons.1 calm
    have first : Passage base inner outer later place [p] := by
      cases p with
      | visible t => exact passage_visible hb hp h
      | tag t => exact passage_still h rfl fun _ => matched_calm hp
    exact first.append fun inner' later' next => ih calm next

end Passages

/-! ## 4. Crossings -/

section Crossings

variable {a : Apparatus} {ns : List Node} {opened later inner' later' : List CharacterRange}
  {place next : Int} {r e : CharacterRange}

/-- A range that ends before an element does not cross it. -/
theorem not_crosses_of_stop_le (proper : r.start < r.stop) (ends : r.stop ≤ e.start) :
    ¬Crosses r e := by
  unfold Crosses
  omega

/-- The ranges that are left at a place are those that may cross an element behind it. -/
theorem forall_not_crosses_iff (h : Open place opened later)
    (held : ∀ r, r ∈ inner' ↔ (r ∈ opened ∨ r ∈ later ∧ r.start < next) ∧ next < r.stop)
    (waiting : ∀ r, r ∈ later' ↔ r ∈ later ∧ next ≤ r.start) (behind : next ≤ e.start) :
    (∀ r ∈ inner' ++ later', ¬Crosses r e) ↔ ∀ r ∈ opened ++ later, ¬Crosses r e := by
  constructor
  · intro clear r hr
    have proper : r.start < r.stop := h.nonempty r (by simpa using hr)
    by_cases gone : r.stop ≤ next
    · exact not_crosses_of_stop_le proper (by omega)
    · refine clear r (List.mem_append.2 ?_)
      rcases List.mem_append.1 hr with ho | hl
      · exact .inl ((held r).2 ⟨.inl ho, by omega⟩)
      · by_cases begun : r.start < next
        · exact .inl ((held r).2 ⟨.inr ⟨hl, begun⟩, by omega⟩)
        · exact .inr ((waiting r).2 ⟨hl, by omega⟩)
  · intro clear r hr
    refine clear r (List.mem_append.2 ?_)
    rcases List.mem_append.1 hr with hi | hl
    · exact ((held r).1 hi).1.imp_right And.left
    · exact .inr ((waiting r).1 hl).1

/-- An element around calm pieces: a range crosses it and the tags do not match, or none does
and the ranges that are open behind it are those that were open before it. -/
theorem element_cases {name : Text} {ps : List Piece} (hn : isName name = true)
    (hne : name ≠ ['c']) (calm : Calm ps) (h : Open place opened later)
    (began : ∀ r ∈ opened, r.start < place) :
    let e : CharacterRange := ⟨place, place + width ps, name⟩
    let qs := .tag (startTag name []) :: (ps ++ [.tag (endTag name)])
    (∃ r ∈ opened ++ later, Crosses r e) ∧ (∀ more, ¬Closes [] opened [] later place (qs ++ more))
      ∨ (∀ r ∈ opened ++ later, ¬Crosses r e) ∧ Passage [] opened [] later place qs := by
  intro e qs
  let base := name :: inRanges opened.length []
  have total : place + width qs = place + width ps := by rw [width_tagged]
  have enters (more : List Piece) : Closes [] opened [] later place (qs ++ more)
      ↔ Closes base [] opened later place (ps ++ .tag (endTag name) :: more) := by
    have shape : qs ++ more = .tag (startTag name []) :: (ps ++ .tag (endTag name) :: more) := by
      simp [qs]
    rw [shape, Closes, Closes, List.append_nil]
    exact matched_startTag hn
  have top : base.head? ≠ some ['c'] := fun he => hne (Option.some.inj he)
  cases passage_calm top calm (show Open place ([] ++ opened) later from h) with
  | @stuck r hr ends stops =>
    have goesOn := h.goesOn r hr
    refine .inl ⟨⟨r, List.mem_append_left _ hr, .inl ⟨began r hr, goesOn, ends⟩⟩, fun more => ?_⟩
    rw [enters]
    exact stops _
  | @through inner' later' next held waiting goesOn =>
    cases inner' with
    | cons r inner' =>
      -- a range that opened in the element is still open at its end tag
      obtain ⟨begun, longer⟩ := (held r).1 List.mem_cons_self
      obtain ⟨hl, early⟩ := begun.resolve_left List.not_mem_nil
      refine .inl ⟨⟨r, List.mem_append_right _ hl, .inr ⟨h.waits r hl, early, longer⟩⟩,
        fun more => ?_⟩
      rw [enters, goesOn, Closes]
      refine fun closes => ?_
      obtain ⟨outer, same, -⟩ := (matched_endTag hn).1 closes
      exact hne (List.cons.inj same).1.symm
    | nil =>
      have still : ∀ r ∈ opened, place + width ps < r.stop := next.goesOn
      have none : ∀ r ∈ later, r.start < place + width ps → ¬place + width ps < r.stop :=
        fun r hl early longer => List.not_mem_nil ((held r).2 ⟨.inr ⟨hl, early⟩, longer⟩)
      refine .inr ⟨fun r hr => ?_, ?_⟩
      · rcases List.mem_append.1 hr with ho | hl
        · have before := began r ho
          have longer := still r ho
          simp only [Crosses, e]
          omega
        · have waits := h.waits r hl
          have ends := none r hl
          simp only [Crosses, e]
          omega
      · have last : Open (place + width qs) (opened ++ []) later' := by
          rw [total, List.append_nil]
          exact next
        refine .through last (fun r => ?_) ?_ fun more => ?_
        · rw [total]
          refine ⟨fun ho => ⟨.inl ho, still r ho⟩, ?_⟩
          rintro ⟨ho | ⟨hl, early⟩, longer⟩
          · exact ho
          · exact absurd longer (none r hl early)
        · rwa [total]
        · rw [enters, goesOn, Closes, Closes, total, List.append_nil]
          refine (matched_endTag hn).trans ⟨?_, fun closes => ⟨_, rfl, closes⟩⟩
          rintro ⟨outer, same, closes⟩
          obtain rfl := (List.cons.inj same).2
          exact closes

/-- With some ranges open, the facsimile of the nodes that are left closes everything if and
only if no range crosses an element of it: by induction on the nodes. -/
theorem closes_iff (inert : ∀ n ∈ ns, n.InertName) (h : Open place opened later)
    (began : ∀ r ∈ opened, r.start < place) :
    Closes [] opened [] later place (pieces (a.facsimile ns))
      ↔ ∀ e ∈ facsimileElements a place ns, ∀ r ∈ opened ++ later, ¬Crosses r e := by
  induction ns generalizing place opened later with
  | nil =>
    have none : pieces (a.facsimile []) = [] := by
      show pieces [] = []
      rw [pieces]
    refine iff_of_true ?_ (List.forall_mem_nil _)
    rw [none, Closes, itemsFrom, List.append_nil, List.length_map, List.length_reverse]
    have all : Matched (inRanges opened.length []) (List.replicate opened.length .closes ++ [])
        ↔ Matched [] [] := matched_closing opened.length
    rw [List.append_nil] at all
    exact all.2 .nil
  | cons n ns ih =>
    obtain ⟨inertName, inert⟩ := List.forall_mem_cons.1 inert
    rw [pieces_facsimile_cons inertName]
    let next := place + width (pieces (a.facsimileOf n))
    -- behind the node, if the scan gets there
    have behind (pass : Passage [] opened [] later place (pieces (a.facsimileOf n))) :
        Closes [] opened [] later place (pieces (a.facsimileOf n) ++ pieces (a.facsimile ns))
          ↔ ∀ e ∈ facsimileElements a next ns, ∀ r ∈ opened ++ later, ¬Crosses r e := by
      have ahead := width_nonneg (pieces (a.facsimileOf n))
      cases pass with
      | stuck hr => cases hr
      | @through inner' later' last held waiting goesOn =>
        rw [List.append_nil] at last
        have begun : ∀ r ∈ inner', r.start < next := fun r hr => by
          rcases ((held r).1 hr).1 with ho | hl
          · have before := began r ho
            omega
          · exact hl.2
        rw [goesOn, ih inert last begun]
        exact forall₂_congr fun e he =>
          forall_not_crosses_iff h held waiting (start_of_mem_facsimileElements he)
    cases hn : n.facsimileElement? with
    | none =>
      have found : facsimileElements a place (n :: ns) = facsimileElements a next ns := by
        rw [facsimileElements, hn]
      rw [found]
      refine behind (passage_calm (by decide) (calm_facsimileOf hn inertName) ?_)
      rwa [List.append_nil]
    | some shown =>
      obtain ⟨name, content⟩ := shown
      obtain ⟨shape, named, other⟩ := facsimileOf_element (a := a) hn
      have cut : pieces (a.facsimileOf n) = _ := shape ▸ pieces_element named content
      have total : next = place + width (pieces (escape content)) := by
        simp only [next, cut, width_tagged]
      have found : facsimileElements a place (n :: ns)
          = ⟨place, next, name⟩ :: facsimileElements a next ns := by
        rw [facsimileElements, hn]
      rw [found, List.forall_mem_cons]
      have outcome := element_cases named other (calm_of_inert (inert_escape content)) h began
      rw [← cut, ← total] at outcome
      rcases outcome with ⟨⟨r, hr, crosses⟩, stops⟩ | ⟨clear, pass⟩
      · exact iff_of_false (stops _) fun all => all.1 r hr crosses
      · rw [behind pass, and_iff_right clear]

end Crossings

/-! ## 5. The ranges of a word -/

section Words

variable {a : Apparatus} {index : Int} {ns : List Node} {r : CharacterRange}

/-- The ranges of a word come in the order in which they open. -/
theorem ordered_ofWord (a : Apparatus) (index : Int) :
    (ofWord a index).Pairwise fun a b => opensBefore a b = true := by
  refine List.pairwise_mergeSort (fun a b c => ?_) (fun a b => ?_) _
  · simp only [opensBefore, Bool.or_eq_true, decide_eq_true_eq, Bool.and_eq_true, beq_iff_eq]
    omega
  · simp only [opensBefore, Bool.or_eq_true, decide_eq_true_eq, Bool.and_eq_true, beq_iff_eq]
    omega

/-- No remark gives an empty range. -/
theorem nonempty_of_ofRemark? {remark : Remark} (h : ofRemark? remark = some r) :
    r.start < r.stop := by
  unfold ofRemark? at h
  split at h
  · split at h
    · split at h
      · cases h
        assumption
      · cases h
    · cases h
  · cases h

theorem nonempty_of_mem_ofWord (h : r ∈ ofWord a index) : r.start < r.stop := by
  obtain ⟨remark, -, given⟩ := List.mem_filterMap.1 (List.mem_mergeSort.1 h)
  exact nonempty_of_ofRemark? given

/-- **The facsimile with the elements around its ranges is well nested exactly where no range
crosses an element.** For all nodes whose names hold no delimiter, whatever the rules between
the levels, and for all ranges of a word of which none begins before the word and any two are
nested or disjoint. -/
theorem wellNested_inject_iff (inert : ∀ n ∈ ns, n.InertName)
    (begins : ∀ r ∈ ofWord a index, 0 ≤ r.start)
    (apart : (ofWord a index).Pairwise NestedOrDisjoint) :
    WellNested (inject (a.facsimile ns) (ofWord a index))
      ↔ ∀ e ∈ facsimileElements a 0 ns, ∀ r ∈ ofWord a index, ¬Crosses r e := by
  have waiting : Open 0 [] (ofWord a index) :=
    ⟨(ordered_ofWord a index).and apart, fun r hr => nonempty_of_mem_ofWord hr, .nil, nofun,
      begins⟩
  rw [inject_eq, ← text_itemsFrom]
  exact closes_iff inert waiting nofun

/-- A remark that characters of the first word are an initial. -/
def initial (start stop : Int) : Remark where
  id := "initial"
  topic := .paleographic
  target := .characters 0 start stop
  value := .handbook ⟨.character, none, none, none, none, none, none, none, none,
    some .initial, none, none, none⟩
  provenance := none

/-- Only this remark to consult. -/
def initialAlone (start stop : Int) : Apparatus :=
  { Apparatus.empty with remarks := some ⟨"1.0", [initial start stop]⟩ }

/-- A word whose last character is unclear. -/
def unclearEnd : List Node :=
  [.text "ko", .marked .unclear "m"]

theorem ofWord_initialAlone {start stop : Int} (h : start < stop) :
    ofWord (initialAlone start stop) 0 = [⟨start, stop, "initial"⟩] := by
  have given : ofRemark? (initial start stop) = some ⟨start, stop, "initial"⟩ := if_pos h
  have all : ((initialAlone start stop).remarksOn 0).filterMap ofRemark?
      = [⟨start, stop, "initial"⟩] := by
    show [initial start stop].filterMap ofRemark? = _
    rw [List.filterMap_cons_some given]
    rfl
  rw [ofWord, all]
  exact List.mergeSort_singleton _

/-- An initial before the unclear character. -/
theorem wellNested_inject_before :
    let ranges := ofWord (initialAlone 0 2) 0
    (∀ n ∈ unclearEnd, n.InertName) ∧ (∀ r ∈ ranges, 0 ≤ r.start)
      ∧ ranges.Pairwise NestedOrDisjoint
      ∧ WellNested (inject ((initialAlone 0 2).facsimile unclearEnd) ranges) := by
  intro ranges
  have single : ranges = [⟨0, 2, "initial"⟩] := ofWord_initialAlone (by decide)
  have inert : ∀ n ∈ unclearEnd, n.InertName := by
    intro n hn name rfl
    simp [unclearEnd] at hn
  have begins : ∀ r ∈ ranges, 0 ≤ r.start := by rw [single]; decide
  have apart : ranges.Pairwise NestedOrDisjoint := by rw [single]; decide
  refine ⟨inert, begins, apart, (wellNested_inject_iff inert begins apart).2 ?_⟩
  have clear : ∀ e ∈ facsimileElements (initialAlone 0 2) 0 unclearEnd,
      ∀ r ∈ [(⟨0, 2, "initial"⟩ : CharacterRange)], ¬Crosses r e := by
    decide +kernel
  rw [← single] at clear
  exact clear

/-- An initial that ends with the unclear character and begins before it. -/
theorem not_wellNested_inject_across :
    let ranges := ofWord (initialAlone 0 3) 0
    (∀ n ∈ unclearEnd, n.InertName) ∧ (∀ r ∈ ranges, 0 ≤ r.start)
      ∧ ranges.Pairwise NestedOrDisjoint
      ∧ ¬WellNested (inject ((initialAlone 0 3).facsimile unclearEnd) ranges) := by
  intro ranges
  have single : ranges = [⟨0, 3, "initial"⟩] := ofWord_initialAlone (by decide)
  have inert : ∀ n ∈ unclearEnd, n.InertName := by
    intro n hn name rfl
    simp [unclearEnd] at hn
  rw [single]
  exact ⟨inert, by decide, by decide, by decide +kernel⟩

end Words

end CharacterRange

end Transcription
