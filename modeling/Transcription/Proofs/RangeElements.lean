/-
Transcription.Proofs.RangeElements — the elements around ranges of characters cover
exactly their ranges.

Tags that close an element do not say which one, so what an element covers is found by
matching brackets: markup with elements around ranges is taken as the pieces it had and
the tags put in between (`Item`), and each closing tag is matched with the last opening
one that is still open (`elements`). An element then is the range of the characters
between its tags.

Of ranges that are nested or disjoint, and ordered by where they open, those still open
lie in one another: the last one opened ends first (`Open`). So the ranges that end at a
place are the last ones opened, and as many closing tags as ranges end there close just
these (`exists_closing`). **`elements_injected`**: each range that begins within the markup
has one element, of its own kind, that covers the characters of the range and no others,
and there are no other elements.
-/
import Transcription.Proofs.Tags

namespace Transcription.CharacterRange

open Markup

/-! ## 1. Inserted tags -/

/-- A piece of markup, or a tag put in between pieces. -/
inductive Item where
  | kept (p : Piece)
  | opens (kind : Text)
  | closes
  deriving DecidableEq, Repr

/-- The markup of an item. -/
def Item.text : Item → Text
  | .kept p => pieceText p
  | .opens kind => "<c type=\"" ++ escape kind ++ "\">"
  | .closes => "</c>"

/-- The piece that an item is. -/
def Item.kept? : Item → Option Piece
  | .kept p => some p
  | _ => none

/-- Whether a piece is a character. -/
def Piece.isVisible : Piece → Bool
  | .visible _ => true
  | .tag _ => false

/-- How many characters pieces of markup show. -/
def width (ps : List Piece) : Int :=
  ps.countP Piece.isVisible

@[simp] theorem width_nil : width [] = 0 := rfl

@[simp] theorem width_tag (t : Text) (ps : List Piece) : width (.tag t :: ps) = width ps := rfl

@[simp] theorem width_visible (t : Text) (ps : List Piece) :
    width (.visible t :: ps) = width ps + 1 := by
  rw [width, List.countP_cons_of_pos rfl]
  exact Int.natCast_succ _

theorem width_nonneg (ps : List Piece) : 0 ≤ width ps :=
  Int.natCast_nonneg _

/-- The elements that the tags put in make, as ranges of the characters between them: a
closing tag is matched with the last opening one. The tags still open are given with
their kinds and the places where they opened. There are none where tags do not match. -/
def elements : (opened : List (Text × Int)) → (place : Int) → List Item →
    Option (List CharacterRange)
  | opened, _, [] => if opened.isEmpty then some [] else none
  | opened, place, .kept (.tag _) :: is => elements opened place is
  | opened, place, .kept (.visible _) :: is => elements opened (place + 1) is
  | opened, place, .opens kind :: is => elements ((kind, place) :: opened) place is
  | opened, place, .closes :: is =>
      match opened with
      | [] => none
      | (kind, start) :: opened => (elements opened place is).map (⟨start, place, kind⟩ :: ·)

/-- One range lies in the other, or they share no character. -/
def NestedOrDisjoint (a b : CharacterRange) : Prop :=
  a.start ≤ b.start ∧ b.stop ≤ a.stop ∨ b.start ≤ a.start ∧ a.stop ≤ b.stop
    ∨ a.stop ≤ b.start ∨ b.stop ≤ a.start

instance (a b : CharacterRange) : Decidable (NestedOrDisjoint a b) :=
  inferInstanceAs (Decidable (_ ∨ _))

/-- The part of a range that lies before a place. -/
def before (place : Int) (r : CharacterRange) : CharacterRange :=
  { r with stop := min r.stop place }

/-! ## 2. The tags that are put in -/

/-- Pieces with the tags that are put in between them, for the ranges still to open, the
ends of those that are open, and the place of the next character. -/
def itemsFrom (later : List CharacterRange) (stops : List Int) (index : Int) :
    List Piece → List Item
  | [] => List.replicate stops.length .closes
  | .tag t :: ps => .kept (.tag t) :: itemsFrom later stops index ps
  | .visible t :: ps =>
      let opened := later.takeWhile (·.start = index)
      let stops := stops ++ opened.map stop
      opened.map (.opens ·.kind)
        ++ .kept (.visible t) :: (List.replicate (stops.count (index + 1)) .closes
          ++ itemsFrom (later.dropWhile (·.start = index)) (stops.filter (· ≠ index + 1))
            (index + 1) ps)

section Items

variable {later : List CharacterRange} {stops : List Int} {index : Int} {ps : List Piece}

theorem openAt_eq (index : Int) (later : List CharacterRange) :
    openAt index later = ((later.takeWhile (·.start = index)).flatMap openTag,
      (later.takeWhile (·.start = index)).map stop, later.dropWhile (·.start = index)) := by
  induction later with
  | nil => rfl
  | cons r later ih =>
    by_cases hr : r.start = index
    · simp [openAt, hr, ih]
    · simp [openAt, hr]

theorem text_opens (opened : List CharacterRange) :
    (opened.map (Item.opens ·.kind)).flatMap Item.text = opened.flatMap openTag := by
  rw [List.flatMap_map]
  rfl

theorem text_closes (count : Nat) :
    (List.replicate count Item.closes).flatMap Item.text = closeTags count := by
  induction count with
  | zero => rfl
  | succ count ih =>
    rw [List.replicate_succ, List.flatMap_cons, ih]
    rfl

/-- The items make up the markup with its elements. -/
theorem text_itemsFrom (later : List CharacterRange) (stops : List Int) (index : Int)
    (ps : List Piece) :
    (itemsFrom later stops index ps).flatMap Item.text = injectFrom later stops index ps := by
  induction ps generalizing later stops index with
  | nil => exact text_closes stops.length
  | cons p ps ih =>
    cases p with
    | tag t => exact congrArg (t ++ ·) (ih later stops index)
    | visible t =>
      simp only [itemsFrom, injectFrom, openAt_eq, List.flatMap_append, List.flatMap_cons,
        text_opens, text_closes, ih, List.append_assoc]
      rfl

/-- The pieces among the items are those of the markup. -/
theorem kept_itemsFrom (later : List CharacterRange) (stops : List Int) (index : Int)
    (ps : List Piece) : (itemsFrom later stops index ps).filterMap Item.kept? = ps := by
  induction ps generalizing later stops index with
  | nil => simp [itemsFrom, List.filterMap_replicate, Item.kept?]
  | cons p ps ih =>
    cases p with
    | tag t => exact congrArg (Piece.tag t :: ·) (ih later stops index)
    | visible t =>
      have none : (later.takeWhile (·.start = index)).filterMap
          (Item.kept? ∘ fun r => .opens r.kind) = [] :=
        List.filterMap_eq_nil_iff.2 fun _ _ => rfl
      simp [itemsFrom, ih, none, List.filterMap_replicate, Item.kept?]

end Items

/-! ## 3. Ranges that are open -/

/-- A range may come before another one: it opens no later, and they are nested or
disjoint. -/
def Precedes (a b : CharacterRange) : Prop :=
  opensBefore a b = true ∧ NestedOrDisjoint a b

/-- Ranges at a place: those that are open, the last one opened first, and those that are
still to open. -/
structure Open (place : Int) (opened later : List CharacterRange) : Prop where
  ordered : (opened.reverse ++ later).Pairwise Precedes
  nonempty : ∀ r ∈ opened.reverse ++ later, r.start < r.stop
  /-- Those that are open lie in one another. -/
  nested : opened.Pairwise fun inner outer => inner.stop ≤ outer.stop
  goesOn : ∀ r ∈ opened, place < r.stop
  waits : ∀ r ∈ later, place ≤ r.start

section Stack

variable {a b : CharacterRange} {place : Int} {opened later : List CharacterRange}

theorem start_le_of_opensBefore (h : opensBefore a b = true) : a.start ≤ b.start := by
  simp only [opensBefore, Bool.or_eq_true, decide_eq_true_eq, Bool.and_eq_true, beq_iff_eq] at h
  omega

/-- A range that opens while another one is open ends no later. -/
theorem Precedes.stop_le (h : Precedes a b) (_ : b.start < b.stop) (_ : b.start < a.stop) :
    b.stop ≤ a.stop := by
  obtain ⟨first, apart⟩ := h
  simp only [opensBefore, Bool.or_eq_true, decide_eq_true_eq, Bool.and_eq_true, beq_iff_eq]
    at first
  unfold NestedOrDisjoint at apart
  omega

/-- The ranges that start at a place are the first ones waiting there. -/
theorem waits_dropWhile (h : later.Pairwise Precedes) (hw : ∀ r ∈ later, place ≤ r.start) :
    ∀ r ∈ later.dropWhile (·.start = place), place + 1 ≤ r.start := by
  induction later with
  | nil => nofun
  | cons r later ih =>
    obtain ⟨first, rest⟩ := List.pairwise_cons.1 h
    obtain ⟨hr, hl⟩ := List.forall_mem_cons.1 hw
    by_cases here : r.start = place
    · rw [List.dropWhile_cons_of_pos (by simpa using here)]
      exact ih rest hl
    · rw [List.dropWhile_cons_of_neg (by simpa using here)]
      refine List.forall_mem_cons.2 ⟨by omega, fun b hb => ?_⟩
      have after := start_le_of_opensBefore (first b hb).1
      omega

/-- The ranges that start at a place open there, inside of those that are open. -/
theorem Open.extended (h : Open place opened later) :
    Open place ((later.takeWhile (·.start = place)).reverse ++ opened)
      (later.dropWhile (·.start = place)) := by
  obtain ⟨-, among, across⟩ := List.pairwise_append.1 h.ordered
  have starts : ∀ r ∈ later.takeWhile (·.start = place), r ∈ later ∧ r.start = place :=
    fun r hr => ⟨(List.takeWhile_sublist _).subset hr, by
      simpa using List.all_eq_true.1 List.all_takeWhile r hr⟩
  have nonempty : ∀ r ∈ later, r.start < r.stop :=
    fun r hr => h.nonempty r (List.mem_append_right _ hr)
  have same : ((later.takeWhile (·.start = place)).reverse ++ opened).reverse
      ++ later.dropWhile (·.start = place) = opened.reverse ++ later := by
    rw [List.reverse_append, List.reverse_reverse, List.append_assoc,
      List.takeWhile_append_dropWhile]
  refine ⟨by rw [same]; exact h.ordered, by rw [same]; exact h.nonempty, ?_, ?_,
    fun r hr => h.waits r ((List.dropWhile_sublist _).subset hr)⟩
  · refine List.pairwise_append.2 ⟨?_, h.nested, fun inner hi outer ho => ?_⟩
    · rw [List.pairwise_reverse]
      refine (among.sublist (List.takeWhile_sublist _)).imp_of_mem fun {a b} ha hb hab => ?_
      obtain ⟨ma, sa⟩ := starts a ha
      obtain ⟨mb, sb⟩ := starts b hb
      have begun := nonempty a ma
      exact hab.stop_le (nonempty b mb) (by omega)
    · obtain ⟨mi, si⟩ := starts inner (List.mem_reverse.1 hi)
      have still := h.goesOn outer ho
      exact (across outer (List.mem_reverse.2 ho) inner mi).stop_le (nonempty inner mi) (by omega)
  · refine List.forall_mem_append.2 ⟨fun r hr => ?_, h.goesOn⟩
    obtain ⟨mr, sr⟩ := starts r (List.mem_reverse.1 hr)
    have begun := nonempty r mr
    omega

/-- The ranges that end at the next place are the last ones opened. -/
theorem exists_closing (nested : opened.Pairwise fun inner outer => inner.stop ≤ outer.stop)
    (goesOn : ∀ r ∈ opened, place < r.stop) :
    ∃ closing rest, opened = closing ++ rest ∧ (∀ r ∈ closing, r.stop = place + 1)
      ∧ ∀ r ∈ rest, place + 1 < r.stop := by
  induction opened with
  | nil => exact ⟨[], [], rfl, nofun, nofun⟩
  | cons r opened ih =>
    obtain ⟨outer, nested⟩ := List.pairwise_cons.1 nested
    obtain ⟨hr, goesOn⟩ := List.forall_mem_cons.1 goesOn
    by_cases ends : r.stop = place + 1
    · obtain ⟨closing, rest, rfl, hc, hrest⟩ := ih nested goesOn
      exact ⟨r :: closing, rest, rfl, List.forall_mem_cons.2 ⟨ends, hc⟩, hrest⟩
    · refine ⟨[], r :: opened, rfl, nofun, List.forall_mem_cons.2 ⟨by omega, fun b hb => ?_⟩⟩
      have longer := outer b hb
      omega

/-- Once these are closed, the others are open at the next place. -/
theorem Open.closed {closing rest : List CharacterRange} (h : Open place (closing ++ rest) later)
    (hr : ∀ r ∈ rest, place + 1 < r.stop) (hl : ∀ r ∈ later, place + 1 ≤ r.start) :
    Open (place + 1) rest later := by
  have fewer : (rest.reverse ++ later).Sublist ((closing ++ rest).reverse ++ later) := by
    rw [List.reverse_append]
    exact (List.sublist_append_left _ _).append (List.Sublist.refl later)
  exact ⟨h.ordered.sublist fewer, fun r hr => h.nonempty r (fewer.subset hr),
    (List.pairwise_append.1 h.nested).2.1, hr, hl⟩

end Stack

/-! ## 4. Elements of ranges -/

/-- The opening tag of a range as it waits for its closing tag. -/
def entry (r : CharacterRange) : Text × Int :=
  (r.kind, r.start)

section Elements

variable {opened later closing rest : List CharacterRange} {place : Int} {is : List Item}
  {ps : List Piece}

theorem elements_opens (stack : List (Text × Int)) (place : Int) (is : List Item)
    (starts : ∀ r ∈ opened, r.start = place) :
    elements stack place (opened.map (.opens ·.kind) ++ is)
      = elements (opened.reverse.map entry ++ stack) place is := by
  induction opened generalizing stack with
  | nil => rfl
  | cons r opened ih =>
    obtain ⟨hr, starts⟩ := List.forall_mem_cons.1 starts
    show elements ((r.kind, place) :: stack) place (opened.map (.opens ·.kind) ++ is) = _
    rw [ih _ starts, List.reverse_cons, List.map_append, List.append_assoc, ← hr]
    rfl

theorem elements_closes (stack : List (Text × Int)) (place : Int) (is : List Item)
    (closing : List CharacterRange) :
    elements (closing.map entry ++ stack) place (List.replicate closing.length .closes ++ is)
      = (elements stack place is).map
          (closing.map (fun r => { r with stop := place }) ++ ·) := by
  induction closing with
  | nil => cases h : elements stack place is <;> simp [h]
  | cons r closing ih =>
    show (elements (closing.map entry ++ stack) place
      (List.replicate closing.length .closes ++ is)).map _ = _
    rw [ih, Option.map_map]
    rfl

/-- As many closing tags are written as ranges end. -/
theorem count_stops (hc : ∀ r ∈ closing, r.stop = place) (hr : ∀ r ∈ rest, place < r.stop) :
    ((closing ++ rest).reverse.map stop).count place = closing.length
      ∧ ((closing ++ rest).reverse.map stop).filter (· ≠ place) = rest.reverse.map stop := by
  have ending : closing.map stop = List.replicate closing.length place :=
    List.map_eq_replicate_iff.2 hc
  have other : ∀ e ∈ rest.reverse.map stop, place < e := by
    simpa using hr
  have none : place ∉ rest.reverse.map stop := fun hp => absurd (other place hp) (by omega)
  have kept : (rest.reverse.map stop).filter (· ≠ place) = rest.reverse.map stop :=
    List.filter_eq_self.2 fun e he => by
      have := other e he
      simp only [decide_eq_true_eq]
      omega
  rw [List.reverse_append, List.map_append, List.map_reverse (l := closing), ending]
  constructor
  · rw [List.count_append, List.count_eq_zero_of_not_mem none, List.count_reverse,
      List.count_replicate_self, Nat.zero_add]
  · rw [List.filter_append, kept]
    simp

/-- At a character the ranges that start there open, and those that end with it close: of all
that are then open, they are the last ones opened. -/
theorem exists_turn (h : Open place opened later) :
    ∃ closing rest, (later.takeWhile (·.start = place)).reverse ++ opened = closing ++ rest
      ∧ (∀ r ∈ closing, r.stop = place + 1)
      ∧ Open (place + 1) rest (later.dropWhile (·.start = place))
      ∧ ∀ t ps, itemsFrom later (opened.reverse.map stop) place (.visible t :: ps)
        = (later.takeWhile (·.start = place)).map (.opens ·.kind)
          ++ .kept (.visible t) :: (List.replicate closing.length .closes
            ++ itemsFrom (later.dropWhile (·.start = place)) (rest.reverse.map stop)
              (place + 1) ps) := by
  have waits := waits_dropWhile (List.pairwise_append.1 h.ordered).2.1 h.waits
  obtain ⟨closing, rest, same, ends, goesOn⟩ := exists_closing h.extended.nested h.extended.goesOn
  obtain ⟨count, left⟩ := count_stops ends goesOn
  have stops : opened.reverse.map stop ++ (later.takeWhile (·.start = place)).map stop
      = (closing ++ rest).reverse.map stop := by
    rw [← same, List.reverse_append, List.reverse_reverse, List.map_append]
  refine ⟨closing, rest, same, ends, (same ▸ h.extended).closed goesOn waits, fun t ps => ?_⟩
  rw [itemsFrom, stops, count, left]

/-- The ranges that end with a character give their elements. -/
theorem exists_step (h : Open place opened later) (t : Text) (ps : List Piece) :
    ∃ closing rest, (later.takeWhile (·.start = place)).reverse ++ opened = closing ++ rest
      ∧ (∀ r ∈ closing, r.stop = place + 1)
      ∧ Open (place + 1) rest (later.dropWhile (·.start = place))
      ∧ elements (opened.map entry) place
          (itemsFrom later (opened.reverse.map stop) place (.visible t :: ps))
        = (elements (rest.map entry) (place + 1) (itemsFrom (later.dropWhile (·.start = place))
            (rest.reverse.map stop) (place + 1) ps)).map
              (closing.map (fun r => { r with stop := place + 1 }) ++ ·) := by
  have starts : ∀ r ∈ later.takeWhile (·.start = place), r.start = place :=
    fun r hr => by simpa using List.all_eq_true.1 List.all_takeWhile r hr
  obtain ⟨closing, rest, same, ends, next, items⟩ := exists_turn h
  refine ⟨closing, rest, same, ends, next, ?_⟩
  rw [items, elements_opens _ _ _ starts, ← List.map_append, same]
  show elements ((closing ++ rest).map entry) (place + 1) _ = _
  rw [List.map_append, elements_closes]

/-- The ranges that start at a place are the first of those that begin before a later
one. -/
theorem filter_begun {n : Int} (hn : place < n) (later : List CharacterRange) :
    later.filter (·.start < n) = later.takeWhile (·.start = place)
      ++ (later.dropWhile (·.start = place)).filter (·.start < n) := by
  have all : (later.takeWhile (·.start = place)).filter (·.start < n)
      = later.takeWhile (·.start = place) := by
    refine List.filter_eq_self.2 fun r hr => ?_
    have starts : r.start = place := by simpa using List.all_eq_true.1 List.all_takeWhile r hr
    simpa [starts] using hn
  have whole := congrArg (List.filter (·.start < n))
    (List.takeWhile_append_dropWhile (p := (·.start = place)) (l := later))
  rw [List.filter_append, all] at whole
  exact whole.symm

/-- What is left of the ranges at a place gives their elements: those that are open go on
to their ends, and the others are still to come. -/
theorem elements_itemsFrom (ps : List Piece) (h : Open place opened later) :
    ∃ found, elements (opened.map entry) place
        (itemsFrom later (opened.reverse.map stop) place ps) = some found
      ∧ found.Perm ((opened ++ later.filter (·.start < place + width ps)).map
          (before (place + width ps))) := by
  induction ps generalizing place opened later with
  | nil =>
    rw [width_nil, Int.add_zero]
    -- all that are open end with the markup, and the others begin behind it
    have late : later.filter (·.start < place) = [] :=
      List.filter_eq_nil_iff.2 fun r hr => by simpa using h.waits r hr
    have ends := elements_closes [] place [] opened
    rw [List.append_nil, List.append_nil] at ends
    refine ⟨opened.map fun r => { r with stop := place }, ?_, ?_⟩
    · rw [itemsFrom, List.length_map, List.length_reverse, ends]
      simp [elements]
    · rw [late, List.append_nil]
      refine List.Perm.of_eq (List.map_congr_left fun r hr => ?_)
      rw [before, Int.min_eq_right (Int.le_of_lt (h.goesOn r hr))]
  | cons p ps ih =>
    cases p with
    | tag t => exact ih h
    | visible t =>
      obtain ⟨closing, rest, same, ends, next, step⟩ := exists_step h t ps
      obtain ⟨found, run, perm⟩ := ih next
      have last : place + width (.visible t :: ps) = place + 1 + width ps := by
        rw [width_visible]
        omega
      have inside : place + 1 ≤ place + 1 + width ps := by
        have := width_nonneg ps
        omega
      rw [last, step, run]
      generalize place + 1 + width ps = n at perm inside ⊢
      refine ⟨_, rfl, ?_⟩
      have clipped : closing.map (fun r => { r with stop := place + 1 })
          = closing.map (before n) := by
        refine List.map_congr_left fun r hr => ?_
        rw [before, ends r hr, Int.min_eq_left inside]
      rw [clipped, filter_begun (Int.lt_of_add_one_le inside)]
      refine (perm.append_left _).trans ?_
      rw [← List.map_append, ← List.append_assoc, ← same, ← List.append_assoc]
      refine List.Perm.map _ (List.Perm.append_right _ ?_)
      exact List.perm_append_comm.trans ((List.reverse_perm _).append_left _)

end Elements

/-! ## 5. Markup with its elements -/

theorem injectFrom_nil (index : Int) (ps : List Piece) :
    injectFrom [] [] index ps = ps.flatMap pieceText := by
  induction ps generalizing index with
  | nil => rfl
  | cons p ps ih =>
    cases p with
    | tag t => exact congrArg (t ++ ·) (ih index)
    | visible t =>
      show [] ++ t ++ [] ++ injectFrom [] [] (index + 1) ps = t ++ ps.flatMap pieceText
      rw [ih, List.append_nil, List.nil_append]

/-- Markup with elements is written from its pieces, also where there are no ranges. -/
theorem inject_eq (xml : Text) (ranges : List CharacterRange) :
    inject xml ranges = injectFrom ranges [] 0 (pieces xml) := by
  unfold inject
  split
  · next none => rw [List.isEmpty_iff.1 none, injectFrom_nil, flatMap_pieces]
  · rfl

/-- **Elements cover exactly their ranges.** For all markup, and all ranges in the order in
which they open of which any two are nested or disjoint: the markup with elements around
the ranges is the pieces of the markup with tags put in between, and these tags make one
element for each range that begins among the characters, of its kind and around its
characters, and no other. -/
theorem elements_injected (xml : Text) {ranges : List CharacterRange}
    (ordered : ranges.Pairwise fun a b => opensBefore a b = true)
    (proper : ∀ r ∈ ranges, 0 ≤ r.start ∧ r.start < r.stop)
    (apart : ranges.Pairwise NestedOrDisjoint) :
    ∃ items found, inject xml ranges = items.flatMap Item.text
      ∧ items.filterMap Item.kept? = pieces xml
      ∧ elements [] 0 items = some found
      ∧ found.Perm ((ranges.filter (·.start < width (pieces xml))).map
          (before (width (pieces xml)))) := by
  have waiting : Open 0 [] ranges :=
    ⟨ordered.and apart, fun r hr => (proper r hr).2, .nil, nofun, fun r hr => (proper r hr).1⟩
  obtain ⟨found, run, perm⟩ := elements_itemsFrom (pieces xml) waiting
  rw [Int.zero_add] at perm
  refine ⟨itemsFrom ranges [] 0 (pieces xml), found, ?_, kept_itemsFrom .., run, perm⟩
  rw [text_itemsFrom, inject_eq]

/-- Four characters, one of them in an inner element and one a reference. -/
def rangeSample : Text :=
  "a<b>c&d;</b>e"

/-- A range that goes on behind the markup, two of the same characters, one with the
same end, and one that begins behind the markup. -/
def sampleRanges : List CharacterRange :=
  [⟨0, 9, "p"⟩, ⟨1, 3, "q"⟩, ⟨1, 3, "r"⟩, ⟨2, 3, "s"⟩, ⟨7, 8, "t"⟩]

theorem elements_injected_sample :
    (sampleRanges.Pairwise fun a b => opensBefore a b = true)
    ∧ (∀ r ∈ sampleRanges, 0 ≤ r.start ∧ r.start < r.stop)
    ∧ sampleRanges.Pairwise NestedOrDisjoint
    ∧ ∃ items found, inject rangeSample sampleRanges = items.flatMap Item.text
      ∧ items.filterMap Item.kept? = pieces rangeSample
      ∧ elements [] 0 items = some found
      ∧ found.Perm [⟨0, 4, "p"⟩, ⟨1, 3, "q"⟩, ⟨1, 3, "r"⟩, ⟨2, 3, "s"⟩] := by
  have ordered : sampleRanges.Pairwise fun a b => opensBefore a b = true := by decide
  have proper : ∀ r ∈ sampleRanges, 0 ≤ r.start ∧ r.start < r.stop := by decide
  have apart : sampleRanges.Pairwise NestedOrDisjoint := by decide
  have four : width (pieces rangeSample) = 4 := by decide +kernel
  have result := elements_injected rangeSample ordered proper apart
  rw [four] at result
  exact ⟨ordered, proper, apart, result⟩

end Transcription.CharacterRange
