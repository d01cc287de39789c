/-
Transcription.Proofs.InsertedTags — elements around ranges leave the markup they are put
into as it was, whatever the markup and the ranges are.

Markup is cut into units: tags, references and single characters. Where a tag or a reference
does not end, it is the last unit and reaches to the end of the markup (`units_pieces`), so
that nothing can be put inside of one, however malformed the markup is.

The ranges need not be ordered, may be empty, may cross and may lie outside of the markup.
They open in the order in which they are given, up to the first one whose place does not
come; a range whose end is not met after its opening stays open up to the end of the markup.
So every tag that opens an element is followed by its own closing tag (`balanced_itemsFrom`),
and **`markup_intact`**: what is put in are opening and closing tags between units, at most
one pair for each range, and no closing tag comes before its opening one.
-/
import Transcription.Proofs.RangeElements

namespace Transcription.CharacterRange

open Markup

/-! ## 1. Units of any markup -/

/-- Tags from one angle bracket to the next closing one, references from the ampersand to
the next semicolon, and other characters by themselves. Only the last unit may be a tag or
reference that does not end. -/
inductive Units : List Piece → Prop
  | nil : Units []
  | char {c : Char} {ps : List Piece} (less : c ≠ '<') (amp : c ≠ '&') (h : Units ps) :
      Units (.visible [c] :: ps)
  | tag {body : Text} {ps : List Piece} (hb : '>' ∉ body) (h : Units ps) :
      Units (.tag ('<' :: body ++ ['>']) :: ps)
  | reference {name : Text} {ps : List Piece} (hn : ';' ∉ name) (h : Units ps) :
      Units (.visible ('&' :: name ++ [';']) :: ps)
  | endlessTag {body : Text} (hb : '>' ∉ body) : Units [.tag ('<' :: body)]
  | endlessReference {name : Text} (hn : ';' ∉ name) : Units [.visible ('&' :: name)]

/-- What reaches up to a sign ends with it, or the sign does not occur. -/
theorem through_cases (mark : Char) (t : Text) :
    (∃ body, mark ∉ body ∧ (through mark t).1 = body ++ [mark])
      ∨ mark ∉ t ∧ through mark t = (t, []) := by
  by_cases hm : mark ∈ t
  · obtain ⟨body, rest, rfl, fresh⟩ := List.eq_append_cons_of_mem hm
    exact .inl ⟨body, fresh, by rw [through_append fresh]⟩
  · cases hc : Text.upTo? mark t with
    | none => exact .inr ⟨hm, by rw [through, hc]⟩
    | some cut =>
      have found := Text.upTo?_eq hc
      exact absurd (found ▸ List.mem_append_right _ List.mem_cons_self) hm

/-- Every text is cut into units. -/
theorem units_pieces (t : Text) : Units (pieces t) := by
  fun_induction pieces t with
  | case1 => exact .nil
  | case2 t ih =>
    rcases through_cases '>' t with ⟨body, fresh, cut⟩ | ⟨endless, cut⟩
    · rw [cut]
      exact .tag fresh ih
    · rw [cut, pieces]
      exact .endlessTag endless
  | case3 t _ ih =>
    rcases through_cases ';' t with ⟨name, fresh, cut⟩ | ⟨endless, cut⟩
    · rw [cut]
      exact .reference fresh ih
    · rw [cut, pieces]
      exact .endlessReference endless
  | case4 c t less amp ih => exact .char less amp ih

/-! ## 2. Tags that are put in -/

/-- Whether an item is a tag that opens an element. -/
def Item.isOpening : Item → Bool
  | .opens _ => true
  | _ => false

/-- Whether an item is a tag that closes an element. -/
def Item.isClosing : Item → Bool
  | .closes => true
  | _ => false

/-- The kind of the element that an item opens. -/
def Item.opened? : Item → Option Text
  | .opens kind => some kind
  | _ => none

/-- With a number of elements open before them, items close each element once, and none
before it is open. -/
structure Balanced (opened : Nat) (is : List Item) : Prop where
  settled : is.countP Item.isClosing = opened + is.countP Item.isOpening
  within : ∀ front, front <+: is →
    front.countP Item.isClosing ≤ opened + front.countP Item.isOpening

section Balance

variable {n : Nat} {is : List Item} {later : List CharacterRange} {stops : List Int}
  {index : Int} {ps : List Piece}

theorem balanced_nil : Balanced 0 [] :=
  ⟨rfl, fun front hf => by rw [List.prefix_nil.1 hf]; exact Nat.le_refl 0⟩

/-- One more item, which changes the number of open elements from `n` to `m`. -/
theorem Balanced.cons {m : Nat} {i : Item} (h : Balanced m is)
    (changes : n + (if i.isOpening then 1 else 0) = m + (if i.isClosing then 1 else 0)) :
    Balanced n (i :: is) := by
  refine ⟨?_, fun front hf => ?_⟩
  · have rest := h.settled
    rw [List.countP_cons, List.countP_cons]
    omega
  · rcases List.prefix_cons_iff.1 hf with rfl | ⟨front, rfl, fits⟩
    · exact Nat.zero_le _
    · have rest := h.within front fits
      rw [List.countP_cons, List.countP_cons]
      omega

theorem Balanced.kept (h : Balanced n is) (p : Piece) : Balanced n (.kept p :: is) :=
  h.cons rfl

theorem Balanced.opens (opened : List CharacterRange) (h : Balanced (n + opened.length) is) :
    Balanced n (opened.map (.opens ·.kind) ++ is) := by
  induction opened generalizing n with
  | nil => exact h
  | cons r opened ih =>
    have rest : Balanced (n + 1) (opened.map (.opens ·.kind) ++ is) := ih (by
      rwa [List.length_cons, Nat.add_comm opened.length, ← Nat.add_assoc] at h)
    exact rest.cons rfl

theorem Balanced.closes (count : Nat) (h : Balanced n is) :
    Balanced (n + count) (List.replicate count .closes ++ is) := by
  induction count with
  | zero => exact h
  | succ count ih => exact ih.cons rfl

/-- The ends of open ranges are those that are closed now and those that stay open. -/
theorem length_stops (stops : List Int) (place : Int) :
    stops.length = (stops.filter (· ≠ place)).length + stops.count place := by
  induction stops with
  | nil => rfl
  | cons e stops ih =>
    by_cases here : e = place
    · simp [here] at ih ⊢
      omega
    · simp [here] at ih ⊢
      omega

/-- Every range that opens is closed, wherever it ends. -/
theorem balanced_itemsFrom (later : List CharacterRange) (stops : List Int) (index : Int)
    (ps : List Piece) : Balanced stops.length (itemsFrom later stops index ps) := by
  induction ps generalizing later stops index with
  | nil =>
    have all := balanced_nil.closes stops.length
    rwa [Nat.zero_add, List.append_nil] at all
  | cons p ps ih =>
    cases p with
    | tag t => exact (ih later stops index).kept _
    | visible t =>
      let opened := later.takeWhile (·.start = index)
      let stops' := stops ++ opened.map stop
      have rest := (ih (later.dropWhile (·.start = index)) (stops'.filter (· ≠ index + 1))
        (index + 1)).closes (stops'.count (index + 1))
      rw [← length_stops, List.length_append, List.length_map] at rest
      exact (rest.kept (.visible t)).opens opened

/-- Ranges open in the order in which they are given, each at most once. -/
theorem opened_itemsFrom (later : List CharacterRange) (stops : List Int) (index : Int)
    (ps : List Piece) :
    (itemsFrom later stops index ps).filterMap Item.opened? <+: later.map kind := by
  have closing (count : Nat) : (List.replicate count Item.closes).filterMap Item.opened? = [] := by
    simp [List.filterMap_replicate, Item.opened?]
  induction ps generalizing later stops index with
  | nil =>
    rw [itemsFrom, closing]
    exact List.nil_prefix
  | cons p ps ih =>
    cases p with
    | tag t => exact ih later stops index
    | visible t =>
      have now (opened : List CharacterRange) :
          (opened.map (Item.opens ·.kind)).filterMap Item.opened? = opened.map kind := by
        rw [List.filterMap_map, ← List.filterMap_eq_map]
        rfl
      have cut : later.map kind = (later.takeWhile (·.start = index)).map kind
          ++ (later.dropWhile (·.start = index)).map kind := by
        rw [← List.map_append, List.takeWhile_append_dropWhile]
      rw [itemsFrom, List.filterMap_append, now, cut,
        List.filterMap_cons_none (by rfl), List.filterMap_append, closing, List.nil_append]
      exact (List.prefix_append_right_inj _).2 (ih _ _ _)

end Balance

/-! ## 3. The markup as it was -/

/-- **Elements around ranges leave the markup as it was.** For all markup and all ranges, in
any order and with any bounds: the markup with the elements is the units of the markup with
tags put in between; without these it is the markup again. The ranges that open do so in
their order, each with one tag; as many tags close elements as open them, and up to no place
do more close than open. -/
theorem markup_intact (xml : Text) (ranges : List CharacterRange) :
    ∃ items, inject xml ranges = items.flatMap Item.text
      ∧ items.filterMap Item.kept? = pieces xml
      ∧ Units (pieces xml) ∧ (pieces xml).flatMap pieceText = xml
      ∧ items.filterMap Item.opened? <+: ranges.map kind
      ∧ items.countP Item.isClosing = items.countP Item.isOpening
      ∧ ∀ front, front <+: items →
        front.countP Item.isClosing ≤ front.countP Item.isOpening := by
  have balanced : Balanced 0 (itemsFrom ranges [] 0 (pieces xml)) :=
    balanced_itemsFrom ranges [] 0 (pieces xml)
  refine ⟨itemsFrom ranges [] 0 (pieces xml), ?_, kept_itemsFrom .., units_pieces xml,
    flatMap_pieces xml, opened_itemsFrom .., ?_, fun front hf => ?_⟩
  · rw [text_itemsFrom, inject_eq]
  · rw [balanced.settled, Nat.zero_add]
  · have within := balanced.within front hf
    rwa [Nat.zero_add] at within

/-- Ranges that cross, that end before they begin and that never open, in markup whose last
reference does not end. -/
example : inject "a<b>c&d" [⟨0, 2, "p"⟩, ⟨1, 0, "q"⟩, ⟨-1, 9, "r"⟩, ⟨2, 3, "s"⟩]
    = "<c type=\"p\">a<b><c type=\"q\">c</c>&d</c>" := by
  decide +kernel

end Transcription.CharacterRange
