/-
Transcription.Proofs.GapPlacement — gaps that do not stand right after a name.

A square bracket opens a gap, or it ends the opening of an abbreviation, and which of the
two it does is told by the five characters before it. The characters of a name may come
from several pieces of text that are put one after the other, and blanks may be lost where
pieces meet. So a piece is asked not to end like the name of an abbreviation, and not to
make what stands before it end so, blanks aside (`Guarded`). This is kept when pieces are
put together, lose blanks at their ends, or are put inside of constructs: these end in
brackets and signs. Only plain text can fail, where it is an end of the name or ends in
the name (`Completes`). Where there are no gaps, nothing is asked of text.

**`Guarded.unmistaken`**: in such a text no gap is taken for an abbreviation.
-/
import Transcription.Proofs.Brackets

namespace Transcription.Lexer

/-! ## 1. Ends like a name -/

/-- The characters of a text that are not blanks. -/
def squeezed (t : Text) : Text :=
  t.filter fun c => !isBlank c

/-- A text that does not end like the name of an abbreviation, blanks aside. -/
def Unnamed (t : Text) : Prop :=
  ¬ abbreviationName <:+ squeezed t

/-- A text that, put after others, may make them end like the name of an abbreviation:
blanks aside it is an end of the name, or ends in it. -/
def Completes (t : Text) : Prop :=
  squeezed t ≠ [] ∧ (squeezed t <:+ abbreviationName ∨ abbreviationName <:+ squeezed t)

instance : DecidablePred Completes :=
  fun _ => inferInstanceAs (Decidable (_ ∧ _))

instance : DecidablePred Unnamed :=
  fun _ => inferInstanceAs (Decidable (¬ _))

section Names

variable {before label t u : Text} {c : Char}

/-- Blanks are taken out of two texts separately. -/
theorem squeezed_append (t u : Text) : squeezed (t ++ u) = squeezed t ++ squeezed u :=
  List.filter_append t u

theorem squeezed_cons_blank (hc : isBlank c = true) (t : Text) :
    squeezed (c :: t) = squeezed t := by
  simp [squeezed, hc]

theorem squeezed_cons (hc : isBlank c = false) (t : Text) :
    squeezed (c :: t) = c :: squeezed t := by
  simp [squeezed, hc]

/-- A blank text has nothing else. -/
theorem squeezed_of_blank (h : ∀ c ∈ t, isBlank c = true) : squeezed t = [] :=
  List.filter_eq_nil_iff.2 fun c hc => by simp [h c hc]

theorem squeezed_subset : squeezed t ⊆ t :=
  fun _ hc => (List.mem_filter.1 hc).1

theorem unnamed_nil : Unnamed [] := by
  decide

/-- A nonempty end of the name has its last letter. -/
theorem mem_of_suffix_name (h : t <:+ abbreviationName) (hne : t ≠ []) : 'r' ∈ t := by
  have name : abbreviationName = ['.', 'a', 'b', 'b'] ++ ['r'] := rfl
  rw [name] at h
  obtain rfl | ⟨u, rfl, -⟩ := List.suffix_concat_iff.1 h
  · exact absurd rfl hne
  · simp

/-- Text that makes a name complete brings its last letter. -/
theorem Completes.mem (h : Completes t) : 'r' ∈ t := by
  obtain ⟨hne, short | long⟩ := h
  · exact squeezed_subset (mem_of_suffix_name short hne)
  · exact squeezed_subset (long.subset (by decide))

/-- A character that the name does not have keeps what comes before it apart. -/
theorem unnamed_append_cons (hb : isBlank c = false) (hc : c ∉ abbreviationName)
    (h : Unnamed label) : Unnamed (before ++ c :: label) := by
  intro name
  rw [squeezed_append, squeezed_cons hb] at name
  rcases List.suffix_or_suffix_of_suffix name (List.suffix_append _ _) with short | long
  · rcases List.suffix_cons_iff.1 short with same | later
    · exact hc (same ▸ List.mem_cons_self)
    · exact h later
  · exact hc (long.subset List.mem_cons_self)

/-- Text that does not complete a name does not make one with what stands before it. -/
theorem Unnamed.append (hb : Unnamed before) (ht : ¬ Completes t) : Unnamed (before ++ t) := by
  intro name
  rw [squeezed_append] at name
  by_cases hne : squeezed t = []
  · rw [hne, List.append_nil] at name
    exact hb name
  · rcases List.suffix_or_suffix_of_suffix name (List.suffix_append _ _) with long | short
    · exact ht ⟨hne, .inr long⟩
    · exact ht ⟨hne, .inl short⟩

end Names

/-! ## 2. Brackets that are told apart -/

/-- A square bracket is that of an abbreviation, or else it may be that of a gap, if there
are any, and no name stands before it. -/
def Told (gaps : Bool) (before : Text) (c : Char) (after : Text) : Prop :=
  c = '[' → gaps = true ∧ Unnamed before
    ∨ ∃ abbr expansion, Level abbr ∧ Level expansion
      ∧ abbr ++ ']' :: '{' :: expansion ++ ['}'] <+: after

/-- Put after a text that does not end like a name, a text makes none that does, and its
square brackets are told apart. -/
def Guarded (gaps : Bool) (t : Text) : Prop :=
  ∀ before, (gaps = true → Unnamed before) →
    (gaps = true → Unnamed (before ++ t)) ∧ Places (Told gaps) before t []

section Guarded

variable {gaps : Bool} {before ahead after t u content body digits label abbr expansion : Text}
  {c : Char}

/-- What has been found after a bracket is there still when more follows. -/
theorem Told.append (h : Told gaps before c after) (behind : Text) :
    Told gaps before c (after ++ behind) := fun hc =>
  (h hc).imp_right fun ⟨abbr, expansion, ha, he, found⟩ =>
    ⟨abbr, expansion, ha, he, found.trans (List.prefix_append _ _)⟩

/-- Blanks before a bracket do not count. -/
theorem Told.congr (h : Told gaps before c after) (hs : squeezed before = squeezed ahead) :
    Told gaps ahead c after := fun hc =>
  (h hc).imp_left fun ⟨hg, unnamed⟩ => ⟨hg, by rwa [Unnamed, ← hs]⟩

/-- A blank after a bracket is not of an abbreviation unless more comes. -/
theorem Told.of_concat {d : Char} (h : Told gaps before d (after ++ [c]))
    (hc : isBlank c = true) : Told gaps before d after := fun hd =>
  (h hd).imp_right fun ⟨abbr, expansion, ha, he, found⟩ => by
    refine ⟨abbr, expansion, ha, he, ?_⟩
    rcases List.prefix_concat_iff.1 found with whole | found
    · have last := congrArg List.getLast? whole
      simp only [List.append_assoc, List.cons_append, List.getLast?_append, List.getLast?_cons]
        at last
      simp at last
      subst last
      exact absurd hc (by decide)
    · exact found

/-- Text without square brackets has only to leave the name incomplete. -/
theorem guarded_text (hb : '[' ∉ t) (ht : gaps = true → ¬ Completes t) : Guarded gaps t := by
  refine fun before clear => ⟨fun hg => (clear hg).append (ht hg), ?_⟩
  rintro u c v rfl - rfl
  exact absurd (by simp) hb

/-- Text without the last letter of the name. -/
theorem guarded_of_forall (h : ∀ c ∈ t, c ≠ '[' ∧ c ≠ 'r') : Guarded gaps t :=
  guarded_text (fun hm => (h _ hm).1 rfl) fun _ completes => (h _ completes.mem).2 rfl

theorem guarded_of_check (h : t.all (fun c => c ≠ '[' ∧ c ≠ 'r') = true) : Guarded gaps t :=
  guarded_of_forall (Text.forall_of_check h)

theorem guarded_nil : Guarded gaps [] :=
  guarded_of_check rfl

/-- Text that ends apart from a name, as the name of an entity or the opening of a block does. -/
theorem guarded_behind (hb : '[' ∉ t ++ c :: label) (hblank : isBlank c = false)
    (hc : c ∉ abbreviationName) (hl : gaps = true → Unnamed label) :
    Guarded gaps (t ++ c :: label) := by
  refine fun before _ => ⟨fun hg => ?_, ?_⟩
  · rw [← List.append_assoc]
    exact unnamed_append_cons hblank hc (hl hg)
  · rintro u d v he - rfl
    exact absurd (by simp [he]) hb

/-- The second piece stands after the first, which is no name, so that what is asked of
each is asked of both. -/
theorem Guarded.append (ht : Guarded gaps t) (hu : Guarded gaps u) : Guarded gaps (t ++ u) := by
  intro before clear
  obtain ⟨mid, first⟩ := ht before clear
  obtain ⟨last, second⟩ := hu (before ++ t) mid
  refine ⟨fun hg => by simpa using last hg, places_append.2 ⟨?_, second⟩⟩
  exact first.imp fun v c w told => by simpa using told.append u

/-- A blank in front does not count before any of the brackets. -/
theorem Guarded.of_cons (h : Guarded gaps (c :: t)) (hc : isBlank c = true) : Guarded gaps t := by
  intro before clear
  have same (u : Text) : squeezed (before ++ c :: u) = squeezed (before ++ u) := by
    rw [squeezed_append, squeezed_cons_blank hc, ← squeezed_append]
  obtain ⟨whole, told⟩ := h before clear
  refine ⟨fun hg => by rw [Unnamed, ← same]; exact whole hg, ?_⟩
  exact (places_cons.1 told).2.imp fun u d v found => by
    rw [List.append_assoc, List.singleton_append] at found
    exact found.congr (same u)

/-- Nor does one at the end, which no abbreviation ends in. -/
theorem Guarded.of_concat (h : Guarded gaps (t ++ [c])) (hc : isBlank c = true) :
    Guarded gaps t := by
  intro before clear
  obtain ⟨whole, told⟩ := h before clear
  refine ⟨fun hg => ?_, (places_append.1 told).1.imp fun u d v found => ?_⟩
  · have same : squeezed (before ++ (t ++ [c])) = squeezed (before ++ t) := by
      rw [← List.append_assoc, squeezed_append, squeezed_cons_blank hc]
      exact List.append_nil _
    rw [Unnamed, ← same]
    exact whole hg
  · rw [List.append_nil] at found ⊢
    exact found.of_concat hc

theorem Guarded.trim (h : Guarded gaps t) : Guarded gaps t.trim :=
  holds_trim (fun _ _ hc ht => ht.of_cons hc) (fun _ _ hc ht => ht.of_concat hc) h

/-! ## 3. Constructs -/

/-- A mark has signs around what it holds, and these are not of the name. -/
theorem guarded_marked (mark : Mark) (h : Guarded gaps content) :
    Guarded gaps (mark.opening ++ content ++ mark.closing) := by
  have opening : Guarded gaps mark.opening := by cases mark <;> exact guarded_of_check rfl
  have closing : Guarded gaps mark.closing := by cases mark <;> exact guarded_of_check rfl
  exact (opening.append h).append closing

theorem guarded_block (kind : BlockKind) (h : Guarded gaps body) :
    Guarded gaps (kind.opening ++ body ++ ['}']) := by
  have opening : Guarded gaps kind.opening := by
    have bracket : '[' ∉ '.' :: kind.name ++ '{' :: [] := by cases kind <;> decide
    exact guarded_behind bracket (by decide) (by decide) fun _ => unnamed_nil
  exact (opening.append h).append (guarded_of_check rfl)

/-- The one bracket that may stand after the name: its abbreviation follows in full. -/
theorem guarded_abbreviation (ha : Guarded gaps abbr) (he : Guarded gaps expansion)
    (la : Level abbr) (le : Level expansion) :
    Guarded gaps (".abbr[" ++ abbr ++ ']' :: '{' :: expansion ++ ['}']) := by
  have shape : ".abbr[".toList ++ abbr ++ ']' :: '{' :: expansion ++ ['}']
      = ".abbr".toList ++ '[' :: (abbr ++ [']', '{'] ++ expansion ++ ['}']) := by simp
  have rest : Guarded gaps (abbr ++ [']', '{'] ++ expansion ++ ['}']) :=
    ((ha.append (guarded_of_check rfl)).append he).append (guarded_of_check rfl)
  have bracket (before : Text) : Unnamed (before ++ ['[']) :=
    unnamed_append_cons (by decide) (by decide) unnamed_nil
  rw [shape]
  intro before _
  obtain ⟨last, inner⟩ := rest (before ++ ".abbr" ++ ['[']) fun _ => bracket _
  refine ⟨fun hg => by simpa using last hg, places_append.2 ⟨?_, places_cons.2 ⟨?_, inner⟩⟩⟩
  · exact places_of_forall (Text.forall_of_check (by decide))
  · exact fun _ _ => .inr ⟨abbr, expansion, la, le, by simp⟩

/-- A gap, where no name stands before it. -/
theorem guarded_gap (reading : Option Text) (hd : ∀ c ∈ digits, Text.isDigit c = true)
    (hr : ∀ t ∈ reading, Guarded true t) :
    Guarded true
      ("[..." ++ digits ++ (reading.map fun t => '<' :: t ++ ['>']).getD [] ++ [']']) := by
  have other : ∀ c ∈ digits, c ≠ '[' ∧ c ≠ 'r' := by
    intro c hc
    have digit := hd c hc
    constructor <;> rintro rfl <;> exact absurd digit (by decide)
  have inside : Guarded true ((reading.map fun t => '<' :: t ++ ['>']).getD []) := by
    cases reading with
    | none => exact guarded_nil
    | some t => exact guarded_marked .supplied (hr t rfl)
  have rest := (((guarded_of_check (t := ['.', '.', '.']) rfl).append
    (guarded_of_forall other)).append inside).append (guarded_of_check (t := [']']) rfl)
  intro before clear
  have bracket : Unnamed (before ++ ['[']) :=
    unnamed_append_cons (by decide) (by decide) unnamed_nil
  obtain ⟨last, inner⟩ := rest (before ++ ['[']) fun _ => bracket
  refine ⟨fun hg => by simpa using last hg, ?_⟩
  exact places_cons.2 ⟨fun _ _ => .inl ⟨rfl, clear rfl⟩, inner⟩

end Guarded

/-- **No gap is taken for an abbreviation** in a text whose brackets are told apart. -/
theorem Guarded.unmistaken {gaps : Bool} {t : Text} (h : Guarded gaps t) : Unmistaken t := by
  rintro before after rfl
  obtain ⟨-, told⟩ := h [] fun _ => unnamed_nil
  have bracket := told (before ++ ".abbr") '[' ("..." ++ after) (by simp) (by decide) rfl
  rw [List.nil_append, List.append_nil] at bracket
  obtain ⟨-, unnamed⟩ | ⟨abbr, expansion, ha, he, rest, whole⟩ := bracket
  · have name : squeezed ".abbr" = abbreviationName := by decide
    exact absurd (squeezed_append before ".abbr" ▸ name ▸ List.suffix_append _ _) unnamed
  · have short : Balanced (bracketDepth ']') abbr := ha.balanced (.brackets (.inr rfl))
    have long : Balanced (bracketDepth '}') expansion := he.balanced (.brackets (.inl rfl))
    exact ⟨_, by rw [← whole]; simpa using abbreviationRest_written short long rest⟩

end Transcription.Lexer
