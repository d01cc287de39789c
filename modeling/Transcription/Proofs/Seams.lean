/-
Transcription.Proofs.Seams — a text that goes on after a character that ends
what stands before it.

Each construct looks ahead in its own way: a label to the next blank or over
digits, a name to its colon, a gap to its bracket, a sign to the characters that
would make a longer one of it. `Ends` states what a character must not be for
all of them to stop before it, and `Severs` adds what the nodes before it must
not be: text that waits for just this character, and a page outside a word,
which takes up everything to a blank.

**`construct_append`** and **`construct_append_none`**: a construct and a plain
character are read alike, whatever follows such a character. **`lex_seam`**: the
text before it gives the nodes that it gives alone, and a run of text goes on
across the seam (`fuse`). **`groupFrom_fuse`**: where the character is a blank or
a punctuation mark, grouping starts anew at it.

A construct also tells something of the text behind it: no name of an abbreviation is
half read there (`leaves_construct`).
-/
import Transcription.Proofs.Words

namespace Transcription

namespace Lexer

/-! ## 1. Readers that have closed -/

section Readers

variable {close : Char} {t body rest opening : Text} {c : Char} (u : Text)

/-- A reader that has found its closing bracket looks no further, so more text goes to the
rest. -/
theorem bracketed_append (h : bracketed close t = .ok (body, rest)) :
    bracketed close (t ++ u) = .ok (body, rest ++ u) := by
  obtain ⟨rfl, hb⟩ := bracketed_eq_ok_iff.1 h
  exact bracketed_eq_ok_iff.2 ⟨by simp, hb⟩

theorem braced_append (h : braced t = .ok (body, rest)) :
    braced (t ++ u) = .ok (body, rest ++ u) := by
  obtain ⟨rfl, hb⟩ := braced_eq_ok_iff.1 h
  exact braced_eq_ok_iff.2 ⟨by simp, hb⟩

theorem closedBy_append (h : closedBy close t = .ok (body, rest)) :
    closedBy close (t ++ u) = .ok (body, rest ++ u) := by
  obtain ⟨rfl, hb⟩ := closedBy_eq_ok_iff.1 h
  exact closedBy_eq_ok_iff.2 ⟨by simp, hb⟩

theorem expect_append (h : expect close t = .ok rest) :
    expect close (t ++ u) = .ok (rest ++ u) := by
  rw [expect_eq_ok_iff.1 h]
  exact expect_eq_ok_iff.2 rfl

/-- A prefix is found exactly where the text begins with it. -/
theorem after?_eq_some_iff : Text.after? opening t = some rest ↔ t = opening ++ rest := by
  induction opening generalizing t with
  | nil => simp [Text.after?]
  | cons a opening ih =>
    cases t with
    | nil => simp [Text.after?]
    | cons d t =>
      by_cases hd : a = d
      · simp [Text.after?, hd, ih]
      · simp [Text.after?, hd, Ne.symm hd]

/-- A character outside the prefix does not complete it, even where the text broke off in
its midst. -/
theorem after?_append_none (h : Text.after? opening t = none) (hc : c ∉ opening) :
    Text.after? opening (t ++ c :: u) = none := by
  induction opening generalizing t with
  | nil => cases h
  | cons a opening ih =>
    obtain ⟨ha, ho⟩ := not_or.1 (fun hm => hc (List.mem_cons.2 hm))
    cases t with
    | nil => simp [Text.after?, Ne.symm ha]
    | cons d t =>
      by_cases hd : a = d
      · have inner : Text.after? opening t = none := by simpa [Text.after?, hd] using h
        simp [Text.after?, hd, ih inner ho]
      · simp [Text.after?, hd]

/-- A run ends before a character that does not pass, as it ends with the text. -/
theorem span_append {p : Char → Bool} (hc : p c = false) :
    Text.span p (t ++ c :: u) = ((Text.span p t).1, (Text.span p t).2 ++ c :: u) := by
  induction t with
  | nil => simp [Text.span, hc]
  | cons d t ih =>
    simp only [Text.span, Prod.mk.injEq] at ih
    cases hd : p d <;> simp [Text.span, hd, ih.1, ih.2]

end Readers

/-! ## 2. Constructs at a seam -/

/-- A character that no sign, no name and no label of digits goes on with. -/
structure Ends (c : Char) : Prop where
  label : BeginsNoLabel c
  name : isNameChar c = false
  angle : c ≠ '<'
  bracket : c ≠ '['

/-- The character at the seam of two texts begins no sign that the first one does
not begin. -/
theorem append_ne {t u : Text} {c sign : Char} (hc : c ≠ sign) (ht : ∀ v, t ≠ sign :: v) :
    ∀ v, t ++ c :: u ≠ sign :: v := by
  intro v hv
  cases t with
  | nil => exact hc (List.cons.inj hv).1
  | cons d t => exact ht t (congrArg (· :: t) (List.cons.inj hv).1)

theorem head?_append_ne {t : Text} {c sign : Char} (u : Text) (hc : c ≠ sign)
    (ht : ∀ v, t ≠ sign :: v) : (t ++ c :: u).head? ≠ some sign := by
  intro hs
  obtain ⟨v, hv⟩ := List.head?_eq_some_iff.1 hs
  exact append_ne hc ht v hv

section Constructs

variable {t rest label : Text} {c d : Char} {ks : List Node} {before : List Node} {mark : Mark}
  (u : Text)

/-- Without a brace, the label of a line is its run of digits. -/
theorem breakLabel_of_ne (h : ∀ v, t ≠ '{' :: v) :
    breakLabel t = .ok (Text.span Text.isDigit t) := by
  unfold breakLabel
  split
  · exact absurd rfl (h _)
  · rfl

/-- Without a brace, the label of a page runs to the next blank. -/
theorem pageLabel_of_ne (h : ∀ v, t ≠ '{' :: v) :
    pageLabel t = .ok (Text.span (fun c => !isBlank c) t) := by
  unfold pageLabel
  split
  · exact absurd rfl (h _)
  · rfl

theorem gapReading_of_ne (h : ∀ v, t ≠ '<' :: v) : gapReading t = .ok (none, t) := by
  unfold gapReading
  split
  · exact absurd rfl (h _)
  · rfl

/-- A label in braces has closed, one of digits stops before the character. -/
theorem breakLabel_append (hc : Ends c) (h : breakLabel t = .ok (label, rest)) :
    breakLabel (t ++ c :: u) = .ok (label, rest ++ c :: u) := by
  unfold breakLabel at h
  split at h
  · exact closedBy_append _ h
  · next hne =>
    rw [breakLabel_of_ne (append_ne hc.label.1 hne), span_append u hc.label.2.2, Except.ok.inj h]

/-- Only a blank stops the label of a page outside a word; `Ends` alone does not. -/
theorem pageLabel_append (hc : isBlank c = true) (h : pageLabel t = .ok (label, rest)) :
    pageLabel (t ++ c :: u) = .ok (label, rest ++ c :: u) := by
  unfold pageLabel at h
  split at h
  · exact closedBy_append _ h
  · next hne =>
    have brace : c ≠ '{' := ne_of_isBlank hc (by decide)
    rw [pageLabel_of_ne (append_ne brace hne), span_append u (by simp [hc]), Except.ok.inj h]

/-- The reading of a gap begins at an angle bracket, which the character at the seam is
not. -/
theorem gapReading_append (hc : Ends c) {reading : Option Text}
    (h : gapReading t = .ok (reading, rest)) :
    gapReading (t ++ c :: u) = .ok (reading, rest ++ c :: u) := by
  unfold gapReading at h
  split at h
  · obtain ⟨⟨content, v⟩, hr, h⟩ := exists_of_bind h
    cases h
    rw [List.cons_append, gapReading, closedBy_append _ hr]
    rfl
  · next hne =>
    cases h
    exact gapReading_of_ne (append_ne hc.angle hne)

theorem gapRest_append (hc : Ends c) (h : gapRest t = .ok (ks, rest)) :
    gapRest (t ++ c :: u) = .ok (ks, rest ++ c :: u) := by
  obtain ⟨⟨reading, v⟩, hr, h⟩ := exists_of_bind h
  obtain ⟨w, he, h⟩ := exists_of_bind h
  cases h
  have hr : gapReading (Text.span Text.isDigit t).2 = .ok (reading, v) := hr
  have closing : expect ']' (v ++ c :: u) = .ok (rest ++ c :: u) := expect_append _ he
  simp only [gapRest, span_append u hc.label.2.2, gapReading_append u hc hr, closing, bind,
    Except.bind, pure, Except.pure]
  rfl

/-- A mark ends in a bracket and a sign that were both found, so any text may follow. -/
theorem markRest_append (h : markRest mark t = .ok (ks, rest)) :
    markRest mark (t ++ u) = .ok (ks, rest ++ u) := by
  obtain ⟨⟨content, v⟩, hb, h⟩ := exists_of_bind h
  have inside := bracketed_append u hb
  simp only at h
  split at h
  · next sign hs =>
    obtain ⟨w, he, h⟩ := exists_of_bind h
    cases h
    have closing : expect sign (v ++ u) = .ok (rest ++ u) := expect_append _ he
    simp only [markRest, inside, hs, closing, bind, Except.bind, pure, Except.pure]
  · next hs =>
    cases h
    simp only [markRest, inside, bind, Except.bind, pure, Except.pure]

theorem abbreviationRest_append (h : abbreviationRest t = .ok (ks, rest)) :
    abbreviationRest (t ++ u) = .ok (ks, rest ++ u) := by
  obtain ⟨⟨abbr, v⟩, ha, h⟩ := exists_of_bind h
  obtain ⟨w, hb, h⟩ := exists_of_bind h
  obtain ⟨⟨expansion, x⟩, he, h⟩ := exists_of_bind h
  cases h
  have brace : expect '{' (v ++ u) = .ok (w ++ u) := expect_append _ hb
  have long : bracketed '}' (w ++ u) = .ok (expansion, rest ++ u) := bracketed_append _ he
  simp only [abbreviationRest, bracketed_append u ha, brace, long, bind, Except.bind, pure,
    Except.pure]

theorem lineBreakRest_append (hc : Ends c) (h : lineBreakRest before t = .ok (ks, rest)) :
    lineBreakRest before (t ++ c :: u) = .ok (ks, rest ++ c :: u) := by
  obtain ⟨⟨label, v⟩, hl, h⟩ := exists_of_bind h
  cases h
  rw [lineBreakRest, breakLabel_append u hc hl]
  rfl

theorem pageBreakRest_append {reader : Text → Except LexFault (Text × Text)}
    (hr : ∀ {label rest}, reader t = .ok (label, rest) →
      reader (t ++ c :: u) = .ok (label, rest ++ c :: u))
    (h : pageBreakRest reader before t = .ok (ks, rest)) :
    pageBreakRest reader before (t ++ c :: u) = .ok (ks, rest ++ c :: u) := by
  obtain ⟨⟨label, v⟩, hl, h⟩ := exists_of_bind h
  cases h
  rw [pageBreakRest, hr hl]
  rfl

/-- The kind that a block is opened with is the one that its text begins with. -/
theorem eq_of_blockOpening? {kind : BlockKind} (h : blockOpening? t = some (kind, rest)) :
    t = kind.opening ++ rest := by
  obtain ⟨k, -, hk⟩ := List.exists_of_findSome?_eq_some h
  obtain ⟨r, hr, he⟩ := Option.map_eq_some_iff.1 hk
  cases he
  exact after?_eq_some_iff.1 hr

/-- What opens a block or an abbreviation goes on with letters and a bracket. -/
theorem not_mem_name {name : Text} (hn : ∀ x ∈ name, isNameChar x = true ∨ x = '{' ∨ x = '[')
    (hc : Ends c) : c ∉ name := by
  intro hm
  rcases hn c hm with hx | rfl | rfl
  · rw [hc.name] at hx
    cases hx
  · exact hc.label.1 rfl
  · exact hc.bracket rfl

/-- A point that opens nothing alone does not open a block or an abbreviation at the seam
either. -/
theorem after?_dotted_none {name : Text}
    (hn : ∀ x ∈ name, isNameChar x = true ∨ x = '{' ∨ x = '[') (hc : Ends c)
    (h : Text.after? ('.' :: name) ('.' :: t) = none) :
    Text.after? ('.' :: name) ('.' :: (t ++ c :: u)) = none := by
  have inner : Text.after? name t = none := by simpa [Text.after?] using h
  simpa [Text.after?] using after?_append_none u inner (not_mem_name hn hc)

theorem dotted_append (h : dotted t = .ok (some (ks, rest))) :
    dotted (t ++ u) = .ok (some (ks, rest ++ u)) := by
  unfold dotted at h
  split at h
  · next kind v hk =>
    obtain ⟨⟨body, w⟩, hb, h⟩ := exists_of_bind h
    cases h
    rw [eq_of_blockOpening? hk, List.append_assoc, dotted]
    simp only [blockOpening?_append, braced_append u hb, bind, Except.bind, pure, Except.pure]
  · split at h
    · next v hv =>
      obtain ⟨⟨ms, w⟩, hr, he⟩ := exists_of_map h
      cases he
      have shape : t ++ u = ".abbr[" ++ (v ++ u) := by
        rw [after?_eq_some_iff.1 hv]
        simp
      have open_ : Text.after? ".abbr[" (t ++ u) = some (v ++ u) := after?_eq_some_iff.2 shape
      have other : blockOpening? (t ++ u) = none := by
        rw [shape]
        exact blockOpening?_abbreviation _
      simp only [dotted, other, open_, abbreviationRest_append u hr]
      rfl
    · cases h

/-- A point that is plain text stays text: no name is completed by a character that ends
it. -/
theorem dotted_append_none (hc : Ends c) (h : dotted ('.' :: t) = .ok none) :
    dotted ('.' :: (t ++ c :: u)) = .ok none := by
  have names : ∀ kind : BlockKind, ∀ x ∈ kind.name ++ ['{'],
      isNameChar x = true ∨ x = '{' ∨ x = '[' := by
    intro kind
    cases kind <;> exact Text.forall_of_check (by decide)
  unfold dotted at h
  split at h
  · obtain ⟨⟨body, v⟩, -, h⟩ := exists_of_bind h
    cases h
  · next hk =>
    have closed : blockOpening? ('.' :: (t ++ c :: u)) = none := by
      unfold blockOpening? at hk ⊢
      rw [List.findSome?_eq_none_iff] at hk ⊢
      intro kind hm
      have := Option.map_eq_none_iff.1 (hk kind hm)
      exact Option.map_eq_none_iff.2 (after?_dotted_none u (names kind) hc this)
    split at h
    · exact absurd h map_ne_none
    · next hv =>
      have short : Text.after? ".abbr[" ('.' :: (t ++ c :: u)) = none :=
        after?_dotted_none u (Text.forall_of_check (by decide)) hc hv
      simp only [dotted, closed, short]

theorem entityName?_append (h : entityName? t = some (label, rest)) :
    entityName? (t ++ u) = some (label, rest ++ u) := by
  obtain ⟨rfl, hne, hn⟩ := entityName?_eq_some_iff.1 h
  exact entityName?_eq_some_iff.2 ⟨by simp, hne, hn⟩

/-- A name that lacks its colon does not get one from a character that is none. -/
theorem entityName?_append_none (hc : Ends c) (colon : c ≠ ':') (h : entityName? t = none) :
    entityName? (t ++ c :: u) = none := by
  rw [entityName?, span_append u hc.name]
  rw [entityName?] at h
  generalize Text.span isNameChar t = parts at h ⊢
  obtain ⟨name, after⟩ := parts
  cases name with
  | nil => rfl
  | cons x name =>
    cases after with
    | nil => simp [colon]
    | cons y after =>
      have hy : y ≠ ':' := by
        rintro rfl
        cases h
      simp [hy]

/-- Three points after a bracket open a gap, anything else leaves it text. -/
theorem construct_bracket (ht : Text.after? "..." t = none) :
    construct ('[' :: t) = .ok none := by
  have other : ∀ v, t ≠ '.' :: '.' :: '.' :: v := by
    rintro v rfl
    cases ht
  unfold construct
  split <;> simp_all

/-- A bracket is text only where no three points follow it. -/
theorem after?_of_construct_bracket (h : construct ('[' :: t) = .ok none) :
    Text.after? "..." t = none := by
  rw [Option.eq_none_iff_forall_not_mem]
  intro v hv
  rw [after?_eq_some_iff.1 hv] at h
  exact map_ne_none h

/-- A character of text that goes on with nothing at the seam: only a bracket
waits for points, and only a colon for another one. -/
def Apart (c d : Char) : Prop :=
  (c = '.' → d ≠ '[') ∧ (c = ':' → d ≠ ':')

/-- A plain character stays one where a text goes on. -/
theorem construct_append_none (hc : Ends c) (ha : Apart c d) (h : construct (d :: t) = .ok none) :
    construct (d :: (t ++ c :: u)) = .ok none := by
  by_cases hd : d ∈ ['.', '[', ':']
  · simp only [List.mem_cons, List.not_mem_nil, or_false] at hd
    rcases hd with rfl | rfl | rfl
    · exact dotted_append_none u hc h
    · have point : c ∉ "...".toList := by
        have : c ≠ '.' := fun he => ha.1 he rfl
        simpa using this
      exact construct_bracket (after?_append_none u (after?_of_construct_bracket h) point)
    · have colon : c ≠ ':' := fun he => ha.2 he rfl
      have noName : entityName? t = none := Option.map_eq_none_iff.1 (Except.ok.inj h)
      have still := entityName?_append_none u hc colon noName
      show Except.ok (Option.map _ (entityName? (t ++ c :: u))) = _
      rw [still]
      rfl
  · refine construct_of_isPlain ?_ hd
    have plain := isPlain_of_construct h
    cases t with
    | nil =>
      have other : some c ≠ some '/' ∧ some c ≠ some '{' := by
        simp [hc.label.1, hc.label.2.1]
      exact isPlain_of_ne plain nofun other
    | cons x t => exact plain

/-- What a construct is read as is the same where the text goes on. A page
outside a word takes up everything to a blank. -/
theorem construct_append (hc : Ends c) (hp : isBlank c = true ∨ ∀ label, ks ≠ [.pageBreak label])
    (h : construct t = .ok (some (ks, rest))) :
    construct (t ++ c :: u) = .ok (some (ks, rest ++ c :: u)) := by
  have lifts {run run' : Except LexFault (List Node × Text)}
      (hr : run = .ok (ks, rest) → run' = .ok (ks, rest ++ c :: u))
      (h : some <$> run = .ok (some (ks, rest))) :
      some <$> run' = .ok (some (ks, rest ++ c :: u)) := by
    rw [hr (of_map_some h)]
    rfl
  unfold construct at h
  split at h
  · next v =>
    show some <$> pageBreakRest pageLabel [] (v ++ c :: u) = _
    refine lifts (fun hr => ?_) h
    have blank : isBlank c = true := by
      refine hp.resolve_right fun hk => ?_
      obtain ⟨⟨label, w⟩, -, he⟩ := exists_of_bind hr
      cases he
      exact hk label rfl
    exact pageBreakRest_append u (pageLabel_append u blank) hr
  · next v hv =>
    show construct ('/' :: '/' :: (v ++ c :: u)) = _
    rw [construct_line (head?_append_ne u hc.label.2.1 hv)]
    exact lifts (lineBreakRest_append u hc) h
  · exact dotted_append _ h
  · exact lifts (gapRest_append u hc) h
  · cases h
  · next v hv =>
    obtain ⟨⟨content, w⟩, hcl, he⟩ := exists_of_bind (of_map_some h)
    cases he
    obtain ⟨rfl, angle⟩ := closedBy_eq_ok_iff.1 hcl
    have single : content.head? ≠ some '<' := by
      intro hs
      obtain ⟨x, rfl⟩ := List.head?_eq_some_iff.1 hs
      exact hv _ rfl
    simpa using construct_supplied ⟨angle, single⟩ (rest ++ c :: u)
  · exact lifts (markRest_append _) h
  · exact lifts (markRest_append _) h
  · exact lifts (markRest_append _) h
  · exact lifts (markRest_append _) h
  · next v =>
    obtain ⟨⟨name, w⟩, hn, he⟩ := Option.map_eq_some_iff.1 (Except.ok.inj h)
    cases he
    have found := entityName?_append (c :: u) hn
    show Except.ok (Option.map _ (entityName? (v ++ c :: u))) = _
    rw [found]
    rfl
  · exact lifts (pageBreakRest_append u (breakLabel_append u hc)) h
  · next v hv =>
    show construct ('~' :: '/' :: '/' :: (v ++ c :: u)) = _
    rw [construct_joined_line (head?_append_ne u hc.label.2.1 hv)]
    exact lifts (lineBreakRest_append u hc) h
  · next v hv hv' =>
    cases h
    have strokes : Text.after? "//" rest = none := by
      rw [Option.eq_none_iff_forall_not_mem]
      exact fun w hw => hv' w (after?_eq_some_iff.1 hw)
    have still := after?_append_none u strokes (by simpa using hc.label.2.1)
    refine construct_compoundJoin fun w hw => ?_
    rw [after?_eq_some_iff.2 hw] at still
    cases still
  · cases h
    rfl
  · cases h

end Constructs

/-! ## 3. What a construct leaves -/

/-- The characters that the name of an abbreviation has, with its point. -/
def abbreviationName : Text :=
  ".abbr"

/-- What is left of a text comes after a character that is not of the name of an
abbreviation, or else goes on with a blank if at all. Constructs end in brackets, signs and
labels of digits; only the label of a page may end in any character, right before a blank. -/
def Leaves (t rest : Text) : Prop :=
  ∃ done c, t = done ++ c :: rest ∧ (c ∈ abbreviationName → ∀ d ∈ rest.head?, isBlank d = true)

section Suffixes

variable {close : Char} {t u rest body label : Text} {ks before : List Node} {mark : Mark}

theorem suffix_of_eq {c : Char} (h : t = body ++ c :: rest) : rest <:+ t :=
  ⟨body ++ [c], by simp [h]⟩

theorem leaves_of_eq {c : Char} (h : t = body ++ c :: rest) (hc : c ∉ abbreviationName) :
    Leaves t rest :=
  ⟨body, c, h, fun hm => absurd hm hc⟩

/-- What is left of a text is the end of it. -/
theorem Leaves.suffix (h : Leaves t rest) : rest <:+ t := by
  obtain ⟨done, c, he, -⟩ := h
  exact suffix_of_eq he

/-- What stands before the text that was read does not matter. -/
theorem Leaves.of_suffix (h : Leaves u rest) (hu : u <:+ t) : Leaves t rest := by
  obtain ⟨ahead, rfl⟩ := hu
  obtain ⟨done, c, rfl, hc⟩ := h
  exact ⟨ahead ++ done, c, by simp, hc⟩

theorem suffix_bracketed (h : bracketed close t = .ok (body, rest)) : rest <:+ t :=
  suffix_of_eq (bracketed_eq_ok_iff.1 h).1

/-- What a closed bracket leaves comes after its closing sign. -/
theorem leaves_bracketed (h : bracketed close t = .ok (body, rest))
    (hc : close ∉ abbreviationName) : Leaves t rest :=
  leaves_of_eq (bracketed_eq_ok_iff.1 h).1 hc

theorem leaves_closedBy (h : closedBy close t = .ok (body, rest))
    (hc : close ∉ abbreviationName) : Leaves t rest :=
  leaves_of_eq (closedBy_eq_ok_iff.1 h).1 hc

theorem leaves_expect (h : expect close t = .ok rest) (hc : close ∉ abbreviationName) :
    Leaves t rest :=
  ⟨[], close, expect_eq_ok_iff.1 h, fun hm => absurd hm hc⟩

/-- A label without braces is a run of characters, and comes after a stroke where it is
empty. -/
theorem leaves_run {p : Char → Bool}
    (hp : ∀ c ∈ abbreviationName, p c = true → ∀ d, p d = false → isBlank d = true) :
    Leaves ('/' :: t) (t.dropWhile p) := by
  have whole : t.takeWhile p ++ t.dropWhile p = t := List.takeWhile_append_dropWhile
  rcases List.eq_nil_or_concat (t.takeWhile p) with he | ⟨run, c, he⟩
  · rw [he, List.nil_append] at whole
    exact ⟨[], '/', by rw [whole, List.nil_append], fun hm => absurd hm (by decide)⟩
  · have member : c ∈ t.takeWhile p := by simp [he]
    have passes : p c = true := List.all_eq_true.1 List.all_takeWhile c member
    rw [he, List.concat_append] at whole
    refine ⟨'/' :: run, c, congrArg ('/' :: ·) whole.symm, fun hm d hd => ?_⟩
    have fails := List.head?_dropWhile_not p t
    rw [Option.mem_def.1 hd] at fails
    exact hp c hm passes d (by simpa using fails)

/-- Digits do not occur in the name of an abbreviation, so a label of digits leaves none
of it begun. -/
theorem leaves_breakLabel (h : breakLabel t = .ok (label, rest)) : Leaves ('/' :: t) rest := by
  unfold breakLabel at h
  split at h
  · exact (leaves_closedBy h (by decide)).of_suffix ⟨['/', '{'], rfl⟩
  · cases h
    have letters : ∀ c ∈ abbreviationName, Text.isDigit c = false :=
      Text.forall_of_check (by decide)
    exact leaves_run fun c hm hd => by rw [letters c hm] at hd; cases hd

/-- A page's label may end like that name, but then the text ends or a blank comes next. -/
theorem leaves_pageLabel (h : pageLabel t = .ok (label, rest)) : Leaves ('/' :: t) rest := by
  unfold pageLabel at h
  split at h
  · exact (leaves_closedBy h (by decide)).of_suffix ⟨['/', '{'], rfl⟩
  · cases h
    exact leaves_run fun c _ _ d hd => by simpa using hd

theorem suffix_gapReading {reading : Option Text} (h : gapReading t = .ok (reading, rest)) :
    rest <:+ t := by
  unfold gapReading at h
  split at h
  · obtain ⟨⟨content, v⟩, hc, h⟩ := exists_of_bind h
    cases h
    exact (suffix_of_eq (closedBy_eq_ok_iff.1 hc).1).trans (List.suffix_cons _ _)
  · cases h
    exact List.suffix_refl _

/-- A gap leaves what comes after its closing bracket. -/
theorem leaves_gapRest (h : gapRest t = .ok (ks, rest)) : Leaves t rest := by
  obtain ⟨⟨reading, v⟩, hr, h⟩ := exists_of_bind h
  obtain ⟨w, he, h⟩ := exists_of_bind h
  cases h
  exact (leaves_expect he (by decide)).of_suffix
    ((suffix_gapReading hr).trans (List.dropWhile_suffix _))

/-- A mark leaves what comes after its bracket, or after the sign that its kind asks for. -/
theorem leaves_markRest (h : markRest mark t = .ok (ks, rest)) : Leaves t rest := by
  obtain ⟨⟨content, v⟩, hb, h⟩ := exists_of_bind h
  simp only at h
  split at h
  · next sign hs =>
    obtain ⟨w, he, h⟩ := exists_of_bind h
    cases h
    have other : sign ∉ abbreviationName := by cases mark <;> cases hs <;> decide
    exact (leaves_expect he other).of_suffix (suffix_bracketed hb)
  · cases h
    exact leaves_bracketed hb (by decide)

theorem leaves_abbreviationRest (h : abbreviationRest t = .ok (ks, rest)) : Leaves t rest := by
  obtain ⟨⟨abbr, v⟩, ha, h⟩ := exists_of_bind h
  obtain ⟨w, hb, h⟩ := exists_of_bind h
  obtain ⟨⟨expansion, x⟩, he, h⟩ := exists_of_bind h
  cases h
  have brace : w <:+ v := ⟨['{'], (expect_eq_ok_iff.1 hb).symm⟩
  exact (leaves_bracketed he (by decide)).of_suffix (brace.trans (suffix_bracketed ha))

theorem leaves_suppliedRest (h : suppliedRest t = .ok (ks, rest)) : Leaves t rest := by
  obtain ⟨⟨content, v⟩, hc, h⟩ := exists_of_bind h
  cases h
  exact leaves_closedBy hc (by decide)

theorem leaves_lineBreakRest (h : lineBreakRest before t = .ok (ks, rest)) :
    Leaves ('/' :: t) rest := by
  obtain ⟨⟨label, v⟩, hl, h⟩ := exists_of_bind h
  cases h
  exact leaves_breakLabel hl

theorem leaves_pageBreakRest {reader : Text → Except LexFault (Text × Text)}
    (hr : ∀ {label rest}, reader t = .ok (label, rest) → Leaves ('/' :: t) rest)
    (h : pageBreakRest reader before t = .ok (ks, rest)) : Leaves ('/' :: t) rest := by
  obtain ⟨⟨label, v⟩, hl, h⟩ := exists_of_bind h
  cases h
  exact hr hl

/-- A block and an abbreviation leave what comes after the brace of their last part. -/
theorem leaves_dotted (h : dotted t = .ok (some (ks, rest))) : Leaves t rest := by
  unfold dotted at h
  split at h
  · next kind v hk =>
    obtain ⟨⟨body, w⟩, hb, h⟩ := exists_of_bind h
    cases h
    rw [eq_of_blockOpening? hk]
    exact (leaves_of_eq (braced_eq_ok_iff.1 hb).1 (by decide)).of_suffix (List.suffix_append _ _)
  · split at h
    · next v hv =>
      rw [after?_eq_some_iff.1 hv]
      exact (leaves_abbreviationRest (of_map_some h)).of_suffix (List.suffix_append _ _)
    · cases h

/-- Where a construct has been read, no name of an abbreviation is left half read. -/
theorem leaves_construct (h : construct t = .ok (some (ks, rest))) : Leaves t rest := by
  have behind {v : Text} (sign : Text) (hv : Leaves v rest) : Leaves (sign ++ v) rest :=
    hv.of_suffix (List.suffix_append _ _)
  unfold construct at h
  split at h
  · exact behind "//" (leaves_pageBreakRest leaves_pageLabel (of_map_some h))
  · exact behind "/" (leaves_lineBreakRest (of_map_some h))
  · exact leaves_dotted h
  · exact behind "[..." (leaves_gapRest (of_map_some h))
  · cases h
  · exact behind "<" (leaves_suppliedRest (of_map_some h))
  · exact behind ['-', '{'] (leaves_markRest (of_map_some h))
  · exact behind ['+', '{'] (leaves_markRest (of_map_some h))
  · exact behind ['^', '{'] (leaves_markRest (of_map_some h))
  · exact behind ['?', '{'] (leaves_markRest (of_map_some h))
  · obtain ⟨⟨name, v⟩, hn, he⟩ := Option.map_eq_some_iff.1 (Except.ok.inj h)
    cases he
    exact behind ":" (leaves_of_eq (entityName?_eq_some_iff.1 hn).1 (by decide))
  · exact behind "~//" (leaves_pageBreakRest leaves_breakLabel (of_map_some h))
  · exact behind "~/" (leaves_lineBreakRest (of_map_some h))
  · cases h
    exact ⟨[], _, rfl, fun hm => absurd hm (by decide)⟩
  · cases h
    exact ⟨[], _, rfl, fun hm => absurd hm (by decide)⟩
  · cases h

/-- What a construct leaves is the end of the text. -/
theorem suffix_construct (h : construct t = .ok (some (ks, rest))) : rest <:+ t :=
  (leaves_construct h).suffix

end Suffixes

/-! ## 4. Sequences at a seam -/

/-- Two sequences of nodes one after the other; where text meets text, the two
runs are one. -/
def fuse : List Node → List Node → List Node
  | [], ms => ms
  | [.text content], .text more :: ms => .text (content ++ more) :: ms
  | n :: ns, ms => n :: fuse ns ms

section Sequences

variable {c : Char} {n : Node} {ns ms ks : List Node} {t u : Text}

/-- A node that is not text is never fused with what follows. -/
theorem fuse_cons (hn : n.isText = false) : fuse (n :: ns) ms = n :: fuse ns ms := by
  cases n with
  | text content => cases hn
  | _ => rfl

/-- Only the last run of the first sequence can be fused with the second. -/
theorem fuse_text {content : Text} (hns : ns ≠ []) :
    fuse (.text content :: ns) ms = .text content :: fuse ns ms := by
  cases ns with
  | nil => exact absurd rfl hns
  | cons m ns => rfl

/-- A character put in front joins the first run, whether that run crosses the seam or
not. -/
theorem consChar_fuse : consChar c (fuse ns ms) = fuse (consChar c ns) ms := by
  cases ns with
  | nil =>
    cases ms with
    | nil => rfl
    | cons m ms => cases m <;> rfl
  | cons n ns =>
    cases n with
    | text content =>
      cases ns with
      | nil =>
        cases ms with
        | nil => rfl
        | cons m ms => cases m <;> rfl
      | cons k ns => rfl
    | _ => rfl

/-- What a construct is read as ends in no text, so the seam does not reach back over it. -/
theorem append_fuse (hk : ReadAs t.head? ks) : ks ++ fuse ns ms = fuse (ks ++ ns) ms := by
  obtain ⟨n, -, ht, ⟨rfl, -, -⟩ | ⟨rfl, -, -⟩⟩ := hk
  · exact (fuse_cons ht).symm
  · show .continuation :: n :: fuse ns ms = fuse (.continuation :: n :: ns) ms
    rw [fuse_cons rfl, fuse_cons ht]

/-- Every page break follows the sign that the word goes on. -/
def PagesJoined : List Node → Prop
  | [] => True
  | .continuation :: .pageBreak _ :: ns => PagesJoined ns
  | .pageBreak _ :: _ => False
  | _ :: ns => PagesJoined ns

/-- What a text is read as does not depend on what comes after a character that
ends it. -/
structure Severs (c : Char) (ns : List Node) : Prop where
  ends : Ends c
  apart : ∀ content, Node.text content ∈ ns → ∀ d ∈ content, Apart c d
  pages : isBlank c = true ∨ PagesJoined ns

/-- A character read as text hands on what the seam asks for to the nodes after it. -/
theorem Severs.of_consChar {d : Char} (h : Severs c (consChar d ns)) :
    Apart c d ∧ Severs c ns := by
  obtain ⟨ends, apart, pages⟩ := h
  by_cases ht : ∃ content ms, ns = .text content :: ms
  · obtain ⟨content, ms, rfl⟩ := ht
    have first := apart (d :: content) List.mem_cons_self
    refine ⟨first d List.mem_cons_self, ends, fun run hm e he => ?_, pages⟩
    rcases List.mem_cons.1 hm with hm | hm
    · cases hm
      exact first e (List.mem_cons_of_mem _ he)
    · exact apart run (List.mem_cons_of_mem _ hm) e he
  · have alone : consChar d ns = .text [d] :: ns := by
      refine consChar_of_noText fun n hn => ?_
      obtain ⟨ms, rfl⟩ := List.head?_eq_some_iff.1 hn
      cases n with
      | text content => exact absurd ⟨content, ms, rfl⟩ ht
      | _ => rfl
    rw [alone] at apart pages
    exact ⟨apart [d] List.mem_cons_self d List.mem_cons_self, ends,
      fun run hm => apart run (List.mem_cons_of_mem _ hm), pages⟩

/-- So does a construct, unless it is a page outside a word with no blank at the seam. -/
theorem Severs.of_append (h : Severs c (ks ++ ns)) (hk : ReadAs t.head? ks) :
    (isBlank c = true ∨ ∀ label, ks ≠ [.pageBreak label]) ∧ Severs c ns := by
  obtain ⟨ends, apart, pages⟩ := h
  have texts := fun content hm => apart content (List.mem_append_right ks hm)
  suffices hp : isBlank c = true ∨ (∀ label, ks ≠ [.pageBreak label]) ∧ PagesJoined ns from
    ⟨hp.imp_right And.left, ends, texts, hp.imp_right And.right⟩
  refine pages.imp_right fun hj => ?_
  obtain ⟨n, -, ht, ⟨rfl, hc, -⟩ | ⟨rfl, hb, -⟩⟩ := hk
  · cases n with
    | pageBreak label => exact hj.elim
    | continuation => exact absurd rfl hc
    | _ => exact ⟨nofun, hj⟩
  · cases n with
    | pageBreak label => exact ⟨nofun, hj⟩
    | lineBreak label => exact ⟨nofun, hj⟩
    | _ => cases hb

/-- The text before the seam is read as it is alone, by induction on its length: each step
takes a character or a construct and leaves a shorter text that the character at the seam
ends as well. -/
theorem lex_seam (h : lex t = .ok ns) (hs : Severs c ns) :
    lex (t ++ c :: u) = (fuse ns ·) <$> lex (c :: u) := by
  induction hn : t.length using Nat.strongRecOn generalizing t ns with
  | ind n ih =>
    cases t with
    | nil =>
      rw [lex_nil] at h
      cases h
      cases hl : lex (c :: u) <;> simp [hl, fuse]
    | cons d t =>
      cases hc : construct (d :: t) with
      | error fault => rw [lex_fault hc] at h; cases h
      | ok found =>
        cases found with
        | none =>
          rw [lex_char hc] at h
          obtain ⟨ms, hm, rfl⟩ := exists_of_map h
          obtain ⟨apart, severs⟩ := hs.of_consChar
          have shorter : t.length < n := by rw [← hn]; exact Nat.lt_succ_self _
          have whole := ih t.length shorter hm severs rfl
          rw [List.cons_append, lex_char (construct_append_none u hs.ends apart hc), whole]
          cases lex (c :: u) with
          | error e => rfl
          | ok ks => exact congrArg Except.ok consChar_fuse
        | some parts =>
          obtain ⟨ks, rest⟩ := parts
          rw [lex_construct hc] at h
          obtain ⟨ms, hm, rfl⟩ := exists_of_map h
          obtain ⟨page, severs⟩ := hs.of_append (readAs_of_construct hc)
          have shorter : rest.length < n := by rw [← hn]; exact (within_construct hc).1
          have whole := ih rest.length shorter hm severs rfl
          have step : construct (d :: (t ++ c :: u)) = .ok (some (ks, rest ++ c :: u)) :=
            construct_append u hs.ends page hc
          rw [List.cons_append, lex_construct step, whole]
          cases lex (c :: u) with
          | error e => rfl
          | ok ls => exact congrArg Except.ok (append_fuse (readAs_of_construct hc))

end Sequences

end Lexer

namespace Node

open Pending Lexer

/-! ## 5. Grouping at a seam -/

section Grouping

variable {marks : List Char} {c : Char} {t u : Text} {ns ms : List Node} {p : Pending}

section Cuts

variable {word : List Node} {run : Text} {inWord : Bool}

/-- A blank or a punctuation mark closes the word before it. -/
theorem cutText_cut (hc : isBlank c = true ∨ marks.contains c = true) :
    cutText marks (c :: u) word run inWord
      = (closeWord (word ++ textNode run) ++ (cutText marks (c :: u) [] [] false).1,
        (cutText marks (c :: u) [] [] false).2) := by
  have nothing : closeWord ([] ++ textNode []) = [] := rfl
  by_cases hb : isBlank c = true
  · rw [cutText_blank hb, cutText_blank hb, nothing, List.nil_append]
  · have hm := hc.resolve_left hb
    rw [cutText_mark hb hm, cutText_mark hb hm, nothing, List.nil_append]

/-- What follows a blank or a punctuation mark is cut as it would be alone. -/
theorem cutText_append (hc : isBlank c = true ∨ marks.contains c = true) :
    cutText marks (t ++ c :: u) word run inWord
      = ((cutText marks t word run inWord).1 ++ closeWord (cutText marks t word run inWord).2.1
            ++ (cutText marks (c :: u) [] [] false).1,
          (cutText marks (c :: u) [] [] false).2) := by
  induction t generalizing word run inWord with
  | nil => exact cutText_cut hc
  | cons d t ih =>
    rw [List.cons_append]
    by_cases hb : isBlank d = true
    · rw [cutText_blank hb, cutText_blank hb, ih]
      simp only [List.append_assoc]
    · by_cases hm : marks.contains d = true
      · rw [cutText_mark hb hm, cutText_mark hb hm, ih]
        simp only [List.append_assoc, List.cons_append]
      · rw [cutText_inside hb hm, cutText_inside hb hm, ih]

end Cuts

/-- Grouping starts anew at a blank and at a punctuation mark. -/
theorem groupFrom_fuse (hc : isBlank c = true ∨ marks.contains c = true) :
    groupFrom marks p (fuse ns (.text (c :: u) :: ms))
      = groupFrom marks p ns ++ groupFrom marks start (.text (c :: u) :: ms) := by
  have fresh (t : Text) (p : Pending) :
      groupFrom marks p (.text (t ++ c :: u) :: ms)
        = groupFrom marks p [.text t] ++ groupFrom marks start (.text (c :: u) :: ms) := by
    simp only [groupFrom, groupStep, start, cutText_append hc, List.append_assoc]
  induction ns generalizing p with
  | nil =>
    have empty : groupFrom marks p [.text []] = groupFrom marks p [] := by
      simp [groupFrom, groupStep, cutText, textNode]
    rw [← empty]
    exact fresh [] p
  | cons n ns ih =>
    by_cases alone : n.isText = true ∧ ns = []
    · obtain ⟨ht, rfl⟩ := alone
      cases n with
      | text content => exact fresh content p
      | _ => cases ht
    · have apart : fuse (n :: ns) (.text (c :: u) :: ms) = n :: fuse ns (.text (c :: u) :: ms) := by
        cases hn : n.isText with
        | false => exact fuse_cons hn
        | true =>
          cases n with
          | text content => exact fuse_text fun he => alone ⟨rfl, he⟩
          | _ => cases hn
      rw [apart, groupFrom_cons, groupFrom_cons, ih, List.append_assoc]

end Grouping

end Node

end Transcription
