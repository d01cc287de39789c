/-
Transcription.Proofs.CarriedText — properties that text takes over from content.

The content of an element becomes text by rules that put constructs inside of one another,
whatever has been met before, and the segments of a body add such text to its projection.
A property of text goes through all of it if it goes through every single rule. What that
takes is listed once, for a property of texts and a condition on content (`Carries`). The
property may ask for more where a text is going to stand in angle brackets (`plain`), and
the condition for more inside an element that is one segment (`inside`), where a gap takes
what is supplied right after it for its reading.

**`carried_content`**: text that is read from content with the condition has the property.
**`carried_toText`**: so has the projection of the segments of a body.
-/
import Transcription.Proofs.GapPlacement
import Transcription.Proofs.SegmentNumbers
import Transcription.Segment.Projection

namespace Transcription

open Lexer (squeezed)

/-! ## 1. Words of a text -/

namespace Lexer

theorem squeezed_squeezed (t : Text) : squeezed (squeezed t) = squeezed t := by
  simp [squeezed]

/-- The words of a text have all of its characters but the blanks. -/
theorem flatten_words (t : Text) : (Text.words t).flatten = squeezed t := by
  induction t with
  | nil => rfl
  | cons c t ih =>
    unfold Text.words
    split
    · next hc => rw [ih, squeezed_cons_blank hc]
    · next hc =>
      rw [squeezed_cons (by simpa using hc), ← ih]
      split
      · next hw =>
        rw [hw]
        split <;> rfl
      · rfl

theorem squeezed_join (ts : List Text) : squeezed (Text.join " " ts) = squeezed ts.flatten := by
  induction ts using Text.join.induct with
  | case1 => rfl
  | case2 t => simp [Text.join]
  | case3 t u rest ih =>
    have space : squeezed " " = [] := rfl
    rw [Text.join, squeezed_append, squeezed_append, space, List.append_nil, ih,
      ← squeezed_append, ← List.flatten_cons]

/-- Blanks apart, the words of a text are the text. -/
theorem squeezed_words (t : Text) : squeezed (Text.join " " (Text.words t)) = squeezed t := by
  rw [squeezed_join, flatten_words, squeezed_squeezed]

end Lexer

namespace Import

open Xml (Tag findFirst? elements hasElements descendantsAll plainTextAll)

section Solid

variable {t : Text}

/-- A text without blanks is one word. -/
theorem words_solid (hne : t ≠ []) (ht : ∀ c ∈ t, isBlank c = false) : Text.words t = [t] := by
  induction t with
  | nil => exact absurd rfl hne
  | cons c t ih =>
    obtain ⟨hc, ht⟩ := List.forall_mem_cons.1 ht
    cases t with
    | nil => simp [Text.words, hc]
    | cons d t =>
      have rest := ih (List.cons_ne_nil d t) ht
      have hd : isBlank d = false := ht d List.mem_cons_self
      rw [Text.words.eq_def]
      simp only [hc, rest, hd, Bool.false_eq_true, if_false]

theorem endBlank_solid (ht : ∀ c ∈ t, isBlank c = false) :
    (t.getLast?.map isBlank).getD false = false := by
  cases hl : t.getLast? with
  | none => rfl
  | some c => exact ht c (List.mem_of_getLast? hl)

/-- A text without blanks is read as it stands. -/
theorem appendText_solid (hne : t ≠ []) (ht : ∀ c ∈ t, isBlank c = false) (out : Text)
    (more : Bool) : appendText out t more = out ++ t := by
  have startBlank : (t.head?.map isBlank).getD false = false := by
    cases t with
    | nil => rfl
    | cons c t => exact ht c List.mem_cons_self
  simp [appendText, words_solid hne ht, Text.join, hne, startBlank, endBlank_solid ht]

theorem trim_solid (ht : ∀ c ∈ t, isBlank c = false) : t.trim = t := by
  have kept {u : Text} (hu : ∀ c ∈ u, isBlank c = false) : u.dropWhile isBlank = u := by
    cases u with
    | nil => rfl
    | cons c u => exact List.dropWhile_cons_of_neg (by simp [hu c])
  have last : t.reverse.dropWhile isBlank = t.reverse :=
    kept fun c hc => ht c (List.mem_reverse.1 hc)
  rw [Text.trim, Text.trimStart, kept ht, Text.trimEnd, last, List.reverse_reverse]

end Solid

/-! ## 2. What a property needs -/

variable {α β : Type}

/-- A property of texts, plain ones or others, that goes through all rules by which content
becomes text, where the content meets a condition. -/
structure Carries (P : (plain : Bool) → Text → Prop)
    (Q : (inside plain : Bool) → List Xml.Node → Prop) : Prop where
  tail {inside plain n ns} : Q inside plain (n :: ns) → Q inside plain ns
  children {inside plain tag ns ms} : Q inside plain (.element tag ns :: ms) →
    Q (inside || (elementDraft? tag ns).isSome) plain ns
  nil {plain} : P plain []
  append {plain t u} : P plain t → P plain u → P plain (t ++ u)
  trim {plain t} : P plain t → P plain t.trim
  blank {plain c} : isBlank c = true → P plain [c]
  text {inside plain t u ns} : Q inside plain (.text t :: ns) → squeezed u = squeezed t →
    P plain u
  reference {inside plain name ns} : Q inside plain (.reference name :: ns) →
    P plain (':' :: name ++ [':']) ∧ P plain (Markup.reference name)
  abbreviation {plain abbr expansion} : P plain abbr → P plain expansion →
    P plain (abbreviationText abbr expansion)
  block {plain body} (kind) : P plain body → P plain (blockText kind body)
  marked {plain t} (mark : Mark) : mark ≠ .supplied → P plain t →
    P plain (mark.opening ++ t ++ mark.closing)
  lineBreak {inside plain tag ns ms} : Q inside plain (.element tag ns :: ms) →
    tag.localName = ("lb" : Text) →
    P plain (BreakKind.line.write (tag.value? "n") true)
      ∧ P plain (Segment.breakText .line tag.values)
  pageBreak {inside plain tag ns ms} : Q inside plain (.element tag ns :: ms) →
    tag.localName = ("pb" : Text) → P plain (Segment.breakText .page tag.values)
  supplied {inside plain tag ns ms} : Q inside plain (.element tag ns :: ms) →
    tag.localName = ("supplied" : Text) → hasElements ns = false → plain = false ∧ Q true true ns
  angled {t} : P true t → P false (Mark.supplied.opening ++ t ++ Mark.supplied.closing)
  gap {inside plain tag ns ms} : Q inside plain (.element tag ns :: ms) →
    tag.localName = ("gap" : Text) → P plain (gapText tag [])
  reading {plain tag ns next inner ms} :
    Q true plain (.element tag ns :: .element next inner :: ms) →
    tag.localName = ("gap" : Text) → next.localName = ("supplied" : Text) →
    plain = false ∧ Q true true inner ∧ ∀ t, P true t → P false (gapText tag t)

/-- Whatever has been met before, what is read has the property. -/
def Gives (reading : Reading α) (P : α → Prop) : Prop :=
  ∀ met, P (reading.run met).1

/-- A reader that carries a property from content to text. -/
def Sound (P : Bool → Text → Prop) (Q : Bool → Bool → List Xml.Node → Prop)
    (read : ContentReader) : Prop :=
  ∀ plain allowNorm ns, Q true plain ns → Gives (read allowNorm ns) (P plain)

section Gives

variable {R : α → Prop} {S : β → Prop}

theorem gives_pure {a : α} (h : R a) : Gives (pure a) R :=
  fun _ => h

/-- Readers one after the other: the second starts from what the first has met. -/
theorem Gives.bind {first : Reading α} {next : α → Reading β} (hf : Gives first R)
    (hn : ∀ a, R a → Gives (next a) S) : Gives (first >>= next) S :=
  fun met => hn _ (hf met) _

theorem Gives.map {reading : Reading α} {change : α → β} (h : Gives reading R)
    (hc : ∀ a, R a → S (change a)) : Gives (change <$> reading) S :=
  fun met => hc _ (h met)

/-- What an element makes, from where no line break has been met. -/
theorem Gives.of_run {reading : Reading α} (h : Gives reading R) : R (run reading).1 :=
  h false

end Gives

/-- Supplied text has rules of its own and is never read as a mark. -/
theorem markOf?_ne_supplied {name : Text} {mark : Mark} (h : markOf? name = some mark) :
    mark ≠ .supplied := by
  rintro rfl
  unfold markOf? at h
  repeat' split at h
  all_goals cases h

section Carried

variable {P : Bool → Text → Prop} {Q : Bool → Bool → List Xml.Node → Prop} (hP : Carries P Q)
  {inside plain allowNorm : Bool} {n : Xml.Node} {ns ms : List Xml.Node} {tag : Tag}
  {e : Xml.Element} {t out : Text} {mark : Mark} {read : ContentReader}
include hP

/-! ## 3. Texts -/

mutual

/-- The condition goes down to every element inside of an element that is one segment. -/
theorem carried_descendants (n : Xml.Node) (ms : List Xml.Node) (h : Q true plain (n :: ms)) :
    ∀ e ∈ n.descendants, Q true plain e.children := by
  intro e he
  cases n with
  | element tag ns =>
    rcases List.mem_cons.1 he with rfl | he
    · exact hP.children h
    · exact carried_descendantsAll ns (hP.children h) e he
  | text _ | comment _ | reference _ | instruction => exact absurd he List.not_mem_nil

theorem carried_descendantsAll (ns : List Xml.Node) (h : Q true plain ns) :
    ∀ e ∈ descendantsAll ns, Q true plain e.children := by
  intro e he
  cases ns with
  | nil => exact absurd he List.not_mem_nil
  | cons n ns =>
    rcases List.mem_append.1 he with he | he
    · exact carried_descendants n ns h e he
    · exact carried_descendantsAll ns (hP.tail h) e he

end

/-- So it holds of the level that is looked for, at whatever depth. -/
theorem Carries.findFirst? {name : Text} (h : Q true plain ns)
    (hf : Xml.findFirst? name ns = some e) : Q true plain e.children :=
  carried_descendantsAll hP ns h e (List.mem_of_find?_eq_some hf)

theorem Carries.elements (h : Q true plain ns) (he : e ∈ Xml.elements ns) :
    Q true plain e.children := by
  induction ns with
  | nil => exact absurd he List.not_mem_nil
  | cons n ns ih =>
    cases n with
    | element tag children =>
      rcases List.mem_cons.1 he with rfl | he
      · exact hP.children h
      · exact ih (hP.tail h) he
    | text _ | comment _ | reference _ | instruction => exact ih (hP.tail h) he

mutual

/-- The plain text of content, which counts where it reads as nothing, is made of its texts and
references. -/
theorem carried_plainText (n : Xml.Node) (ms : List Xml.Node) (h : Q true plain (n :: ms)) :
    P plain n.plainText := by
  cases n with
  | text t => exact hP.text h rfl
  | reference name => exact (hP.reference h).2
  | element tag ns => exact carried_plainTextAll ns (hP.children h)
  | comment _ | instruction => exact hP.nil

theorem carried_plainTextAll (ns : List Xml.Node) (h : Q true plain ns) :
    P plain (plainTextAll ns) := by
  cases ns with
  | nil => exact hP.nil
  | cons n ns => exact hP.append (carried_plainText n ns h) (carried_plainTextAll ns (hP.tail h))

end

theorem Carries.spaced (h : P plain t) : P plain (spaced t) := by
  unfold Import.spaced
  split
  · exact h
  · exact hP.append h (hP.blank (by decide))

/-- A run of text is put behind others as its words, with blanks where it had some. -/
theorem Carries.appendText (ho : P plain out) (h : Q inside plain (.text t :: ns)) (more : Bool) :
    P plain (appendText out t more) := by
  have words : P plain (Text.join " " (Text.words t)) := hP.text h (Lexer.squeezed_words t)
  have start : P plain (if (t.head?.map isBlank).getD false then Import.spaced out else out) := by
    split
    · exact hP.spaced ho
    · exact ho
  unfold Import.appendText
  dsimp only
  split
  · exact ho
  · have both := hP.append start words
    split
    · exact hP.spaced both
    · exact both

theorem Carries.markText (hm : mark ≠ .supplied) (h : P plain t) : P plain (markText mark t) := by
  unfold Import.markText
  split
  · exact hP.nil
  · exact hP.marked mark hm h

/-! ## 4. Levels and elements -/

section Readers

variable (hr : Sound P Q read)
include hr

theorem carried_trimmed (allowNorm : Bool) (h : Q true plain ns) :
    Gives (trimmed read allowNorm ns) (P plain) :=
  (hr plain allowNorm ns h).map fun _ ht => hP.trim ht

/-- A level is read as text without blanks at its ends, if there is one. -/
theorem carried_levelText (level : Text) (h : Q true plain ns) :
    Gives (levelText read level ns) fun found => ∀ t ∈ found, P plain t := by
  unfold levelText
  split
  · exact gives_pure nofun
  · next e he =>
    refine (carried_trimmed hP hr true (hP.findFirst? h he)).bind fun t ht => gives_pure ?_
    split
    · exact nofun
    · rintro _ ⟨⟩
      exact ht

/-- Two levels that differ make an abbreviation of two carried texts. -/
theorem carried_levelAbbreviation (h : Q true plain ns) :
    Gives (levelAbbreviation read ns) fun found => ∀ t ∈ found, P plain t := by
  unfold levelAbbreviation
  split
  · next facs dipl hf hd =>
    split
    · exact gives_pure nofun
    · refine (carried_trimmed hP hr true (hP.findFirst? h hf)).bind fun abbr ha => ?_
      refine (carried_trimmed hP hr true (hP.findFirst? h hd)).bind fun expansion hx => ?_
      refine gives_pure ?_
      split
      · exact nofun
      · rintro _ ⟨⟩
        exact hP.abbreviation ha hx
  · exact gives_pure nofun

/-- The facsimile before the diplomatic level, that before the normalized one, and all
content if there is none. -/
theorem carried_levels (allowNorm : Bool) (h : Q true plain ns) :
    Gives (levels read allowNorm ns) (P plain) := by
  unfold levels
  refine (carried_levelText hP hr "facs" h).bind fun facs hf => ?_
  refine (carried_levelText hP hr "dipl" h).bind fun dipl hd => ?_
  refine (carried_levelText hP hr "norm" h).bind fun norm hn => ?_
  split
  · exact gives_pure (hf _ rfl)
  · exact gives_pure (hd _ rfl)
  · refine gives_pure ?_
    split
    · exact hP.block .norm (hn _ rfl)
    · exact hn _ rfl
  · refine carried_trimmed hP hr allowNorm ?_
    cases found : Xml.findFirst? "facs" ns with
    | none => exact h
    | some e => exact hP.findFirst? h found

/-- A word is an abbreviation of its levels, or else one of them. -/
theorem carried_word (allowNorm : Bool) (h : Q true plain ns) :
    Gives (word read allowNorm ns) (P plain) := by
  unfold word
  refine (carried_levelAbbreviation hP hr h).bind fun found hf => ?_
  split
  · exact gives_pure (hf _ rfl)
  · exact carried_levels hP hr allowNorm h

omit hP in
/-- Whichever elements of a choice its two texts are taken from, the property goes over. -/
theorem carried_choicePair (allowNorm : Bool) {es : List Xml.Element}
    (he : ∀ e ∈ es, Q true plain e.children) {abbr expansion : Option Text}
    (ha : ∀ t ∈ abbr, P plain t) (hx : ∀ t ∈ expansion, P plain t) :
    Gives (choicePair read allowNorm es abbr expansion)
      fun found => (∀ t ∈ found.1, P plain t) ∧ ∀ t ∈ found.2, P plain t := by
  induction es generalizing abbr expansion with
  | nil => exact gives_pure ⟨ha, hx⟩
  | cons e es ih =>
    obtain ⟨here, rest⟩ := List.forall_mem_cons.1 he
    have text := hr plain allowNorm _ here
    unfold choicePair
    split
    · refine text.bind fun t ht => ih rest ?_ hx
      rintro _ ⟨⟩
      exact ht
    · split
      · refine text.bind fun t ht => ih rest ha ?_
        rintro _ ⟨⟩
        exact ht
      · exact ih rest ha hx

theorem carried_choice (allowNorm : Bool) (h : Q true plain ns) :
    Gives (choice read allowNorm ns) (P plain) := by
  have inner : ∀ e ∈ elements ns, Q true plain e.children := fun e he => hP.elements h he
  have absent : ∀ t ∈ (none : Option Text), P plain t := nofun
  unfold choice
  refine (carried_choicePair hr allowNorm inner absent absent).bind fun found hf => ?_
  split
  · exact gives_pure (hP.abbreviation (hf.1 _ rfl) (hf.2 _ rfl))
  · exact carried_word hP hr allowNorm h

/-- Supplied text goes into angle brackets only where it has no elements, and may then have
to be plain. -/
theorem carried_supplied (allowNorm : Bool) (hn : tag.localName = ("supplied" : Text))
    (h : Q inside plain (.element tag ns :: ms)) (hi : Q true plain ns) :
    Gives (supplied read allowNorm ns) (P plain) := by
  unfold Import.supplied
  split
  · refine (carried_trimmed hP hr false hi).bind fun t ht => gives_pure ?_
    split
    · exact hP.nil
    · exact hP.block .supplied ht
  · next hs =>
    obtain ⟨rfl, simple⟩ := hP.supplied h hn (Bool.eq_false_iff.2 hs)
    refine (carried_trimmed hP hr allowNorm simple).bind fun t ht => gives_pure ?_
    unfold Import.markText
    split
    · exact hP.nil
    · exact hP.angled ht

/-- One case for every kind of element inside a word, as the reader has them. -/
theorem carried_appendElement (allowNorm : Bool) (ho : P plain out)
    (h : Q true plain (.element tag ns :: ms)) :
    Gives (appendElement read allowNorm out tag ns) (P plain) := by
  have inner : Q true plain ns := hP.children h
  have content := hr plain allowNorm ns inner
  have added {before : Text} {reading : Reading Text} (hb : P plain before)
      (hg : Gives reading (P plain)) : Gives (do return before ++ (← reading)) (P plain) :=
    hg.bind fun t ht => gives_pure (hP.append hb ht)
  unfold appendElement
  dsimp only
  split
  · exact added ho (carried_choice hP hr allowNorm inner)
  split
  · exact added (hP.spaced ho) (carried_word hP hr allowNorm inner)
  split
  · exact added ho (carried_levels hP hr allowNorm inner)
  split
  · refine content.bind fun t ht => gives_pure (hP.append ho ?_)
    split
    · exact carried_plainTextAll hP ns inner
    · exact ht
  split
  · next hn => exact added ho (carried_supplied hP hr allowNorm hn h inner)
  split
  · next hn =>
    exact fun _ => hP.append ho (hP.lineBreak h hn).1
  split
  · exact gives_pure ho
  split
  · next mark hm =>
    refine added ho ((carried_trimmed hP hr allowNorm inner).map fun t ht => ?_)
    exact hP.markText (markOf?_ne_supplied hm) ht
  · exact added ho content

omit hP hr in
/-- An element other than a gap is read on its own, whatever comes after it. -/
theorem appendAll_element (hg : tag.localName ≠ ("gap" : Text)) :
    appendAll read allowNorm out (.element tag ns :: ms)
      = appendElement read allowNorm out tag ns >>= fun t => appendAll read allowNorm t ms := by
  rw [appendAll.eq_def]
  exact if_neg hg

/-- Nodes one after the other, by induction along the reader. -/
theorem carried_appendAll (allowNorm : Bool) (ho : P plain out) (h : Q true plain ns) :
    Gives (appendAll read allowNorm out ns) (P plain) := by
  -- a gap may take the node after it as well, so that the cases are those of the reader
  induction out, ns using appendAll.induct with
  | case1 out =>
    rw [appendAll]
    exact gives_pure ho
  | case2 out content ns ih =>
    rw [appendAll]
    exact ih (hP.appendText ho h _) (hP.tail h)
  | case3 out name ns ih =>
    have whole : P plain (out ++ ':' :: name ++ [':']) := by
      simpa using hP.append ho (hP.reference h).1
    rw [appendAll]
    exact ih whole (hP.tail h)
  | case4 out tag children hg next inner rest hs ih ihr =>
    obtain ⟨rfl, simple, angled⟩ := hP.reading h hg hs
    rw [appendAll, if_pos hg, if_pos hs]
    refine (carried_trimmed hP hr allowNorm simple).bind fun t ht => ?_
    split
    · exact ih (hP.append ho (hP.gap h hg)) (hP.tail h)
    · exact ihr t (hP.append ho (angled t ht)) (hP.tail (hP.tail h))
  | case5 out tag children hg next inner rest hs ih =>
    rw [appendAll, if_pos hg, if_neg hs]
    exact ih (hP.append ho (hP.gap h hg)) (hP.tail h)
  | case6 out tag children hg ns hn ih =>
    rw [appendAll, if_pos hg]
    · exact ih (hP.append ho (hP.gap h hg)) (hP.tail h)
    · exact hn
  | case7 out tag children ns hg ih =>
    rw [appendAll_element hg]
    exact (carried_appendElement hP hr allowNorm ho h).bind fun t ht => ih t ht (hP.tail h)
  | case8 out n ns ht hr he ih =>
    rw [appendAll]
    · exact ih ho (hP.tail h)
    · exact ht
    · exact hr
    · exact he

end Readers

/-- Induction on how deep content may still be nested. -/
theorem sound_contentTo (depth : Nat) : Sound P Q (contentTo depth) := by
  induction depth with
  | zero => exact fun _ _ _ _ => gives_pure hP.nil
  | succ depth ih => exact fun _ allowNorm _ h => carried_appendAll hP ih allowNorm hP.nil h

/-- **Text read from content has the property**, however deep its elements are nested. -/
theorem carried_content : Sound P Q Import.content :=
  fun plain allowNorm ns => sound_contentTo hP (Xml.depthAll ns + 1) plain allowNorm ns

end Carried

/-! ## 5. Bodies -/

section Bodies

open Segment (Cursor breakText project projectFrom)

/-- From any cursor and any number on, what segments add to a projection has the property. -/
def Adds (R : Text → Prop) (ds : List Draft) : Prop :=
  ∀ c first, R (projectFrom c (numberFrom first ds))

/-- Where the first segments leave the cursor, the others go on. -/
theorem projectFrom_append (c : Cursor) (ss rest : List Segment) :
    projectFrom c (ss ++ rest)
      = projectFrom c ss ++ projectFrom (ss.foldl (fun c s => (project c s).2) c) rest := by
  induction ss generalizing c with
  | nil => rfl
  | cons s ss ih => simp [projectFrom, ih]

/-- What is put before a word is blank at most. -/
theorem squeezed_beforeWord (c : Cursor) : squeezed c.beforeWord = [] := by
  unfold Cursor.beforeWord
  repeat' split
  all_goals rfl

/-- Blanks apart, the runs of a text add the text. -/
theorem squeezed_runs (rs : List Text) (c : Cursor) (first : Int) :
    squeezed (projectFrom c (numberFrom first (rs.map ofRun))) = squeezed rs.flatten := by
  induction rs generalizing c first with
  | nil => rfl
  | cons r rs ih =>
    have here : squeezed (project c (ofRun r first)).1 = squeezed r := by
      unfold ofRun
      split
      · next hb => exact (Lexer.squeezed_of_blank (List.all_eq_true.1 hb)).symm
      · show squeezed (c.beforeWord ++ r) = squeezed r
        rw [Lexer.squeezed_append, squeezed_beforeWord, List.nil_append]
    rw [List.map_cons, numberFrom, projectFrom, Lexer.squeezed_append, here, ih, List.flatten_cons,
      Lexer.squeezed_append]

variable {P : Bool → Text → Prop} {Q : Bool → Bool → List Xml.Node → Prop} (hP : Carries P Q)
  {inside plain : Bool} {n : Xml.Node} {ns ms : List Xml.Node} {tag : Tag} {d : Draft}
include hP

theorem Carries.beforeWord (c : Cursor) : P plain c.beforeWord := by
  unfold Cursor.beforeWord
  repeat' split
  all_goals first | exact hP.nil | exact hP.blank (by decide)

theorem Carries.innerText (h : Q true plain ns) : P plain (innerText true ns) :=
  (carried_trimmed hP (carried_content hP) true h).of_run

/-- An editorial element is written as its kind asks: as a block, in marks, or not at all. -/
theorem Carries.editorialText (h : Q inside plain (.element tag ns :: ms))
    (hi : Q true plain ns) : P plain (editorialText tag ns) := by
  unfold Import.editorialText
  dsimp only
  split
  · next hn => exact (carried_supplied hP (carried_content hP) true hn h hi).of_run
  split
  · split
    · exact hP.nil
    · exact hP.innerText hi
  split
  · split
    · exact hP.nil
    · exact hP.block .head (hP.innerText hi)
  split
  · next mark hm => exact hP.markText (markOf?_ne_supplied hm) (hP.innerText hi)
  · exact hP.nil

theorem adds_single (h : ∀ c id, P plain (project c (d id)).1) : Adds (P plain) [d] :=
  fun c first => hP.append (h c first) hP.nil

/-- Segments after others, each with numbers and a cursor of their own. -/
theorem adds_append {ds es : List Draft} (hd : Adds (P plain) ds) (he : Adds (P plain) es) :
    Adds (P plain) (ds ++ es) := by
  intro c first
  rw [numberFrom_append, projectFrom_append]
  exact hP.append (hd c first) (he _ _)

/-- One case for every kind of element that is one segment. -/
theorem adds_elementDraft (hd : elementDraft? tag ns = some d)
    (h : Q inside plain (.element tag ns :: ms)) : Adds (P plain) [d] := by
  have hi : Q true plain ns := by
    have inner := hP.children h
    rwa [hd, Option.isSome_some, Bool.or_true] at inner
  have content := carried_content hP
  refine adds_single hP fun c id => ?_
  unfold elementDraft? at hd
  dsimp only at hd
  split at hd
  · cases hd
    exact hP.append (hP.beforeWord c) (carried_word hP content true hi).of_run
  split at hd
  · cases hd
    refine hP.append ?_ (carried_levels hP content true hi).of_run
    unfold Cursor.beforePunctuation
    split
    · exact hP.blank (by decide)
    · exact hP.nil
  split at hd
  · next hn =>
    cases hd
    exact hP.append (hP.append (hP.blank (c := '\n') (by decide)) (hP.lineBreak h hn).2)
      (hP.blank (by decide))
  split at hd
  · next hn =>
    cases hd
    exact hP.append (hP.blank (c := '\n') (by decide)) (hP.pageBreak h hn)
  split at hd
  · cases hd
    exact hP.nil
  split at hd
  · cases hd
    exact hP.append (hP.beforeWord c) (carried_choice hP content true hi).of_run
  split at hd
  · next hn =>
    cases hd
    exact hP.append (hP.beforeWord c) (hP.gap h hn)
  split at hd
  · cases hd
  · cases hd
    exact hP.append (hP.beforeWord c) (hP.editorialText h hi)

theorem adds_structural (text : Text) : Adds (P plain) [fun id => .structural id text] :=
  adds_single hP fun _ _ => hP.nil

mutual

/-- A node adds the segments of the nodes in it between its tags, or the one that it is. -/
theorem adds_drafts : ∀ (n : Xml.Node) (ms : List Xml.Node), Q false plain (n :: ms) →
    Adds (P plain) (drafts n)
  | .text t, ms, h => fun c first => by
    refine hP.text h ?_
    rw [drafts, squeezed_runs, flatten_runs]
  | .comment t, ms, _ => adds_structural hP _
  | .reference name, ms, h =>
    adds_single hP fun c _ => hP.append (hP.beforeWord c) (hP.reference h).1
  | .instruction, _, _ => fun _ _ => hP.nil
  | .element tag ns, ms, h => by
    unfold drafts
    split
    · next found hf => exact adds_elementDraft hP hf h
    · next hf =>
      have inner : Q false plain ns := by simpa [hf] using hP.children h
      split
      · exact adds_structural hP _
      · have opened := adds_append hP (adds_structural hP tag.opening) (adds_draftsAll ns inner)
        exact adds_append hP opened (adds_structural hP tag.closing)

theorem adds_draftsAll : ∀ (ns : List Xml.Node), Q false plain ns → Adds (P plain) (draftsAll ns)
  | [], _ => fun _ _ => hP.nil
  | n :: ns, h => adds_append hP (adds_drafts n ns h) (adds_draftsAll ns (hP.tail h))

end

/-- **The projection of a body has the property.** -/
theorem carried_toText {body : Xml.Element} (h : Q false plain body.children) :
    P plain (Segment.toText (segments body)) :=
  hP.trim (adds_draftsAll hP body.children h .start 0)

end Bodies

end Import

end Transcription
