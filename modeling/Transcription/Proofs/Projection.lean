/-
Transcription.Proofs.Projection — the text of a list of segments is read as the
tokens of the segments.

The text is written piece by piece. What is left at each place is `Flattened`: a
text that is read as the tokens so far, after which marks may be written at once
(`TakesMarks`), and the blank that a line break leaves. A word needs a blank
before it, or nothing; this is where the segments must be `Separated`.

**`flattened_step`**: one segment goes on, whatever its kind.
**`contents_toText`**: the text of a list can be read, and its tokens are those of
the segments.
-/
import Transcription.Proofs.Rereading
import Transcription.Proofs.Separation

namespace Transcription

namespace Node

open Pending Lexer

/-! ## 1. Texts and what they are read as -/

/-- A text is read as these tokens. -/
def Reads (t : Text) (ts : List Text) : Prop :=
  ∃ ns, lex t = .ok ns ∧ (grouped ns).map write = ts

/-- A text is read as these tokens, and marks may be written right after it. -/
def TakesMarks (t : Text) (ts : List Text) : Prop :=
  ∀ run, (∀ c ∈ run, IsMark c) → Reads (t ++ run) (ts ++ run.map ([·]))

section Reads

variable {a b t gap : Text} {ts us : List Text} {c w : Char} {ns : List Node}

theorem Reads.contents (h : Reads t ts) : Token.contents t = ts := by
  obtain ⟨ns, hl, rfl⟩ := h
  exact contents_of_lex hl

theorem Reads.of_blank (hw : isBlank w = true) : Reads (w :: t) ts ↔ Reads t ts := by
  unfold Reads
  rw [lex_blank hw]
  constructor
  · rintro ⟨ns, hl, he⟩
    obtain ⟨ms, hm, rfl⟩ := exists_of_map hl
    exact ⟨ms, hm, by rw [← he, grouped_consChar hw]⟩
  · rintro ⟨ms, hm, he⟩
    exact ⟨consChar w ms, by rw [hm]; rfl, by rw [← he, grouped_consChar hw]⟩

theorem Reads.of_blanks (hg : ∀ c ∈ gap, isBlank c = true) : Reads (gap ++ t) ts ↔ Reads t ts := by
  induction gap with
  | nil => rfl
  | cons w gap ih =>
    obtain ⟨hw, hg⟩ := List.forall_mem_cons.1 hg
    rw [List.cons_append, Reads.of_blank hw, ih hg]

theorem Reads.trimStart (h : Reads t ts) : Reads t.trimStart ts := by
  have blanks : ∀ c ∈ t.takeWhile isBlank, isBlank c = true :=
    List.all_eq_true.1 List.all_takeWhile
  refine (Reads.of_blanks blanks).1 ?_
  rwa [Text.trimStart, List.takeWhile_append_dropWhile]

/-- Texts with blanks between them are read one after the other. -/
theorem Reads.apart (ha : Reads a ts) (hb : Reads b us) (hg : ∀ c ∈ gap, isBlank c = true)
    (hne : gap ≠ []) : Reads (a ++ gap ++ b) (ts ++ us) := by
  obtain ⟨w, gap, rfl⟩ := List.exists_cons_of_ne_nil hne
  obtain ⟨hw, hg⟩ := List.forall_mem_cons.1 hg
  obtain ⟨ns, hl, rfl⟩ := ha
  obtain ⟨ms, hm, rfl⟩ := (Reads.of_blanks hg).2 hb
  rw [List.append_assoc, List.cons_append]
  refine ⟨_, by rw [lex_append_blank hl hw, hm]; rfl, ?_⟩
  rw [grouped_fuse_blank hw, List.map_append]

theorem TakesMarks.reads (h : TakesMarks t ts) : Reads t ts := by
  simpa using h [] nofun

theorem TakesMarks.snoc (h : TakesMarks t ts) (hc : IsMark c) :
    TakesMarks (t ++ [c]) (ts ++ [[c]]) := by
  intro run hr
  simpa using h (c :: run) (List.forall_mem_cons.2 ⟨hc, hr⟩)

theorem TakesMarks.apart (ha : Reads a ts) (hb : TakesMarks b us)
    (hg : ∀ c ∈ gap, isBlank c = true) (hne : gap ≠ []) :
    TakesMarks (a ++ gap ++ b) (ts ++ us) := by
  intro run hr
  simpa using ha.apart (hb run hr) hg hne

theorem write_marks {run : Text} (hr : ∀ c ∈ run, IsMark c) :
    (grouped (textNode run)).map write = run.map ([·]) := by
  have one (c : Char) : write (.group .punctuation [.text [c]]) = [c] := rfl
  rw [grouped_marks hr, List.map_map]
  exact List.map_congr_left fun c _ => one c

theorem takesMarks_nil : TakesMarks [] [] := by
  intro run hr
  have whole : Reads run (run.map ([·])) := ⟨_, lex_marks hr, write_marks hr⟩
  simpa using whole

/-- Marks after a text that they do not change are read as they are read alone. -/
theorem takesMarks_of_severs (hl : lex t = .ok ns) (hs : ∀ c, IsMark c → Severs c ns) :
    TakesMarks t ((grouped ns).map write) := by
  intro run hr
  cases run with
  | nil => exact ⟨ns, by simpa using hl, by simp⟩
  | cons c run =>
    have hc := hr c List.mem_cons_self
    refine ⟨fuse ns (textNode (c :: run)), ?_, ?_⟩
    · rw [lex_seam hl (hs c hc), lex_marks hr]
      rfl
    · have cut : grouped (fuse ns (textNode (c :: run)))
          = grouped ns ++ grouped (textNode (c :: run)) :=
        groupFrom_fuse (.inr (contains_of_isMark hc))
      rw [cut, List.map_append, write_marks hr]

end Reads

/-! ## 2. Ends of texts -/

/-- The text ends in a character that is no blank. -/
def EndsSolid (t : Text) : Prop :=
  ∃ init c, t = init ++ [c] ∧ isBlank c = false

section Ends

variable {t u : Text} {c : Char} {n : Node} {children : List Node}

theorem EndsSolid.append (h : EndsSolid u) (t : Text) : EndsSolid (t ++ u) := by
  obtain ⟨init, c, rfl, hc⟩ := h
  exact ⟨t ++ init, c, by simp, hc⟩

theorem endsSolid_singleton (hc : isBlank c = false) : EndsSolid [c] :=
  ⟨[], c, rfl, hc⟩

theorem endsSolid_of_forall (hne : t ≠ []) (h : ∀ c ∈ t, isBlank c = false) : EndsSolid t := by
  refine ⟨t.dropLast, t.getLast hne, (List.dropLast_concat_getLast hne).symm, ?_⟩
  exact h _ (List.getLast_mem hne)

theorem endsSolid_sign (kind : BreakKind) : EndsSolid kind.sign := by
  cases kind
  · exact ⟨['/'], '/', rfl, by decide⟩
  · exact ⟨['/', '/'], '/', rfl, by decide⟩

theorem endsSolid_break (kind : BreakKind) (label : Option Text) (inWord : Bool) :
    EndsSolid (kind.write label inWord) := by
  have sign : EndsSolid (if inWord then '~' :: kind.sign else kind.sign) := by
    split
    · exact (endsSolid_sign kind).append ['~']
    · exact endsSolid_sign kind
  unfold BreakKind.write
  dsimp only
  split
  · exact sign
  · next hne =>
    split
    · next hb =>
      -- a label without braces holds no blank
      simp only [Bool.and_eq_true] at hb
      refine (endsSolid_of_forall (by simpa using hne) fun c hc => ?_).append _
      cases kind with
      | line =>
        have digit := List.all_eq_true.1 hb.2 c hc
        cases hbl : isBlank c with
        | false => rfl
        | true => rw [not_isDigit_of_isBlank hbl] at digit; cases digit
      | page =>
        have plain := hb.2
        simp only [BreakKind.bareLabel, Bool.not_eq_true', Bool.or_eq_false_iff] at plain
        simpa using List.any_eq_false.1 plain.2 c hc
    · exact (endsSolid_singleton (by decide)).append _

theorem endsSolid_writeIn (hn : InWord n) : EndsSolid (n.writeIn true) := by
  cases n with
  | text content =>
    exact endsSolid_of_forall hn.admissible fun c hc => (hn.solid content rfl c hc).1
  | abbreviation abbr expansion =>
    have shape := writeIn_abbreviation true [] abbr expansion
    rw [List.append_nil] at shape
    rw [shape]
    have last : '.' :: 'a' :: 'b' :: 'b' :: 'r' :: '[' ::
          (abbr ++ ']' :: '{' :: (expansion ++ ['}']))
        = ('.' :: 'a' :: 'b' :: 'b' :: 'r' :: '[' ::
          (abbr ++ ']' :: '{' :: expansion)) ++ ['}'] := by
      simp
    rw [last]
    exact (endsSolid_singleton (by decide)).append _
  | gap quantity reading => exact (endsSolid_singleton (by decide)).append _
  | marked mark content =>
    refine EndsSolid.append ?_ _
    cases mark
    · exact ⟨[], '>', rfl, by decide⟩
    · exact ⟨['}'], '-', rfl, by decide⟩
    · exact ⟨['}'], '+', rfl, by decide⟩
    · exact ⟨[], '}', rfl, by decide⟩
    · exact ⟨['}'], '?', rfl, by decide⟩
  | entity name => exact (endsSolid_singleton (by decide)).append (':' :: name)
  | compoundJoin => exact endsSolid_singleton (by decide)
  | lineBreak label => exact endsSolid_break .line label true
  | pageBreak label => exact endsSolid_break .page (some label) true
  | continuation | boundary | block _ _ | group _ _ => rcases hn.inside with hi | hi <;> cases hi

theorem endsSolid_writeChildren (hw : ∀ m ∈ children, InWord m) (hne : children ≠ []) :
    EndsSolid (writeChildren children) := by
  induction children with
  | nil => exact absurd rfl hne
  | cons n children ih =>
    obtain ⟨hn, hws⟩ := List.forall_mem_cons.1 hw
    cases children with
    | nil => simpa [writeChildren] using endsSolid_writeIn hn
    | cons m children => exact (ih hws nofun).append _

theorem EndsSolid.trimStart (h : EndsSolid t) : EndsSolid t.trimStart := by
  obtain ⟨init, c, rfl, hc⟩ := h
  rw [Text.trimStart, List.dropWhile_append]
  split
  · rw [List.dropWhile_cons_of_neg (by simp [hc])]
    exact endsSolid_singleton hc
  · exact (endsSolid_singleton hc).append _

theorem EndsSolid.trimStart_append (h : EndsSolid t) (u : Text) :
    (t ++ u).trimStart = t.trimStart ++ u := by
  obtain ⟨init, c, rfl, hc⟩ := h
  have stop (u : Text) : (c :: u).dropWhile isBlank = c :: u :=
    List.dropWhile_cons_of_neg (by simp [hc])
  simp only [Text.trimStart, List.dropWhile_append, List.append_assoc, List.singleton_append, stop]
  split <;> simp

theorem EndsSolid.trimEnd_append (h : EndsSolid t) (hu : ∀ c ∈ u, isBlank c = true) :
    (t ++ u).trimEnd = t := by
  obtain ⟨init, c, rfl, hc⟩ := h
  have blanks : ∀ c ∈ u.reverse, isBlank c = true := fun c hm => hu c (List.mem_reverse.1 hm)
  rw [Text.trimEnd, List.reverse_append, List.dropWhile_append_of_pos blanks]
  simp [hc]

/-- Blanks after a text that does not end in one are trimmed. -/
theorem EndsSolid.trim_append (h : EndsSolid t) (hu : ∀ c ∈ u, isBlank c = true) :
    (t ++ u).trim = t.trimStart := by
  rw [Text.trim, h.trimStart_append, h.trimStart.trimEnd_append hu]

theorem EndsSolid.isEmpty_trim (h : EndsSolid t) : t.trim.isEmpty = false := by
  have whole := @EndsSolid.trim_append t [] h nofun
  rw [List.append_nil] at whole
  obtain ⟨init, c, he, -⟩ := h.trimStart
  simp [whole, he]

end Ends

/-! ## 3. Words and breaks alone -/

section Pieces

variable {g : Node} {ns : List Node}

/-- The groups that a word segment holds: words and blocks. -/
def isEdited : Node → Bool
  | .group .word _ | .block _ _ => true
  | _ => false

/-- A word that is read back as it was written takes marks after it. -/
theorem takesMarks_word (hl : lex g.write = .ok ns) (hg : grouped ns = [g])
    (hk : g.isEdited = true) : TakesMarks g.write [g.write] ∧ EndsSolid g.write := by
  have closed : Grouped g := grouped_of_lex hl g (hg ▸ List.mem_singleton.2 rfl)
  have tokens : (grouped ns).map write = [g.write] := by rw [hg]; rfl
  rw [← tokens]
  cases g with
  | group kind children =>
    cases kind with
    | word =>
      obtain ⟨hne, hw, hj⟩ := closed
      have read : ns = expanded children := lex_of_reads_back hw hj hl hg
      refine ⟨takesMarks_of_severs hl fun c hc => ?_, endsSolid_writeChildren hw hne⟩
      rw [read]
      exact severs_expanded hc hw
    | punctuation => cases hk
  | block kind body =>
    have read := @construct_closed (.block kind body) closed rfl false []
    cases hl.symm.trans (lex_whole read)
    refine ⟨takesMarks_of_severs hl fun c hc => severs_block hc, ?_⟩
    exact (endsSolid_singleton (by decide)).append _
  | _ => cases hk

/-- A break alone is read back, with braces around its label where it needs
them. -/
theorem reads_break (kind : BreakKind) {label : Option Text} (h : ∀ t ∈ label, '}' ∉ t) :
    Reads (kind.write label false) [kind.write label false] := by
  have closed : '}' ∉ label.getD [] := by
    cases label with
    | none => exact List.not_mem_nil
    | some t => exact h t rfl
  have alone {n : Node} (hb : n.isBreak = true) (ha : n.Admissible) : Reads n.write [n.write] := by
    have single : grouped [n] = [n] := by
      cases n with
      | lineBreak _ | pageBreak _ => rfl
      | _ => cases hb
    exact ⟨[n], lex_whole (construct_break hb ha nofun), by rw [single]; rfl⟩
  cases kind with
  | line =>
    have same : (Node.lineBreak (labelOf (label.getD []))).write
        = BreakKind.line.write label false := by
      show BreakKind.line.write (labelOf (label.getD [])) false = _
      rw [BreakKind.write, BreakKind.write, getD_labelOf]
    rw [← same]
    refine alone rfl fun t ht => ?_
    rw [labelOf] at ht
    split at ht
    · cases ht
    · next hne =>
      cases ht
      exact ⟨by simpa using hne, closed⟩
  | page => exact @alone (.pageBreak (label.getD [])) rfl (.inl closed)

end Pieces

end Node

/-! ## 4. Segments -/

namespace Segment

open Node Lexer

/-- A segment whose text is read back as its own token: a word as one word or
block, a punctuation mark as that mark, a break with a label that braces hold. -/
def ReadsBack : Segment → Prop
  | .word _ _ dsl _ _ =>
      ∃ ns g, lex dsl = .ok ns ∧ grouped ns = [g] ∧ g.isEdited = true ∧ g.write = dsl
  | .punctuation _ _ dsl => ∃ c, IsMark c ∧ dsl = [c]
  | .milestone .line _ attrs | .milestone .page _ attrs => ∀ n ∈ attrs.get? "n", '}' ∉ n
  | _ => True

/-- Whether a segment is a word or a punctuation mark. -/
def isToken : Segment → Bool
  | .word _ _ _ _ _ | .punctuation _ _ _ => true
  | _ => false

/-- Whether a segment is a word. -/
def isWord : Segment → Bool
  | .word _ _ _ _ _ => true
  | _ => false

/-- Whether a segment separates words: a break of a line or a page, or a blank
that calls for a space. -/
def separates : Segment → Bool
  | .milestone .line _ _ | .milestone .page _ _ => true
  | .whitespace _ content => isSeparating content
  | _ => false

/-- What comes after the last word or punctuation mark, if there is one, separates
it from a word. -/
def Spaced (done : List Segment) : Prop :=
  ∀ before s between, done = before ++ s :: between → s.isToken = true →
    (∀ m ∈ between, m.isToken = false) → ∃ m ∈ between, m.separates = true

/-- Each word is separated from the word or punctuation mark before it. -/
def Separated (ss : List Segment) : Prop :=
  ∀ done w after, ss = done ++ w :: after → w.isWord = true → Spaced done

/-- After a segment that separates, and is no word or mark, a word may come. -/
theorem spaced_snoc (done : List Segment) {s : Segment} (ht : s.isToken = false)
    (hs : s.separates = true) : Spaced (done ++ [s]) := by
  intro before t between he token _
  refine ⟨s, ?_, hs⟩
  rcases List.eq_nil_or_concat between with rfl | ⟨between, last, rfl⟩
  · have last := (List.append_inj' he rfl).2
    rw [← (List.cons.inj last).1, ht] at token
    cases token
  · have shape : before ++ t :: (between ++ [last]) = (before ++ t :: between) ++ [last] := by simp
    rw [List.concat_eq_append, shape] at he
    rw [List.concat_eq_append, (List.cons.inj (List.append_inj' he rfl).2).1]
    exact List.mem_append_right _ List.mem_cons_self

section Flattening

variable {c : Cursor} {core tail d gap : Text} {ts us : List Text} {done ss : List Segment}
  {s : Segment}

/-- What has been written when a cursor has passed the segments `done`: the text
`core`, which is read as the tokens of these segments, and a blank after a line
break. -/
structure Flattened (c : Cursor) (core tail : Text) (ts : List Text) (done : List Segment) :
    Prop where
  reads : Reads core ts
  ends : core = [] ∨ EndsSolid core
  blank : ∀ ch ∈ tail, isBlank ch = true
  /-- Nothing has been written before the first piece. -/
  nothing : c.last = none → core = [] ∧ tail = []
  /-- A piece that ends in a blank leaves one. -/
  spaced : ∀ piece ∈ c.last, piece.endsIn ' ' = true → tail ≠ [] ∨ c.afterPage = true
  /-- Marks may follow unless a page break came last. -/
  takesMarks : c.afterPage = false → tail = [] → TakesMarks core ts
  /-- Where nothing separates, the last thing written is a word or a mark. -/
  glued : c.afterPage = false → c.spaceDue = false → tail = [] → c.last ≠ none →
    ∃ before s between, done = before ++ s :: between ∧ s.isToken = true
      ∧ ∀ m ∈ between, m.isToken = false ∧ m.separates = false

theorem flattened_start : Flattened .start [] [] [] [] where
  reads := takesMarks_nil.reads
  ends := .inl rfl
  blank := nofun
  nothing _ := ⟨rfl, rfl⟩
  spaced := nofun
  takesMarks _ _ := takesMarks_nil
  glued _ _ _ h := absurd rfl h

/-- What a word or a mark leaves. -/
theorem flattened_token (hd : TakesMarks core ts) (he : EndsSolid core) (hs : s.isToken = true)
    (hp : d.endsIn ' ' = false) : Flattened (.wrote d) core [] ts (done ++ [s]) where
  reads := hd.reads
  ends := .inr he
  blank := nofun
  nothing := nofun
  spaced piece hp' hpi := by cases hp'; rw [hp] at hpi; cases hpi
  takesMarks _ _ := hd
  glued _ _ _ _ := ⟨done, s, [], rfl, hs, nofun⟩

/-- A segment that is not written leaves what there is. -/
theorem Flattened.unwritten (h : Flattened c core tail ts done) (hs : s.isToken = false) :
    Flattened { c with spaceDue := c.spaceDue || s.separates } core tail ts (done ++ [s]) where
  reads := h.reads
  ends := h.ends
  blank := h.blank
  nothing := h.nothing
  spaced := h.spaced
  takesMarks := h.takesMarks
  glued page due ht hl := by
    obtain ⟨noSpace, noSeparator⟩ := Bool.or_eq_false_iff.1 due
    obtain ⟨before, t, between, rfl, token, rest⟩ := h.glued page noSpace ht hl
    refine ⟨before, t, between ++ [s], by simp, token, ?_⟩
    exact List.forall_mem_append.2 ⟨rest, by simpa using ⟨hs, noSeparator⟩⟩

/-- A line break is followed by a blank. -/
theorem Flattened.line (h : Flattened c core tail ts done) {piece : Text} (hp : Reads piece [piece])
    (he : EndsSolid piece) (s : Segment) :
    Flattened (.wrote ('\n' :: piece ++ [' '])) (core ++ (tail ++ ['\n']) ++ piece) [' ']
      (ts ++ [piece]) (done ++ [s]) where
  reads :=
    h.reads.apart hp (List.forall_mem_append.2 ⟨h.blank, Text.forall_of_check (by decide)⟩)
      (by simp)
  ends := .inr (he.append _)
  blank := Text.forall_of_check (by decide)
  nothing := nofun
  spaced _ _ _ := .inl nofun
  takesMarks _ := nofun
  glued _ _ := nofun

/-- After a page break nothing follows on its line. -/
theorem Flattened.page (h : Flattened c core tail ts done) {piece : Text} (hp : Reads piece [piece])
    (he : EndsSolid piece) (s : Segment) :
    Flattened ⟨some ('\n' :: piece), false, true⟩ (core ++ (tail ++ ['\n']) ++ piece) []
      (ts ++ [piece]) (done ++ [s]) where
  reads :=
    h.reads.apart hp (List.forall_mem_append.2 ⟨h.blank, Text.forall_of_check (by decide)⟩)
      (by simp)
  ends := .inr (he.append _)
  blank := nofun
  nothing := nofun
  spaced _ _ _ := .inr rfl
  takesMarks := nofun
  glued := nofun

theorem Reads.of_nil (h : Reads [] ts) : ts = [] := by
  obtain ⟨ns, hl, rfl⟩ := h
  cases hl.symm.trans lex_nil
  rfl

theorem endsIn_of_endsSolid (h : EndsSolid d) : d.endsIn ' ' = false := by
  obtain ⟨init, c, rfl, hc⟩ := h
  have other : c ≠ ' ' := by
    rintro rfl
    revert hc
    decide
  simp [Text.endsIn, other]

/-- Text after blanks, or after nothing. -/
theorem Flattened.goOn (h : Flattened c core tail ts done) (hd : TakesMarks d us)
    (hg : ∀ ch ∈ gap, isBlank ch = true)
    (hn : tail ++ gap = [] → TakesMarks (core ++ d) (ts ++ us)) :
    TakesMarks (core ++ (tail ++ gap) ++ d) (ts ++ us) := by
  by_cases he : tail ++ gap = []
  · rw [he, List.append_nil]
    exact hn he
  · exact TakesMarks.apart h.reads hd (List.forall_mem_append.2 ⟨h.blank, hg⟩) he

/-- Where a word is written right after what there is, there is nothing. -/
theorem Flattened.nil_of_beforeWord (h : Flattened c core tail ts done) (hs : Spaced done)
    (hg : tail ++ c.beforeWord = []) : core = [] := by
  obtain ⟨ht, hb⟩ := List.append_eq_nil_iff.1 hg
  unfold Cursor.beforeWord at hb
  split at hb
  · cases hb
  · next page =>
    have page : c.afterPage = false := by simpa using page
    split at hb
    · next piece hl =>
      split at hb
      · cases hb
      · next due =>
        have unspaced : ¬piece.endsIn ' ' = true := by
          intro he
          rcases h.spaced piece hl he with hne | hp
          · exact hne ht
          · rw [page] at hp
            cases hp
        have due : c.spaceDue = false := by simpa [unspaced] using due
        obtain ⟨before, s, between, hd, token, rest⟩ := h.glued page due ht (by simp [hl])
        obtain ⟨m, hm, separates⟩ := hs before s between hd token fun m hm => (rest m hm).1
        rw [(rest m hm).2] at separates
        cases separates
    · next hl => exact (h.nothing hl).1

theorem isBlank_beforeWord (c : Cursor) : ∀ ch ∈ c.beforeWord, isBlank ch = true := by
  unfold Cursor.beforeWord
  split
  · exact Text.forall_of_check (by decide)
  · split
    · split
      · exact Text.forall_of_check (by decide)
      · nofun
    · nofun

/-- A word goes on, whatever tokens it is read as. -/
theorem Flattened.word (h : Flattened c core tail ts done) (hd : TakesMarks d us)
    (he : EndsSolid d) (hs : s.isToken = true) (spaced : Spaced done) :
    Flattened (.wrote d) (core ++ (tail ++ c.beforeWord) ++ d) [] (ts ++ us) (done ++ [s]) := by
  refine flattened_token (h.goOn hd (isBlank_beforeWord c) fun hn => ?_) (he.append _) hs
    (endsIn_of_endsSolid he)
  obtain rfl := h.nil_of_beforeWord spaced hn
  rw [Reads.of_nil h.reads]
  exact hd

/-- One segment goes on. -/
theorem flattened_step (h : Flattened c core tail ts done) (hs : s.ReadsBack)
    (hw : s.isWord = true → Spaced done) :
    ∃ core' tail', core ++ tail ++ (project c s).1 = core' ++ tail'
      ∧ Flattened (project c s).2 core' tail' (ts ++ (Token.ofSegment? s).toList.map Token.content)
        (done ++ [s]) := by
  cases s with
  | word id xml dsl attrs breaks =>
    obtain ⟨ns, g, hl, hg, hk, rfl⟩ := hs
    obtain ⟨marks, ends⟩ := takesMarks_word hl hg hk
    refine ⟨core ++ (tail ++ c.beforeWord) ++ g.write, [], by simp [project], ?_⟩
    have token : Token.ofSegment? (.word id xml g.write attrs breaks) = some ⟨g.write, id⟩ := by
      simp [Token.ofSegment?, ends.isEmpty_trim]
    rw [token]
    exact h.word marks ends rfl (hw rfl)
  | punctuation id xml dsl =>
    obtain ⟨ch, mark, rfl⟩ := hs
    have ends := endsSolid_singleton (not_isBlank_of_isMark mark)
    have marks : TakesMarks [ch] [[ch]] := takesMarks_nil.snoc mark
    refine ⟨core ++ (tail ++ c.beforePunctuation) ++ [ch], [], by simp [project], ?_⟩
    have token : Token.ofSegment? (.punctuation id xml [ch]) = some ⟨[ch], id⟩ := by
      simp [Token.ofSegment?, ends.isEmpty_trim]
    rw [token]
    refine flattened_token (h.goOn marks ?_ fun he => ?_) (ends.append _) rfl
      (endsIn_of_endsSolid ends)
    · unfold Cursor.beforePunctuation
      split
      · exact Text.forall_of_check (by decide)
      · nofun
    · obtain ⟨ht, hb⟩ := List.append_eq_nil_iff.1 he
      refine (h.takesMarks ?_ ht).snoc mark
      simpa [Cursor.beforePunctuation] using hb
  | milestone kind id attrs =>
    cases kind with
    | line =>
      refine ⟨_, _, ?_, h.line (reads_break .line hs) (endsSolid_break .line _ false) _⟩
      simp [project, breakText]
    | page =>
      refine ⟨_, _, ?_, h.page (reads_break .page hs) (endsSolid_break .page _ false) _⟩
      simp [project, breakText]
    | hand =>
      refine ⟨core, tail, by simp [project], ?_⟩
      have same := @Flattened.unwritten c core tail ts done (.milestone .hand id attrs) h rfl
      simpa [project, Token.ofSegment?, separates] using same
  | structural id xml =>
    refine ⟨core, tail, by simp [project], ?_⟩
    have same := @Flattened.unwritten c core tail ts done (.structural id xml) h rfl
    simpa [project, Token.ofSegment?, separates] using same
  | whitespace id content =>
    refine ⟨core, tail, by simp [project], ?_⟩
    have same := @Flattened.unwritten c core tail ts done (.whitespace id content) h rfl
    simpa [project, Token.ofSegment?, separates] using same

/-- A list of segments goes on from any place in a list. -/
theorem flattened_run (hr : ∀ s ∈ ss, s.ReadsBack) (hs : Separated (done ++ ss))
    (h : Flattened c core tail ts done) :
    ∃ core' tail' c', core ++ tail ++ projectFrom c ss = core' ++ tail'
      ∧ Flattened c' core' tail' (ts ++ (Token.ofSegments ss).map Token.content) (done ++ ss) := by
  induction ss generalizing c core tail ts done with
  | nil => exact ⟨core, tail, c, by simp [projectFrom], by simpa [Token.ofSegments] using h⟩
  | cons s ss ih =>
    obtain ⟨hrs, hrss⟩ := List.forall_mem_cons.1 hr
    have before : s.isWord = true → Spaced done := hs done s ss rfl
    obtain ⟨core₁, tail₁, text, step⟩ := flattened_step h hrs before
    obtain ⟨core₂, tail₂, c₂, run, last⟩ := ih hrss (by simpa using hs) step
    refine ⟨core₂, tail₂, c₂, ?_, ?_⟩
    · rw [projectFrom, ← List.append_assoc, text, run]
    · have tokens : Token.ofSegments (s :: ss)
          = (Token.ofSegment? s).toList ++ Token.ofSegments ss := by
        rw [Token.ofSegments, List.filterMap_cons]
        cases Token.ofSegment? s <;> rfl
      rw [tokens, List.map_append]
      simpa using last

/-- **The text of a list of segments has their tokens.** -/
theorem contents_toText (hr : ∀ s ∈ ss, s.ReadsBack) (hs : Separated ss) :
    (∃ ns, lex (toText ss) = .ok ns)
      ∧ Token.contents (toText ss) = (Token.ofSegments ss).map Token.content := by
  obtain ⟨core, tail, c, text, last⟩ := @flattened_run _ _ _ _ [] _ hr hs flattened_start
  have whole : toText ss = core.trimStart := by
    replace text : projectFrom .start ss = core ++ tail := text
    rw [toText, text]
    rcases last.ends with rfl | ends
    · have blank : tail.trimStart = [] := by
        simpa [Text.trimStart] using @List.dropWhile_append_of_pos _ isBlank tail [] last.blank
      rw [List.nil_append, Text.trim, blank]
      rfl
    · exact ends.trim_append last.blank
  have reads : Reads (toText ss) ((Token.ofSegments ss).map Token.content) := by
    rw [whole]
    exact last.reads.trimStart
  exact ⟨reads.imp fun _ h => h.1, reads.contents⟩

theorem contents_toText_across_line :
    let ss : List Segment := [.word 1 [] ['a'] [] false, .punctuation 2 [] ['.'],
      .milestone .line 3 [(['n'], ['5', 'a'])], .word 4 [] ['b'] [] false]
    toText ss = ['a', '.', '\n', '/', '/', '\x7b', '5', 'a', '\x7d', ' ', 'b']
      ∧ Token.contents (toText ss)
        = [['a'], ['.'], ['/', '/', '\x7b', '5', 'a', '\x7d'], ['b']] := by
  intro ss
  have letter (c : Char) (plain : construct [c] = .ok none)
      (cut : grouped [.text [c]] = [.group .word [.text [c]]]) :
      ∃ ns g, lex [c] = .ok ns ∧ grouped ns = [g] ∧ g.isEdited = true ∧ g.write = [c] :=
    ⟨_, _, by rw [lex_char plain, lex_nil]; rfl, cut, rfl, rfl⟩
  have readsBack : ∀ s ∈ ss, s.ReadsBack := by
    simp only [ss, List.forall_mem_cons]
    refine ⟨letter 'a' rfl rfl, ⟨'.', ⟨by decide, by decide⟩, rfl⟩, ?_, letter 'b' rfl rfl, nofun⟩
    intro n hn
    cases hn
    decide
  have separated : Separated ss := by
    intro done w after he word before s between hd token rest
    simp only [ss, List.cons_eq_append_iff, List.nil_eq_append_iff, List.cons.injEq, reduceCtorEq,
      and_false, or_false, exists_false] at he
    -- the second word is the only one that something stands before
    obtain ⟨rfl, rfl, -⟩ | ⟨_, rfl, ⟨-, rfl, -⟩ | ⟨_, rfl, ⟨-, rfl, -⟩
      | ⟨_, rfl, rfl, rfl, -⟩⟩⟩ := he
    · simp at hd
    · cases word
    · cases word
    · simp only [List.cons_eq_append_iff, List.nil_eq_append_iff, List.cons.injEq, reduceCtorEq,
        and_false, or_false, exists_false] at hd
      obtain ⟨-, rfl, rfl⟩ | ⟨_, -, ⟨-, rfl, rfl⟩ | ⟨_, -, -, rfl, -⟩⟩ := hd
      · cases rest _ List.mem_cons_self
      · exact ⟨_, List.mem_cons_self, rfl⟩
      · cases token
  exact ⟨by decide, (contents_toText readsBack separated).2⟩

end Flattening

end Segment

end Transcription
