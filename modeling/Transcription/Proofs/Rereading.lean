/-
Transcription.Proofs.Rereading — words that read back as the one word they were,
and marks after them.

That a word reads back leaves open how its text was read. Node by node the text
can only have been read as the sequence that the word was written from
(`FirstRead`): another break in the place of one would stay in the word, since
what has been collected is never taken back (`groupFrom_prefix`), and empty braces
that a break without a label takes up would be missing from the text after it.

**`lex_of_reads_back`**: a word that reads back is read as its nodes, each break
after the sign that the word goes on. **`severs_expanded`**: so a punctuation mark
can be written right after it.
-/
import Transcription.Proofs.WrittenGroup
import Transcription.Proofs.Seams

namespace Transcription.Node

open Pending Lexer

/-! ## 1. Words that read back -/

section Prefixes

variable {marks : List Char} {word ks ns : List Node} {run t : Text} {inWord : Bool}
  {p : Pending} {n : Node}

theorem closeWord_of_ne (h : word ≠ []) : closeWord word = [.group .word word] := by
  simp [closeWord, h]

/-- What is brought out before or in the word that goes on begins with `word`. -/
def BeginsWith (word : List Node) (out : List Node) (after : List Node) : Prop :=
  out = [] ∧ word <+: after ∨ ∃ ks rest, out = .group .word ks :: rest ∧ word <+: ks

theorem beginsWith_cut {more : List Node} (hw : word ≠ []) (out after : List Node) :
    BeginsWith word (closeWord (word ++ more) ++ out) after := by
  rw [closeWord_of_ne (by simp [hw])]
  exact .inr ⟨_, _, rfl, List.prefix_append _ _⟩

theorem cutText_beginsWith (hw : word ≠ []) :
    BeginsWith word (cutText marks t word run inWord).1 (cutText marks t word run inWord).2.1 := by
  induction t generalizing run inWord with
  | nil => exact .inl ⟨rfl, List.prefix_append _ _⟩
  | cons c t ih =>
    by_cases hb : isBlank c = true
    · rw [cutText_blank hb]
      exact beginsWith_cut hw _ _
    · by_cases hm : marks.contains c = true
      · rw [cutText_mark hb hm]
        exact beginsWith_cut hw _ _
      · rw [cutText_inside hb hm]
        exact ih

theorem groupStep_beginsWith (hp : p.word ≠ []) (n : Node) :
    BeginsWith p.word (groupStep marks p n).1 (groupStep marks p n).2.word := by
  have close (out after : List Node) : BeginsWith p.word (closeWord p.word ++ out) after := by
    simpa using @beginsWith_cut p.word [] hp out after
  cases hb : n.isBreak with
  | true =>
    rw [groupStep_break hb]
    split
    · exact .inl ⟨rfl, List.prefix_append _ _⟩
    · split
      · exact .inl ⟨rfl, List.prefix_append _ _⟩
      · exact close _ _
  | false =>
    cases n with
    | text content => exact cutText_beginsWith hp
    | boundary =>
      have alone := close [] (groupStep marks p .boundary).2.word
      rwa [List.append_nil] at alone
    | continuation => exact .inl ⟨rfl, List.prefix_refl _⟩
    | block kind body => exact close _ _
    | group kind children => exact close _ _
    | lineBreak _ | pageBreak _ => cases hb
    | abbreviation _ _ | gap _ _ | marked _ _ | entity _ | compoundJoin =>
      exact .inl ⟨rfl, List.prefix_append _ _⟩

/-- Where all that comes out is one word, it begins with what has been collected. -/
theorem groupFrom_prefix (h : groupFrom marks p ns = [.group .word ks]) : p.word <+: ks := by
  by_cases hp : p.word = []
  · rw [hp]
    exact List.nil_prefix
  · induction ns generalizing p with
    | nil =>
      rw [groupFrom, closeWord_of_ne hp] at h
      cases h
      exact List.prefix_refl _
    | cons n ns ih =>
      rw [groupFrom_cons] at h
      rcases groupStep_beginsWith hp n with ⟨hout, hafter⟩ | ⟨ls, rest, hout, hls⟩
      · rw [hout, List.nil_append] at h
        refine hafter.trans (ih h fun he => hp ?_)
        rw [he] at hafter
        exact List.prefix_nil.1 hafter
      · rw [hout, List.cons_append] at h
        rw [← (Node.group.inj (List.cons.inj h).1).2]
        exact hls

end Prefixes

section Rereading

variable {n k : Node} {ns ms ks cs children word : List Node} {t rest label : Text} {inWord : Bool}

/-- A label that is read as it was written ends where it ended, unless there was
none and empty braces follow. -/
theorem of_breakLabel_bracedLabel (h : breakLabel (bracedLabel label ++ t) = .ok (label, rest)) :
    rest = t ∨ t = '{' :: '}' :: rest := by
  cases label with
  | nil =>
    replace h : breakLabel t = .ok ([], rest) := h
    by_cases brace : ∃ u, t = '{' :: u
    · obtain ⟨u, rfl⟩ := brace
      obtain ⟨rfl, -⟩ := closedBy_eq_ok_iff.1 h
      exact .inr rfl
    · rw [breakLabel_of_ne fun u hu => brace ⟨u, hu⟩] at h
      have whole := Text.span_append Text.isDigit t
      rw [Except.ok.inj h] at whole
      exact .inl whole
  | cons c label =>
    have shape : bracedLabel (c :: label) ++ t = '{' :: (c :: label ++ '}' :: t) := by
      simp [bracedLabel]
    rw [shape] at h
    have same := (closedBy_eq_ok_iff.1 h).1
    exact .inl (List.cons.inj (List.append_cancel_left same)).2.symm

/-- A break inside a word is read as a break. -/
theorem of_construct_joined_break (hb : n.isBreak = true) (ha : n.Admissible)
    (h : construct (n.writeIn true ++ t) = .ok (some (ks, rest))) :
    ∃ m, ks = [.continuation, m] ∧ m.isBreak = true
      ∧ (m = n → rest = t ∨ t = '{' :: '}' :: rest) := by
  cases n with
  | lineBreak label =>
    have shape : (Node.lineBreak label).writeIn true ++ t
        = '~' :: '/' :: '/' :: (bracedLabel (label.getD []) ++ t) :=
      congrArg (· ++ t) (write_inWord .line label)
    rw [shape] at h
    by_cases page : (bracedLabel (label.getD []) ++ t).head? = some '/'
    · obtain ⟨u, hu⟩ := List.head?_eq_some_iff.1 page
      rw [hu] at h
      obtain ⟨⟨l, v⟩, -, h⟩ := exists_of_bind (of_map_some h)
      cases h
      exact ⟨_, rfl, rfl, nofun⟩
    · rw [construct_joined_line page] at h
      obtain ⟨⟨l, v⟩, hl, h⟩ := exists_of_bind (of_map_some h)
      cases h
      refine ⟨_, rfl, rfl, fun he => ?_⟩
      have same : labelOf l = label := Node.lineBreak.inj he
      rw [← getD_labelOf l, same] at hl
      exact of_breakLabel_bracedLabel hl
  | pageBreak label =>
    have shape : (Node.pageBreak label).writeIn true ++ t
        = '~' :: '/' :: '/' :: '/' :: (bracedLabel label ++ t) :=
      congrArg (· ++ t) (write_inWord .page (some label))
    rw [shape] at h
    obtain ⟨⟨l, v⟩, hl, h⟩ := exists_of_bind (of_map_some h)
    cases h
    refine ⟨_, rfl, rfl, fun he => ?_⟩
    rw [Node.pageBreak.inj he] at hl
    exact of_breakLabel_bracedLabel hl
  | _ => cases hb

/-- What a run of text stands before is read. -/
theorem exists_lex_of_stands {content : Text} (hs : Stands content t.head?)
    (hc : ∀ c ∈ content, c ∉ ['.', '[', ':']) (h : lex (content ++ t) = .ok ns) :
    ∃ ms, lex t = .ok ms := by
  induction content generalizing ns with
  | nil => exact ⟨ns, h⟩
  | cons c content ih =>
    obtain ⟨hp, hs⟩ := hs
    have plain : construct (c :: (content ++ t)) = .ok none :=
      construct_of_isPlain (by rw [List.head?_append]; exact hp) (hc c List.mem_cons_self)
    rw [List.cons_append, lex_char plain] at h
    obtain ⟨ms, hm, -⟩ := exists_of_map h
    exact ih hs (fun d hd => hc d (List.mem_cons_of_mem _ hd)) hm

theorem noText_expanded_append (hk : k.isText = false) :
    ∀ m ∈ (expanded [k] ++ ms).head?, m.isText = false := by
  intro m hm
  have first := @noText_expanded [k] (fun m hm => by cases hm; exact hk)
  refine first m ?_
  rw [List.head?_append] at hm
  cases hb : k.isBreak <;> simpa [expanded, hb] using hm

/-- `ns` is what a node of a word with the text `t` after it is read as: first that
node, or another break for a break, which may have taken up empty braces. -/
def FirstRead (n : Node) (t : Text) (ns : List Node) : Prop :=
  ∃ m rest ms, InWord m ∧ ns = expanded [m] ++ ms ∧ lex rest = .ok ms
    ∧ (m = n ∨ n.isBreak = true ∧ m.isBreak = true)
    ∧ (m = n → rest = t ∨ t = '{' :: '}' :: rest)

theorem firstRead_self (hn : InWord n) (hl : lex t = .ok ms) : FirstRead n t (expanded [n] ++ ms) :=
  ⟨n, t, ms, hn, rfl, hl, .inl rfl, fun _ => .inl rfl⟩

theorem firstRead_sign (hn : InWord n) (ht : n.isText = false)
    (joint : n = .compoundJoin → ∀ u, t ≠ '/' :: '/' :: u)
    (h : lex (n.writeIn true ++ t) = .ok ns) : FirstRead n t ns := by
  have closed (hb : n.isBreak = false)
      (hc : construct (n.writeIn true ++ t) = .ok (some ([n], t))) : FirstRead n t ns := by
    obtain ⟨ms, hm, rfl⟩ := exists_lex_of_construct hc h
    have alone : expanded [n] = [n] := by simp [expanded, hb]
    exact alone ▸ firstRead_self hn hm
  cases hb : n.isBreak with
  | true =>
    obtain ⟨u, hu⟩ := List.head?_eq_some_iff.1 (firstChar_of_isBreak hb)
    cases hc : construct (n.writeIn true ++ t) with
    | error fault =>
      rw [hu, List.cons_append] at h hc
      rw [lex_fault hc] at h
      cases h
    | ok found =>
      cases found with
      | none =>
        rw [hu, List.cons_append] at hc
        cases isPlain_of_construct hc
      | some parts =>
        obtain ⟨ks, rest⟩ := parts
        obtain ⟨m, rfl, hm, same⟩ := of_construct_joined_break hb hn.admissible hc
        obtain ⟨ms, hl, rfl⟩ := exists_lex_of_construct hc h
        obtain ⟨k, ha, -, ⟨hk, -, -⟩ | ⟨hk, -, -⟩⟩ := readAs_of_construct hc
        · cases hk
        · cases hk
          refine ⟨m, rest, ms, inWord_of_isBreak ha hm, ?_, hl, .inr ⟨hb, hm⟩, same⟩
          simp [expanded, hm]
  | false =>
    cases n with
    | text content => cases ht
    | compoundJoin => exact closed rfl (construct_compoundJoin (joint rfl))
    | abbreviation _ _ | gap _ _ | marked _ _ | entity _ =>
      exact closed rfl (construct_closed hn.admissible rfl true _)
    | lineBreak _ | pageBreak _ => cases hb
    | continuation | boundary | block _ _ | group _ _ => rcases hn.inside with hi | hi <;> cases hi

theorem FirstRead.noText (h : FirstRead n t ns) (ht : n.isText = false) :
    ∀ m ∈ ns.head?, m.isText = false := by
  obtain ⟨m, rest, ms, -, rfl, -, same, -⟩ := h
  have noText : m.isText = false := by
    rcases same with rfl | ⟨-, hm⟩
    · exact ht
    · cases m with
      | text content => cases hm
      | _ => rfl
  exact noText_expanded_append noText

/-- The first node of a word is what the word is read as first. -/
theorem read_first (hn : InWord n) (hws : ∀ m ∈ cs, InWord m) (hj : Joined (n :: cs) none)
    (h : lex (writeChildren (n :: cs)) = .ok ns) : FirstRead n (writeChildren cs) ns := by
  obtain ⟨jn, js⟩ := hj
  replace h : lex (n.writeIn true ++ writeChildren cs) = .ok ns := h
  cases ht : n.isText with
  | false => exact firstRead_sign hn ht (fun _ => no_break_after hws js) h
  | true =>
    cases n with
    | text content =>
      rw [Option.or_none] at jn
      have stands : Stands content (writeChildren cs).head? := by
        rw [head?_writeChildren hws]
        exact jn.1
      have plain : ∀ c ∈ content, c ∉ ['.', '[', ':'] := by
        have marks : ∀ c ∈ ['.', '[', ':'], c ∈ punctuationMarks := by simp [punctuationMarks]
        exact fun c hc hm => (hn.solid content rfl c hc).2 (marks c hm)
      obtain ⟨ms, hm⟩ := exists_lex_of_stands stands plain h
      -- what comes after text is no text, and is read as no text
      have noText : ∀ m ∈ ms.head?, m.isText = false := by
        cases cs with
        | nil =>
          cases hm.symm.trans lex_nil
          intro m hm
          cases hm
        | cons k cs =>
          obtain ⟨hk, hks⟩ := List.forall_mem_cons.1 hws
          have other : k.isText = false := jn.2 k rfl
          exact (firstRead_sign hk other (fun _ => no_break_after hks js.2) hm).noText other
      have whole := lex_stands stands plain hn.admissible hm noText
      cases h.symm.trans whole
      exact firstRead_self hn hm
    | _ => cases ht

/-- Where all that comes out is one word, what is read first is the node that comes
next in it. -/
theorem FirstRead.collected (h : FirstRead n t ns)
    (hg : groupFrom punctuationMarks ⟨word, inWord, false⟩ ns = [.group .word (word ++ k :: ks)]) :
    (k = n ∨ n.isBreak = true ∧ k.isBreak = true)
      ∧ (k = n → ∃ rest ms w, ns = expanded [n] ++ ms ∧ lex rest = .ok ms
        ∧ groupFrom punctuationMarks ⟨word ++ [n], w, false⟩ ms
          = [.group .word (word ++ [n] ++ ks)]
        ∧ (rest = t ∨ t = '{' :: '}' :: rest)) := by
  obtain ⟨m, rest, ms, hm, rfl, hl, same, read⟩ := h
  obtain ⟨w, hw⟩ := groupFrom_collect hm word inWord ms
  rw [hw] at hg
  have next : k = m := by
    obtain ⟨after, he⟩ := groupFrom_prefix hg
    rw [List.append_assoc] at he
    exact (List.cons.inj (List.append_cancel_left he)).1.symm
  subst next
  refine ⟨same, ?_⟩
  rintro rfl
  exact ⟨rest, ms, w, rfl, hl, by rw [hg, List.append_assoc]; rfl, read rfl⟩

/-- A word does not begin with text that is not written there. -/
theorem head?_of_collected {content : Text} (hw : ∀ m ∈ cs, InWord m) (hj : Joined cs none)
    (h : lex (writeChildren cs) = .ok ns)
    (hg : groupFrom punctuationMarks ⟨word, inWord, false⟩ ns
      = [.group .word (word ++ .text content :: ks)]) : cs.head? = some (.text content) := by
  cases cs with
  | nil =>
    cases h.symm.trans lex_nil
    have alone := mem_closeWord (hg ▸ List.mem_singleton.2 rfl : _ ∈ closeWord word)
    have := congrArg List.length (Node.group.inj alone).2
    simp at this
  | cons n cs =>
    obtain ⟨hn, hws⟩ := List.forall_mem_cons.1 hw
    rcases ((read_first hn hws hj h).collected hg).1 with he | ⟨-, hk⟩
    · exact congrArg some he.symm
    · cases hk

/-- Text that begins with what is left out after a break does not come back. -/
theorem no_braces_after (hw : ∀ m ∈ cs, InWord m) (hj : Joined cs none)
    (ht : writeChildren cs = '{' :: '}' :: rest) (h : lex rest = .ok ns)
    (hg : groupFrom punctuationMarks ⟨word, inWord, false⟩ ns = [.group .word (word ++ cs)]) :
    False := by
  have first : cs.head?.bind firstChar = some '{' := by
    rw [← head?_writeChildren hw, ht]
    rfl
  cases cs with
  | nil => cases first
  | cons n cs =>
    obtain ⟨hn, hws⟩ := List.forall_mem_cons.1 hw
    cases htext : n.isText with
    | false =>
      obtain ⟨c, hc, he⟩ := firstChar_mem hn htext
      cases he.symm.trans first
      exact absurd hc (by decide)
    | true =>
      cases n with
      | text content =>
        replace ht : content ++ writeChildren cs = '{' :: '}' :: rest := ht
        obtain ⟨joint, js⟩ := hj
        rw [Option.or_none] at joint
        rcases content with _ | ⟨c, _ | ⟨d, content⟩⟩
        · exact hn.admissible rfl
        · -- the second brace begins the node after the text
          have second : cs.head?.bind firstChar = some '}' := by
            have after : writeChildren cs = '}' :: rest := (List.cons.inj ht).2
            rw [← head?_writeChildren hws, after]
            rfl
          cases cs with
          | nil => cases second
          | cons k cs =>
            obtain ⟨e, he, hk⟩ := firstChar_mem (hws k List.mem_cons_self) (joint.2 k rfl)
            cases hk.symm.trans second
            exact absurd he (by decide)
        · obtain ⟨-, -, rfl⟩ : c = '{' ∧ d = '}' ∧ content ++ writeChildren cs = rest := by
            simpa using ht
          cases content with
          | nil =>
            have back := head?_of_collected hws js h hg
            exact absurd (joint.2 _ back) nofun
          | cons e content =>
            have shorter : InWord (.text (e :: content)) :=
              inWord_text (fun x hx => hn.solid _ rfl x (by simp [hx])) nofun
            have joined : Joined (.text (e :: content) :: cs) none :=
              ⟨by rw [Option.or_none]; exact ⟨joint.1.2.2, joint.2⟩, js⟩
            have back : some (Node.text (e :: content)) = _ :=
              head?_of_collected (List.forall_mem_cons.2 ⟨shorter, hws⟩) joined h hg
            have := congrArg List.length (Node.text.inj (Option.some.inj back))
            simp at this
      | _ => cases htext

/-- A word that is read back as one word is read as its nodes. -/
theorem lex_of_reads_back {children : List Node} (hw : ∀ m ∈ children, InWord m)
    (hj : Joined children none) (h : lex (writeChildren children) = .ok ns)
    (hg : groupFrom punctuationMarks ⟨word, inWord, false⟩ ns
      = [.group .word (word ++ children)]) : ns = expanded children := by
  induction children generalizing word inWord ns with
  | nil =>
    cases h.symm.trans lex_nil
    rfl
  | cons n children ih =>
    obtain ⟨hn, hws⟩ := List.forall_mem_cons.1 hw
    obtain ⟨-, collected⟩ := (read_first hn hws hj h).collected hg
    obtain ⟨rest, ms, w, rfl, hl, goesOn, rfl | hrest⟩ := collected rfl
    · rw [ih hws hj.2 hl goesOn, expanded_cons n children]
    · exact (no_braces_after hws hj.2 hrest hl goesOn).elim

end Rereading

/-! ## 2. Marks after a word -/

section Marks

variable {children : List Node} {t run : Text} {c : Char}

/-- The marks that punctuation consists of: all but the bracket that a gap begins
with. -/
def IsMark (c : Char) : Prop :=
  c ∈ punctuationMarks ∧ c ≠ '['

theorem IsMark.elim {motive : Char → Prop} (hc : IsMark c)
    (h : ∀ c ∈ ['.', ',', ';', ':', '!', '?', '(', ')', ']'], motive c) : motive c := by
  refine h c ?_
  have := hc.1
  have := hc.2
  simp_all [punctuationMarks]

theorem ends_of_isMark (hc : IsMark c) : Ends c := by
  have all : ∀ c ∈ ['.', ',', ';', ':', '!', '?', '(', ')', ']'],
      BeginsNoLabel c ∧ isNameChar c = false ∧ c ≠ '<' ∧ c ≠ '[' :=
    Text.forall_of_check (by decide)
  obtain ⟨label, name, angle, bracket⟩ := hc.elim all
  exact ⟨label, name, angle, bracket⟩

theorem contains_of_isMark (hc : IsMark c) : punctuationMarks.contains c = true := by
  simpa using hc.1

theorem not_isBlank_of_isMark (hc : IsMark c) : isBlank c = false := by
  have all : ∀ c ∈ ['.', ',', ';', ':', '!', '?', '(', ')', ']'], isBlank c = false :=
    Text.forall_of_check (by decide)
  exact hc.elim all

/-- Text of a word goes on with nothing before a mark. -/
theorem apart_of_isMark (c : Char) {e : Char} (he : e ∉ punctuationMarks) : Apart c e :=
  ⟨fun _ hd => he (by rw [hd]; decide), fun _ hd => he (by rw [hd]; decide)⟩

theorem pagesJoined_expanded (hw : ∀ m ∈ children, InWord m) : PagesJoined (expanded children) := by
  induction children with
  | nil => trivial
  | cons n children ih =>
    obtain ⟨hn, hws⟩ := List.forall_mem_cons.1 hw
    rw [expanded_cons n children]
    cases n with
    | lineBreak label => exact ih hws
    | pageBreak label => exact ih hws
    | text _ | abbreviation _ _ | gap _ _ | marked _ _ | entity _ | compoundJoin => exact ih hws
    | continuation | boundary | block _ _ | group _ _ => rcases hn.inside with hi | hi <;> cases hi

/-- Marks after a word do not change what it is read as. -/
theorem severs_expanded (hc : IsMark c) (hw : ∀ m ∈ children, InWord m) :
    Severs c (expanded children) := by
  refine ⟨ends_of_isMark hc, fun content hm d hd => ?_, .inr (pagesJoined_expanded hw)⟩
  obtain ⟨n, hn, hmem⟩ := List.mem_flatMap.1 hm
  have text : n = .text content := by
    cases hb : n.isBreak with
    | true =>
      rw [hb, if_pos rfl] at hmem
      rcases List.mem_cons.1 hmem with he | he
      · cases he
      · rw [← List.mem_singleton.1 he] at hb
        cases hb
    | false =>
      simp only [hb, Bool.false_eq_true, if_false, List.mem_singleton] at hmem
      exact hmem.symm
  exact apart_of_isMark c ((hw n hn).solid content text d hd).2

theorem severs_block {kind : BlockKind} {body : Text} (hc : IsMark c) :
    Severs c [.block kind body] := by
  refine ⟨ends_of_isMark hc, fun content hm => ?_, .inr trivial⟩
  cases List.mem_singleton.1 hm

theorem construct_mark (hc : IsMark c) (hr : ∀ d ∈ t.head?, IsMark d) :
    construct (c :: t) = .ok none := by
  have all : ∀ c ∈ ['.', ',', ';', ':', '!', '?', '(', ')', ']'], construct [c] = .ok none := by
    simp only [List.forall_mem_cons]
    exact ⟨rfl, rfl, rfl, rfl, rfl, rfl, rfl, rfl, rfl, nofun⟩
  cases t with
  | nil => exact hc.elim all
  | cons d t =>
    have hd := ends_of_isMark (hr d rfl)
    by_cases colon : c = ':'
    · -- a name does not begin with a mark
      have noName : entityName? (d :: t) = none := by
        simp [entityName?, Text.span, hd.name]
      subst colon
      show Except.ok ((entityName? (d :: t)).map _) = _
      rw [noName]
      rfl
    · exact construct_append_none t hd ⟨fun _ => hc.2, fun _ => colon⟩ (hc.elim all)

/-- A run of marks is one run of text. -/
theorem lex_marks (hm : ∀ c ∈ run, IsMark c) : lex run = .ok (textNode run) := by
  induction run with
  | nil => exact lex_nil
  | cons c run ih =>
    obtain ⟨hc, hms⟩ := List.forall_mem_cons.1 hm
    have next : ∀ d ∈ run.head?, IsMark d := fun d hd => hms d (List.mem_of_mem_head? hd)
    rw [lex_char (construct_mark hc next), ih hms]
    cases run <;> rfl

theorem cutText_marks (hm : ∀ c ∈ run, IsMark c) :
    cutText punctuationMarks run [] [] false
      = (run.map fun c => .group .punctuation [.text [c]], [], false) := by
  induction run with
  | nil => rfl
  | cons c run ih =>
    obtain ⟨hc, hms⟩ := List.forall_mem_cons.1 hm
    have blank : ¬isBlank c = true := by simp [not_isBlank_of_isMark hc]
    rw [cutText_mark blank (contains_of_isMark hc), ih hms]
    rfl

theorem grouped_marks (hm : ∀ c ∈ run, IsMark c) :
    grouped (textNode run) = run.map fun c => .group .punctuation [.text [c]] := by
  cases run with
  | nil => rfl
  | cons c run =>
    show groupFrom punctuationMarks start [.text (c :: run)] = _
    simp [groupFrom, groupStep, start, cutText_marks hm, closeWord]

end Marks

end Transcription.Node
