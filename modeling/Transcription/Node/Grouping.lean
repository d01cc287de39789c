/-
Transcription.Node.Grouping — a flat sequence of nodes as words,
punctuation marks, breaks and blocks.

Blanks and punctuation marks end a word, and so do blocks and the boundary
sign. A break ends it too, unless the word goes on across it: because a
continuation sign stands before the break, or because the word so far ends
in a letter.

What comes out is told by what goes in: a property of the nodes of words and
one of what comes out that go together are kept up by every step
(`GroupInvariant.groups`). **`mem_grouped`**: what comes out is a group of
nodes that hold no blocks, or a node that went in.
-/
import Transcription.Node.Basic
import Transcription.Unicode.Letter

namespace Transcription.Node

/-- The characters that make a punctuation mark of their own by default. -/
def punctuationMarks : List Char :=
  ['.', ',', ';', ':', '!', '?', '(', ')', '[', ']']

/-- The word that is being collected: its nodes, whether the last thing
read belongs to a word, and whether a continuation sign has just been
read. -/
structure Pending where
  word : List Node
  inWord : Bool
  continues : Bool

namespace Pending

/-- No word. -/
def start : Pending :=
  ⟨[], false, false⟩

/-- The word as a group, unless it is empty. -/
def closeWord (word : List Node) : List Node :=
  if word.isEmpty then [] else [.group .word word]

/-- A run of text as a node, unless it is empty. -/
def textNode (content : Text) : List Node :=
  if content.isEmpty then [] else [.text content]

end Pending

open Pending

/-- Whether the last node with text ends in a letter; a named character
counts as one, and nodes without text are passed over. -/
def endsInLetter (word : List Node) : Bool :=
  let verdicts := word.reverse.filterMap fun
    | .text content => content.getLast?.map isLetter
    | .entity _ => some true
    | _ => none
  verdicts.headD false

/-- Cut a run of text at blanks and punctuation marks. The result is the
closed groups, the nodes of the word still open, and whether the text ends
inside a word. -/
def cutText (marks : List Char) :
    Text → (word : List Node) → (run : Text) → (inWord : Bool) → List Node × List Node × Bool
  | [], word, run, inWord => ([], word ++ textNode run, inWord)
  | c :: t, word, run, _ =>
      if isBlank c then
        let (groups, last) := cutText marks t [] [] false
        (closeWord (word ++ textNode run) ++ groups, last)
      else if marks.contains c then
        let (groups, last) := cutText marks t [] [] false
        (closeWord (word ++ textNode run) ++ .group .punctuation [.text [c]] :: groups, last)
      else cutText marks t word (run ++ [c]) true

/-- What one node brings out, and the word after it. -/
def groupStep (marks : List Char) (p : Pending) (n : Node) : List Node × Pending :=
  match n with
  | .boundary => (closeWord p.word, start)
  | .continuation => ([], { p with continues := true })
  | .lineBreak _ | .pageBreak _ =>
      if p.continues then ([], { p with word := p.word ++ [n], continues := false })
      else if p.inWord && endsInLetter p.word then ([], { p with word := p.word ++ [n] })
      else (closeWord p.word ++ [n], { p with word := [], inWord := false })
  | .block _ _ | .group _ _ => (closeWord p.word ++ [n], start)
  | .text content =>
      let (groups, word, inWord) := cutText marks content p.word [] p.inWord
      (groups, ⟨word, inWord, false⟩)
  | _ => ([], ⟨p.word ++ [n], true, false⟩)

/-- The groups of a sequence of nodes after a word that is still open. -/
def groupFrom (marks : List Char) : Pending → List Node → List Node
  | p, [] => closeWord p.word
  | p, n :: ns =>
      let (out, p) := groupStep marks p n
      out ++ groupFrom marks p ns

/-- The words, punctuation marks, breaks and blocks of a sequence of
nodes. -/
def grouped (ns : List Node) : List Node :=
  groupFrom punctuationMarks start ns

/-! ## 1. One step -/

section Steps

variable {marks : List Char} {p : Pending} {n u : Node} {ns word : List Node} {c : Char}
  {t run : Text} {inWord : Bool}

theorem mem_closeWord (h : u ∈ closeWord word) : u = .group .word word := by
  unfold closeWord at h
  split at h
  · cases h
  · exact List.mem_singleton.1 h

theorem cutText_blank (hb : isBlank c = true) :
    cutText marks (c :: t) word run inWord
      = (closeWord (word ++ textNode run) ++ (cutText marks t [] [] false).1,
        (cutText marks t [] [] false).2) := by
  rw [cutText, if_pos hb]

theorem cutText_mark (hb : ¬isBlank c = true) (hm : marks.contains c = true) :
    cutText marks (c :: t) word run inWord
      = (closeWord (word ++ textNode run)
            ++ .group .punctuation [.text [c]] :: (cutText marks t [] [] false).1,
        (cutText marks t [] [] false).2) := by
  rw [cutText, if_neg hb, if_pos hm]

theorem cutText_inside (hb : ¬isBlank c = true) (hm : ¬marks.contains c = true) :
    cutText marks (c :: t) word run inWord = cutText marks t word (run ++ [c]) true := by
  rw [cutText, if_neg hb, if_neg hm]

theorem groupStep_break (hb : n.isBreak = true) :
    groupStep marks p n
      = if p.continues then ([], { p with word := p.word ++ [n], continues := false })
        else if p.inWord && endsInLetter p.word then ([], { p with word := p.word ++ [n] })
        else (closeWord p.word ++ [n], { p with word := [], inWord := false }) := by
  cases n with
  | lineBreak label => rfl
  | pageBreak label => rfl
  | _ => cases hb

theorem groupFrom_cons (n : Node) (ns : List Node) :
    groupFrom marks p (n :: ns)
      = (groupStep marks p n).1 ++ groupFrom marks (groupStep marks p n).2 ns := rfl

end Steps

/-! ## 2. What holds of all groups -/

/-- A property `P` of the nodes of words and a property `Q` of what comes out that go
together, where `C` holds of the characters of text. -/
structure GroupInvariant (marks : List Char) (C : Char → Prop) (P Q : Node → Prop) : Prop where
  text : ∀ run : Text, run ≠ [] →
    (∀ c ∈ run, C c ∧ isBlank c = false ∧ marks.contains c = false) → P (.text run)
  word : ∀ children, children ≠ [] → (∀ n ∈ children, P n) → Q (.group .word children)
  mark : ∀ c, C c → isBlank c = false → marks.contains c = true →
    Q (.group .punctuation [.text [c]])

/-- What the properties ask of a node that goes in. -/
def Enters (C : Char → Prop) (P Q : Node → Prop) : Node → Prop
  | .text content => ∀ c ∈ content, C c
  | .continuation | .boundary => True
  | .lineBreak label => P (.lineBreak label) ∧ Q (.lineBreak label)
  | .pageBreak label => P (.pageBreak label) ∧ Q (.pageBreak label)
  | .block kind body => Q (.block kind body)
  | .group kind children => Q (.group kind children)
  | n => P n

namespace GroupInvariant

variable {marks : List Char} {C : Char → Prop} {P Q : Node → Prop} {p : Pending} {n : Node}
  {ns word : List Node} {t run : Text} {inWord : Bool}

theorem closes (h : GroupInvariant marks C P Q) (hw : ∀ n ∈ word, P n) :
    ∀ u ∈ closeWord word, Q u := by
  intro u hu
  obtain rfl := mem_closeWord hu
  refine h.word word ?_ hw
  rintro rfl
  cases hu

theorem collects (h : GroupInvariant marks C P Q) (hw : ∀ n ∈ word, P n)
    (hr : ∀ c ∈ run, C c ∧ isBlank c = false ∧ marks.contains c = false) :
    ∀ n ∈ word ++ textNode run, P n := by
  refine List.forall_mem_append.2 ⟨hw, fun n hn => ?_⟩
  cases run with
  | nil => cases hn
  | cons c run =>
    rw [List.mem_singleton.1 hn]
    exact h.text _ (List.cons_ne_nil c run) hr

/-- Text brings out words and punctuation marks and leaves a word. -/
theorem cuts (h : GroupInvariant marks C P Q) (ht : ∀ c ∈ t, C c) (hw : ∀ n ∈ word, P n)
    (hr : ∀ c ∈ run, C c ∧ isBlank c = false ∧ marks.contains c = false) :
    (∀ u ∈ (cutText marks t word run inWord).1, Q u)
      ∧ ∀ n ∈ (cutText marks t word run inWord).2.1, P n := by
  induction t generalizing word run inWord with
  | nil => exact ⟨List.forall_mem_nil _, h.collects hw hr⟩
  | cons c t ih =>
    obtain ⟨hc, ht⟩ := List.forall_mem_cons.1 ht
    have closed := h.closes (h.collects hw hr)
    obtain ⟨units, kept⟩ :=
      @ih [] [] false ht (List.forall_mem_nil _) (List.forall_mem_nil _)
    by_cases hb : isBlank c = true
    · rw [cutText_blank hb]
      exact ⟨List.forall_mem_append.2 ⟨closed, units⟩, kept⟩
    · have solid : isBlank c = false := Bool.eq_false_iff.2 hb
      by_cases hm : marks.contains c = true
      · rw [cutText_mark hb hm]
        have mark := List.forall_mem_cons.2 ⟨h.mark c hc solid hm, units⟩
        exact ⟨List.forall_mem_append.2 ⟨closed, mark⟩, kept⟩
      · rw [cutText_inside hb hm]
        have more : ∀ d ∈ [c], C d ∧ isBlank d = false ∧ marks.contains d = false :=
          List.forall_mem_singleton.2 ⟨hc, solid, Bool.eq_false_iff.2 hm⟩
        exact ih ht hw (List.forall_mem_append.2 ⟨hr, more⟩)

/-- A node keeps the properties up. -/
theorem step (h : GroupInvariant marks C P Q) (hn : Enters C P Q n) (hp : ∀ m ∈ p.word, P m) :
    (∀ u ∈ (groupStep marks p n).1, Q u) ∧ ∀ m ∈ (groupStep marks p n).2.word, P m := by
  have none (P : Node → Prop) : ∀ m ∈ [], P m := List.forall_mem_nil P
  have joined (hn : P n) : ∀ m ∈ p.word ++ [n], P m :=
    List.forall_mem_append.2 ⟨hp, List.forall_mem_singleton.2 hn⟩
  have alone (hn : Q n) : ∀ u ∈ closeWord p.word ++ [n], Q u :=
    List.forall_mem_append.2 ⟨h.closes hp, List.forall_mem_singleton.2 hn⟩
  cases n with
  | text content => exact h.cuts hn hp (List.forall_mem_nil _)
  | boundary => exact ⟨h.closes hp, none P⟩
  | continuation => exact ⟨none Q, hp⟩
  | block _ _ | group _ _ => exact ⟨alone hn, none P⟩
  | lineBreak label | pageBreak label =>
    rw [groupStep_break rfl]
    split
    · exact ⟨none Q, joined hn.1⟩
    · split
      · exact ⟨none Q, joined hn.1⟩
      · exact ⟨alone hn.2, none P⟩
  | abbreviation _ _ | gap _ _ | marked _ _ | entity _ | compoundJoin =>
    exact ⟨none Q, joined hn⟩

/-- What comes out has the property of what comes out. -/
theorem groups (h : GroupInvariant marks C P Q) (hn : ∀ n ∈ ns, Enters C P Q n)
    (hp : ∀ m ∈ p.word, P m) : ∀ u ∈ groupFrom marks p ns, Q u := by
  induction ns generalizing p with
  | nil => exact h.closes hp
  | cons n ns ih =>
    obtain ⟨first, rest⟩ := List.forall_mem_cons.1 hn
    obtain ⟨units, kept⟩ := h.step first hp
    exact List.forall_mem_append.2 ⟨units, ih rest kept⟩

end GroupInvariant

/-! ## 3. Words hold no blocks -/

/-- What grouping brings out is a group whose children hold no blocks, or a
node that went in. -/
theorem mem_grouped {ns : List Node} {o : Node} (h : o ∈ grouped ns) :
    o.weight = 1 ∨ o ∈ ns := by
  have light : GroupInvariant punctuationMarks (fun _ => True) (fun n => n.weight = 0)
      (fun u => u.weight = 1 ∨ u ∈ ns) :=
    ⟨fun _ _ _ => rfl, fun _ _ inner => .inl (by rw [weight, weights_eq_zero inner]),
      fun _ _ _ _ => .inl rfl⟩
  refine light.groups (fun n hn => ?_) (List.forall_mem_nil _) o h
  cases n with
  | text _ => exact fun _ _ => trivial
  | continuation | boundary => trivial
  | lineBreak _ | pageBreak _ => exact ⟨rfl, .inr hn⟩
  | block _ _ | group _ _ => exact .inr hn
  | abbreviation _ _ | gap _ _ | marked _ _ | entity _ | compoundJoin => rfl

end Transcription.Node
