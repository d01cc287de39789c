/-
Transcription.Proofs.GroupShapes — what grouping brings out, and which breaks end up
inside a word.

Words are nonempty and made of text without blanks and punctuation marks, of other
inline nodes and of breaks; every punctuation mark is one character (`Shaped`).

A break is inside a word where a word goes on across it (`goesOn`). This can be read off
the nodes before it: a continuation sign right before the break, or a letter or named
character that is the last one of what has been collected since the last separator
(`collected`). A break across which no word goes on is itself a separator.

While nodes are grouped, the word that is still open consists of just these leaves, its
flag says whether a continuation sign came last, and where the state says that no word
has begun there are only breaks in it (`Pending.Follows`). One step keeps this up
(`Pending.Follows.step`), so the state adds nothing to the rule. **`groups_shaped`**
says all of this of every sequence of nodes.
-/
import Mathlib.Data.List.Induction
import Transcription.Proofs.Leaves
import Transcription.Proofs.Words

namespace Transcription

/-- Whether leaves, the last one first, end in a letter: a named character counts as
one, and all other nodes are passed over. -/
def Leaf.endInLetter : List Leaf → Bool
  | [] => false
  | .char c :: _ => isLetter c
  | .node (.entity _) :: _ => true
  | .node _ :: rest => endInLetter rest

namespace Node

open Pending

/-! ## 1. Shapes of groups -/

/-- Whether a character stands between words: a blank or a punctuation mark. -/
def separates (marks : List Char) (c : Char) : Bool :=
  isBlank c || marks.contains c

/-- A node as it stands in a word: text is nonempty and nothing in it separates words. -/
def Held (marks : List Char) : Node → Prop
  | .text content => content ≠ [] ∧ ∀ c ∈ content, separates marks c = false
  | n => n.isInline = true ∨ n.isBreak = true

/-- A unit as it is brought out: a nonempty word, a punctuation mark of one character, a
break or a block. -/
def Shaped (marks : List Char) : Node → Prop
  | .group .word children => children ≠ [] ∧ ∀ n ∈ children, Held marks n
  | .group .punctuation children =>
      ∃ c, isBlank c = false ∧ marks.contains c = true ∧ children = [.text [c]]
  | .lineBreak _ | .pageBreak _ | .block _ _ => True
  | _ => False

/-! ## 2. Words that go on across a break

The nodes before a place and the leaves collected there are given with the nearest one
first. -/

/-- Whether a continuation sign comes right before. -/
def isContinued : List Node → Bool
  | .continuation :: _ => true
  | _ => false

/-- The leaves collected so far with one more character of text. -/
def collectChar (marks : List Char) (leaves : List Leaf) (c : Char) : List Leaf :=
  if separates marks c then [] else .char c :: leaves

/-- The leaves since the last separator: a blank, a punctuation mark, a boundary, a unit
or a break across which no word goes on. -/
def collected (marks : List Char) : List Node → List Leaf
  | [] => []
  | n :: before =>
      match n with
      | .text content => content.foldl (collectChar marks) (collected marks before)
      | .continuation => collected marks before
      | .boundary | .block _ _ | .group _ _ => []
      | .lineBreak _ | .pageBreak _ =>
          if isContinued before || Leaf.endInLetter (collected marks before) then
            .node n :: collected marks before
          else []
      | _ => .node n :: collected marks before

/-- Whether a word goes on across a break that comes after these nodes. -/
def goesOn (marks : List Char) (before : List Node) : Bool :=
  isContinued before || Leaf.endInLetter (collected marks before)

/-- The breaks of a sequence in their order, each with whether a word goes on across
it. -/
def crossings (marks : List Char) : (before : List Node) → List Node → List (Node × Bool)
  | _, [] => []
  | before, n :: ns =>
      if n.isBreak then (n, goesOn marks before) :: crossings marks (n :: before) ns
      else crossings marks (n :: before) ns

/-- The breaks of a word, which are inside. -/
def inside (word : List Node) : List (Node × Bool) :=
  (word.filter isBreak).map fun n => (n, true)

/-- The breaks of a unit, each with whether it is inside a word. -/
def placed : Node → List (Node × Bool)
  | .group _ children => inside children
  | n => if n.isBreak then [(n, false)] else []

/-- The word still open after nodes have been grouped. -/
def Pending.after (marks : List Char) (ns : List Node) : Pending :=
  ns.foldl (fun p n => (groupStep marks p n).2) start

/-- Whether a word goes on across a break, as the grouping decides it. -/
def Pending.absorbs (p : Pending) : Bool :=
  p.continues || p.inWord && endsInLetter p.word

section Steps

variable {marks : List Char} {word before ns : List Node} {run t : Text} {n u : Node}
  {inWord : Bool} {p : Pending}

/-! ## 3. Shapes are kept -/

theorem separates_of_isBlank {c : Char} (hb : isBlank c = true) : separates marks c = true := by
  rw [separates, hb, Bool.true_or]

theorem separates_of_contains {c : Char} (hm : marks.contains c = true) :
    separates marks c = true := by
  rw [separates, hm, Bool.or_true]

theorem not_separates {c : Char} (hb : ¬isBlank c = true) (hm : ¬marks.contains c = true) :
    separates marks c = false := by
  rw [separates, Bool.eq_false_iff.2 hb, Bool.eq_false_iff.2 hm]
  rfl

theorem shaped_invariant (marks : List Char) :
    GroupInvariant marks (fun _ => True) (Held marks) (Shaped marks) where
  text _ nonempty solid := ⟨nonempty, fun c hc => Bool.or_eq_false_iff.2 (solid c hc).2⟩
  word _ nonempty inner := ⟨nonempty, inner⟩
  mark c _ solid mark := ⟨c, solid, mark, rfl⟩

/-- All nodes but groups may go in. -/
theorem enters_of_not_group (hn : ∀ kind children, n ≠ .group kind children) :
    Enters (fun _ => True) (Held marks) (Shaped marks) n := by
  cases n with
  | text content => exact fun _ _ => trivial
  | continuation | boundary | block _ _ => trivial
  | group kind children => exact absurd rfl (hn kind children)
  | lineBreak label | pageBreak label => exact ⟨.inr rfl, trivial⟩
  | abbreviation _ _ | gap _ _ | marked _ _ | entity _ | compoundJoin => exact .inl rfl

theorem shaped_groupFrom (hn : ∀ n ∈ ns, ∀ kind children, n ≠ .group kind children)
    (hp : ∀ m ∈ p.word, Held marks m) : ∀ u ∈ groupFrom marks p ns, Shaped marks u :=
  (shaped_invariant marks).groups (fun n hm => enters_of_not_group (hn n hm)) hp

/-! ## 4. Breaks keep their order -/

theorem inside_append (ns ms : List Node) : inside (ns ++ ms) = inside ns ++ inside ms := by
  simp [inside]

theorem inside_textNode (run : Text) : inside (textNode run) = [] := by
  unfold textNode
  split <;> rfl

theorem placed_closeWord (word : List Node) : (closeWord word).flatMap placed = inside word := by
  cases word with
  | nil => rfl
  | cons n word => exact List.append_nil _

/-- Cutting text leaves the breaks before it inside their word. -/
theorem placed_cutText (marks : List Char) (t : Text) (word : List Node) (run : Text)
    (inWord : Bool) :
    (cutText marks t word run inWord).1.flatMap placed
      ++ inside (cutText marks t word run inWord).2.1 = inside word := by
  induction t generalizing word run inWord with
  | nil =>
    show inside (word ++ textNode run) = inside word
    rw [inside_append, inside_textNode, List.append_nil]
  | cons c t ih =>
    have fresh : (cutText marks t [] [] false).1.flatMap placed
        ++ inside (cutText marks t [] [] false).2.1 = [] := ih [] [] false
    have closed : (closeWord (word ++ textNode run)).flatMap placed = inside word := by
      rw [placed_closeWord, inside_append, inside_textNode, List.append_nil]
    have mark : placed (.group .punctuation [.text [c]]) = [] := rfl
    by_cases hb : isBlank c = true
    · rw [cutText_blank hb, List.flatMap_append, closed, List.append_assoc, fresh, List.append_nil]
    · by_cases hm : marks.contains c = true
      · rw [cutText_mark hb hm, List.flatMap_append, List.flatMap_cons, closed, mark,
          List.nil_append, List.append_assoc, fresh, List.append_nil]
      · rw [cutText_inside hb hm]
        exact ih word (run ++ [c]) true

/-- A break across which the word goes on is kept in it. -/
theorem groupStep_inside (hb : n.isBreak = true) (h : p.absorbs = true) :
    groupStep marks p n = ([], ⟨p.word ++ [n], p.inWord, false⟩) := by
  obtain ⟨word, inWord, continues⟩ := p
  rw [groupStep_break hb]
  cases continues with
  | true => rfl
  | false => exact if_pos h

/-- Any other break closes the word and stands alone. -/
theorem groupStep_apart (hb : n.isBreak = true) (h : p.absorbs = false) :
    groupStep marks p n = (closeWord p.word ++ [n], start) := by
  obtain ⟨hc, hl⟩ := Bool.or_eq_false_iff.1 h
  rw [groupStep_break hb, hc, hl, start]
  rfl

/-- What a step brings out and what it keeps hold the breaks there were, and the node
if it is a break, where the grouping puts it. -/
theorem placed_groupStep (marks : List Char) (p : Pending)
    (hn : ∀ kind children, n ≠ .group kind children) :
    (groupStep marks p n).1.flatMap placed ++ inside (groupStep marks p n).2.word
      = inside p.word ++ if n.isBreak then [(n, p.absorbs)] else [] := by
  cases hb : n.isBreak with
  | true =>
    have alone : placed n = [(n, false)] := by
      cases n with
      | lineBreak label | pageBreak label => rfl
      | _ => cases hb
    have joined : inside (p.word ++ [n]) = inside p.word ++ [(n, true)] := by
      simp [inside, hb]
    rw [if_pos rfl]
    cases ha : p.absorbs with
    | true =>
      rw [groupStep_inside hb ha]
      exact joined
    | false =>
      rw [groupStep_apart hb ha]
      show (closeWord p.word ++ [n]).flatMap placed ++ [] = _
      rw [List.append_nil, List.flatMap_append, placed_closeWord, List.flatMap_singleton, alone]
  | false =>
    have none : (closeWord p.word).flatMap placed ++ [] = inside p.word ++ [] := by
      rw [placed_closeWord]
    have kept : inside (p.word ++ [n]) = inside p.word ++ [] := by
      simp [inside, hb]
    cases n with
    | text content => exact (placed_cutText marks content p.word [] p.inWord).trans (by simp)
    | boundary => exact none
    | continuation => exact (List.append_nil _).symm
    | block kind body =>
      show (closeWord p.word ++ [Node.block kind body]).flatMap placed ++ [] = inside p.word ++ []
      rw [List.flatMap_append]
      simpa [placed, isBreak] using none
    | group kind children => exact absurd rfl (hn kind children)
    | lineBreak label | pageBreak label => cases hb
    | abbreviation _ _ | gap _ _ | marked _ _ | entity _ | compoundJoin => exact kept

/-! ## 5. The open word and the nodes before it -/

theorem isContinued_of_not (h : n ≠ .continuation) : isContinued (n :: before) = false := by
  cases n with
  | continuation => exact absurd rfl h
  | _ => rfl

theorem collected_break (h : n.isBreak = true) :
    collected marks (n :: before)
      = if goesOn marks before then .node n :: collected marks before else [] := by
  cases n with
  | lineBreak label | pageBreak label => rfl
  | _ => cases h

/-- The last leaf with text of a word is that of its last node with text. -/
theorem endsInLetter_eq (word : List Node) :
    endsInLetter word = Leaf.endInLetter (word.flatMap childLeaves).reverse := by
  induction word using List.reverseRecOn with
  | nil => rfl
  | append_singleton word n ih =>
    have turned : (word ++ [n]).reverse = n :: word.reverse := by simp
    rw [List.flatMap_append, List.flatMap_singleton, List.reverse_append, endsInLetter, turned]
    cases n with
    | text content =>
      rcases List.eq_nil_or_concat content with rfl | ⟨content, c, rfl⟩
      · exact ih
      · simp [childLeaves, Leaf.endInLetter]
    | entity name => rfl
    | _ => exact ih

/-- What has been collected since the last separator is the word still open; where no
word has begun, nothing with text is in it. -/
structure Pending.Follows (marks : List Char) (before : List Node) (p : Pending) : Prop where
  leaves : (p.word.flatMap childLeaves).reverse = collected marks before
  continues : p.continues = isContinued before
  idle : p.inWord = false → Leaf.endInLetter (collected marks before) = false

theorem Pending.Follows.ends (h : Follows marks before p) :
    (p.inWord && endsInLetter p.word) = endsInLetter p.word := by
  rw [endsInLetter_eq, h.leaves]
  cases hw : p.inWord with
  | true => rfl
  | false => rw [h.idle hw, Bool.and_false]

/-- The grouping decides by the rule. -/
theorem Pending.Follows.absorbs (h : Follows marks before p) :
    p.absorbs = goesOn marks before := by
  rw [Pending.absorbs, h.ends, endsInLetter_eq, h.leaves, h.continues, goesOn]

/-- Cutting text keeps the leaves since its last separator. -/
theorem collected_cutText (marks : List Char) (t : Text) (word : List Node) (run : Text)
    (inWord : Bool) :
    ((cutText marks t word run inWord).2.1.flatMap childLeaves).reverse
      = t.foldl (collectChar marks)
          ((run.map Leaf.char).reverse ++ (word.flatMap childLeaves).reverse) := by
  induction t generalizing word run inWord with
  | nil =>
    show ((word ++ textNode run).flatMap childLeaves).reverse = _
    rw [leaves_run, List.reverse_append, List.foldl_nil]
  | cons c t ih =>
    rw [List.foldl_cons, collectChar]
    by_cases hb : isBlank c = true
    · rw [cutText_blank hb, separates_of_isBlank hb, if_pos rfl]
      exact ih [] [] false
    · by_cases hm : marks.contains c = true
      · rw [cutText_mark hb hm, separates_of_contains hm, if_pos rfl]
        exact ih [] [] false
      · rw [cutText_inside hb hm, not_separates hb hm, if_neg Bool.false_ne_true, ih,
          List.map_append, List.reverse_append]
        rfl

/-- Text after which no word has begun ends with a separator, or is empty. -/
theorem idle_cutText {leaves : List Leaf}
    (hl : inWord = false → Leaf.endInLetter leaves = false)
    (idle : (cutText marks t word run inWord).2.2 = false) :
    Leaf.endInLetter (t.foldl (collectChar marks) leaves) = false := by
  induction t generalizing word run inWord leaves with
  | nil => exact hl idle
  | cons c t ih =>
    rw [List.foldl_cons, collectChar]
    by_cases hb : isBlank c = true
    · rw [cutText_blank hb] at idle
      rw [separates_of_isBlank hb, if_pos rfl]
      exact ih (fun _ => rfl) idle
    · by_cases hm : marks.contains c = true
      · rw [cutText_mark hb hm] at idle
        rw [separates_of_contains hm, if_pos rfl]
        exact ih (fun _ => rfl) idle
      · rw [cutText_inside hb hm] at idle
        rw [not_separates hb hm, if_neg Bool.false_ne_true]
        have begun : true = false → Leaf.endInLetter (.char c :: leaves) = false := by
          intro h
          cases h
        exact ih begun idle

/-- A break stays in the word or separates, as the rule has it. -/
theorem Pending.Follows.step_break (h : Follows marks before p) (hb : n.isBreak = true) :
    Follows marks (n :: before) (groupStep marks p n).2 := by
  have leaf : childLeaves n = [.node n] ∧ n ≠ .continuation
      ∧ ∀ ls, Leaf.endInLetter (.node n :: ls) = Leaf.endInLetter ls := by
    cases n with
    | lineBreak label | pageBreak label => exact ⟨rfl, nofun, fun _ => rfl⟩
    | _ => cases hb
  obtain ⟨alone, other, passed⟩ := leaf
  have flag : isContinued (n :: before) = false := isContinued_of_not other
  have next : collected marks (n :: before)
      = if goesOn marks before then .node n :: collected marks before else [] := collected_break hb
  cases hg : goesOn marks before with
  | true =>
    rw [hg, if_pos rfl] at next
    rw [groupStep_inside hb (h.absorbs.trans hg)]
    refine ⟨?_, flag.symm, fun idle => ?_⟩
    · rw [next, List.flatMap_append, List.flatMap_singleton, alone, List.reverse_append, h.leaves]
      rfl
    · rw [next, passed, h.idle idle]
  | false =>
    rw [hg, if_neg Bool.false_ne_true] at next
    rw [groupStep_apart hb (h.absorbs.trans hg)]
    exact ⟨next.symm, flag.symm, fun _ => by rw [next]; rfl⟩

/-- The open word follows the nodes one by one. -/
theorem Pending.Follows.step (h : Follows marks before p) (n : Node) :
    Follows marks (n :: before) (groupStep marks p n).2 := by
  have fresh (hn : collected marks (n :: before) = []) (hc : n ≠ .continuation) :
      Follows marks (n :: before) start :=
    ⟨hn.symm, (isContinued_of_not hc).symm, fun _ => by rw [hn]; rfl⟩
  have joined (hl : childLeaves n = [.node n])
      (hn : collected marks (n :: before) = .node n :: collected marks before) :
      ((p.word ++ [n]).flatMap childLeaves).reverse = collected marks (n :: before) := by
    rw [hn, ← h.leaves, List.flatMap_append, List.flatMap_singleton, hl, List.reverse_append]
    rfl
  cases n with
  | text content =>
    have cut := collected_cutText marks content p.word [] p.inWord
    rw [h.leaves] at cut
    exact ⟨cut, rfl, idle_cutText h.idle⟩
  | lineBreak label | pageBreak label => exact h.step_break rfl
  | continuation => exact ⟨h.leaves, rfl, h.idle⟩
  | boundary | block _ _ | group _ _ => exact fresh rfl nofun
  | abbreviation _ _ | gap _ _ | marked _ _ | entity _ | compoundJoin =>
    exact ⟨joined rfl rfl, rfl, nofun⟩

theorem Pending.follows_start : Follows marks [] start :=
  ⟨rfl, rfl, fun _ => rfl⟩

theorem Pending.follows_after (marks : List Char) (ns : List Node) :
    Follows marks ns.reverse (after marks ns) := by
  induction ns using List.reverseRecOn with
  | nil => exact follows_start
  | append_singleton ns n ih =>
    rw [List.reverse_append, after, List.foldl_append]
    exact ih.step n

/-- Every break is where the rule puts it. -/
theorem placed_groupFrom (hn : ∀ n ∈ ns, ∀ kind children, n ≠ .group kind children)
    (h : Follows marks before p) :
    (groupFrom marks p ns).flatMap placed = inside p.word ++ crossings marks before ns := by
  induction ns generalizing p before with
  | nil => exact (placed_closeWord p.word).trans (List.append_nil _).symm
  | cons n ns ih =>
    obtain ⟨first, rest⟩ := List.forall_mem_cons.1 hn
    have split : crossings marks before (n :: ns)
        = (if n.isBreak then [(n, p.absorbs)] else []) ++ crossings marks (n :: before) ns := by
      rw [crossings, h.absorbs]
      split <;> rfl
    show ((groupStep marks p n).1 ++ groupFrom marks (groupStep marks p n).2 ns).flatMap placed = _
    rw [List.flatMap_append, ih rest (h.step n), ← List.append_assoc,
      placed_groupStep marks p first, List.append_assoc, split]

/-! ## 6. All groups -/

/-- **Shape of what grouping brings out.** For every choice of punctuation marks and every
sequence of nodes without groups, what comes out are words, punctuation marks, breaks and
blocks of the shape described, and every break is inside a word exactly where a word goes
on across it by the nodes before it. Nowhere does it matter for this whether the state
says that a word has begun. -/
theorem groups_shaped (marks : List Char) {ns : List Node}
    (flat : ∀ n ∈ ns, ∀ kind children, n ≠ .group kind children) :
    (∀ u ∈ groupFrom marks start ns, Shaped marks u)
    ∧ (groupFrom marks start ns).flatMap placed = crossings marks [] ns
    ∧ ∀ before, before <+: ns →
        ((after marks before).inWord && endsInLetter (after marks before).word)
          = endsInLetter (after marks before).word :=
  ⟨shaped_groupFrom flat nofun, placed_groupFrom flat follows_start,
    fun before _ => (follows_after marks before).ends⟩

/-- Breaks after a letter and a gap, after a digit, after a continuation sign, and after
another break. -/
def breakSample : List Node :=
  [.text ['a'], .gap none none, .lineBreak none, .text [' ', '1'], .lineBreak (some ['2']),
    .continuation, .pageBreak ['3'], .lineBreak (some ['4'])]

theorem groups_shaped_sample :
    (∀ n ∈ breakSample, ∀ kind children, n ≠ .group kind children)
    ∧ (groupFrom punctuationMarks start breakSample).flatMap placed
      = [(.lineBreak none, true), (.lineBreak (some ['2']), false), (.pageBreak ['3'], true),
        (.lineBreak (some ['4']), false)] := by
  have flat : ∀ n ∈ breakSample, ∀ kind children, n ≠ .group kind children := by
    simp [breakSample]
  exact ⟨flat, (groups_shaped punctuationMarks flat).2.1⟩

end Steps

end Node

end Transcription
