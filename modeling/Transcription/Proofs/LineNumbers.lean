/-
Transcription.Proofs.LineNumbers — line breaks are numbered in the order of the text.

Breaks are written in two places: between words, and among the nodes of a word. Which of them
a break gets to is decided by the grouping; the number that it is written with where it has no
label is taken from one counter, which all breaks move on, with a label or without.

The numbers may as well be given to the breaks as labels before anything is grouped
(`numberLines`). Grouping asks nothing about labels, so what comes out is numbered as what
went in (`grouped_numberLines`): the lines that a step brings out and those that it keeps are
the lines that there were, which is known from the leaves (`lineCount_groupStep`). The counter then
says at each unit how many lines stand before it (`sameFrom_units`).

**`numbered_ahead`**: where lines are numbered automatically on one level, what is written is
what the nodes with their numbers as labels are written as without.
-/
import Transcription.Proofs.Leaves
import Transcription.Proofs.Paragraphs

namespace Transcription

/-- Whether a leaf is a line break. -/
def Leaf.isLine : Leaf → Bool
  | .node (.lineBreak _) => true
  | _ => false

namespace Node

open Pending

/-! ## 1. Lines and their numbers -/

/-- Whether a node is neither a group nor a block. -/
def isFlat : Node → Bool
  | .group _ _ | .block _ _ => false
  | _ => true

/-- Whether a node is a line break. -/
def isLine : Node → Bool
  | .lineBreak _ => true
  | _ => false

/-- How many line breaks there are among nodes. -/
def lineCount (ns : List Node) : Nat :=
  ns.countP isLine

/-- A node with a number of line breaks before it: a line break without a label gets the next
number for one. -/
def numberLine (count : Nat) : Node → Node
  | .lineBreak label => .lineBreak (some (label.getD (Text.ofNat (count + 1))))
  | n => n

/-- Nodes with the numbers of their line breaks as labels, where these have none. -/
def numberLines : (count : Nat) → List Node → List Node
  | _, [] => []
  | count, n :: ns => numberLine count n :: numberLines (count + lineCount [n]) ns

/-- The nodes of a unit: those of a group, or the unit itself. -/
def members : Node → List Node
  | .group _ children => children
  | n => [n]

/-- A unit with a number of line breaks before it. -/
def numberUnit (count : Nat) : Node → Node
  | .group kind children => .group kind (numberLines count children)
  | n => numberLine count n

/-- Units with the numbers of their line breaks as labels. -/
def numberUnits : (count : Nat) → List Node → List Node
  | _, [] => []
  | count, u :: us => numberUnit count u :: numberUnits (count + lineCount u.members) us

section Numbers

variable {count : Nat} {n : Node} {ns ms us : List Node}

theorem lineCount_append (ms ns : List Node) : lineCount (ms ++ ns) = lineCount ms + lineCount ns :=
  List.countP_append

theorem lineCount_cons (n : Node) (ns : List Node) :
    lineCount (n :: ns) = lineCount [n] + lineCount ns :=
  lineCount_append [n] ns

theorem numberLines_append (count : Nat) (ms ns : List Node) :
    numberLines count (ms ++ ns)
      = numberLines count ms ++ numberLines (count + lineCount ms) ns := by
  induction ms generalizing count with
  | nil => rfl
  | cons m ms ih => rw [List.cons_append, numberLines, ih, numberLines, lineCount_cons m ms,
      Nat.add_assoc, List.cons_append]

theorem numberUnits_append (count : Nat) (us vs : List Node) :
    numberUnits count (us ++ vs)
      = numberUnits count us ++ numberUnits (count + lineCount (us.flatMap members)) vs := by
  induction us generalizing count with
  | nil => rfl
  | cons u us ih =>
    rw [List.cons_append, numberUnits, ih, numberUnits, List.flatMap_cons, lineCount_append,
      Nat.add_assoc, List.cons_append]

theorem isFlat_numberLine (h : n.isFlat = true) (count : Nat) :
    (numberLine count n).isFlat = true := by
  cases n with
  | group _ _ | block _ _ => cases h
  | _ => rfl

theorem isFlat_numberLines (h : ∀ n ∈ ns, n.isFlat = true) (count : Nat) :
    ∀ n ∈ numberLines count ns, n.isFlat = true := by
  induction ns generalizing count with
  | nil => exact nofun
  | cons n ns ih =>
    obtain ⟨hn, hns⟩ := List.forall_mem_cons.1 h
    exact List.forall_mem_cons.2 ⟨isFlat_numberLine hn count, ih hns _⟩

/-- What is not asked about labels is the same after numbering. -/
theorem filterMap_numberLines {α : Type} {f : Node → Option α}
    (h : ∀ count n, f (numberLine count n) = f n) (count : Nat) (ns : List Node) :
    (numberLines count ns).filterMap f = ns.filterMap f := by
  induction ns generalizing count with
  | nil => rfl
  | cons n ns ih => rw [numberLines, List.filterMap_cons, List.filterMap_cons, h, ih]

theorem members_of_isFlat (h : n.isFlat = true) : n.members = [n] := by
  cases n with
  | group _ _ => cases h
  | _ => rfl

theorem numberUnit_of_isFlat (h : n.isFlat = true) (count : Nat) :
    numberUnit count n = numberLine count n := by
  cases n with
  | group _ _ => cases h
  | _ => rfl

theorem weight_of_isFlat (h : n.isFlat = true) : n.weight = 0 := by
  cases n with
  | group _ _ | block _ _ => cases h
  | _ => rfl

/-- Nodes that are not grouped are their own units. -/
theorem numberUnits_of_isFlat (h : ∀ n ∈ ns, n.isFlat = true) (count : Nat) :
    numberUnits count ns = numberLines count ns := by
  induction ns generalizing count with
  | nil => rfl
  | cons n ns ih =>
    obtain ⟨hn, hns⟩ := List.forall_mem_cons.1 h
    rw [numberUnits, numberLines, numberUnit_of_isFlat hn, members_of_isFlat hn, ih hns]

end Numbers

/-! ## 2. Grouping -/

section Grouping

variable {marks : List Char} {p : Pending} {n u : Node} {ns us word : List Node} {t run : Text}

/-- Line breaks are leaves of the nodes of a word. -/
theorem countP_childLeaves (ns : List Node) :
    (ns.flatMap childLeaves).countP Leaf.isLine = lineCount ns := by
  have one (n : Node) : (childLeaves n).countP Leaf.isLine = lineCount [n] := by
    cases n with
    | text content => simp [childLeaves, lineCount, isLine, Leaf.isLine, Function.comp_def]
    | _ => rfl
  induction ns with
  | nil => rfl
  | cons n ns ih => rw [List.flatMap_cons, List.countP_append, one, ih, ← lineCount_cons]

/-- Line breaks are leaves of units. -/
theorem countP_leaves (us : List Node) :
    (us.flatMap leaves).countP Leaf.isLine = lineCount (us.flatMap members) := by
  have one (u : Node) : (leaves u).countP Leaf.isLine = lineCount u.members := by
    cases u with
    | group kind children => exact countP_childLeaves children
    | _ => rfl
  induction us with
  | nil => rfl
  | cons u us ih =>
    rw [List.flatMap_cons, List.countP_append, one, ih, List.flatMap_cons, lineCount_append]

theorem countP_sourceLeaves (hn : n.isFlat = true) :
    (sourceLeaves n).countP Leaf.isLine = lineCount [n] := by
  cases n with
  | text content => simp [sourceLeaves, lineCount, isLine, Leaf.isLine, Function.comp_def]
  | group _ _ | block _ _ => cases hn
  | _ => rfl

/-- A step brings out or keeps the lines that there were. -/
theorem lineCount_groupStep (hn : n.isFlat = true) :
    lineCount ((groupStep marks p n).1.flatMap members) + lineCount (groupStep marks p n).2.word
      = lineCount p.word + lineCount [n] := by
  have stream := congrArg (List.countP Leaf.isLine) (leaves_groupStep marks p n)
  rwa [List.countP_append, List.countP_append, countP_leaves, countP_childLeaves,
    countP_childLeaves, countP_sourceLeaves hn] at stream

/-- A run of text after a word takes no number. -/
theorem numberLines_run (count : Nat) (word : List Node) (run : Text) :
    numberLines count word ++ textNode run = numberLines count (word ++ textNode run) := by
  rw [numberLines_append]
  cases run <;> rfl

theorem closeWord_numberLines (count : Nat) (word : List Node) :
    closeWord (numberLines count word) = numberUnits count (closeWord word) := by
  cases word <;> rfl

theorem members_closeWord (word : List Node) : (closeWord word).flatMap members = word := by
  cases word with
  | nil => rfl
  | cons n word => exact List.append_nil _

theorem endsInLetter_numberLines (count : Nat) (word : List Node) :
    endsInLetter (numberLines count word) = endsInLetter word := by
  unfold endsInLetter
  simp only [List.filterMap_reverse]
  rw [filterMap_numberLines fun count n => by cases n <;> rfl]

/-- What cutting text closes, and the word that it keeps after that, with numbers. -/
def numberCut (count : Nat) (cut : List Node × List Node × Bool) :
    List Node × List Node × Bool :=
  (numberUnits count cut.1, numberLines (count + lineCount (cut.1.flatMap members)) cut.2.1,
    cut.2.2)

theorem numberCut_append (count : Nat) (us : List Node) (cut : List Node × List Node × Bool) :
    numberCut count (us ++ cut.1, cut.2)
      = (numberUnits count us ++ (numberCut (count + lineCount (us.flatMap members)) cut).1,
        (numberCut (count + lineCount (us.flatMap members)) cut).2) := by
  simp only [numberCut, numberUnits_append, List.flatMap_append, lineCount_append, Nat.add_assoc]

/-- Text is cut after a word with numbers as after the word without: by induction on the
text. -/
theorem cutText_numberLines (marks : List Char) (t : Text) (count : Nat) (word : List Node)
    (run : Text) (inWord : Bool) :
    cutText marks t (numberLines count word) run inWord
      = numberCut count (cutText marks t word run inWord) := by
  induction t generalizing count word run inWord with
  | nil =>
    show ([], numberLines count word ++ textNode run, inWord) = _
    rw [numberLines_run]
    rfl
  | cons c t ih =>
    -- what follows closed units begins with no word, whose lines could have numbers
    have fresh (count : Nat) :
        numberCut count (cutText marks t [] [] false) = cutText marks t [] [] false :=
      (ih count [] [] false).symm
    by_cases hb : isBlank c = true
    · rw [cutText_blank hb, cutText_blank hb, numberCut_append, fresh, numberLines_run,
        closeWord_numberLines]
    · by_cases hm : marks.contains c = true
      · have closed (w : List Node) :
            numberUnits count (closeWord w ++ [.group .punctuation [.text [c]]])
              = closeWord (numberLines count w) ++ [.group .punctuation [.text [c]]] := by
          rw [numberUnits_append, closeWord_numberLines]
          rfl
        rw [cutText_mark hb hm, cutText_mark hb hm, numberLines_run,
          List.append_cons (closeWord (numberLines _ _)), List.append_cons (closeWord (word ++ _)),
          numberCut_append, fresh, closed]
      · rw [cutText_inside hb hm, cutText_inside hb hm]
        exact ih count word (run ++ [c]) true

/-- What a step brings out, and the word that it keeps after that, with numbers. -/
def numberStep (count : Nat) (step : List Node × Pending) : List Node × Pending :=
  (numberUnits count step.1,
    { step.2 with word := numberLines (count + lineCount (step.1.flatMap members)) step.2.word })

/-- A step is the same with numbers as without. -/
theorem groupStep_numberLine (hn : n.isFlat = true) (count : Nat) (p : Pending) :
    groupStep marks { p with word := numberLines count p.word }
        (numberLine (count + lineCount p.word) n)
      = numberStep count (groupStep marks p n) := by
  have joined : numberLines count p.word ++ [numberLine (count + lineCount p.word) n]
      = numberLines count (p.word ++ [n]) := by
    rw [numberLines_append]
    rfl
  have alone : closeWord (numberLines count p.word) ++ [numberLine (count + lineCount p.word) n]
      = numberUnits count (closeWord p.word ++ [n]) := by
    rw [numberUnits_append, members_closeWord, closeWord_numberLines,
      numberUnits_of_isFlat (List.forall_mem_singleton.2 hn)]
    rfl
  cases n with
  | text content =>
    show ((cutText marks content (numberLines count p.word) [] p.inWord).1, _) = _
    rw [cutText_numberLines]
    rfl
  | boundary =>
    show (closeWord (numberLines count p.word), start) = _
    rw [closeWord_numberLines]
    rfl
  | continuation => rfl
  | block _ _ | group _ _ => cases hn
  | lineBreak label | pageBreak label =>
    rw [groupStep_break rfl, groupStep_break (by rfl)]
    dsimp only
    rw [endsInLetter_numberLines, joined, alone]
    split
    · rfl
    · split
      · rfl
      · rfl
  | abbreviation _ _ | gap _ _ | marked _ _ | entity _ | compoundJoin =>
    show ([], (⟨numberLines count p.word ++ [_], true, false⟩ : Pending)) = _
    rw [joined]
    rfl

/-- Nodes are grouped with numbers as without, after a word that is still open. -/
theorem groupFrom_numberLines (h : ∀ n ∈ ns, n.isFlat = true) (count : Nat) (p : Pending) :
    groupFrom marks { p with word := numberLines count p.word }
        (numberLines (count + lineCount p.word) ns)
      = numberUnits count (groupFrom marks p ns) := by
  induction ns generalizing count p with
  | nil => exact closeWord_numberLines count p.word
  | cons n ns ih =>
    obtain ⟨hn, hns⟩ := List.forall_mem_cons.1 h
    have total := @lineCount_groupStep marks p n hn
    rw [numberLines, groupFrom_cons, groupStep_numberLine hn, groupFrom_cons, numberUnits_append,
      ← ih hns, Nat.add_assoc count, Nat.add_assoc count, ← total]
    rfl

/-- **Numbering before grouping is numbering after it.** -/
theorem grouped_numberLines (h : ∀ n ∈ ns, n.isFlat = true) :
    grouped (numberLines 0 ns) = numberUnits 0 (grouped ns) :=
  groupFrom_numberLines h 0 start

/-- Groups hold neither groups nor blocks. -/
theorem isFlat_of_grouped (h : ∀ n ∈ ns, n.isFlat = true) :
    ∀ u ∈ grouped ns, ∀ m ∈ u.members, m.isFlat = true := by
  have flat : GroupInvariant punctuationMarks (fun _ => True) (fun n => n.isFlat = true)
      (fun u => ∀ m ∈ u.members, m.isFlat = true) :=
    ⟨fun _ _ _ => rfl, fun _ _ inner => inner, fun _ _ _ _ => List.forall_mem_singleton.2 rfl⟩
  have alone {n : Node} (hn : n.isFlat = true) : ∀ m ∈ n.members, m.isFlat = true := by
    rw [members_of_isFlat hn]
    exact List.forall_mem_singleton.2 hn
  refine flat.groups (fun n hn => ?_) (List.forall_mem_nil _)
  have flatNode := h n hn
  cases n with
  | text _ => exact fun _ _ => trivial
  | continuation | boundary => trivial
  | lineBreak _ | pageBreak _ => exact ⟨rfl, alone rfl⟩
  | block _ _ | group _ _ => cases flatNode
  | abbreviation _ _ | gap _ _ | marked _ _ | entity _ | compoundJoin => rfl

end Grouping

end Node

namespace Edition

open Node

variable {s : Settings} {a : Apparatus} {n u : Node} {ns us : List Node}

/-! ## 3. The counter of lines -/

/-- With line breaks that have no label numbered. -/
def counting (s : Settings) : Settings :=
  { s with autoLineNumbers := true }

/-- With line breaks that have no label written without a number. -/
def labelled (s : Settings) : Settings :=
  { s with autoLineNumbers := false }

/-- From some counters on, the same is written in two ways, and a number of line breaks is
counted. -/
structure SameFrom (progress : Progress) (count : Nat) (v w : Writing) : Prop where
  same : v progress = w progress
  counted : (v progress).2.lineNumber = progress.lineNumber + count

section Writings

variable {progress : Progress} {v w : Writing} {vs ws : List Writing} {count more : Nat}

theorem SameFrom.pure (progress : Progress) (t : Text) : SameFrom progress 0 (pure t) (pure t) :=
  ⟨rfl, rfl⟩

/-- What goes on from there may count lines in turn. -/
theorem SameFrom.bind {f g : Text → Writing} (h : SameFrom progress count v w)
    (hf : ∀ t, SameFrom (v progress).2 more (f t) (g t)) :
    SameFrom progress (count + more) (v >>= f) (w >>= g) := by
  have rest := hf (v progress).1
  refine ⟨?_, ?_⟩
  · show f (v progress).1 (v progress).2 = g (w progress).1 (w progress).2
    rw [← h.same]
    exact rest.same
  · show (f (v progress).1 (v progress).2).2.lineNumber = _
    rw [rest.counted, h.counted, Nat.add_assoc]

/-- A node by itself, its number taken from the counter or from its label. -/
theorem sameFrom_leaf (progress : Progress) (n : Node) :
    SameFrom progress (lineCount [n]) (leaf (counting s) a n)
      (leaf (labelled s) a (numberLine progress.lineNumber n)) := by
  cases n with
  | lineBreak label => cases label <;> exact ⟨rfl, rfl⟩
  | pageBreak label =>
    refine ⟨rfl, ?_⟩
    show (pageBreak (counting s) label progress).2.lineNumber = _
    cases hp : (counting s).wrapPages with
    | false => rw [pageBreak_plain hp]; rfl
    | true => rw [pageBreak_run hp]; rfl
  | _ => exact .pure progress _

/-- Nodes one after the other, by induction: the counter goes on as the labels do. -/
theorem sameFrom_leaves (ns : List Node) (progress : Progress) :
    SameFrom progress (lineCount ns) (parts (counting s) a (ns.map .leaf))
      (parts (labelled s) a ((numberLines progress.lineNumber ns).map .leaf)) := by
  induction ns generalizing progress with
  | nil => exact .pure progress []
  | cons n ns ih =>
    have first := sameFrom_leaf (s := s) (a := a) progress n
    rw [lineCount_cons, numberLines, List.map_cons, List.map_cons, parts, parts, part, part]
    refine first.bind fun t => ?_
    have rest := (ih (leaf (counting s) a n progress).2).bind fun more =>
      SameFrom.pure _ (t ++ more)
    rwa [first.counted, Nat.add_zero] at rest

end Writings

/-! ## 4. Units -/

section Units

variable {source : Text}

/-- A word counts no lines besides those in it. -/
theorem lineNumber_wordSingle (a : Apparatus) (content : Text) (progress : Progress) :
    (wordSingle a content progress).2.lineNumber = progress.lineNumber := by
  unfold wordSingle
  split <;> rfl

theorem ofNodes_isFlat (h : ∀ n ∈ ns, n.isFlat = true) : Part.ofNodes ns = ns.map .leaf :=
  List.map_congr_left fun n hn => Part.ofNode_leaf (weight_of_isFlat (h n hn))

/-- A unit that is a node by itself. -/
theorem sameFrom_flat (hu : u.isFlat = true) (progress : Progress) :
    SameFrom progress (lineCount u.members) (part (counting s) a (Part.ofNode u))
      (part (labelled s) a (Part.ofNode (numberUnit progress.lineNumber u))) := by
  rw [members_of_isFlat hu, numberUnit_of_isFlat hu, Part.ofNode_leaf (weight_of_isFlat hu),
    Part.ofNode_leaf (weight_of_isFlat (isFlat_numberLine hu _)), part, part]
  exact sameFrom_leaf progress u

/-- A unit that holds neither groups nor blocks, on one level. -/
theorem sameFrom_unit (hm : s.multiLevel = false) (h : ∀ m ∈ u.members, m.isFlat = true)
    (progress : Progress) :
    SameFrom progress (lineCount u.members) (part (counting s) a (Part.ofNode u))
      (part (labelled s) a (Part.ofNode (numberUnit progress.lineNumber u))) := by
  cases u with
  | group kind children =>
    have flat : ∀ m ∈ children, m.isFlat = true := h
    have inside := sameFrom_leaves (s := s) (a := a) children progress
    have single : (counting s).multiLevel = false ∧ (labelled s).multiLevel = false := ⟨hm, hm⟩
    rw [numberUnit, Part.ofNode_group, Part.ofNode_group, ofNodes_isFlat flat,
      ofNodes_isFlat (isFlat_numberLines flat _)]
    cases kind with
    | word =>
      rw [part, part, single.1, single.2]
      have rest (content : Text) (progress : Progress) : SameFrom progress 0
          (wordSingle a content) (wordSingle a content) :=
        ⟨rfl, lineNumber_wordSingle a content _⟩
      exact inside.bind fun content => rest content _
    | punctuation =>
      rw [part, part, single.1, single.2]
      exact inside.bind fun content => SameFrom.pure _ _
  | block kind body => cases h _ List.mem_cons_self
  | _ => exact sameFrom_flat rfl progress

/-- Units one after the other: each has as many lines before it as the counter says. -/
theorem sameFrom_units (hm : s.multiLevel = false)
    (h : ∀ u ∈ us, ∀ m ∈ u.members, m.isFlat = true) (progress : Progress) :
    SameFrom progress (lineCount (us.flatMap members)) (parts (counting s) a (Part.ofNodes us))
      (parts (labelled s) a (Part.ofNodes (numberUnits progress.lineNumber us))) := by
  induction us generalizing progress with
  | nil => exact .pure progress []
  | cons u us ih =>
    obtain ⟨hu, hus⟩ := List.forall_mem_cons.1 h
    have first := sameFrom_unit (a := a) hm hu progress
    rw [List.flatMap_cons, lineCount_append, numberUnits]
    show SameFrom _ _ (parts _ a (Part.ofNode u :: Part.ofNodes us))
      (parts _ a (Part.ofNode _ :: Part.ofNodes _))
    rw [parts, parts]
    refine first.bind fun t => ?_
    have rest := (ih hus (part (counting s) a (Part.ofNode u) progress).2).bind fun more =>
      SameFrom.pure _ (t ++ more)
    rwa [first.counted, Nat.add_zero] at rest

theorem isFlat_units (h : ∀ n ∈ ns, n.isFlat = true) :
    ∀ u ∈ units s ns, ∀ m ∈ u.members, m.isFlat = true := by
  unfold units
  split
  · exact isFlat_of_grouped h
  · intro u hu
    rw [members_of_isFlat (h u hu)]
    exact List.forall_mem_singleton.2 (h u hu)

theorem units_numberLines (h : ∀ n ∈ ns, n.isFlat = true) :
    units s (numberLines 0 ns) = numberUnits 0 (units s ns) := by
  unfold units
  split
  · exact grouped_numberLines h
  · exact (numberUnits_of_isFlat h 0).symm

/-- **Automatic numbers are labels given ahead.** For all nodes that are neither groups nor
blocks and for all settings with one level: with automatic line numbers the nodes are written
as they are without, once the k-th line break among them, counted from one and with the
labelled ones, has the numeral of k for its label, unless it has a label. -/
theorem numbered_ahead (hm : s.multiLevel = false) (h : ∀ n ∈ ns, n.isFlat = true) :
    ofNodes { s with autoLineNumbers := true } a ns
      = ofNodes { s with autoLineNumbers := false } a (numberLines 0 ns) := by
  have grouping : units (labelled s) (numberLines 0 ns) = numberUnits 0 (units (counting s) ns) :=
    units_numberLines (s := labelled s) h
  have run := (sameFrom_units (a := a) hm (isFlat_units (s := counting s) h) .start).same
  rw [parts_eq, parts_eq] at run
  show ofNodes (counting s) a ns = ofNodes (labelled s) a (numberLines 0 ns)
  rw [ofNodes_eq, ofNodes_eq, grouping, run]
  rfl

/-- A labelled break between words, one that a word goes on across, and one after a page. -/
theorem numbered_ahead_across_word :
    let s : Settings := ⟨true, false, false, true⟩
    let ns : List Node := [.lineBreak (some "7"), .text "a", .lineBreak none, .text "b ",
      .pageBreak "1r", .lineBreak none]
    s.multiLevel = false ∧ (∀ n ∈ ns, n.isFlat = true)
      ∧ ofNodes { s with autoLineNumbers := true } .empty ns
        = "<lb n=\"7\"/>\n<w>a<lb n=\"2\"/>\nb</w>\n"
          ++ "<pb n=\"1r\"/>\n<p>\n<lb n=\"3\"/>\n</p>\n" := by
  intro s ns
  have flat : ∀ n ∈ ns, n.isFlat = true := List.all_eq_true.1 rfl
  refine ⟨rfl, flat, ?_⟩
  rw [numbered_ahead rfl flat]
  decide +kernel

end Units

end Edition

end Transcription
