/-
Transcription.Proofs.Segments — cutting a body into segments loses nothing:
written one after the other, the segments are the markup of its content.

Two recursions over the tree meet here. `Import.drafts` cuts it, with a case
for every name that has a transcription and a fall back to tags around the
segments of the content; `Xml.Node.write` writes it. They agree at every node
(`written_drafts`), since a segment keeps the markup of its element, a run
of text is cut without a gap (`flatten_runs`), and blanks need no escape.

Milestones are the exception: a segment keeps their attributes only, and they
are written anew as empty elements without a qualifier, with the attributes
in the order of their names. `PlainMilestone` says that an element is of that
form already. Only the milestones that the cut comes to matter (`walked`): one
inside a word is part of the markup of the word.
-/
import Transcription.Import.Segments
import Transcription.Proofs.Placement

namespace Transcription.Import

open Xml (Tag Element)

/-! ## 1. What the cut comes to -/

/-- Whether elements with this tag are milestones. -/
def isMilestone (tag : Tag) : Bool :=
  [Milestone.line, .page, .hand].any fun kind => tag.localName = kind.tag

/-- A milestone in the form that milestones are written in: empty, without a
qualifier, the names of its attributes ascending. -/
structure PlainMilestone (e : Element) : Prop where
  empty : e.children.isEmpty = true
  unqualified : e.tag.name.qualifier = []
  ascending : e.tag.attrs.keys.Pairwise fun a b => Text.le a b = true ∧ a ≠ b

instance (e : Element) : Decidable (PlainMilestone e) :=
  decidable_of_iff
    (e.children.isEmpty = true ∧ e.tag.name.qualifier = []
      ∧ e.tag.attrs.keys.Pairwise fun a b => Text.le a b = true ∧ a ≠ b)
    ⟨fun h => ⟨h.1, h.2.1, h.2.2⟩, fun h => ⟨h.empty, h.unqualified, h.ascending⟩⟩

mutual

/-- The elements of a node that the cut comes to: not those inside an element
that is one segment. -/
def walked : Xml.Node → List Element
  | .element tag ns =>
      ⟨tag, ns⟩ :: if (elementDraft? tag ns).isSome then [] else walkedAll ns
  | _ => []

/-- The elements of some nodes that the cut comes to. -/
def walkedAll : List Xml.Node → List Element
  | [] => []
  | n :: ns => walked n ++ walkedAll ns

end

/-! ## 2. Text -/

theorem flatten_runs (t : Text) : (runs t).flatten = t := by
  induction t with
  | nil => rfl
  | cons c t ih =>
    unfold runs
    split
    · next run rest hr =>
      rw [hr] at ih
      split
      · rw [List.flatten_cons, List.cons_append, ← List.flatten_cons, ih]
      · rw [List.flatten_cons, List.singleton_append, ih]
    · rw [List.flatten_cons, List.singleton_append, ih]

theorem escapeText_append (t u : Text) :
    Markup.escapeText (t ++ u) = Markup.escapeText t ++ Markup.escapeText u :=
  List.flatMap_append

/-- Blanks need no escape. -/
theorem escapeText_blank {t : Text} (h : t.allBlank = true) : Markup.escapeText t = t := by
  induction t with
  | nil => rfl
  | cons c t ih =>
    simp only [Text.allBlank, List.all_cons, Bool.and_eq_true] at h ih
    have plain : Markup.escapeTextChar c = [c] := by
      unfold Markup.escapeTextChar
      rw [if_neg (ne_of_isBlank h.1 (by decide)), if_neg (ne_of_isBlank h.1 (by decide)),
        if_neg (ne_of_isBlank h.1 (by decide))]
    rw [Markup.escapeText, List.flatMap_cons, plain]
    exact congrArg _ (ih h.2)

theorem serialize_ofRun (run : Text) (id : Int) :
    (ofRun run id).serialize = Markup.escapeText run := by
  unfold ofRun
  split
  · next h => exact (escapeText_blank h).symm
  · rfl

/-! ## 3. Elements -/

/-- An element that is one segment is a milestone with its attributes, or a
word or punctuation mark with its markup. -/
theorem elementDraft_cases {tag : Tag} {ns : List Xml.Node} {d : Draft}
    (h : elementDraft? tag ns = some d) :
    (∃ kind : Milestone, tag.localName = kind.tag
        ∧ d = fun id => .milestone kind id tag.values)
      ∨ (∃ dsl attrs breaksLine,
          d = fun id => .word id (Xml.Node.write (.element tag ns)) dsl attrs breaksLine)
      ∨ ∃ dsl, d = fun id => .punctuation id (Xml.Node.write (.element tag ns)) dsl := by
  unfold elementDraft? at h
  dsimp only at h
  split at h
  · cases h; exact .inr (.inl ⟨_, _, _, rfl⟩)
  · split at h
    · cases h; exact .inr (.inr ⟨_, rfl⟩)
    · split at h
      · next hn => cases h; exact .inl ⟨.line, hn, rfl⟩
      · split at h
        · next hn => cases h; exact .inl ⟨.page, hn, rfl⟩
        · split at h
          · next hn => cases h; exact .inl ⟨.hand, hn, rfl⟩
          · split at h
            · cases h; exact .inr (.inl ⟨_, _, _, rfl⟩)
            · split at h
              · cases h; exact .inr (.inl ⟨_, _, _, rfl⟩)
              · split at h
                · cases h
                · cases h; exact .inr (.inl ⟨_, _, _, rfl⟩)

/-! ## 4. Numbers -/

/-- A draft takes the number that it is given. -/
def TakesNumber (d : Draft) : Prop :=
  ∀ id, (d id).id = id

theorem takesNumber_elementDraft {tag : Tag} {ns : List Xml.Node} {d : Draft}
    (h : elementDraft? tag ns = some d) : TakesNumber d := by
  rcases elementDraft_cases h with ⟨kind, _, rfl⟩ | ⟨dsl, attrs, breaksLine, rfl⟩ | ⟨dsl, rfl⟩
  · exact fun _ => rfl
  · exact fun _ => rfl
  · exact fun _ => rfl

mutual

theorem takesNumber_drafts : ∀ (n : Xml.Node), ∀ d ∈ drafts n, TakesNumber d
  | .text t, d, h => by
    obtain ⟨run, _, rfl⟩ := List.mem_map.1 h
    intro id
    unfold ofRun
    split <;> rfl
  | .comment t, d, h => by
    rw [List.mem_singleton.1 h]
    exact fun _ => rfl
  | .reference name, d, h => by
    rw [List.mem_singleton.1 h]
    exact fun _ => rfl
  | .instruction, d, h => by cases h
  | .element tag ns, d, h => by
    unfold drafts at h
    split at h
    · next found hd =>
      rw [List.mem_singleton.1 h]
      exact takesNumber_elementDraft hd
    · split at h
      · rw [List.mem_singleton.1 h]
        exact fun _ => rfl
      · rcases List.mem_append.1 h with h | h
        · rcases List.mem_cons.1 h with rfl | h
          · exact fun _ => rfl
          · exact takesNumber_draftsAll ns d h
        · rw [List.mem_singleton.1 h]
          exact fun _ => rfl

theorem takesNumber_draftsAll : ∀ (ns : List Xml.Node), ∀ d ∈ draftsAll ns, TakesNumber d
  | [], _, h => by cases h
  | n :: ns, d, h => by
    rcases List.mem_append.1 h with h | h
    · exact takesNumber_drafts n d h
    · exact takesNumber_draftsAll ns d h

end

theorem le_id_of_numberFrom {ds : List Draft} (h : ∀ d ∈ ds, TakesNumber d) {first : Int}
    {segment : Segment} (hs : segment ∈ numberFrom first ds) : first ≤ segment.id := by
  induction ds generalizing first with
  | nil => cases hs
  | cons d ds ih =>
    rcases List.mem_cons.1 hs with rfl | hs
    · exact Int.le_of_eq (h d List.mem_cons_self first).symm
    · have := ih (fun d hd => h d (List.mem_cons_of_mem _ hd)) hs
      omega

theorem nodup_numberFrom {ds : List Draft} (h : ∀ d ∈ ds, TakesNumber d) (first : Int) :
    ((numberFrom first ds).map Segment.id).Nodup := by
  induction ds generalizing first with
  | nil => exact List.nodup_nil
  | cons d ds ih =>
    have h' : ∀ d ∈ ds, TakesNumber d := fun d hd => h d (List.mem_cons_of_mem _ hd)
    refine List.nodup_cons.2 ⟨fun hm => ?_, ih h' (first + 1)⟩
    obtain ⟨segment, hs, he⟩ := List.mem_map.1 hm
    have := le_id_of_numberFrom h' hs
    rw [h d List.mem_cons_self] at he
    omega

/-- The segments of a body have distinct numbers. -/
theorem nodup_segments (body : Element) : ((segments body).map Segment.id).Nodup :=
  nodup_numberFrom (takesNumber_draftsAll body.children) 0

/-! ## 5. Milestones -/

/-- Attributes whose names ascend are their own table, in its order. -/
theorem sorted_values {tag : Tag}
    (h : tag.attrs.keys.Pairwise fun a b => Text.le a b = true ∧ a ≠ b) :
    tag.values.sorted = tag.attrs := by
  have distinct : tag.attrs.keys.Nodup := h.imp fun hab => hab.2
  have ascending : tag.attrs.Pairwise fun a b => Text.le a.1 b.1 = true :=
    (List.pairwise_map.1 h).imp fun hab => hab.1
  have same : tag.values = tag.attrs := Table.ofEntries_of_nodup distinct
  rw [same]
  exact List.mergeSort_of_pairwise ascending

/-- A plain milestone is written as it stands. -/
theorem emptyTag_of_plain {tag : Tag} {ns : List Xml.Node} {kind : Milestone}
    (hk : tag.localName = kind.tag) (h : PlainMilestone ⟨tag, ns⟩) :
    Markup.emptyTag kind.tag tag.values = Xml.Node.write (.element tag ns) := by
  obtain rfl : ns = [] := List.isEmpty_iff.1 h.empty
  have name : tag.name.write = kind.tag := by
    rw [Xml.QName.write, h.unqualified]
    exact hk
  rw [Xml.Node.write_empty, Xml.Tag.empty, name, Markup.emptyTag, sorted_values h.ascending]

/-! ## 6. The markup of the segments -/

/-- The markup of drafts from a first number on. -/
def written (first : Int) (ds : List Draft) : Text :=
  (numberFrom first ds).flatMap Segment.serialize

theorem written_cons (first : Int) (d : Draft) (ds : List Draft) :
    written first (d :: ds) = (d first).serialize ++ written (first + 1) ds :=
  List.flatMap_cons

theorem written_append (first : Int) (ds more : List Draft) :
    written first (ds ++ more) = written first ds ++ written (first + ds.length) more := by
  induction ds generalizing first with
  | nil => simp [written, numberFrom]
  | cons d ds ih =>
    have shift : first + 1 + (ds.length : Int) = first + ((d :: ds).length : Int) := by
      rw [List.length_cons]
      push_cast
      omega
    rw [List.cons_append, written_cons, written_cons, ih, shift, List.append_assoc]

theorem written_runs (first : Int) (rs : List Text) :
    written first (rs.map ofRun) = Markup.escapeText rs.flatten := by
  induction rs generalizing first with
  | nil => rfl
  | cons r rs ih =>
    rw [List.map_cons, written_cons, serialize_ofRun, ih, List.flatten_cons, escapeText_append]

/-- One segment for an element has its markup. -/
theorem serialize_elementDraft {tag : Tag} {ns : List Xml.Node} {d : Draft}
    (h : elementDraft? tag ns = some d)
    (plain : isMilestone tag = true → PlainMilestone ⟨tag, ns⟩) (id : Int) :
    (d id).serialize = Xml.Node.write (.element tag ns) := by
  rcases elementDraft_cases h with ⟨kind, hk, rfl⟩ | ⟨dsl, attrs, breaksLine, rfl⟩ | ⟨dsl, rfl⟩
  · have milestone : isMilestone tag = true := by
      cases kind <;> simp [isMilestone, hk]
    exact emptyTag_of_plain hk (plain milestone)
  · rfl
  · rfl

mutual

/-- The segments of a node have its markup. -/
theorem written_drafts : ∀ (n : Xml.Node) (first : Int),
    (∀ e ∈ walked n, isMilestone e.tag = true → PlainMilestone e) →
    written first (drafts n) = n.write
  | .text t, first, _ => by
    rw [drafts, written_runs, flatten_runs, Xml.Node.write_text]
  | .comment t, first, _ => by
    rw [drafts, written_cons]
    exact List.append_nil _
  | .reference name, first, _ => by
    rw [drafts, written_cons]
    exact List.append_nil _
  | .instruction, first, _ => rfl
  | .element tag ns, first, plain => by
    rw [walked] at plain
    have here := plain ⟨tag, ns⟩ List.mem_cons_self
    unfold drafts
    split
    · next d hd =>
      rw [written_cons, serialize_elementDraft hd here]
      exact List.append_nil _
    · next hd =>
      have inside : ∀ e ∈ walkedAll ns, isMilestone e.tag = true → PlainMilestone e := by
        intro e he
        refine plain e (List.mem_cons_of_mem _ ?_)
        rw [hd]
        exact he
      cases ns with
      | nil => exact List.append_nil _
      | cons n ns =>
        rw [if_neg (by simp), List.cons_append, written_cons, written_append,
          written_draftsAll (n :: ns) _ inside, written_cons, Xml.Node.write_element (by simp)]
        simp [Segment.serialize, written, numberFrom]

/-- The segments of nodes have their markup. -/
theorem written_draftsAll : ∀ (ns : List Xml.Node) (first : Int),
    (∀ e ∈ walkedAll ns, isMilestone e.tag = true → PlainMilestone e) →
    written first (draftsAll ns) = Xml.writeAll ns
  | [], _, _ => rfl
  | n :: ns, first, plain => by
    rw [walkedAll] at plain
    rw [draftsAll, written_append, Xml.writeAll,
      written_drafts n first fun e he => plain e (List.mem_append_left _ he),
      written_draftsAll ns _ fun e he => plain e (List.mem_append_right _ he)]

end

/-- **A body comes back as it was.** Where the milestones that the cut comes
to are plain, the segments are the markup of the content of the body, and so
is every reconstruction from text that was not edited. -/
theorem segments_verbatim (body : Element)
    (plain : ∀ e ∈ walkedAll body.children, isMilestone e.tag = true → PlainMilestone e) :
    (segments body).flatMap Segment.serialize = Xml.writeAll body.children
      ∧ (body.children ≠ [] →
          body.write = body.tag.opening ++ (segments body).flatMap Segment.serialize
            ++ body.tag.closing)
      ∧ ∀ (s : Settings) (a : Apparatus) (edited : Text) (limit : Int),
          Text.trim edited = Text.trim (Segment.toText (segments body)) →
          Patch.reconstruct s a (segments body) (Patch.compute (segments body) edited limit)
            = Xml.writeAll body.children := by
  have inner : (segments body).flatMap Segment.serialize = Xml.writeAll body.children :=
    written_draftsAll body.children 0 plain
  refine ⟨inner, fun hne => ?_, fun s a edited limit he => ?_⟩
  · rw [inner, Xml.Element.write, Xml.Node.write_element hne]
  · rw [Patch.compute_unedited he, Patch.reconstruct_keeps s a (nodup_segments body), inner]

/-- A line break in its form, another one inside a word that is not, and an
element between them whose text is blank. -/
theorem segments_verbatim_paragraph :
    let line : Tag := ⟨⟨[], "lb"⟩, [], [("ed", "A"), ("n", "2")], []⟩
    let inWord : Tag := ⟨⟨"x", "lb"⟩, [], [("n", "3"), ("ed", "A")], []⟩
    let tag (name : Text) : Tag := ⟨⟨[], name⟩, [], [], []⟩
    let body : Element := ⟨tag "body",
      [.element (tag "p") [.element line [], .element (tag "del") [.text " "], .text "a<b ",
        .element (tag "w") [.text "c", .element inWord [], .text "d"]]]⟩
    let markup : Text :=
      "<p><lb ed=\"A\" n=\"2\"/><del> </del>a&lt;b <w>c<x:lb n=\"3\" ed=\"A\"/>d</w></p>"
    (∀ e ∈ walkedAll body.children, isMilestone e.tag = true → PlainMilestone e)
      ∧ (segments body).flatMap Segment.serialize = markup := by
  intro line inWord tag body markup
  have plain : ∀ e ∈ walkedAll body.children, isMilestone e.tag = true → PlainMilestone e := by
    decide
  exact ⟨plain, (segments_verbatim body plain).1.trans (by decide)⟩

end Transcription.Import
