/-
Transcription.Proofs.NormalizedReading — the normalized reading is the diplomatic reading of
another word.

Both readings go through the kinds of nodes on their own. They differ in that the normalized one
puts texts through the substitutions of the dictionary before they are escaped, and closes the
joints of compounds. Both can be done to the word beforehand (`normalizedWord`): a named
character that is resolved becomes the text of its substituted letters, and one that is not
resolved stays a reference.

The reading of a gap is the one place where it counts whether a text is empty: the diplomatic
level of the word beforehand would leave out a reading that the substitutions have made empty,
the normalized level shows an empty element. It takes a dictionary that puts something in the
place of every character (`Dictionary.Substantial`) for the two to be the same
(`normalizedOf_eq`).

**`normalized_eq_diplomatic`** is the statement about whole words.
-/
import Transcription.Edition.Reading

namespace Transcription

/-! ## 1. Substitutions -/

namespace Dictionary

variable {d : Dictionary}

/-- No substitution makes a character vanish. -/
structure Substantial (d : Dictionary) : Prop where
  characters : ∀ entry ∈ d.characters, entry.2 ≠ []
  ligatures : ∀ entry ∈ d.ligatures, entry.2 ≠ []

instance (d : Dictionary) : Decidable d.Substantial :=
  decidable_of_iff ((∀ entry ∈ d.characters, entry.2 ≠ []) ∧ ∀ entry ∈ d.ligatures, entry.2 ≠ [])
    ⟨fun h => ⟨h.1, h.2⟩, fun h => ⟨h.characters, h.ligatures⟩⟩

theorem Substantial.normalizeChar_ne_nil (h : d.Substantial) {c value : Text}
    (hc : d.normalizeChar c = some value) : value ≠ [] := by
  rcases Option.or_eq_some_iff.1 hc with found | ⟨-, found⟩
  · exact h.characters _ (Table.mem_of_get? found)
  · exact h.ligatures _ (Table.mem_of_get? found)

/-- A text with something in it keeps something. -/
theorem Substantial.normalize_ne_nil (h : d.Substantial) {t : Text} (ht : t ≠ []) :
    d.normalize t ≠ [] := by
  obtain ⟨c, t, rfl⟩ := List.exists_cons_of_ne_nil ht
  have first : (d.normalizeChar [c]).getD [c] ≠ [] := by
    cases hc : d.normalizeChar [c] with
    | none => simp
    | some value => exact h.normalizeChar_ne_nil hc
  rw [normalize_eq, List.flatMap_cons]
  exact List.append_ne_nil_of_left_ne_nil first _

end Dictionary

/-! ## 2. The word beforehand -/

namespace Apparatus

variable {a : Apparatus}

/-- A node with the substitutions of the normalized level made: nothing for a joint, the letters
for a named character that is resolved. -/
def normalizedNode (a : Apparatus) : Node → Option Node
  | .compoundJoin => none
  | .entity name => some (((a.resolved name).map fun letters => .text (a.normalize letters)).getD
      (.entity name))
  | .text content => some (.text (a.normalize content))
  | .abbreviation abbr expansion => some (.abbreviation abbr (a.normalize expansion))
  | .gap quantity reading => some (.gap quantity (reading.map a.normalize))
  | .marked mark content => some (.marked mark (a.normalize content))
  | n => some n

/-- A word with the substitutions of the normalized level made. -/
def normalizedWord (a : Apparatus) (ns : List Node) : List Node :=
  ns.filterMap a.normalizedNode

theorem normalize_ne_nil (h : ∀ d ∈ a.dictionary, d.Substantial) {t : Text} (ht : t ≠ []) :
    a.normalize t ≠ [] := by
  unfold normalize
  split
  · exact ht
  · next d hd => exact (h d hd).normalize_ne_nil ht

/-! ## 3. Readings -/

theorem normalizedOf_gap (h : ∀ d ∈ a.dictionary, d.Substantial) (quantity : Option Nat)
    (reading : Option Text) :
    a.normalizedOf (.gap quantity reading) = gapReading (reading.map a.normalize) := by
  cases reading with
  | none => rfl
  | some t =>
    by_cases ht : t = []
    · have none_left : a.normalize [] = [] := by
        unfold normalize
        split <;> rfl
      subst ht
      show [] = gapReading (some (a.normalize []))
      rw [none_left]
      rfl
    · show (if t.isEmpty then [] else _) = if (a.normalize t).isEmpty then [] else _
      rw [if_neg (by simpa using ht), if_neg (by simpa using normalize_ne_nil h ht)]

/-- One node at the normalized level is at most one node at the diplomatic level. -/
theorem normalizedOf_eq (h : ∀ d ∈ a.dictionary, d.Substantial) (n : Node) :
    a.normalizedOf n = a.diplomatic (a.normalizedNode n).toList := by
  cases n with
  | gap quantity reading =>
    rw [normalizedOf_gap h]
    exact (List.append_nil _).symm
  | entity name =>
    simp only [normalizedOf, normalizedNode, diplomatic, Option.toList_some, List.flatMap_singleton]
    cases hr : a.resolved name with
    | none => simp [diplomaticOf, hr]
    | some letters => rfl
  | compoundJoin => rfl
  | _ => exact (List.append_nil _).symm

/-- **The normalized level is the diplomatic level of the normalized word**, for a dictionary
that makes no character vanish; and a text is normalized one character at a time, to its
substitution if there is one, by the table of characters before that of ligatures. -/
theorem normalized_eq_diplomatic (a : Apparatus) (h : ∀ d ∈ a.dictionary, d.Substantial)
    (ns : List Node) :
    a.normalized ns = a.diplomatic (a.normalizedWord ns)
      ∧ ∀ (d : Dictionary) (t : Text),
        d.normalize t = (t.map fun c => (d.normalizeChar [c]).getD [c]).flatten
          ∧ ∀ c, (d.normalizeChar c).getD c
              = (d.characters.get? c).getD ((d.ligatures.get? c).getD c) := by
  refine ⟨?_, fun d t => ⟨(d.normalize_eq t).trans List.flatMap_def, d.getD_normalizeChar⟩⟩
  induction ns with
  | nil => rfl
  | cons n ns ih =>
    have parts : a.normalizedWord (n :: ns)
        = (a.normalizedNode n).toList ++ a.normalizedWord ns := by
      unfold normalizedWord
      rw [List.filterMap_cons]
      cases a.normalizedNode n <;> rfl
    calc a.normalized (n :: ns)
        = a.normalizedOf n ++ a.normalized ns := List.flatMap_cons ..
      _ = a.diplomatic (a.normalizedNode n).toList ++ a.diplomatic (a.normalizedWord ns) := by
          rw [normalizedOf_eq h, ih]
      _ = a.diplomatic (a.normalizedWord (n :: ns)) := by
          rw [parts, diplomatic, diplomatic, diplomatic, List.flatMap_append]

/-- Substituted, resolved, dropped and reduced characters, and one that stays a reference. -/
theorem normalized_eq_diplomatic_compound :
    let d := Dictionary.ofParts ["acute"] [("ð", "d"), ("æ", "ä")] [("æ", "ae"), ("ꝥ", "þat")]
      [("rrot", "ꝥ")]
    let a : Apparatus :=
      { Apparatus.empty with
        registry := Registry.empty.add "amp" ⟨[], "&æ", [], []⟩, dictionary := some d }
    let word : List Node :=
      [.text "ð", .compoundJoin, .entity "amp", .entity "acute", .entity "rrot", .entity "x",
        .gap (some 2) (some "æ"), .lineBreak none]
    (∀ d ∈ a.dictionary, d.Substantial)
      ∧ a.normalized word = a.diplomatic (a.normalizedWord word)
      ∧ a.normalizedWord word
        = [.text "d", .text "&ä", .text [], .text "þat", .entity "x", .gap (some 2) (some "ä"),
          .lineBreak none]
      ∧ a.normalized word = "d&amp;äþat&x;<supplied>ä</supplied>" := by
  intro d a word
  have substantial : ∀ d ∈ a.dictionary, d.Substantial := by
    rintro _ ⟨⟩
    decide +kernel
  have same := (normalized_eq_diplomatic a substantial word).1
  refine ⟨substantial, same, rfl, same.trans ?_⟩
  decide +kernel

/-- A reading that the substitutions make empty is an empty element, and would be left out of the
word beforehand. -/
example :
    let a : Apparatus :=
      { Apparatus.empty with dictionary := some (.ofParts [] [("x", "")] [] []) }
    a.normalized [.gap none (some "x")] = "<supplied></supplied>"
      ∧ a.diplomatic (a.normalizedWord [.gap none (some "x")]) = [] := by
  decide +kernel

end Apparatus

end Transcription
