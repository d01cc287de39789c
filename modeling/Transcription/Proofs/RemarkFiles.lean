/-
Transcription.Proofs.RemarkFiles — remarks come back from their data values and
from the files they are written to.

What is written of a record are the slots of its fields, each a name with a value or
with nothing, less those with nothing (`present`). When the keys computed from the names
are distinct, every slot is found again under its key, also one with nothing
(`get?_present`). So each record needs its slots named once, and one lemma that says
that it is read from whatever members give its slots (`Gives`).

A provenance that says nothing is written as an empty object, which counts as not
given; that is the one thing that does not come back, and **`remarks_read_back`**
excludes it. From a file the remarks come back if their numbers do.
-/
import Mathlib.Data.List.Nodup
import Transcription.Proofs.ManifestFiles
import Transcription.Remark.Codec

namespace Transcription

/-! ## 1. Vocabularies -/

/-- A vocabulary whose terms are found by their words. -/
class LawfulVocabulary (α : Type) [Vocabulary α] : Prop where
  ofWord?_word : ∀ a : α, Vocabulary.ofWord? (Vocabulary.word a) = some a

namespace Remark

instance : LawfulVocabulary Topic := ⟨fun a => by cases a <;> decide⟩

instance : LawfulVocabulary Feature := ⟨fun a => by cases a <;> decide⟩

instance : LawfulVocabulary Aspect := ⟨fun a => by cases a <;> decide⟩

instance : LawfulVocabulary UnclearReason := ⟨fun a => by cases a <;> decide⟩

instance : LawfulVocabulary AddPlace := ⟨fun a => by cases a <;> decide⟩

instance : LawfulVocabulary AddKind := ⟨fun a => by cases a <;> decide⟩

instance : LawfulVocabulary DeletionManner := ⟨fun a => by cases a <;> decide⟩

instance : LawfulVocabulary SuppliedReason := ⟨fun a => by cases a <;> decide⟩

instance : LawfulVocabulary CharacterKind := ⟨fun a => by cases a <;> decide⟩

/-! ## 2. Slots -/

section

variable {slots : Slots} {members : Table Json} {name : Text} {value : Option Json}

/-- Slots with nothing drop out, the others keep their order. -/
theorem keys_present_sublist (slots : Slots) : (present slots).keys.Sublist (keysOf slots) := by
  induction slots with
  | nil => exact .slnil
  | cons slot slots ih =>
    obtain ⟨name, _ | value⟩ := slot
    · exact ih.cons (camel name)
    · exact ih.cons_cons (camel name)

/-- Every member that is written comes from a slot with a value. -/
theorem mem_present {key : Text} {value : Json} (h : (key, value) ∈ present slots) :
    ∃ name, camel name = key ∧ (name, some value) ∈ slots := by
  obtain ⟨⟨n, v⟩, hs, he⟩ := List.mem_filterMap.1 h
  obtain ⟨w, hw, same⟩ := Option.map_eq_some_iff.1 he
  cases same
  cases hw
  exact ⟨n, rfl, hs⟩

/-- Every slot is found under the key of its name. -/
theorem get?_present (distinct : (keysOf slots).Nodup) (h : (name, value) ∈ slots) :
    (present slots).get? (camel name) = value := by
  have once := distinct.sublist (keys_present_sublist slots)
  cases value with
  | some value => exact Table.get?_of_mem once (List.mem_filterMap.2 ⟨_, h, rfl⟩)
  | none =>
    refine Table.get?_of_not_mem fun held => ?_
    obtain ⟨⟨k, v⟩, hm, rfl⟩ := List.mem_map.1 held
    obtain ⟨other, key, hs⟩ := mem_present hm
    have same := List.inj_on_of_nodup_map distinct h hs key.symm
    cases same

/-- The members give these slots: null counts as nothing. -/
def Gives (members : Table Json) (slots : Slots) : Prop :=
  ∀ slot ∈ slots, given? members slot.1 = slot.2

theorem given?_of_get? (h : members.get? (camel name) = value) (shown : value ≠ some .null) :
    given? members name = value := by
  rw [given?, h]
  split
  · next hn => exact absurd rfl shown
  · rfl

/-- Slots with distinct keys, none of them null, are given back by what is written of
them. -/
theorem gives_present (distinct : (keysOf slots).Nodup)
    (shown : ∀ slot ∈ slots, slot.2 ≠ some .null) : Gives (present slots) slots :=
  fun slot hs => given?_of_get? (get?_present distinct hs) (shown slot hs)

/-- Distinct keys make an object that can be written to a file, if its values can. -/
theorem proper_present (distinct : (keysOf slots).Nodup)
    (proper : ∀ slot ∈ slots, ∀ j ∈ slot.2, j.Proper) : (Json.object (present slots)).Proper :=
  .object (distinct.sublist (keys_present_sublist slots)) fun _ hm =>
    have ⟨_, _, hs⟩ := mem_present hm
    proper _ hs _ rfl

/-! ## 3. Fields -/

theorem text?_eq {t : Option Text} (h : given? members name = t.map .string) :
    text? members name = .ok t := by
  rw [text?, optional, h]
  cases t <;> rfl

theorem int?_eq {n : Option Int} (h : given? members name = n.map .int) :
    int? members name = .ok n := by
  rw [int?, optional, h]
  cases n <;> rfl

theorem number?_eq {n : Option Number} (h : given? members name = n.map .number) :
    number? members name = .ok n := by
  rw [number?, optional, h]
  cases n <;> rfl

/-- A word is looked up as the term that it is written for. -/
theorem termOf_word {α : Type} [Vocabulary α] [LawfulVocabulary α] (a : α) :
    termOf α (.string (Vocabulary.word a)) = .ok a := by
  simp only [termOf, Json.asString?, Option.bind_some, LawfulVocabulary.ofWord?_word]

/-- A term that is not given is absent; one that is given must be of the vocabulary. -/
theorem term?_eq {α : Type} [Vocabulary α] [LawfulVocabulary α] {a : Option α}
    (h : given? members name = a.map wordValue) : term? α members name = .ok a := by
  rw [term?, h]
  cases a with
  | none => rfl
  | some a =>
    show some <$> termOf α (.string (Vocabulary.word a)) = _
    rw [termOf_word]
    rfl

end

/-! ## 4. Targets -/

/-- The slots of a target and one for its tag, whose key is its name. -/
def Target.allSlots (t : Target) : Slots :=
  ("type", some (.string t.tag)) :: t.slots

theorem Target.toJson_eq (t : Target) : t.toJson = .object (present t.allSlots) :=
  rfl

/-- The keys are those of the kind of target, and can be compared. -/
theorem Target.nodup_allSlots (t : Target) : (keysOf t.allSlots).Nodup := by
  cases t <;> simp only [keysOf, allSlots, slots, List.map_cons, List.map_nil] <;> decide

theorem Target.proper_toJson (t : Target) : t.toJson.Proper := by
  rw [toJson_eq]
  refine proper_present t.nodup_allSlots ?_
  cases t <;> simp [allSlots, slots, Json.Proper.string, Json.proper_int]

/-- One case for every kind of target. -/
theorem Target.ofJson_toJson (t : Target) : Target.ofJson t.toJson = .ok t := by
  cases t <;> rfl

/-! ## 5. Values -/

/-- An observation is read slot by slot, its aspect being the only one that must be given. -/
theorem Observation.ofMembers_eq {o : Observation} {members : Table Json}
    (h : Gives members o.slots) : ofMembers members = .ok o := by
  simp only [Gives, slots, List.forall_mem_cons] at h
  obtain ⟨aspect, unclear, place, addKind, hand, manner, supplied, resp, source, char, size,
    description, certainty, -⟩ := h
  rw [ofMembers, term?_eq (a := some o.aspect) aspect, term?_eq unclear, term?_eq place,
    term?_eq addKind, text?_eq hand, term?_eq manner, term?_eq supplied, text?_eq resp,
    text?_eq source, term?_eq char, int?_eq size, text?_eq description, number?_eq certainty]
  rfl

theorem customData_eq {members : Table Json} {data : Table Text}
    (h : given? members "data" = some (.ofTexts data)) : customData members = .ok data := by
  have texts := Json.texts_ofTexts data
  rw [Json.ofTexts] at h texts
  rw [customData, h]
  exact congrArg Except.ok texts

/-- Under the tag of its kind a value is read from its slots. -/
theorem Value.ofMembers?_kind {v : Value} {members : Table Json} (h : Gives members v.slots) :
    ofMembers? v.kind members = some (.ok v) := by
  cases v with
  | headword word msa normalized onpId =>
    simp only [Gives, slots, List.forall_mem_cons] at h
    obtain ⟨lemma', analysis, normal, onp, -⟩ := h
    show ofMembers? "lemma" members = _
    rw [ofMembers?, if_pos rfl, text?_eq (t := some word) lemma', text?_eq (t := some msa) analysis,
      text?_eq normal, text?_eq onp]
    rfl
  | semantic category subcategory identifier label =>
    simp only [Gives, slots, List.forall_mem_cons] at h
    obtain ⟨category', sub, identifier', label', -⟩ := h
    show ofMembers? "semantic" members = _
    rw [ofMembers?, if_neg (by decide), if_pos rfl, text?_eq (t := some category) category',
      text?_eq sub, text?_eq identifier', text?_eq label']
    rfl
  | note text category =>
    simp only [Gives, slots, List.forall_mem_cons] at h
    obtain ⟨text', category', -⟩ := h
    show ofMembers? "note" members = _
    rw [ofMembers?, if_neg (by decide), if_neg (by decide), if_pos rfl,
      text?_eq (t := some text) text', text?_eq category']
    rfl
  | paleographic feature description certainty =>
    simp only [Gives, slots, List.forall_mem_cons] at h
    obtain ⟨feature', description', certainty', -⟩ := h
    show ofMembers? "paleographic" members = _
    rw [ofMembers?]
    iterate 3 rw [if_neg (by decide)]
    rw [if_pos rfl, term?_eq (a := some feature) feature', text?_eq description',
      number?_eq certainty']
    rfl
  | syntactic role details =>
    simp only [Gives, slots, List.forall_mem_cons] at h
    obtain ⟨role', details', -⟩ := h
    show ofMembers? "syntax" members = _
    rw [ofMembers?]
    iterate 4 rw [if_neg (by decide)]
    rw [if_pos rfl, text?_eq (t := some role) role', text?_eq details']
    rfl
  | reference target refKind label =>
    simp only [Gives, slots, List.forall_mem_cons] at h
    obtain ⟨target', refKind', label', -⟩ := h
    show ofMembers? "reference" members = _
    rw [ofMembers?]
    iterate 5 rw [if_neg (by decide)]
    rw [if_pos rfl, text?_eq (t := some target) target', text?_eq (t := some refKind) refKind',
      text?_eq label']
    rfl
  | custom customKind data =>
    simp only [Gives, slots, List.forall_mem_cons] at h
    obtain ⟨customKind', data', -⟩ := h
    show ofMembers? "custom" members = _
    rw [ofMembers?]
    iterate 6 rw [if_neg (by decide)]
    rw [if_pos rfl, text?_eq (t := some customKind) customKind', customData_eq data']
    rfl
  | handbook o =>
    show ofMembers? "menota-paleographic" members = _
    rw [ofMembers?]
    iterate 7 rw [if_neg (by decide)]
    rw [if_pos rfl, Observation.ofMembers_eq h]
    rfl

/-- The slots of a value and one for its kind, whose key is its name. -/
def Value.allSlots (v : Value) : Slots :=
  ("kind", some (.string v.kind)) :: v.slots

theorem Value.toJson_eq (v : Value) : v.toJson = .object (present v.allSlots) :=
  rfl

/-- No two fields of a value have the same key, and none has that of the kind. -/
theorem Value.nodup_allSlots (v : Value) : (keysOf v.allSlots).Nodup := by
  cases v <;> simp only [keysOf, allSlots, slots, Observation.slots, List.map_cons, List.map_nil]
    <;> decide

/-- No slot of a value holds null, which would count as nothing. -/
theorem Value.shown_allSlots (v : Value) : ∀ slot ∈ v.allSlots, slot.2 ≠ some .null := by
  cases v <;> simp [allSlots, slots, Observation.slots, wordValue, Json.ofTexts, Json.int]

theorem Value.ofJson_toJson (v : Value) : Value.ofJson v.toJson = .ok v := by
  have gives := gives_present v.nodup_allSlots v.shown_allSlots
  have kind : (present v.allSlots).get? "kind" = some (.string v.kind) :=
    get?_present v.nodup_allSlots List.mem_cons_self
  have read := ofMembers?_kind fun slot hs => gives slot (List.mem_cons_of_mem _ hs)
  rw [toJson_eq, Value.ofJson]
  simp only [membersOf, Json.asObject?, bind, Except.bind, kind, Option.getD_some,
    Json.asString?, Option.bind_some, read]

/-! ## 6. Provenances -/

theorem Provenance.nodup_slots (p : Provenance) : (keysOf p.slots).Nodup := by
  simp only [keysOf, slots, List.map_cons, List.map_nil]
  decide

theorem Provenance.shown_slots (p : Provenance) : ∀ slot ∈ p.slots, slot.2 ≠ some .null := by
  simp [slots]

/-- A provenance as an object; that an empty one counts as not given is seen by its
remark. -/
theorem Provenance.ofJson_toJson (p : Provenance) : Provenance.ofJson p.toJson = .ok p := by
  have gives := gives_present p.nodup_slots p.shown_slots
  simp only [Gives, slots, List.forall_mem_cons] at gives
  obtain ⟨author, created, modified, confidence, source, note, -⟩ := gives
  show ofMembers (present p.slots) = _
  rw [ofMembers, slots, text?_eq author, text?_eq created, text?_eq modified,
    number?_eq confidence, text?_eq source, text?_eq note]
  rfl

/-- A provenance that says something counts as given. -/
theorem Provenance.isGiven_toJson {p : Provenance} (speaks : p ≠ silent) :
    p.toJson.isGiven = true := by
  by_contra quiet
  rw [toJson, Json.isGiven, Bool.not_eq_true, Bool.not_eq_false', List.isEmpty_iff] at quiet
  simp only [present, List.filterMap_eq_nil_iff, slots, List.forall_mem_cons,
    Option.map_eq_none_iff] at quiet
  obtain ⟨author, created, modified, confidence, source, note, -⟩ := quiet
  cases p
  simp_all [silent]

/-! ## 7. Remarks -/

/-- The slots of a remark, whose keys are their names. -/
def slots (r : Remark) : Slots :=
  [("id", some (.string r.id)), ("type", some (wordValue r.topic)),
    ("target", some r.target.toJson), ("value", some r.value.toJson),
    ("metadata", r.provenance.map Provenance.toJson)]

theorem toJson_eq (r : Remark) : r.toJson = .object (present r.slots) := by
  rw [toJson, slots]
  cases r.provenance <;> rfl

theorem nodup_slots (r : Remark) : (keysOf r.slots).Nodup := by
  simp only [keysOf, slots, List.map_cons, List.map_nil]
  decide

theorem key_eq {members : Table Json} {name : Text} {value : Json}
    (h : members.get? name = some value) : key members name = .ok value := by
  rw [key, h]

/-- A remark comes back from its data value, if its provenance says anything. -/
theorem ofJson_toJson {r : Remark} (speaks : r.provenance ≠ some .silent) :
    Remark.ofJson r.toJson = .ok r := by
  have found {name : Text} {value : Option Json} (h : (name, value) ∈ r.slots)
      (same : camel name = name) : (present r.slots).get? name = value := by
    simpa only [same] using get?_present r.nodup_slots h
  have id : key (present r.slots) "id" = .ok (.string r.id) :=
    key_eq (found (by simp [slots]) (by decide))
  have topic : key (present r.slots) "type" = .ok (wordValue r.topic) :=
    key_eq (found (by simp [slots]) (by decide))
  have target : key (present r.slots) "target" = .ok r.target.toJson :=
    key_eq (found (by simp [slots]) (by decide))
  have value : key (present r.slots) "value" = .ok r.value.toJson :=
    key_eq (found (by simp [slots]) (by decide))
  have provenance : (present r.slots).get? "metadata" = r.provenance.map Provenance.toJson :=
    found (by simp [slots]) (by decide)
  rw [toJson_eq, Remark.ofJson]
  simp only [membersOf, Json.asObject?, bind, Except.bind, id, topic, target, value, provenance,
    wordValue, termOf_word, Target.ofJson_toJson, Value.ofJson_toJson]
  cases given : r.provenance with
  | none =>
    rw [Option.map_none, Option.getD_none, if_neg (by decide)]
    show Except.ok { r with provenance := none } = _
    rw [← given]
  | some p =>
    have said : p ≠ .silent := fun silent => speaks (silent ▸ given)
    rw [Option.map_some, Option.getD_some, if_pos (Provenance.isGiven_toJson said),
      Provenance.ofJson_toJson]
    show Except.ok { r with provenance := some p } = _
    rw [← given]

/-! ## 8. Numbers and keys -/

/-- The free table of a value: that of a custom one. -/
def Value.table : Value → Table Text
  | .custom _ data => data
  | _ => []

/-- The numbers of a value. -/
def Value.numbers : Value → List Number
  | .paleographic _ _ certainty => certainty.toList
  | .handbook o => o.certainty.toList
  | _ => []

/-- The numbers of a remark. -/
def numbers (r : Remark) : List Number :=
  r.value.numbers ++ (r.provenance.bind Provenance.confidence).toList

/-- A value can be written to a file if its own table has distinct names and its numbers
read back. -/
theorem Value.proper_toJson {v : Value} (distinct : v.table.keys.Nodup)
    (carried : ∀ n ∈ v.numbers, Json.NumberReadsBack n) : v.toJson.Proper := by
  rw [toJson_eq]
  refine proper_present v.nodup_allSlots ?_
  cases v with
  | paleographic _ _ certainty | handbook o =>
    simp_all [allSlots, slots, Observation.slots, numbers, wordValue, Json.Proper.string,
      Json.proper_int, Json.Proper.number]
  | custom _ data =>
    have proper : (Json.ofTexts data).Proper := Json.proper_ofTexts distinct
    simp [allSlots, slots, Json.Proper.string, proper]
  | _ => simp [allSlots, slots, Json.Proper.string]

theorem Provenance.proper_toJson {p : Provenance}
    (carried : ∀ n ∈ p.confidence, Json.NumberReadsBack n) : p.toJson.Proper := by
  rw [toJson]
  refine proper_present p.nodup_slots ?_
  simp_all [slots, Json.Proper.string, Json.Proper.number]

/-- A remark can be written to a file if its value and its provenance can. -/
theorem proper_toJson {r : Remark} (distinct : r.value.table.keys.Nodup)
    (carried : ∀ n ∈ r.numbers, Json.NumberReadsBack n) : r.toJson.Proper := by
  have value : r.value.toJson.Proper :=
    Value.proper_toJson distinct fun n hn => carried n (List.mem_append_left _ hn)
  have provenance : ∀ p ∈ r.provenance, p.toJson.Proper := fun p hp =>
    Provenance.proper_toJson fun n hn =>
      carried n (List.mem_append_right _ (by simp_all))
  rw [toJson_eq]
  refine proper_present r.nodup_slots ?_
  simp_all [slots, wordValue, Json.Proper.string, Target.proper_toJson]

end Remark

/-! ## 9. Collections of remarks -/

/-- What comes back one by one comes back as a list. -/
theorem mapM_map_ok {α β ε : Type} {decode : β → Except ε α} {encode : α → β} {as : List α}
    (h : ∀ a ∈ as, decode (encode a) = .ok a) : (as.map encode).mapM decode = .ok as := by
  induction as with
  | nil => rfl
  | cons a as ih =>
    rw [List.map_cons, List.mapM_cons, h a List.mem_cons_self,
      ih fun b hb => h b (List.mem_cons_of_mem a hb)]
    rfl

namespace Remarks

theorem ofJson_toJson {rs : Remarks} (speaks : ∀ r ∈ rs.items, r.provenance ≠ some .silent) :
    ofJson rs.toJson = .ok rs := by
  have items : (rs.items.map Remark.toJson).mapM Remark.ofJson = .ok rs.items :=
    mapM_map_ok fun r hr => Remark.ofJson_toJson (speaks r hr)
  show (rs.items.map Remark.toJson).mapM Remark.ofJson >>= _ = _
  rw [items]
  rfl

theorem proper_toJson {rs : Remarks} (distinct : ∀ r ∈ rs.items, r.value.table.keys.Nodup)
    (carried : ∀ r ∈ rs.items, ∀ n ∈ r.numbers, Json.NumberReadsBack n) : rs.toJson.Proper := by
  have items : (Json.array (rs.items.map Remark.toJson)).Proper :=
    .array (List.forall_mem_map.2 fun r hr => Remark.proper_toJson (distinct r hr) (carried r hr))
  exact .object (by simp) (by simp [Json.Proper.string, items])

/-- **Remarks come back as they were**, in their order and with their version, from
their data value and from the text of a file, on one line or with any indent. No
provenance may be silent. For the text the keys of free tables are distinct, as the
members of an object are, and the numbers are ones that read back. -/
theorem remarks_read_back (rs : Remarks)
    (speaks : ∀ r ∈ rs.items, r.provenance ≠ some .silent) :
    ofJson rs.toJson = .ok rs
    ∧ ((∀ r ∈ rs.items, r.value.table.keys.Nodup) →
        (∀ r ∈ rs.items, ∀ n ∈ r.numbers, Json.NumberReadsBack n) →
        ∀ indent : Option Int, read? (rs.write indent) = some (.ok rs)) := by
  refine ⟨ofJson_toJson speaks, fun distinct carried indent => ?_⟩
  rw [read?, write, Json.read?_write (proper_toJson distinct carried), Option.map_some,
    ofJson_toJson speaks]

/-- Remarks of three kinds, one of them with a free table, empty texts among them. -/
def glosses : Remarks where
  version := ""
  items := [
    { id := "c\x221", topic := .note, target := .characters (-1) 0 7
      value := .custom "kind" [("type", "é\\"), ("", "")], provenance := none },
    { id := "p", topic := .paleographic, target := .span 2 1
      value := .handbook ⟨.addition, none, some .marginLeft, some .gloss, some "", none, none,
        none, none, none, some (-3), none, some (.integer 1)⟩
      provenance := some ⟨none, none, none, some (.integer (-2)), none, some "\x01"⟩ },
    { id := "", topic := .headword, target := .word 3
      value := .headword "konungr" "xNC" none (some ""), provenance := none }]

theorem glosses_read_back :
    (∀ r ∈ glosses.items, r.provenance ≠ some .silent)
    ∧ (∀ r ∈ glosses.items, r.value.table.keys.Nodup)
    ∧ (∀ r ∈ glosses.items, ∀ n ∈ r.numbers, Json.NumberReadsBack n)
    ∧ ofJson glosses.toJson = .ok glosses
    ∧ read? (glosses.write (some (-1))) = some (.ok glosses)
    ∧ read? (glosses.write none) = some (.ok glosses) := by
  have speaks : ∀ r ∈ glosses.items, r.provenance ≠ some .silent := by decide
  have distinct : ∀ r ∈ glosses.items, r.value.table.keys.Nodup := by decide
  have carried : ∀ r ∈ glosses.items, ∀ n ∈ r.numbers, Json.NumberReadsBack n := by
    simp [glosses, Remark.numbers, Remark.Value.numbers, Json.readsBack_integer]
  have fromText := (remarks_read_back glosses speaks).2 distinct carried
  exact ⟨speaks, distinct, carried, (remarks_read_back glosses speaks).1, fromText _, fromText _⟩

end Remarks

end Transcription
