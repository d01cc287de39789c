/-
Transcription.Proofs.ManifestFiles — manifests, segments and operations come back
from the files they are written to.

A file names the members of every object in the order of their names. A record does
not depend on that order: each field is looked up by its name (`ofJson_perm`), and the
names of a kind are distinct from each other and from those for the kind and for the
carried records. So whatever record has the fields of its kind comes back with the
objects in its fields put in order (`read_write`).

The only such objects are the attributes of segments. They come back with the same
entries, in the order of their names: **`files_read_back`** is equality up to
`Segment.Alike`.
-/
import Mathlib.Data.List.Forall2
import Transcription.Manifest.Basic
import Transcription.Proofs.WrittenJson

namespace Transcription

/-! ## 1. Tables in another order -/

namespace Table

variable {α : Type} {a b : Table α} {key : Text} {value : α}

/-- With each key once, an entry is what its key is looked up as. -/
theorem get?_of_mem (distinct : a.keys.Nodup) (h : (key, value) ∈ a) : a.get? key = some value := by
  induction a with
  | nil => cases h
  | cons entry a ih =>
    obtain ⟨k, v⟩ := entry
    obtain ⟨fresh, distinct⟩ := List.nodup_cons.1 distinct
    rw [get?, List.lookup_cons]
    rcases List.mem_cons.1 h with same | h
    · injection same with hk hv
      rw [hk, hv, beq_self_eq_true]
    · have other : key ≠ k := fun hk => fresh (List.mem_map.2 ⟨(key, value), h, hk⟩)
      rw [beq_false_of_ne other]
      exact ih distinct h

theorem get?_of_not_mem (h : key ∉ a.keys) : a.get? key = none :=
  List.lookup_eq_none_iff.2 fun entry he =>
    bne_iff_ne.2 fun hk => h (List.mem_map.2 ⟨entry, he, hk.symm⟩)

theorem keys_perm (h : a.Perm b) : a.keys.Perm b.keys :=
  h.map _

/-- A table with distinct keys holds the same values in any order. -/
theorem get?_perm (h : a.Perm b) (distinct : a.keys.Nodup) (key : Text) :
    a.get? key = b.get? key := by
  by_cases hk : key ∈ a.keys
  · obtain ⟨entry, he, rfl⟩ := List.mem_map.1 hk
    rw [get?_of_mem distinct he,
      get?_of_mem ((keys_perm h).nodup_iff.1 distinct) (h.mem_iff.1 he)]
  · rw [get?_of_not_mem hk, get?_of_not_mem (mt (keys_perm h).mem_iff.2 hk)]

/-- Sorting brings entries into order and changes none. -/
theorem sorted_perm (table : Table α) : table.sorted.Perm table :=
  List.mergeSort_perm ..

end Table

/-! ## 2. Objects with their members in order -/

namespace Json

variable {j : Json}

/-- Sorting goes into every item. -/
theorem sortedItems_eq (items : List Json) : sortedItems items = items.map sorted := by
  induction items with
  | nil => rfl
  | cons item items ih => rw [sortedItems, ih, List.map_cons]

theorem sortedMembers_eq (members : Table Json) :
    sortedMembers members = members.map fun m => (m.1, m.2.sorted) := by
  induction members with
  | nil => rfl
  | cons m members ih => rw [sortedMembers, ih, List.map_cons]

theorem keys_sortedMembers (members : Table Json) :
    Table.keys (sortedMembers members) = Table.keys members := by
  rw [sortedMembers_eq, Table.keys, List.map_map]
  rfl

/-- Sorted by its keys, a value can be written to a file as before. -/
theorem Proper.sorted (h : Proper j) : Proper j.sorted := by
  induction h with
  | null => exact .null
  | bool => exact .bool
  | number h => exact .number h
  | string => exact .string
  | @array items _ ih =>
    rw [Json.sorted, sortedItems_eq]
    exact .array (List.forall_mem_map.2 ih)
  | @object members distinct _ ih =>
    have reordered := Table.sorted_perm (sortedMembers members)
    rw [Json.sorted]
    refine .object ((Table.keys_perm reordered).nodup_iff.2 ?_) fun m hm => ?_
    · rw [keys_sortedMembers]
      exact distinct
    · rw [reordered.mem_iff, sortedMembers_eq] at hm
      obtain ⟨member, inside, rfl⟩ := List.mem_map.1 hm
      exact ih member inside

theorem keys_ofTexts (table : Table Text) :
    (table.map fun (key, value) => (key, Json.string value)).map Prod.fst = table.keys :=
  List.map_map ..

theorem proper_ofTexts {table : Table Text} (distinct : table.keys.Nodup) :
    Proper (ofTexts table) :=
  .object (keys_ofTexts table ▸ distinct) (List.forall_mem_map.2 fun _ _ => .string)

/-- A table of texts comes back from its object. -/
@[simp] theorem texts_ofTexts (table : Table Text) : texts (ofTexts table) = table := by
  rw [ofTexts, texts, List.filterMap_map]
  exact List.filterMap_some

/-- The texts of a table are put in order with it. -/
theorem sorted_ofTexts (table : Table Text) : (ofTexts table).sorted = ofTexts table.sorted := by
  have inner : sortedMembers (table.map fun (key, value) => (key, string value))
      = table.map fun (key, value) => (key, string value) := by
    rw [sortedMembers_eq, List.map_map]
    rfl
  rw [ofTexts, sorted, inner, ofTexts, Table.sorted, Table.sorted, List.map_mergeSort]
  exact fun _ _ _ _ => rfl

end Json

/-! ## 3. Records -/

namespace RecordKind

/-- Every kind of record is found by its name. -/
theorem ofName?_name (kind : RecordKind) : ofName? kind.name = some kind := by
  cases kind <;> decide

/-- The names for the kind and for what is carried are names of no field. -/
theorem nodup_names (kind : RecordKind) :
    ("_type" :: "segments" :: kind.fields.map Prod.fst : List Text).Nodup := by
  cases kind <;> decide

end RecordKind

namespace Record

variable {kind : RecordKind} {fields members : Table Json} {items : List Json} {r : Record}
  {rs : List Record}

mutual

/-- A record with the objects in its fields in order. -/
def sorted : Record → Record
  | .mk kind fields segments => .mk kind (Json.sortedMembers fields) (sortedAll segments)

/-- Each record with the objects in its fields in order. -/
def sortedAll : List Record → List Record
  | [] => []
  | r :: rs => sorted r :: sortedAll rs

end

/-- A record that a file can hold: it has the fields of its kind, with values that a
text can hold, and only a manifest carries records. -/
inductive Proper : Record → Prop where
  | mk {kind : RecordKind} {fields : Table Json} {segments : List Record} :
      fields.keys = kind.fields.map Prod.fst → (∀ field ∈ fields, field.2.Proper) →
      (kind ≠ .manifest → segments = []) → (∀ r ∈ segments, Proper r) →
      Proper (.mk kind fields segments)

theorem kindOf_name (kind : RecordKind) : kindOf (.string kind.name) = .ok kind := by
  rw [kindOf, RecordKind.ofName?_name]

/-- Fields that are all there are taken with their values, whatever else is there. -/
theorem takeFields_of_get? {names : List (Text × Option Json)}
    (named : fields.keys = names.map Prod.fst)
    (found : ∀ field ∈ fields, Table.get? members field.1 = some field.2) :
    takeFields members names = (fields, []) := by
  induction names generalizing fields with
  | nil => rw [takeFields, List.map_eq_nil_iff.1 named]
  | cons spec names ih =>
    obtain ⟨name, fallback⟩ := spec
    obtain ⟨field, fields, rfl⟩ := List.exists_cons_of_ne_nil
      (l := fields) (by rintro rfl; cases named)
    obtain ⟨rfl, others⟩ : field.1 = name ∧ Table.keys fields = names.map Prod.fst :=
      List.cons.inj named
    obtain ⟨here, found⟩ := List.forall_mem_cons.1 found
    rw [takeFields, ih others found]
    simp only [here, Option.some_or]

theorem carriedBy_eq (kind : RecordKind) (members : Table Json) :
    carriedBy kind members = (Table.get? members "segments").map fun
      | .array items => ofJsons items
      | _ => .error (.segmentsNotAList kind) := by
  induction members with
  | nil => rfl
  | cons member members ih =>
    obtain ⟨key, value⟩ := member
    by_cases h : key = ("segments" : Text)
    · cases value <;> simp [carriedBy, Table.get?, h]
    · have other : (("segments" : Text) == key) = false := beq_false_of_ne (Ne.symm h)
      rw [Table.get?, List.lookup_cons, other]
      cases value <;> rw [carriedBy, if_neg h, ih, Table.get?] <;> exact fun _ he => by cases he

/-- The members of the object for a record. -/
def membersOf (kind : RecordKind) (items : List Json) (fields : Table Json) : Table Json :=
  ("_type", .string kind.name)
    :: if kind = .manifest then ("segments", .array items) :: fields else fields

/-- The keys of a record, its type and its segments among them, are told apart. -/
theorem nodup_membersOf (named : fields.keys = kind.fields.map Prod.fst) (items : List Json) :
    (membersOf kind items fields).keys.Nodup := by
  have all : (Table.keys (("_type", Json.null) :: ("segments", .array items) :: fields)).Nodup := by
    have h := RecordKind.nodup_names kind
    rw [← named] at h
    exact h
  refine all.sublist (List.Sublist.cons_cons _ ?_)
  split
  · exact .refl _
  · exact List.sublist_cons_self ..

theorem subset_membersOf (kind : RecordKind) (items : List Json) (fields : Table Json) :
    fields ⊆ membersOf kind items fields := by
  intro field hf
  refine List.mem_cons_of_mem _ ?_
  split
  · exact List.mem_cons_of_mem _ hf
  · exact hf

/-- A record is read whatever the order of its members, if what it carries is read. -/
theorem ofJson_perm (named : fields.keys = kind.fields.map Prod.fst)
    (h : members.Perm (membersOf kind items fields))
    (carried : kind = .manifest → ofJsons items = .ok rs)
    (only : kind ≠ .manifest → rs = []) :
    ofJson (.object members) = .ok (.mk kind fields rs) := by
  have distinct := nodup_membersOf named items
  have found (key : Text) := Table.get?_perm h ((Table.keys_perm h).nodup_iff.2 distinct) key
  have typed : Table.get? members "_type" = some (.string kind.name) := by
    rw [found]
    rfl
  have held : ∀ field ∈ fields, Table.get? members field.1 = some field.2 := fun field hf => by
    rw [found]
    exact Table.get?_of_mem distinct (subset_membersOf kind items fields hf)
  rw [ofJson, typed, Option.getD_some, kindOf_name]
  show build kind members (carriedBy kind members) = _
  rw [build, takeFields_of_get? named held]
  by_cases manifest : kind = .manifest
  · have listed : Table.get? members "segments" = some (.array items) := by
      rw [found, membersOf, if_pos manifest]
      rfl
    rw [carriedBy_eq, listed]
    simp only [if_pos manifest, Option.map_some, carried manifest]
    rfl
  · simp only [if_neg manifest, only manifest]
    rfl

theorem toJson_eq (kind : RecordKind) (fields : Table Json) (rs : List Record) :
    toJson (.mk kind fields rs) = .object (membersOf kind (toJsons rs) fields) := by
  rw [toJson, membersOf]

theorem toJsons_eq (rs : List Record) : toJsons rs = rs.map toJson := by
  induction rs with
  | nil => rfl
  | cons r rs ih => rw [toJsons, ih, List.map_cons]

theorem sortedAll_eq (rs : List Record) : sortedAll rs = rs.map sorted := by
  induction rs with
  | nil => rfl
  | cons r rs ih => rw [sortedAll, ih, List.map_cons]

/-- A record whose fields can be written can be written. -/
theorem proper_toJson (h : Proper r) : r.toJson.Proper := by
  induction h with
  | @mk kind fields segments named values _ _ ih =>
    rw [toJson_eq]
    refine .object (nodup_membersOf named _) (List.forall_mem_cons.2 ⟨.string, ?_⟩)
    split
    · refine List.forall_mem_cons.2 ⟨.array ?_, values⟩
      rw [toJsons_eq]
      exact List.forall_mem_map.2 ih
    · exact values

/-- Sorting the object of a record is sorting its fields. -/
theorem sortedMembers_membersOf (kind : RecordKind) (items : List Json) (fields : Table Json) :
    Json.sortedMembers (membersOf kind items fields)
      = membersOf kind (Json.sortedItems items) (Json.sortedMembers fields) := by
  simp only [membersOf, Json.sortedMembers, Json.sorted]
  split
  · simp only [Json.sortedMembers, Json.sorted]
  · rfl

/-- What comes back one by one comes back as a list. -/
theorem ofJsons_map (h : ∀ r ∈ rs, ofJson r.toJson.sorted = .ok r.sorted) :
    ofJsons (Json.sortedItems (toJsons rs)) = .ok (sortedAll rs) := by
  induction rs with
  | nil => rfl
  | cons r rs ih =>
    obtain ⟨here, rest⟩ := List.forall_mem_cons.1 h
    rw [toJsons, Json.sortedItems, ofJsons, here, ih rest]
    rfl

theorem ofJson_toJson (h : Proper r) : ofJson r.toJson.sorted = .ok r.sorted := by
  induction h with
  | @mk kind fields segments named _ only _ ih =>
    rw [toJson_eq, Json.sorted, sortedMembers_membersOf, sorted]
    refine ofJson_perm ?_ (Table.sorted_perm _) (fun _ => ofJsons_map ih) fun plain => ?_
    · rw [Json.keys_sortedMembers, named]
    · rw [only plain, sortedAll]

/-- A record comes back from its file with the objects in its fields in order. -/
theorem read_write (h : Proper r) (indent : Option Nat) : read (r.write indent) = .ok r.sorted := by
  rw [read, write, Json.read?_write (proper_toJson h).sorted indent]
  exact ofJson_toJson h

/-- A list of operations comes back, as each of them is one. -/
theorem patchesOf_toJsons (h : ∀ r ∈ rs, Proper r ∧ r.kind.isPatch = true) :
    patchesOf (Json.sortedItems (toJsons rs)) = .ok (sortedAll rs) := by
  induction rs with
  | nil => rfl
  | cons r rs ih =>
    obtain ⟨⟨proper, patch⟩, rest⟩ := List.forall_mem_cons.1 h
    have same : r.sorted.kind.isPatch = true := by
      cases r
      exact patch
    rw [toJsons, Json.sortedItems, patchesOf, ofJson_toJson proper]
    show (if r.sorted.kind.isPatch = true then _ else _) = _
    rw [if_pos same, ih rest]
    rfl

/-- A list of operations comes back from its file. -/
theorem readPatches_writeAll (h : ∀ r ∈ rs, Proper r ∧ r.kind.isPatch = true)
    (indent : Option Nat) : readPatches (writeAll indent rs) = .ok (sortedAll rs) := by
  have proper : (Json.array (toJsons rs)).Proper := by
    rw [toJsons_eq]
    exact .array (List.forall_mem_map.2 fun r hr => proper_toJson (h r hr).1)
  have read := Json.read?_write proper.sorted indent
  rw [readPatches, writeAll, read, Json.sorted]
  exact patchesOf_toJsons h

end Record

/-! ## 4. Segments, operations and manifests -/

/-- The attributes that a segment keeps. -/
def Segment.attributes : Segment → Table Text
  | .word _ _ _ attrs _ | .milestone _ _ attrs => attrs
  | _ => []

/-- The same segment, its attributes in any order. -/
inductive Segment.Alike : Segment → Segment → Prop where
  | structural {id : Int} {xml : Text} : Alike (.structural id xml) (.structural id xml)
  | word {id : Int} {xml dsl : Text} {attrs others : Table Text} {breaksLine : Bool} :
      attrs.Perm others →
        Alike (.word id xml dsl attrs breaksLine) (.word id xml dsl others breaksLine)
  | punctuation {id : Int} {xml dsl : Text} :
      Alike (.punctuation id xml dsl) (.punctuation id xml dsl)
  | milestone {kind : Milestone} {id : Int} {attrs others : Table Text} :
      attrs.Perm others → Alike (.milestone kind id attrs) (.milestone kind id others)
  | whitespace {id : Int} {content : Text} : Alike (.whitespace id content) (.whitespace id content)

/-- The same manifest, the attributes of its segments in any order. -/
structure Manifest.Alike (m n : Manifest) : Prop where
  segments : List.Forall₂ Segment.Alike m.segments n.segments
  isMultilevel : m.isMultilevel = n.isMultilevel
  preamble : m.preamble = n.preamble
  bodyOpenTag : m.bodyOpenTag = n.bodyOpenTag
  postamble : m.postamble = n.postamble

/-- The segment with its attributes in the order of their names. -/
def Segment.sorted : Segment → Segment
  | .word id xml dsl attrs breaksLine => .word id xml dsl attrs.sorted breaksLine
  | .milestone kind id attrs => .milestone kind id attrs.sorted
  | s => s

/-- Sorting the attributes of a segment changes none of them. -/
theorem Segment.sorted_alike (s : Segment) : s.sorted.Alike s := by
  cases s with
  | structural => exact .structural
  | word => exact .word (Table.sorted_perm _)
  | punctuation => exact .punctuation
  | milestone => exact .milestone (Table.sorted_perm _)
  | whitespace => exact .whitespace

/-- A segment whose attributes are distinct can be held by a file. -/
theorem Segment.proper_toRecord {s : Segment} (distinct : s.attributes.keys.Nodup) :
    s.toRecord.Proper := by
  have plain {kind : RecordKind} {fields : Table Json}
      (named : fields.keys = kind.fields.map Prod.fst) (values : ∀ f ∈ fields, f.2.Proper) :
      (Record.plain kind fields).Proper :=
    .mk named values (fun _ => rfl) nofun
  cases s with
  | structural id xml =>
    exact plain rfl (by simp [Json.proper_int, Json.Proper.string])
  | word id xml dsl attrs breaksLine =>
    have held : (Json.ofTexts attrs).Proper := Json.proper_ofTexts distinct
    exact plain rfl (by simp [Json.proper_int, Json.Proper.string, Json.Proper.bool, held])
  | punctuation id xml dsl =>
    exact plain rfl (by simp [Json.proper_int, Json.Proper.string])
  | milestone kind id attrs =>
    have held : (Json.ofTexts attrs).Proper := Json.proper_ofTexts distinct
    refine plain ?_ (by simp [Json.proper_int, held])
    cases kind <;> rfl
  | whitespace id content =>
    exact plain rfl (by simp [Json.proper_int, Json.Proper.string])

theorem Segment.ofRecord?_sorted (s : Segment) : ofRecord? s.toRecord.sorted = some s.sorted := by
  cases s with
  | structural | punctuation | whitespace => rfl
  | word id xml dsl attrs breaksLine =>
    show ofRecord? (.mk .word [("id", .int id), ("original_xml", .string xml), ("dsl", .string dsl),
      ("attributes", (Json.ofTexts attrs).sorted), ("has_inline_lb", .bool breaksLine)] []) = _
    rw [Json.sorted_ofTexts]
    show some (word id xml dsl (Json.texts (Json.ofTexts attrs.sorted)) breaksLine) = _
    rw [Json.texts_ofTexts, sorted]
  | milestone kind id attrs =>
    show ofRecord? (.mk kind.recordKind [("id", .int id),
      ("attributes", (Json.ofTexts attrs).sorted)] []) = _
    rw [Json.sorted_ofTexts]
    have read : ofRecord? (.mk kind.recordKind [("id", .int id),
        ("attributes", Json.ofTexts attrs.sorted)] [])
        = some (milestone kind id (Json.texts (Json.ofTexts attrs.sorted))) := by
      cases kind <;> rfl
    rw [read, Json.texts_ofTexts, sorted]

theorem Patch.proper_toRecord (p : Patch) : p.toRecord.Proper ∧ p.toRecord.kind.isPatch = true := by
  cases p <;>
    exact ⟨.mk rfl (by simp [Json.proper_int, Json.Proper.string]) (fun _ => rfl) nofun, rfl⟩

theorem Patch.ofRecord?_sorted (p : Patch) : ofRecord? p.toRecord.sorted = some p := by
  cases p <;> rfl

theorem Manifest.proper_toRecord {m : Manifest}
    (distinct : ∀ s ∈ m.segments, s.attributes.keys.Nodup) : m.toRecord.Proper :=
  .mk rfl (by simp [Json.Proper.string, Json.Proper.bool]) (fun plain => absurd rfl plain)
    (List.forall_mem_map.2 fun s hs => Segment.proper_toRecord (distinct s hs))

/-- When each member of a list is decoded, the whole list is. -/
theorem mapM_map {α β γ : Type} {decode : β → Option γ} {encode : α → β} {norm : α → γ}
    (h : ∀ a, decode (encode a) = some (norm a)) (as : List α) :
    (as.map encode).mapM decode = some (as.map norm) := by
  induction as with
  | nil => rfl
  | cons a as ih =>
    rw [List.map_cons, List.mapM_cons, h, ih]
    rfl

theorem Manifest.ofRecord?_sorted (m : Manifest) :
    ofRecord? m.toRecord.sorted = some { m with segments := m.segments.map Segment.sorted } := by
  have carried : (Record.sortedAll (m.segments.map Segment.toRecord)).mapM Segment.ofRecord?
      = some (m.segments.map Segment.sorted) := by
    rw [Record.sortedAll_eq, List.map_map]
    exact mapM_map Segment.ofRecord?_sorted m.segments
  show ((Record.sortedAll (m.segments.map Segment.toRecord)).mapM Segment.ofRecord?).bind _ = _
  rw [carried]
  rfl

/-- **What is written to a file is read back from it**, on one line and with any indent:
a segment and a manifest up to the order of attributes, an operation and a list of
operations as they were. Attributes are distinct, as the members of an object are. -/
theorem files_read_back (indent : Option Nat) :
    (∀ s : Segment, s.attributes.keys.Nodup →
      ∃ r t, Record.read (s.toRecord.write indent) = .ok r
        ∧ Segment.ofRecord? r = some t ∧ t.Alike s)
    ∧ (∀ p : Patch, ∃ r, Record.read (p.toRecord.write indent) = .ok r
        ∧ Patch.ofRecord? r = some p)
    ∧ (∀ m : Manifest, (∀ s ∈ m.segments, s.attributes.keys.Nodup) →
      ∃ n, Manifest.read? (m.write indent) = some n ∧ n.Alike m)
    ∧ (∀ ps : List Patch, ∃ rs,
      Record.readPatches (Record.writeAll indent (ps.map Patch.toRecord)) = .ok rs
        ∧ rs.mapM Patch.ofRecord? = some ps) := by
  refine ⟨fun s distinct => ?segment, fun p => ?operation, fun m distinct => ?manifest,
    fun ps => ?operations⟩
  case segment =>
    have proper := Segment.proper_toRecord distinct
    exact ⟨_, _, Record.read_write proper indent, s.ofRecord?_sorted, s.sorted_alike⟩
  case operation =>
    exact ⟨_, Record.read_write p.proper_toRecord.1 indent, p.ofRecord?_sorted⟩
  case manifest =>
    have alike : List.Forall₂ Segment.Alike (m.segments.map Segment.sorted) m.segments :=
      List.forall₂_map_left_iff.2 (List.forall₂_same.2 fun s _ => s.sorted_alike)
    refine ⟨{ m with segments := m.segments.map Segment.sorted }, ?_, alike, rfl, rfl, rfl, rfl⟩
    rw [Manifest.read?, Manifest.write, Record.read_write (Manifest.proper_toRecord distinct)]
    exact m.ofRecord?_sorted
  case operations =>
    have proper : ∀ r ∈ ps.map Patch.toRecord, r.Proper ∧ r.kind.isPatch = true :=
      List.forall_mem_map.2 fun p _ => p.proper_toRecord
    refine ⟨_, Record.readPatches_writeAll proper indent, ?_⟩
    rw [Record.sortedAll_eq, List.map_map]
    exact (mapM_map Patch.ofRecord?_sorted ps).trans (by rw [List.map_id'])

/-- A session with attributes out of order and text that must be escaped. -/
def savedSession : Manifest where
  segments := [.word (-3) "<w n=\x22b\x22 a=\x22\\\x22>é\t</w>" "é\x01"
    [("n", "b"), ("a", "\\")] false, .milestone .page 7 [("n", "2r"), ("ed", "\n")]]
  isMultilevel := true
  preamble := "<TEI>\r\n"
  bodyOpenTag := "<body>"
  postamble := "</TEI>"

theorem savedSession_reads_back :
    (∀ s ∈ savedSession.segments, s.attributes.keys.Nodup)
    ∧ (∃ n, Manifest.read? (savedSession.write (some 2)) = some n ∧ n.Alike savedSession)
    ∧ ∀ s ∈ savedSession.segments, ∃ r t,
      Record.read (s.toRecord.write none) = .ok r ∧ Segment.ofRecord? r = some t ∧ t.Alike s :=
  have distinct : ∀ s ∈ savedSession.segments, s.attributes.keys.Nodup := by decide
  ⟨distinct, (files_read_back (some 2)).2.2.1 savedSession distinct,
    fun s hs => (files_read_back none).1 s (distinct s hs)⟩

end Transcription
