/-
Transcription.Proofs.ManifestFaults — what the reading of a manifest file can end in.

Data of any form may stand for a file, for the type of a record, for the list of the records that
a manifest carries and for its items. What can be read is said without the reader: a record names
its kind and gives the fields without a default (`Readable`), a manifest has a list of readable
records besides. A fault is told when it has a message. All are but one: a type that is a list or
an object is looked up as if it were a name, and that has no message. It comes up exactly where
reading gets to such a type, that is behind nothing but readable records (`Misnamed`).

There is one equation for each kind of object (`ofJson_plain`, `ofJson_manifest`), inverted once
for objects that are read (`ofJson_object_cases`), and one for lists, which end at their first
fault (`mapM_eq_error_iff`). The rest is by induction on what is carried (`carried_induction`).

**`told_iff`**: a text is read to a record that is whole or to a fault that is told, and as a list
of operations to whole operations or to such a fault, exactly if nothing misnamed is met.
-/
import Transcription.Proofs.ManifestFiles

namespace Transcription.Record

/-! ## 1. What can be read -/

/-- The members name a kind. -/
def Names (members : Table Json) (kind : RecordKind) : Prop :=
  members.get? "_type" = some (.string kind.name)

/-- The members hold the fields of a kind that have no default. -/
def Gives (members : Table Json) (kind : RecordKind) : Prop :=
  ∀ field ∈ kind.fields, field.2 = none → (members.get? field.1).isSome

/-- Data that a record can be read from. -/
inductive Readable : Json → Prop where
  | plain {members : Table Json} {kind : RecordKind} (other : kind ≠ .manifest)
      (named : Names members kind) (given : Gives members kind) : Readable (.object members)
  | manifest {members : Table Json} {items : List Json} (named : Names members .manifest)
      (listed : members.get? "segments" = some (.array items))
      (carried : ∀ j ∈ items, Readable j) : Readable (.object members)

/-- Data that an operation can be read from. -/
def IsOperation (j : Json) : Prop :=
  ∃ members kind, j = .object members ∧ Names members kind ∧ Gives members kind
    ∧ kind.isPatch = true

/-- Data in which a type that is no name is the first thing that is wrong. -/
inductive Misnamed : Json → Prop where
  | list {members : Table Json} {items : List Json}
      (type : members.get? "_type" = some (.array items)) : Misnamed (.object members)
  | object {members inner : Table Json}
      (type : members.get? "_type" = some (.object inner)) : Misnamed (.object members)
  | carried {members : Table Json} {before after : List Json} {j : Json}
      (named : Names members .manifest)
      (listed : members.get? "segments" = some (.array (before ++ j :: after)))
      (readable : ∀ i ∈ before, Readable i) (inside : Misnamed j) : Misnamed (.object members)

/-- A record with the fields of its kind, in their order; only a manifest carries records. -/
inductive Whole : Record → Prop where
  | mk {kind : RecordKind} {fields : Table Json} {segments : List Record}
      (named : fields.keys = kind.fields.map Prod.fst)
      (plain : kind ≠ .manifest → segments = [])
      (carried : ∀ r ∈ segments, Whole r) : Whole (.mk kind fields segments)

/-! ## 2. One object -/

section Objects

variable {members : Table Json} {kind : RecordKind} {r : Record}

theorem kindOf_eq_ok_iff {type : Json} : kindOf type = .ok kind ↔ type = .string kind.name := by
  refine ⟨fun h => ?_, fun h => h ▸ kindOf_name kind⟩
  cases type with
  | string t =>
    rw [kindOf] at h
    cases found : RecordKind.ofName? t with
    | none => simp [found] at h
    | some k =>
      have : k.name = t := by simpa using List.find?_some found
      simp_all
  | _ => simp [kindOf] at h

theorem kindOf_eq_untold_iff {type : Json} :
    kindOf type = .error .typeNotAName
      ↔ (∃ items, type = .array items) ∨ ∃ inner, type = .object inner := by
  cases type with
  | string t =>
    rw [kindOf]
    cases RecordKind.ofName? t <;> simp
  | _ => simp [kindOf]

theorem takeFields_missing_iff {names : List (Text × Option Json)} :
    (takeFields members names).2 = [] ↔
      ∀ field ∈ names, field.2 = none → (members.get? field.1).isSome := by
  induction names with
  | nil => simp [takeFields]
  | cons field names ih =>
    obtain ⟨name, fallback⟩ := field
    rw [takeFields, List.forall_mem_cons, ← ih]
    cases found : members.get? name <;> cases fallback <;> simp

theorem keys_takeFields {names : List (Text × Option Json)}
    (h : (takeFields members names).2 = []) :
    (takeFields members names).1.keys = names.map Prod.fst := by
  induction names with
  | nil => rfl
  | cons field names ih =>
    obtain ⟨name, fallback⟩ := field
    rw [takeFields] at h ⊢
    cases given : (members.get? name).or fallback with
    | none => simp [given] at h
    | some value =>
      simp only [given] at h ⊢
      exact congrArg (List.cons name) (ih h)

theorem missing_eq_nil_iff : (takeFields members kind.fields).2 = [] ↔ Gives members kind :=
  takeFields_missing_iff

/-- All fields of a manifest have defaults. -/
theorem gives_manifest (members : Table Json) : Gives members .manifest := by
  intro field hf none_given
  simp only [RecordKind.fields, List.mem_cons, List.not_mem_nil, or_false] at hf
  rcases hf with rfl | rfl | rfl | rfl <;> cases none_given

/-- A type other than the null that stands for a missing one is there. -/
theorem type_given {type : Json} (h : (members.get? "_type").getD .null = type)
    (given : type ≠ .null) : members.get? "_type" = some type := by
  cases found : members.get? "_type" with
  | none =>
    rw [found] at h
    exact absurd h.symm given
  | some value =>
    rw [found] at h
    exact congrArg some h

/-- The type of an object names a kind, or is at fault. -/
theorem names_or_fault (members : Table Json) :
    (∃ kind, Names members kind) ∨ ∃ fault,
      kindOf ((members.get? "_type").getD .null) = .error fault
        ∧ ofJson (.object members) = .error fault := by
  cases h : kindOf ((members.get? "_type").getD .null) with
  | ok kind =>
    exact .inl ⟨kind, type_given (kindOf_eq_ok_iff.1 h) nofun⟩
  | error fault => exact .inr ⟨fault, rfl, by rw [ofJson, h]; rfl⟩

theorem ofJson_of_names (named : Names members kind) :
    ofJson (.object members) = build kind members (carriedBy kind members) := by
  rw [ofJson, named, Option.getD_some, kindOf_name]
  rfl

theorem ofJson_plain (other : kind ≠ .manifest) (named : Names members kind) :
    ofJson (.object members)
      = if (takeFields members kind.fields).2 = [] then
          .ok (.mk kind (takeFields members kind.fields).1 [])
        else .error (.missing kind (takeFields members kind.fields).2) := by
  rw [ofJson_of_names named]
  simp only [build, if_neg other, List.isEmpty_iff]
  split <;> rfl

theorem ofJsons_eq (items : List Json) : ofJsons items = items.mapM ofJson := by
  induction items with
  | nil => rfl
  | cons j items ih => rw [ofJsons, ih, List.mapM_cons]

theorem ofJson_manifest (named : Names members .manifest) :
    ofJson (.object members)
      = match members.get? "segments" with
        | some (.array items) =>
            (items.mapM ofJson).map
              (.mk .manifest (takeFields members RecordKind.manifest.fields).1)
        | some _ => .error (.segmentsNotAList .manifest)
        | none => .error (.missing .manifest ["segments"]) := by
  have missing := missing_eq_nil_iff.2 (gives_manifest members)
  rw [ofJson_of_names named, carriedBy_eq]
  simp only [build, missing]
  cases members.get? "segments" with
  | none => rfl
  | some value =>
    cases value with
    | array items =>
      simp only [Option.map_some, ofJsons_eq]
      cases items.mapM ofJson <;> rfl
    | _ => rfl

/-- What an object that is read comes to. -/
theorem ofJson_object_cases (h : ofJson (.object members) = .ok r) :
    (∃ kind, kind ≠ .manifest ∧ Names members kind ∧ Gives members kind
        ∧ r = .mk kind (takeFields members kind.fields).1 [])
      ∨ ∃ items rs, Names members .manifest ∧ members.get? "segments" = some (.array items)
        ∧ items.mapM ofJson = .ok rs
        ∧ r = .mk .manifest (takeFields members RecordKind.manifest.fields).1 rs := by
  rcases names_or_fault members with ⟨kind, named⟩ | ⟨fault, -, stop⟩
  · by_cases manifest : kind = .manifest
    · subst manifest
      rw [ofJson_manifest named] at h
      split at h
      · next items listed =>
        cases carried : items.mapM ofJson with
        | error fault =>
          rw [carried] at h
          cases h
        | ok rs =>
          rw [carried] at h
          exact .inr ⟨items, rs, named, listed, carried, (Except.ok.inj h).symm⟩
      · cases h
      · cases h
    · rw [ofJson_plain manifest named] at h
      split at h
      · next given =>
        exact .inl ⟨kind, manifest, named, missing_eq_nil_iff.1 given, (Except.ok.inj h).symm⟩
      · cases h
  · rw [stop] at h
    cases h

end Objects

/-! ## 3. Lists -/

section Lists

variable {α β ε : Type} {f : α → Except ε β} {items : List α} {read : List β} {fault : ε}

theorem mapM_cons_ok {a : α} {b : β} (h : f a = .ok b) (items : List α) :
    (a :: items).mapM f = (items.mapM f).map (b :: ·) := by
  rw [List.mapM_cons, h]
  show (items.mapM f >>= fun bs => pure (b :: bs)) = _
  cases items.mapM f <;> rfl

theorem mapM_cons_error {a : α} (h : f a = .error fault) (items : List α) :
    (a :: items).mapM f = .error fault := by
  rw [List.mapM_cons, h]
  rfl

/-- What is read of a list is read of its items. -/
theorem mem_of_mapM (h : items.mapM f = .ok read) :
    (∀ a ∈ items, ∃ b ∈ read, f a = .ok b) ∧ ∀ b ∈ read, ∃ a ∈ items, f a = .ok b := by
  induction items generalizing read with
  | nil =>
    cases h
    simp
  | cons a items ih =>
    cases first : f a with
    | error fault =>
      rw [mapM_cons_error first] at h
      cases h
    | ok b =>
      rw [mapM_cons_ok first] at h
      cases rest : items.mapM f with
      | error fault =>
        rw [rest] at h
        cases h
      | ok others =>
        rw [rest] at h
        cases h
        obtain ⟨left, right⟩ := ih rest
        constructor
        · refine List.forall_mem_cons.2 ⟨⟨b, List.mem_cons_self, first⟩, fun c hc => ?_⟩
          obtain ⟨d, hd, given⟩ := left c hc
          exact ⟨d, List.mem_cons_of_mem _ hd, given⟩
        · refine List.forall_mem_cons.2 ⟨⟨a, List.mem_cons_self, first⟩, fun d hd => ?_⟩
          obtain ⟨c, hc, given⟩ := right d hd
          exact ⟨c, List.mem_cons_of_mem _ hc, given⟩

theorem exists_mapM (h : ∀ a ∈ items, ∃ b, f a = .ok b) : ∃ read, items.mapM f = .ok read := by
  induction items with
  | nil => exact ⟨[], rfl⟩
  | cons a items ih =>
    obtain ⟨⟨b, first⟩, others⟩ := List.forall_mem_cons.1 h
    obtain ⟨read, rest⟩ := ih others
    exact ⟨b :: read, by rw [mapM_cons_ok first, rest]; rfl⟩

/-- A list ends at its first fault. -/
theorem mapM_eq_error_iff :
    items.mapM f = .error fault ↔ ∃ before a after, items = before ++ a :: after
      ∧ (∀ i ∈ before, ∃ b, f i = .ok b) ∧ f a = .error fault := by
  constructor
  · intro h
    induction items with
    | nil => cases h
    | cons a items ih =>
      cases first : f a with
      | error other =>
        rw [mapM_cons_error first] at h
        cases h
        exact ⟨[], a, items, rfl, by simp, first⟩
      | ok b =>
        rw [mapM_cons_ok first] at h
        cases rest : items.mapM f with
        | ok others =>
          rw [rest] at h
          cases h
        | error other =>
          rw [rest] at h
          cases h
          obtain ⟨before, c, after, rfl, fine, stop⟩ := ih rest
          exact ⟨a :: before, c, after, rfl, List.forall_mem_cons.2 ⟨⟨b, first⟩, fine⟩, stop⟩
  · rintro ⟨before, a, after, rfl, fine, stop⟩
    induction before with
    | nil => exact mapM_cons_error stop after
    | cons c before ih =>
      obtain ⟨⟨b, first⟩, fine⟩ := List.forall_mem_cons.1 fine
      rw [List.cons_append, mapM_cons_ok first, ih fine]
      rfl

end Lists

/-! ## 4. Values -/

/-- What holds of a value if it holds of the items that it may carry holds of all values. -/
theorem carried_induction {P : Json → Prop}
    (step : ∀ j, (∀ members items, j = .object members →
      Table.get? members "segments" = some (.array items) → ∀ i ∈ items, P i) → P j)
    (j : Json) : P j := by
  refine step j fun members items is_object listed i hi => ?_
  have smaller : sizeOf i < sizeOf j := by
    have first := List.sizeOf_lt_of_mem hi
    have second := List.sizeOf_lt_of_mem (Table.mem_of_get? listed)
    rw [is_object]
    simp only [Prod.mk.sizeOf_spec, Json.array.sizeOf_spec, Json.object.sizeOf_spec] at *
    omega
  exact carried_induction step i
termination_by sizeOf j

section Values

variable {j : Json} {r : Record}

/-- What is read is readable, and whole. -/
theorem readable_of_ofJson (h : ofJson j = .ok r) : Readable j ∧ r.Whole := by
  induction j using carried_induction generalizing r with
  | step j ih =>
    cases j with
    | object members =>
      rcases ofJson_object_cases h with
        ⟨kind, other, named, given, rfl⟩ | ⟨items, rs, named, listed, carried, rfl⟩
      · exact ⟨.plain other named given,
          .mk (keys_takeFields (missing_eq_nil_iff.2 given)) (fun _ => rfl) (by simp)⟩
      · obtain ⟨left, right⟩ := mem_of_mapM carried
        refine ⟨.manifest named listed fun i hi => ?_, .mk ?_ (absurd rfl) fun r hr => ?_⟩
        · obtain ⟨r, -, read⟩ := left i hi
          exact (ih members items rfl listed i hi read).1
        · exact keys_takeFields (missing_eq_nil_iff.2 (gives_manifest members))
        · obtain ⟨i, hi, read⟩ := right r hr
          exact (ih members items rfl listed i hi read).2
    | _ => cases h

theorem Readable.exists_ofJson (h : Readable j) : ∃ r, ofJson j = .ok r := by
  induction h with
  | plain other named given =>
    exact ⟨_, by rw [ofJson_plain other named, if_pos (missing_eq_nil_iff.2 given)]⟩
  | manifest named listed _ ih =>
    obtain ⟨rs, read⟩ := exists_mapM ih
    rw [ofJson_manifest named, listed]
    exact ⟨_, congrArg (Except.map _) read⟩

/-- **What can be read is said without the reader.** -/
theorem readable_iff : Readable j ↔ ∃ r, ofJson j = .ok r :=
  ⟨Readable.exists_ofJson, fun ⟨_, h⟩ => (readable_of_ofJson h).1⟩

theorem misnamed_of_ofJson (h : ofJson j = .error .typeNotAName) : Misnamed j := by
  induction j using carried_induction with
  | step j ih =>
    cases j with
    | object members =>
      rcases names_or_fault members with ⟨kind, named⟩ | ⟨fault, untyped, stop⟩
      · by_cases manifest : kind = .manifest
        · subst manifest
          rw [ofJson_manifest named] at h
          split at h
          · next items listed =>
            cases rest : items.mapM ofJson with
            | ok rs => rw [rest] at h; cases h
            | error fault =>
              rw [rest] at h
              cases h
              obtain ⟨before, i, after, rfl, fine, inside⟩ := mapM_eq_error_iff.1 rest
              exact .carried named listed (fun k hk => readable_iff.2 (fine k hk))
                (ih members _ rfl listed i (by simp) inside)
          · cases h
          · cases h
        · rw [ofJson_plain manifest named] at h
          split at h <;> cases h
      · rw [stop] at h
        cases h
        rcases kindOf_eq_untold_iff.1 untyped with ⟨items, type⟩ | ⟨inner, type⟩
        · exact .list (type_given type nofun)
        · exact .object (type_given type nofun)
    | _ => cases h

theorem Misnamed.ofJson_eq (h : Misnamed j) : ofJson j = .error .typeNotAName := by
  induction h with
  | list type => rw [ofJson, type]; rfl
  | object type => rw [ofJson, type]; rfl
  | @carried members before after j named listed readable _ ih =>
    have stop : (before ++ j :: after).mapM ofJson = .error .typeNotAName :=
      mapM_eq_error_iff.2 ⟨before, j, after, rfl, fun i hi => (readable i hi).exists_ofJson, ih⟩
    rw [ofJson_manifest named, listed]
    exact congrArg (Except.map _) stop

/-- **What is not told.** -/
theorem misnamed_iff : Misnamed j ↔ ofJson j = .error .typeNotAName :=
  ⟨Misnamed.ofJson_eq, misnamed_of_ofJson⟩

end Values

/-! ## 5. Operations -/

section Operations

variable {j : Json} {r : Record} {fault : RecordFault}

/-- The operation of a value. -/
def operationOf (j : Json) : Except RecordFault Record := do
  let r ← ofJson j
  if r.kind.isPatch then return r else throw (.notAPatch r.kind)

theorem patchesOf_eq (items : List Json) : patchesOf items = items.mapM operationOf := by
  induction items with
  | nil => rfl
  | cons j items ih =>
    rw [patchesOf, ih, List.mapM_cons, operationOf]
    cases ofJson j with
    | error fault => rfl
    | ok r =>
      show (if r.kind.isPatch then _ else _) = (if r.kind.isPatch then _ else _) >>= _
      split <;> rfl

theorem operationOf_ok (h : ofJson j = .ok r) :
    operationOf j = if r.kind.isPatch then .ok r else .error (.notAPatch r.kind) := by
  rw [operationOf, h]
  rfl

theorem operationOf_error (h : ofJson j = .error fault) : operationOf j = .error fault := by
  rw [operationOf, h]
  rfl

theorem operationOf_eq_ok_iff :
    operationOf j = .ok r ↔ ofJson j = .ok r ∧ r.kind.isPatch = true := by
  cases h : ofJson j with
  | error fault => simp [operationOf_error h]
  | ok s =>
    rw [operationOf_ok h]
    split <;> grind

theorem operationOf_eq_untold_iff :
    operationOf j = .error .typeNotAName ↔ ofJson j = .error .typeNotAName := by
  cases h : ofJson j with
  | error fault => simp [operationOf_error h]
  | ok s =>
    rw [operationOf_ok h]
    split <;> simp

theorem isOperation_iff : IsOperation j ↔ ∃ r, operationOf j = .ok r := by
  constructor
  · rintro ⟨members, kind, rfl, named, given, patch⟩
    have other : kind ≠ .manifest := by
      rintro rfl
      cases patch
    have read := ofJson_plain other named
    rw [if_pos (missing_eq_nil_iff.2 given)] at read
    exact ⟨_, operationOf_eq_ok_iff.2 ⟨read, patch⟩⟩
  · rintro ⟨r, h⟩
    obtain ⟨read, patch⟩ := operationOf_eq_ok_iff.1 h
    cases j with
    | object members =>
      rcases ofJson_object_cases read with
        ⟨kind, -, named, given, rfl⟩ | ⟨items, rs, -, -, -, rfl⟩
      · exact ⟨members, kind, rfl, named, given, patch⟩
      · -- A manifest can be read, but is no operation.
        cases patch
    | _ => cases read

end Operations

/-! ## 6. Files -/

section Files

variable {α : Type} {result : Except RecordFault α} {t : Text}

theorem message_eq_none_iff (fault : RecordFault) :
    fault.message = none ↔ fault = .typeNotAName := by
  cases fault <;> simp [RecordFault.message]

/-- There is one fault that is not told. -/
theorem told_or_iff {Fine : α → Prop} (fine : ∀ a, result = .ok a → Fine a) :
    ((∃ a, result = .ok a ∧ Fine a) ∨ ∃ fault, result = .error fault ∧ fault.message.isSome)
      ↔ result ≠ .error .typeNotAName := by
  cases result with
  | ok a => simp [fine a rfl]
  | error fault =>
    simp [Option.isSome_iff_ne_none, message_eq_none_iff]

theorem read_eq_untold_iff :
    read t = .error .typeNotAName ↔ ∃ j, Json.read? t = some j ∧ Misnamed j := by
  rw [read]
  cases Json.read? t with
  | none => simp
  | some j =>
    constructor
    · intro h
      exact ⟨j, rfl, misnamed_of_ofJson h⟩
    · rintro ⟨i, same, h⟩
      cases same
      exact h.ofJson_eq

theorem readPatches_eq_untold_iff :
    readPatches t = .error .typeNotAName ↔ ∃ before j after,
      Json.read? t = some (.array (before ++ j :: after)) ∧ (∀ i ∈ before, IsOperation i)
        ∧ Misnamed j := by
  have items_iff (items : List Json) : patchesOf items = .error .typeNotAName ↔
      ∃ before j after, items = before ++ j :: after ∧ (∀ i ∈ before, IsOperation i)
        ∧ Misnamed j := by
    simp only [patchesOf_eq, mapM_eq_error_iff, operationOf_eq_untold_iff, isOperation_iff,
      misnamed_iff]
  rw [readPatches]
  split
  · next items read => simp [items_iff, read]
  · next other not_array read =>
    constructor
    · intro h
      cases h
    · rintro ⟨before, j, after, same, -⟩
      rw [read] at same
      exact (not_array _ (Option.some.inj same)).elim
  · next read => simp [read]

/-- **What reading ends in.** A text is read to a whole record or to a fault that is told, unless
something misnamed is met. A text is read to a list of whole operations or to a fault that is
told, unless something misnamed stands in a list behind operations only. -/
theorem told_iff (t : Text) :
    (((∃ r, read t = .ok r ∧ r.Whole) ∨ ∃ fault, read t = .error fault ∧ fault.message.isSome)
        ↔ ¬∃ j, Json.read? t = some j ∧ Misnamed j)
      ∧ (((∃ rs, readPatches t = .ok rs ∧ ∀ r ∈ rs, r.Whole ∧ r.kind.isPatch = true)
          ∨ ∃ fault, readPatches t = .error fault ∧ fault.message.isSome)
        ↔ ¬∃ before j after, Json.read? t = some (.array (before ++ j :: after))
          ∧ (∀ i ∈ before, IsOperation i) ∧ Misnamed j) := by
  rw [← read_eq_untold_iff, ← readPatches_eq_untold_iff]
  refine ⟨told_or_iff fun r h => ?_, told_or_iff fun rs h r hr => ?_⟩
  · rw [read] at h
    split at h
    · exact (readable_of_ofJson h).2
    · cases h
  · rw [readPatches] at h
    split at h
    · rw [patchesOf_eq] at h
      obtain ⟨j, -, one⟩ := (mem_of_mapM h).2 r hr
      obtain ⟨whole, patch⟩ := operationOf_eq_ok_iff.1 one
      exact ⟨(readable_of_ofJson whole).2, patch⟩
    · cases h
    · cases h

/-- A list for a type is not told, alone and among operations. -/
theorem type_not_told :
    let record : Text := "\x7b\"_type\": []\x7d"
    let patches : Text := "[\x7b\"_type\": []\x7d]"
    ¬((∃ r, read record = .ok r) ∨ ∃ fault, read record = .error fault ∧ fault.message.isSome)
      ∧ ¬((∃ rs, readPatches patches = .ok rs)
        ∨ ∃ fault, readPatches patches = .error fault ∧ fault.message.isSome) := by
  intro record patches
  have proper : Json.Proper (.object [("_type", .array [])]) :=
    .object (by simp) (by simpa using .array nofun)
  have one : Json.read? record = some (.object [("_type", .array [])]) :=
    Json.read?_write proper none
  have among : Json.read? patches = some (.array [.object [("_type", .array [])]]) :=
    Json.read?_write (.array (List.forall_mem_singleton.2 proper)) none
  have untold : Misnamed (.object [("_type", .array [])]) := .list rfl
  rw [read_eq_untold_iff.2 ⟨_, one, untold⟩,
    readPatches_eq_untold_iff.2 ⟨[], _, [], among, nofun, untold⟩]
  simp [RecordFault.message]

end Files

end Transcription.Record
