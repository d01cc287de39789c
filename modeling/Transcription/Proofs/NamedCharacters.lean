/-
Transcription.Proofs.NamedCharacters — names and characters after any sequence of additions.

A registry is filled by naming single characters and by files of named characters. A file that
is faulty somewhere has its entries up to there taken in. So a sequence of calls comes to a
sequence of namings, its history (`Call.namings`, `run_eq`).

The two ways to look up follow opposite rules: a name stands for the character of its last
naming (`resolve_run`), and a character goes back to the name of its first one
(`nameOf_run`). They agree as long as no name loses a character that goes back to it: naming
such a name anew changes what the name stands for and leaves the way back as it was.

**`lookups_agree_iff`**: a character goes back to a name that stands for it, throughout a
registry, exactly if the first name of each character in the history was given that character
last; and every character that some name stands for goes back to a name that is known.

**`run_determined`**: the history tells everything that can be asked of a registry: what names
stand for, what characters go back to, and the names in order of first naming (`keys_run`) and
in code point order (`sortedNames_ascending`). What a file adds to the history is said on its
own (`Call.Adds`): its entries up to the first faulty one.
-/
import Mathlib.Data.List.Forall2
import Transcription.Json.Reader
import Transcription.Registry

namespace Transcription

/-! ## 1. Tables and the order of texts -/

namespace Table

variable {α : Type} {table : Table α}

theorem get?_cons (key : Text) (value : α) (table : Table α) (k : Text) :
    get? ((key, value) :: table) k = if key = k then some value else table.get? k := by
  rw [get?, List.lookup_cons]
  by_cases here : key = k
  · rw [if_pos here, here, beq_self_eq_true]
  · rw [if_neg here, beq_false_of_ne (Ne.symm here)]
    rfl

theorem get?_append (table more : Table α) (key : Text) :
    (table ++ more).get? key = (table.get? key).or (more.get? key) :=
  List.lookup_append

/-- Writing under a key changes what is under this key. -/
theorem get?_insert (key : Text) (value : α) (table : Table α) (k : Text) :
    (table.insert key value).get? k = if key = k then some value else table.get? k := by
  induction table with
  | nil => exact get?_cons key value [] k
  | cons entry rest ih =>
    obtain ⟨first, old⟩ := entry
    by_cases here : first = key
    · rw [insert, if_pos here, get?_cons, get?_cons, here]
      split <;> rfl
    · rw [insert, if_neg here, get?_cons, get?_cons, ih]
      by_cases there : key = k
      · rw [if_neg (there ▸ here), if_pos there, if_pos there]
      · rw [if_neg there, if_neg there]

/-- A key that is there keeps its value. -/
theorem get?_insertIfNew (key : Text) (value : α) (table : Table α) (k : Text) :
    (table.insertIfNew key value).get? k
      = (table.get? k).or (if key = k then some value else none) := by
  unfold insertIfNew
  cases known : table.get? key with
  | some old =>
    by_cases same : key = k
    · rw [← same, known, Option.some_or]
    · rw [if_neg same, Option.or_none]
  | none => exact (get?_append ..).trans (by rw [get?_cons]; rfl)

/-- A key that is there keeps its place, a new one goes to the end. -/
theorem keys_insert (key : Text) (value : α) (table : Table α) :
    (table.insert key value).keys
      = if key ∈ table.keys then table.keys else table.keys ++ [key] := by
  split
  · next known =>
    induction table with
    | nil => simp [keys] at known
    | cons entry rest ih =>
      obtain ⟨first, old⟩ := entry
      by_cases here : first = key
      · rw [insert, if_pos here]
        rfl
      · have known : key ∈ keys rest := by simpa [keys, Ne.symm here] using known
        have kept := ih known
        simp only [keys] at kept
        simp [insert, here, keys, kept]
  · next new => rw [insert_new new]; simp [keys]

theorem nodup_keys_insert {key : Text} {value : α} {table : Table α} (h : table.keys.Nodup) :
    (table.insert key value).keys.Nodup := by
  rw [keys_insert]
  split
  · exact h
  · next new =>
    refine List.nodup_append.2 ⟨h, by simp, fun k hk other ho => ?_⟩
    rw [List.mem_singleton.1 ho]
    exact fun same => new (same ▸ hk)

end Table

namespace Text

variable {a b : Text}

theorem le_total (a b : Text) : (le a b || le b a) = true := by
  induction a generalizing b with
  | nil => rfl
  | cons x a ih =>
    cases b with
    | nil => rfl
    | cons y b =>
      simp only [le]
      by_cases same : x = y
      · simpa [same] using ih b
      · have apart : x.toNat ≠ y.toNat := fun h => same (Char.toNat_inj.1 h)
        simp only [if_neg same, if_neg (Ne.symm same), Bool.or_eq_true, decide_eq_true_eq]
        omega

theorem le_trans (a b c : Text) (hab : le a b = true) (hbc : le b c = true) : le a c = true := by
  induction a generalizing b c with
  | nil => rfl
  | cons x a ih =>
    cases b with
    | nil => cases hab
    | cons y b =>
      cases c with
      | nil => cases hbc
      | cons z c =>
        simp only [le] at *
        split at hab
        · next first =>
          subst first
          split at hbc
          · next second => simpa [second] using ih b c hab hbc
          · next second => simpa [second] using hbc
        · next first =>
          have below : x.toNat < z.toNat := by
            simp only [decide_eq_true_eq] at hab
            split at hbc
            · next second => exact second ▸ hab
            · exact Nat.lt_trans hab (by simpa using hbc)
          rw [if_neg fun same => Nat.lt_irrefl _ (same ▸ below)]
          simpa using below

/-- The order of texts is lexicographic, by code points. -/
theorem lex_of_le (h : le a b = true) (apart : a ≠ b) :
    List.Lex (fun c d : Char => c.toNat < d.toNat) a b := by
  induction a generalizing b with
  | nil =>
    cases b with
    | nil => exact absurd rfl apart
    | cons y b => exact .nil
  | cons x a ih =>
    cases b with
    | nil => cases h
    | cons y b =>
      rw [le] at h
      split at h
      · next same =>
        subst same
        exact .cons (ih h fun rest => apart (congrArg _ rest))
      · exact .rel (by simpa using h)

end Text

namespace Registry

/-! ## 2. Calls and their history -/

/-- A name with the character that it is given. -/
abbrev Naming := Text × CharacterEntry

/-- What is done to a registry. -/
inductive Call where
  | add (name : Text) (entry : CharacterEntry)
  /-- Take in the text of a file. -/
  | load (text : Text)

/-- The registry after a call. A text that is no data changes nothing. -/
def call (r : Registry) : Call → Registry
  | .add name entry => r.add name entry
  | .load text =>
      match Json.read? text with
      | some file => (r.load file).1
      | none => r

/-- The registry after some calls, from the empty one. -/
def run (calls : List Call) : Registry :=
  calls.foldl call .empty

/-- The namings in the members of a file, up to the first faulty one; with it, if it is faulty
for its character only. -/
def namingsOf : List (Text × Json) → List Naming
  | [] => []
  | (name, data) :: rest =>
      match entryOf data with
      | .ok entry => (name, entry) :: if keyed data then namingsOf rest else []
      | .error _ => []

/-- The namings that a call comes to: none for a text that is no data or has no table. -/
def Call.namings : Call → List Naming
  | .add name entry => [(name, entry)]
  | .load text =>
      namingsOf (((Json.read? text).bind fun file =>
        (file.get? "entities").bind Json.asObject?).getD [])

/-- Name some characters, one after the other. -/
def addNamings (r : Registry) (history : List Naming) : Registry :=
  history.foldl (fun r naming => r.add naming.1 naming.2) r

section Calls

variable {r : Registry}

theorem addAll_eq (r : Registry) (members : List (Text × Json)) :
    (r.addAll members).1 = r.addNamings (namingsOf members) := by
  induction members generalizing r with
  | nil => rfl
  | cons member rest ih =>
    obtain ⟨name, data⟩ := member
    rw [addAll, namingsOf]
    cases entryOf data with
    | ok entry =>
      cases keyed data with
      | true => exact ih (r.add name entry)
      | false => rfl
    | error fault => rfl

theorem call_eq (r : Registry) (c : Call) : r.call c = r.addNamings c.namings := by
  cases c with
  | add name entry => rfl
  | load text =>
    rw [call, Call.namings]
    cases Json.read? text with
    | none => rfl
    | some file =>
      show (r.load file).1 = r.addNamings (namingsOf (((file.get? "entities").bind _).getD []))
      rw [load]
      cases (file.get? "entities").bind Json.asObject? with
      | none => rfl
      | some members => exact addAll_eq r members

/-- A run comes to its history. -/
theorem run_eq (calls : List Call) :
    run calls = addNamings .empty (calls.flatMap Call.namings) := by
  have from_any (r : Registry) :
      calls.foldl call r = r.addNamings (calls.flatMap Call.namings) := by
    induction calls generalizing r with
    | nil => rfl
    | cons c calls ih =>
      rw [List.foldl_cons, ih, call_eq, List.flatMap_cons, addNamings, addNamings, addNamings,
        List.foldl_append]
  exact from_any .empty

end Calls

/-! ## 3. Looking up -/

section Lookups

variable {r : Registry} {history : List Naming} {name char : Text} {calls : List Call}

theorem get?_add (r : Registry) (name : Text) (entry : CharacterEntry) (n : Text) :
    (r.add name entry).get? n = if name = n then some entry else r.get? n :=
  Table.get?_insert name entry r.entries n

/-- A character keeps the name that it goes back to. -/
theorem nameOf_add (r : Registry) (name : Text) (entry : CharacterEntry) (char : Text) :
    (r.add name entry).nameOf char
      = (r.nameOf char).or (if entry.char? = some char then some name else none) := by
  unfold add nameOf
  cases entry.char? with
  | none => exact (Option.or_none).symm
  | some first =>
    simp only [Option.elim_some, Option.some.injEq]
    exact Table.get?_insertIfNew first name r.names char

/-- After some namings a name has the entry of the last one. -/
theorem get?_addNamings (r : Registry) (history : List Naming) (name : Text) :
    (r.addNamings history).get? name
      = ((history.reverse.find? (·.1 = name)).map Prod.snd).or (r.get? name) := by
  induction history generalizing r with
  | nil => rfl
  | cons naming history ih =>
    show ((r.add naming.1 naming.2).addNamings history).get? name = _
    have single : ([naming].find? (·.1 = name)).map Prod.snd
        = if naming.1 = name then some naming.2 else none := by
      by_cases here : naming.1 = name <;> simp [here]
    rw [ih, get?_add, List.reverse_cons, List.find?_append, Option.map_or, single, Option.or_assoc]
    split <;> rfl

/-- After some namings a character goes back to the name of the first one. -/
theorem nameOf_addNamings (r : Registry) (history : List Naming) (char : Text) :
    (r.addNamings history).nameOf char
      = (r.nameOf char).or ((history.find? (·.2.char? = some char)).map Prod.fst) := by
  induction history generalizing r with
  | nil => exact (Option.or_none).symm
  | cons naming history ih =>
    show ((r.add naming.1 naming.2).addNamings history).nameOf char = _
    rw [ih, nameOf_add, Option.or_assoc]
    by_cases here : naming.2.char? = some char <;> simp [here]

/-- **A name stands for the character of its last naming.** -/
theorem resolve_run (calls : List Call) (name : Text) :
    (run calls).resolve name
      = ((calls.flatMap Call.namings).reverse.find? (·.1 = name)).bind (·.2.char?) := by
  rw [resolve, run_eq, get?_addNamings]
  show ((Option.map _ _).or none).bind _ = _
  rw [Option.or_none, Option.bind_map]
  rfl

/-- **A character goes back to the name of its first naming.** -/
theorem nameOf_run (calls : List Call) (char : Text) :
    (run calls).nameOf char
      = ((calls.flatMap Call.namings).find? (·.2.char? = some char)).map Prod.fst := by
  rw [run_eq, nameOf_addNamings]
  exact Option.none_or

/-- What is named has been named last by some naming. -/
theorem exists_last {naming : Naming} (h : naming ∈ history) :
    ∃ last, history.reverse.find? (·.1 = naming.1) = some last :=
  Option.isSome_iff_exists.1
    (List.find?_isSome.2 ⟨naming, List.mem_reverse.2 h, decide_eq_true rfl⟩)

/-- **When names and characters agree.** After any sequence of calls, the faulty ones
included: every character goes back to a name that stands for it exactly if the first naming of
each character is of a name whose last naming is with this character too; and a character that
a name stands for goes back to some name that is known. -/
theorem lookups_agree_iff (calls : List Call) :
    let r := run calls
    let history := calls.flatMap Call.namings
    ((∀ char name, r.nameOf char = some name → r.resolve name = some char)
        ↔ ∀ char first last, history.find? (·.2.char? = some char) = some first →
          history.reverse.find? (·.1 = first.1) = some last → last.2.char? = some char)
      ∧ ∀ name char, r.resolve name = some char →
        ∃ first, r.nameOf char = some first ∧ (r.get? first).isSome := by
  intro r history
  refine ⟨⟨fun agree char first last hf hl => ?_, fun kept char name back => ?_⟩,
    fun name char stands => ?_⟩
  · have stands := agree char first.1 (by rw [nameOf_run, hf]; rfl)
    rwa [resolve_run, hl] at stands
  · rw [nameOf_run] at back
    obtain ⟨first, hf, rfl⟩ := Option.map_eq_some_iff.1 back
    obtain ⟨last, hl⟩ := exists_last (List.mem_of_find?_eq_some hf)
    rw [resolve_run, hl]
    exact kept char first last hf hl
  · rw [resolve_run] at stands
    obtain ⟨last, hl, given⟩ := Option.bind_eq_some_iff.1 stands
    have known : last ∈ history := List.mem_reverse.1 (List.mem_of_find?_eq_some hl)
    have named : (history.find? (·.2.char? = some char)).isSome :=
      List.find?_isSome.2 ⟨last, known, decide_eq_true given⟩
    obtain ⟨first, hf⟩ := Option.isSome_iff_exists.1 named
    obtain ⟨again, ha⟩ := exists_last (List.mem_of_find?_eq_some hf)
    refine ⟨first.1, by rw [nameOf_run, hf]; rfl, ?_⟩
    have found : r.get? first.1 = some again.2 := by
      show (run calls).get? first.1 = _
      rw [run_eq, get?_addNamings, ha]
      rfl
    rw [found]
    rfl

/-- A name that is given another character: the first one still goes back to it. -/
theorem lookups_disagree_renamed :
    let r := run [.add "a" ⟨[], "x", [], []⟩, .add "a" ⟨[], "y", [], []⟩]
    ¬∀ char name, r.nameOf char = some name → r.resolve name = some char := by
  intro r agree
  have stands : r.resolve "a" = some "x" := agree "x" "a" (by decide)
  revert stands
  decide

end Lookups

/-! ## 4. The names -/

section Names

variable {r : Registry} {history : List Naming}

theorem keys_addNamings (r : Registry) (history : List Naming) :
    (r.addNamings history).entries.keys
      = r.entries.keys ++ ((history.map Prod.fst).removeAll r.entries.keys).eraseDups := by
  induction history generalizing r with
  | nil => simp [addNamings, List.removeAll]
  | cons naming history ih =>
    show ((r.add naming.1 naming.2).addNamings history).entries.keys = _
    have keys_add : (r.add naming.1 naming.2).entries.keys
        = if naming.1 ∈ r.entries.keys then r.entries.keys else r.entries.keys ++ [naming.1] :=
      Table.keys_insert ..
    rw [ih, keys_add]
    split
    · next known => simp [List.removeAll, known]
    · next new =>
      -- What is left to name is filtered by the names so far, and by the new one after it.
      have left : (history.map Prod.fst).removeAll (r.entries.keys ++ [naming.1])
          = ((history.map Prod.fst).removeAll r.entries.keys).filter (!· == naming.1) := by
        simp only [List.removeAll, List.filter_filter]
        exact List.filter_congr fun name _ => by simp [Bool.and_comm, Bool.beq_eq_decide_eq]
      rw [left]
      simp [List.removeAll, new, List.eraseDups_cons]

theorem nodup_keys_addNamings (h : r.entries.keys.Nodup) :
    (r.addNamings history).entries.keys.Nodup := by
  induction history generalizing r with
  | nil => exact h
  | cons naming history ih => exact ih (Table.nodup_keys_insert h)

/-- **The names come in order of their first naming, each one once.** -/
theorem keys_run (calls : List Call) :
    (run calls).entries.keys = ((calls.flatMap Call.namings).map Prod.fst).eraseDups := by
  rw [run_eq, keys_addNamings]
  simp [empty, Table.keys, List.removeAll]

/-- **The sorted names ascend by code points.** -/
theorem sortedNames_ascending (calls : List Call) :
    (run calls).sortedNames.Pairwise (List.Lex fun c d : Char => c.toNat < d.toNat) := by
  have ordered : (run calls).sortedNames.Pairwise fun a b => Text.le a b = true :=
    List.pairwise_mergeSort Text.le_trans Text.le_total _
  have distinct : (run calls).sortedNames.Nodup := by
    refine (List.mergeSort_perm ..).nodup_iff.2 ?_
    rw [run_eq]
    exact nodup_keys_addNamings List.nodup_nil
  exact ordered.imp₂ (fun _ _ => Text.lex_of_le) distinct

end Names

/-! ## 5. Files -/

/-- Whether a call fails on a registry. -/
def Call.fails (r : Registry) : Call → Bool
  | .add _ _ => false
  | .load text =>
      match Json.read? text with
      | some file => (r.load file).2.isSome
      | none => true

/-- A member of a file stands for a naming: of its name, with the character in it if that is a
text. -/
structure Reads (member : Text × Json) (naming : Naming) : Prop where
  name : naming.1 = member.1
  entry : entryOf member.2 = .ok naming.2
  char : ∀ c, member.2.get? "char" = some (.string c) ↔ naming.2.char? = some c

/-- How the reading of the members of a file ends: they are all taken in, or those before the
first faulty one are, which is no object or has no character; a member whose character is a list
or an object is faulty too, but is taken in. -/
inductive Ends : List (Text × Json) → List Naming → Bool → Prop where
  | whole {members : List (Text × Json)} {taken : List Naming}
      (entries : List.Forall₂ Reads members taken) (keys : ∀ m ∈ members, keyed m.2) :
      Ends members taken false
  | upTo {before after : List (Text × Json)} {name : Text} {data : Json} {taken : List Naming}
      (entries : List.Forall₂ Reads before taken) (keys : ∀ m ∈ before, keyed m.2)
      (faulty : data.get? "char" = none) : Ends (before ++ (name, data) :: after) taken true
  | upToKey {before after : List (Text × Json)} {name : Text} {data value : Json}
      {taken : List Naming} {naming : Naming} (entries : List.Forall₂ Reads before taken)
      (keys : ∀ m ∈ before, keyed m.2) (last : Reads (name, data) naming)
      (given : data.get? "char" = some value) (faulty : value.isKey = false) :
      Ends (before ++ (name, data) :: after) (taken ++ [naming]) true

/-- What a call adds to the history, and whether it fails. -/
inductive Call.Adds : Call → List Naming → Bool → Prop where
  | add (name : Text) (entry : CharacterEntry) : Adds (.add name entry) [(name, entry)] false
  | noData {text : Text} (unread : Json.read? text = none) : Adds (.load text) [] true
  | noTable {text : Text} {file : Json} (read : Json.read? text = some file)
      (missing : ∀ members, file.get? "entities" ≠ some (.object members)) :
      Adds (.load text) [] true
  | entries {text : Text} {file : Json} {members : List (Text × Json)} {taken : List Naming}
      {fails : Bool} (read : Json.read? text = some file)
      (table : file.get? "entities" = some (.object members)) (ends : Ends members taken fails) :
      Adds (.load text) taken fails

section Files

variable {r : Registry} {data : Json} {members : List (Text × Json)}

theorem entryOf_missing {fields : Table Json} (h : fields.get? "char" = none) :
    entryOf (.object fields) = .error (.missing "char") := by
  unfold entryOf
  simp only [Json.asObject?]
  rw [h]
  rfl

theorem entryOf_given {fields : Table Json} {value : Json} (h : fields.get? "char" = some value) :
    ∃ entry, entryOf (.object fields) = .ok entry ∧ entry.char? = value.asString? := by
  unfold entryOf
  simp only [Json.asObject?]
  rw [h]
  exact ⟨_, rfl, rfl⟩

/-- An entry cannot be read exactly if it is no object or has no character. -/
theorem faulty_iff (data : Json) :
    (∃ fault, entryOf data = .error fault) ↔ data.get? "char" = none := by
  cases data with
  | object fields =>
    show _ ↔ Table.get? fields "char" = none
    cases h : Table.get? fields "char" with
    | none => simp [entryOf_missing h]
    | some value =>
      obtain ⟨entry, read, -⟩ := entryOf_given h
      simp [read]
  | _ => exact ⟨fun _ => rfl, fun _ => ⟨.notAnEntry, rfl⟩⟩

theorem reads_of_entryOf {name : Text} {entry : CharacterEntry} (h : entryOf data = .ok entry) :
    Reads (name, data) (name, entry) := by
  refine ⟨rfl, h, fun c => ?_⟩
  cases data with
  | object fields =>
    show Table.get? fields "char" = _ ↔ _
    cases given : Table.get? fields "char" with
    | none =>
      rw [entryOf_missing given] at h
      cases h
    | some value =>
      obtain ⟨read, same, char⟩ := entryOf_given given
      cases Except.ok.inj (same.symm.trans h)
      rw [char]
      cases value <;> simp [Json.asString?]
  | _ => cases h

/-- A member that is taken in comes before the end. -/
theorem Ends.cons {member : Text × Json} {naming : Naming} {taken : List Naming} {fails : Bool}
    (first : Reads member naming) (key : keyed member.2) (h : Ends members taken fails) :
    Ends (member :: members) (naming :: taken) fails := by
  cases h with
  | whole entries keys => exact .whole (.cons first entries) (List.forall_mem_cons.2 ⟨key, keys⟩)
  | @upTo before after name data _ entries keys faulty =>
    show Ends ((member :: before) ++ (name, data) :: after) _ true
    exact .upTo (.cons first entries) (List.forall_mem_cons.2 ⟨key, keys⟩) faulty
  | @upToKey before after name data _ _ last entries keys reads given faulty =>
    rw [← List.cons_append, ← List.cons_append]
    exact .upToKey (.cons first entries) (List.forall_mem_cons.2 ⟨key, keys⟩) reads given faulty

/-- The members of a file are read up to the first faulty one. -/
theorem ends_addAll (r : Registry) (members : List (Text × Json)) :
    Ends members (namingsOf members) (r.addAll members).2.isSome := by
  induction members generalizing r with
  | nil => exact .whole .nil (by simp)
  | cons member rest ih =>
    obtain ⟨name, data⟩ := member
    rw [addAll, namingsOf]
    cases h : entryOf data with
    | ok entry =>
      have first : Reads (name, data) (name, entry) := reads_of_entryOf h
      cases key : keyed data with
      | true => exact .cons first key (ih (r.add name entry))
      | false =>
        obtain ⟨value, given, faulty⟩ : ∃ value, data.get? "char" = some value
            ∧ value.isKey = false := by
          unfold keyed at key
          cases given : data.get? "char" with
          | none =>
            rw [given] at key
            cases key
          | some value =>
            rw [given] at key
            exact ⟨value, rfl, key⟩
        show Ends ([] ++ (name, data) :: rest) ([] ++ [(name, entry)]) true
        exact .upToKey .nil (by simp) first given faulty
    | error fault =>
      show Ends ([] ++ (name, data) :: rest) [] true
      exact .upTo .nil (by simp) ((faulty_iff data).1 ⟨fault, h⟩)

/-- **What a call adds to the history.** -/
theorem adds_namings (c : Call) (r : Registry) : c.Adds c.namings (c.fails r) := by
  cases c with
  | add name entry => exact .add name entry
  | load text =>
    rw [Call.namings, Call.fails]
    cases read : Json.read? text with
    | none => exact .noData read
    | some file =>
      show Call.Adds _ (namingsOf (((file.get? "entities").bind Json.asObject?).getD []))
        (r.load file).2.isSome
      rw [load]
      cases table : (file.get? "entities").bind Json.asObject? with
      | none =>
        refine .noTable read fun members given => ?_
        rw [given] at table
        cases table
      | some members =>
        have given : file.get? "entities" = some (.object members) := by
          obtain ⟨value, there, object⟩ := Option.bind_eq_some_iff.1 table
          cases value with
          | object fields =>
            cases object
            exact there
          | _ => cases object
        show Call.Adds _ (namingsOf members) (r.addAll members).2.isSome
        exact .entries read given (ends_addAll r members)

/-- **The history determines the registry.** After any sequence of calls, the faulty ones
included: a name stands for the character of its last naming, and a character goes back to the
name of its first one; the names come once each, in order of their first naming, and sorted they
ascend by code point. A file that fails adds its entries before the faulty one, and none if it is
no data or has no table of entries; a list or an object in the place of a character, which is
found only after its name has got it, is added with the others. -/
theorem run_determined (calls : List Call) :
    let r := run calls
    let history := calls.flatMap Call.namings
    (∀ name, r.resolve name = (history.reverse.find? (·.1 = name)).bind (·.2.char?))
      ∧ (∀ char, r.nameOf char = (history.find? (·.2.char? = some char)).map Prod.fst)
      ∧ r.entries.keys = (history.map Prod.fst).eraseDups
      ∧ (r.sortedNames.Perm r.entries.keys
        ∧ r.sortedNames.Pairwise (List.Lex fun c d : Char => c.toNat < d.toNat))
      ∧ ∀ (c : Call) (before : Registry), c.Adds c.namings (c.fails before) := by
  intro r history
  exact ⟨resolve_run calls, nameOf_run calls, keys_run calls,
    ⟨List.mergeSort_perm .., sortedNames_ascending calls⟩, adds_namings⟩

end Files

end Registry

end Transcription
