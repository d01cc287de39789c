/-
Transcription.Proofs.SchemaCache — what the schemas that a service keeps have to do
with the requests it has served.

A request for a file either finds its schema kept or loads it from the file as it
stands. Serving a request adds to each key what the request loads under it, unless the
key has an entry (`lookup_serve`); so after a whole run each key has what the first of
the requests served loads under it (`lookup_run`). Nothing else touches the schemas:
not the calls of the client, nor what happens to the files.
-/
import Transcription.Validation.Interleaving

namespace Transcription.Validation

variable {σ : Type} {e : Engine σ}

/-! ## 1. Loads -/

/-- A request that is served, with the files as they stand at that time. -/
abbrev Serving := Request × Files

/-- The schema that a request loads under a key: only from the file of its path, and in
its language. -/
def Serving.load? (e : Engine σ) (key : SchemaKind × Text) (a : Serving) : Option σ :=
  if a.1.kind = key.1 ∧ a.1.source = .file key.2 then (a.2 key.2).bind (e.load key.1) else none

/-- The schema that the first of some requests to load one under a key loads. -/
def firstLoad? (e : Engine σ) (key : SchemaKind × Text) (history : List Serving) : Option σ :=
  history.findSome? (Serving.load? e key)

/-- The schema that a request gets after some others: its own, or the one loaded first
from its file, or what the file gives now. -/
def schemaAfter? (e : Engine σ) (history : List Serving) (a : Serving) : Option σ :=
  match a.1.source with
  | .inline text => e.load a.1.kind text
  | .file path => (firstLoad? e (a.1.kind, path) history).or ((a.2 path).bind (e.load a.1.kind))

section

variable {files : Files} {cache : Cache σ} {r : Request} {path text : Text}

theorem load?_inline (key : SchemaKind × Text) (source : r.source = .inline text) :
    Serving.load? e key (r, files) = none :=
  if_neg fun h => by
    rw [source] at h
    cases h.2

theorem load?_file (source : r.source = .file path) :
    Serving.load? e (r.kind, path) (r, files) = (files path).bind (e.load r.kind) :=
  if_pos ⟨rfl, source⟩

theorem load?_other {key : SchemaKind × Text} (source : r.source = .file path)
    (other : key ≠ (r.kind, path)) : Serving.load? e key (r, files) = none :=
  if_neg fun h => by
    rw [source] at h
    cases h.2
    exact other (Prod.ext h.1.symm rfl)

theorem load?_eq_some_iff {key : SchemaKind × Text} {schema : σ} :
    Serving.load? e key (r, files) = some schema ↔
      r.kind = key.1 ∧ r.source = .file key.2
        ∧ (files key.2).bind (e.load key.1) = some schema := by
  rw [Serving.load?, Option.ite_none_right_eq_some, and_assoc]

/-! ## 2. Serving a request -/

/-- The four ways to a schema: it comes with the request, it is kept, or its file does
not load, or the file loads and the schema is kept from then on. -/
theorem schema?_cases (e : Engine σ) (files : Files) (cache : Cache σ) (r : Request) :
    (∃ text, r.source = .inline text
      ∧ Service.schema? e files cache r = (e.load r.kind text, cache))
    ∨ (∃ path schema, r.source = .file path ∧ List.lookup (r.kind, path) cache = some schema
      ∧ Service.schema? e files cache r = (some schema, cache))
    ∨ (∃ path, r.source = .file path ∧ List.lookup (r.kind, path) cache = none
      ∧ (files path).bind (e.load r.kind) = none
      ∧ Service.schema? e files cache r = (none, cache))
    ∨ (∃ path schema, r.source = .file path ∧ List.lookup (r.kind, path) cache = none
      ∧ (files path).bind (e.load r.kind) = some schema
      ∧ Service.schema? e files cache r = (some schema, ((r.kind, path), schema) :: cache)) := by
  rw [Service.schema?]
  cases r.source with
  | inline text => exact .inl ⟨text, rfl, rfl⟩
  | file path =>
    cases entry : List.lookup (r.kind, path) cache with
    | some schema => exact .inr (.inl ⟨path, schema, rfl, entry, by simp only [entry]⟩)
    | none =>
      cases loaded : (files path).bind (e.load r.kind) with
      | none => exact .inr (.inr (.inl ⟨path, rfl, entry, loaded, by simp only [entry, loaded]⟩))
      | some schema =>
        exact .inr (.inr (.inr ⟨path, schema, rfl, entry, loaded, by simp only [entry, loaded]⟩))

/-- Serving a request adds to each key what the request loads under it, unless the key
has an entry. -/
theorem lookup_serve (e : Engine σ) (files : Files) (cache : Cache σ) (r : Request)
    (key : SchemaKind × Text) :
    List.lookup key (Service.serve e files cache r).2
      = (List.lookup key cache).or (Serving.load? e key (r, files)) := by
  show List.lookup key (Service.schema? e files cache r).2 = _
  rcases schema?_cases e files cache r with ⟨text, source, given⟩
    | ⟨path, schema, source, entry, given⟩ | ⟨path, source, entry, failed, given⟩
    | ⟨path, schema, source, entry, loaded, given⟩ <;> rw [given]
  case inl => rw [load?_inline key source, Option.or_none]
  case inr.inl =>
    by_cases same : key = (r.kind, path)
    · rw [same, entry, Option.some_or]
    · rw [load?_other source same, Option.or_none]
  case inr.inr.inl =>
    by_cases same : key = (r.kind, path)
    · rw [same, load?_file source, failed, Option.or_none]
    · rw [load?_other source same, Option.or_none]
  case inr.inr.inr =>
    by_cases same : key = (r.kind, path)
    · rw [same, List.lookup_cons_self, entry, load?_file source, loaded, Option.none_or]
    · rw [List.lookup_cons, beq_false_of_ne same, load?_other source same, Option.or_none]

/-- The schemas stay as they are, unless a request loads the file of a key that has no
entry, which then gets one. -/
theorem cache_serve (e : Engine σ) (files : Files) (cache : Cache σ) (r : Request) :
    (Service.serve e files cache r).2 = cache
      ∨ ∃ path schema, r.source = .file path ∧ List.lookup (r.kind, path) cache = none
        ∧ (files path).bind (e.load r.kind) = some schema
        ∧ (Service.serve e files cache r).2 = ((r.kind, path), schema) :: cache := by
  rcases schema?_cases e files cache r with ⟨_, _, given⟩ | ⟨_, _, _, _, given⟩
    | ⟨_, _, _, _, given⟩ | ⟨path, schema, source, entry, loaded, given⟩
  case inr.inr.inr =>
    exact .inr ⟨path, schema, source, entry, loaded, congrArg Prod.snd given⟩
  all_goals exact .inl (congrArg Prod.snd given)

/-- The outcome of a request, where the schemas kept are those loaded first by others. -/
theorem outcome_serve {history : List Serving}
    (entries : ∀ key, List.lookup key cache = firstLoad? e key history) :
    (Service.serve e files cache r).1
      = Service.outcome e r (schemaAfter? e history (r, files)) := by
  have gets {path : Text} (source : r.source = .file path) : schemaAfter? e history (r, files)
      = (List.lookup (r.kind, path) cache).or ((files path).bind (e.load r.kind)) := by
    rw [schemaAfter?, source, entries]
  show Service.outcome e r (Service.schema? e files cache r).1 = _
  rcases schema?_cases e files cache r with ⟨text, source, given⟩
    | ⟨path, schema, source, entry, given⟩ | ⟨path, source, entry, failed, given⟩
    | ⟨path, schema, source, entry, loaded, given⟩ <;> rw [given]
  case inl => rw [schemaAfter?, source]
  case inr.inl => rw [gets source, entry, Option.some_or]
  case inr.inr.inl => rw [gets source, entry, failed, Option.none_or]
  case inr.inr.inr => rw [gets source, entry, loaded, Option.none_or]

end

/-! ## 3. Runs -/

namespace System

variable {s s' : System σ}

/-- The request that an event serves, with the files as they stand. -/
def serving? (s : System σ) : Event → Option Serving
  | .serve i =>
      match s.workers[i]? with
      | some (.holding (.request _ r)) => some (r, s.files)
      | _ => none
  | _ => none

/-- The requests that are served in the course of some events, in their order, each with
the files as they stood. -/
def history (e : Engine σ) : System σ → List Event → List Serving
  | _, [] => []
  | s, event :: events =>
      (s.serving? event).toList
        ++ ((step? e s event).map fun s => history e s events).getD []

/-- Only serving a request changes the schemas. -/
theorem cache_step {event : Event} (hs : step? e s event = some s') :
    (s.serving? event = none ∧ s'.cache = s.cache)
      ∨ ∃ i ticket r, event = .serve i ∧ s.workers[i]? = some (.holding (.request ticket r))
        ∧ s' = s.served e i ticket r := by
  cases event with
  | serve i =>
    rcases serve_cases hs with ⟨there, rfl⟩ | ⟨ticket, r, there, rfl⟩
    · exact .inl ⟨by rw [serving?, there], rfl⟩
    · exact .inr ⟨i, ticket, r, rfl, there, rfl⟩
  | _ =>
    simp only [step?] at hs
    (repeat' split at hs) <;> cases hs <;> exact .inl ⟨rfl, rfl⟩

theorem lookup_step {event : Event} (hs : step? e s event = some s') (key : SchemaKind × Text) :
    List.lookup key s'.cache
      = (List.lookup key s.cache).or (firstLoad? e key (s.serving? event).toList) := by
  rcases cache_step hs with ⟨none, same⟩ | ⟨i, ticket, r, rfl, there, rfl⟩
  · rw [same, none]
    exact Option.or_none.symm
  · rw [serving?, there, firstLoad?, Option.toList_some, List.findSome?_singleton]
    exact lookup_serve e s.files s.cache r key

theorem history_cons {event : Event} {events : List Event} (there : step? e s event = some s') :
    history e s (event :: events) = (s.serving? event).toList ++ history e s' events := by
  rw [history, there]
  rfl

/-- After some events each key has the entry it had before, or else what the first of
the requests served loads under it. -/
theorem lookup_run {events : List Event} (hs : run e s events = some s')
    (key : SchemaKind × Text) :
    List.lookup key s'.cache
      = (List.lookup key s.cache).or (firstLoad? e key (history e s events)) := by
  induction events generalizing s with
  | nil =>
    cases hs
    exact Option.or_none.symm
  | cons event events ih =>
    obtain ⟨next, there, rest⟩ := Option.bind_eq_some_iff.1 hs
    rw [ih rest, lookup_step there, history_cons there, firstLoad?, firstLoad?, firstLoad?,
      List.findSome?_append, Option.or_assoc]

/-- A key has one entry at most. -/
theorem nodup_step {event : Event} (hs : step? e s event = some s')
    (distinct : (s.cache.map Prod.fst).Nodup) : (s'.cache.map Prod.fst).Nodup := by
  rcases cache_step hs with ⟨_, same⟩ | ⟨i, ticket, r, rfl, _, rfl⟩
  · rwa [same]
  · show ((Service.serve e s.files s.cache r).2.map Prod.fst).Nodup
    rcases cache_serve e s.files s.cache r with same | ⟨path, schema, _, missing, _, grown⟩
    · rwa [same]
    · rw [grown, List.map_cons, List.nodup_cons]
      refine ⟨fun held => ?_, distinct⟩
      obtain ⟨entry, there, same⟩ := List.mem_map.1 held
      exact absurd same.symm (bne_iff_ne.1 (List.lookup_eq_none_iff.1 missing entry there))

theorem nodup_run {events : List Event} (hs : run e s events = some s')
    (distinct : (s.cache.map Prod.fst).Nodup) : (s'.cache.map Prod.fst).Nodup := by
  induction events generalizing s with
  | nil =>
    cases hs
    exact distinct
  | cons event events ih =>
    obtain ⟨next, there, rest⟩ := Option.bind_eq_some_iff.1 hs
    exact ih rest (nodup_step there distinct)

/-! ## 4. The schemas kept -/

/-- The schemas that a system keeps are those that the requests served so far loaded
first. -/
structure Keeps (e : Engine σ) (s : System σ) (history : List Serving) : Prop where
  /-- A key has an entry exactly if a request has loaded its file: what the first one
  made of the content at that time. -/
  entries : ∀ key schema, List.lookup key s.cache = some schema ↔
    ∃ earlier r files later, history = earlier ++ (r, files) :: later
      ∧ r.kind = key.1 ∧ r.source = .file key.2 ∧ (files key.2).bind (e.load key.1) = some schema
      ∧ ∀ a ∈ earlier, Serving.load? e key a = none
  /-- No key has two. -/
  distinct : (s.cache.map Prod.fst).Nodup
  /-- The next request served gets the schema of its own text, or the one loaded first
  from its file, whatever the file is now, or, if there is none, what the file gives now. -/
  served : ∀ i ticket r s', s.workers[i]? = some (.holding (.request ticket r)) →
    step? e s (.serve i) = some s' →
    s'.outcomes = s.outcomes
      ++ [(ticket, Service.outcome e r (schemaAfter? e history (r, s.files)))]
  /-- The next event leaves the entries as they are, unless it serves a request for a file
  whose key has none and which loads: then the key gets one. -/
  grows : ∀ event s', step? e s event = some s' → s'.cache = s.cache
    ∨ ∃ i ticket r path schema, event = .serve i
      ∧ s.workers[i]? = some (.holding (.request ticket r)) ∧ r.source = .file path
      ∧ List.lookup (r.kind, path) s.cache = none
      ∧ (s.files path).bind (e.load r.kind) = some schema
      ∧ s'.cache = ((r.kind, path), schema) :: s.cache
  /-- Whatever happens, entries stay. -/
  lasts : ∀ more s' key schema, run e s more = some s' → List.lookup key s.cache = some schema →
    List.lookup key s'.cache = some schema

/-- **The schemas kept are those loaded first**, by requests served at any time before,
in any order of the steps, with files that change and workers that come and go. -/
theorem keeps_first_loads (e : Engine σ) (files : Files) {events : List Event} {s : System σ}
    (hs : run e (idle files) events = some s) : Keeps e s (history e (idle files) events) := by
  have entries (key : SchemaKind × Text) :
      List.lookup key s.cache = firstLoad? e key (history e (idle files) events) :=
    (lookup_run hs key).trans (Option.none_or)
  refine ⟨fun key schema => ?entries, nodup_run hs .nil, fun i ticket r s' there after => ?served,
    fun event s' after => ?grows, fun more s' key schema after held => ?lasts⟩
  case entries =>
    simp only [entries, firstLoad?, List.findSome?_eq_some_iff, Prod.exists, load?_eq_some_iff,
      and_assoc]
  case served =>
    rw [step?, there] at after
    rw [← Option.some.inj after, ← outcome_serve entries]
    rfl
  case grows =>
    rcases cache_step after with ⟨_, same⟩ | ⟨i, ticket, r, rfl, there, rfl⟩
    · exact .inl same
    · rcases cache_serve e s.files s.cache r with
        same | ⟨path, schema, source, missing, loaded, grown⟩
      · exact .inl same
      · exact .inr ⟨i, ticket, r, path, schema, rfl, there, source, missing, loaded, grown⟩
  case lasts => rw [lookup_run after, held, Option.some_or]

/-- A request that is served at once by a worker. -/
def atOnce (r : Request) (worker : Nat) : List Event :=
  [.ask r, .send r, .take worker, .serve worker]

/-- Schemas of both languages at one path: the second one is asked for before it is
there, and the first one again when it is gone and another worker has come. -/
def rewritten : List Event :=
  let first := Request.ofFile .relaxng "<a/>" "a"
  let second := Request.ofFile .xsd "<a/>" "a"
  let pattern : Text :=
    "<element name='a' xmlns='http://relaxng.org/ns/structure/1.0'><empty/></element>"
  let declaration : Text :=
    "<schema xmlns='http://www.w3.org/2001/XMLSchema'><element name='a'/></schema>"
  [.edit "a" (some pattern), .start, .spawn] ++ atOnce first 0 ++ atOnce second 0
    ++ [.edit "a" (some declaration)] ++ atOnce second 0
    ++ [.stop, .take 0, .serve 0, .join, .edit "a" none, .start, .spawn] ++ atOnce first 1

/-- The outcomes of the four requests. -/
def rewrittenOutcomes : List (Nat × Outcome) :=
  [(0, .result (.success "a")), (1, .noSchema (.file "a")), (2, .result (.success "a")),
    (3, .result (.success "a"))]

theorem keeps_first_loads_rewritten :
    ∃ s, run Engine.simple (idle fun _ => none) rewritten = some s
      ∧ s.cache.map Prod.fst = [(SchemaKind.xsd, ("a" : Text)), (.relaxng, "a")]
      ∧ s.outcomes = rewrittenOutcomes
      ∧ Keeps Engine.simple s (history Engine.simple (idle fun _ => none) rewritten) := by
  have reached : (run Engine.simple (idle fun _ => none) rewritten).map
      (fun s => (s.cache.map Prod.fst, s.outcomes))
        = some ([(SchemaKind.xsd, ("a" : Text)), (.relaxng, "a")], rewrittenOutcomes) := by
    decide +kernel
  obtain ⟨s, hs, seen⟩ := Option.map_eq_some_iff.1 reached
  obtain ⟨keys, outcomes⟩ := Prod.mk.inj seen
  exact ⟨s, hs, keys, outcomes, keeps_first_loads Engine.simple (fun _ => none) hs⟩

end System

end Transcription.Validation
