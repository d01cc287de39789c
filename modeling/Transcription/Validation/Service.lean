/-
Transcription.Validation.Service — a validation service: a queue of requests
and a worker that serves them one after the other.

Requests are accepted while the worker lives, and each one gets a ticket. A
schema from a file is kept for the life of the service once it has been
loaded; one that cannot be loaded is tried again by the next request, and
one that comes with the request is not kept. Stopping serves what is queued
and then ends the worker.
-/
import Transcription.Validation.Schema

namespace Transcription.Validation

/-- How schemas are loaded from their texts and documents checked; either may
break down. -/
structure Engine (σ : Type) where
  load : SchemaKind → Text → Option σ
  issues : σ → Text → Option (List Issue)

/-- The engine for schemas of simple documents; its checks never break
down. -/
def Engine.simple : Engine Rule :=
  ⟨Rule.ofText?, fun rule xml => some (rule.issues xml)⟩

/-- Where the schema of a request comes from. -/
inductive SchemaSource where
  | file (path : Text)
  | inline (text : Text)
  deriving DecidableEq, Repr

/-- A request to validate a document. -/
structure Request where
  kind : SchemaKind
  xml : Text
  schemaName : Text
  source : SchemaSource
  deriving DecidableEq, Repr

/-- The last component of a path: empty ones and single points are no components. -/
def fileName (path : Text) : Text :=
  ((List.splitOn '/' path).filter fun part => part ≠ [] ∧ part ≠ ".").getLast?.getD []

/-- The last component of a path without its last suffix; a point at the start or the end of
the component begins no suffix. -/
def stem (path : Text) : Text :=
  let name := fileName path
  let suffix := name.reverse.takeWhile (· ≠ '.')
  let before := name.take (name.length - suffix.length - 1)
  if suffix.isEmpty || before.isEmpty then name else before

/-- Directories do not count for the name of a file. -/
theorem stem_directory (directory path : Text) (h : fileName path ≠ []) :
    stem (directory ++ '/' :: path) = stem path := by
  have same : fileName (directory ++ '/' :: path) = fileName path := by
    unfold fileName at h ⊢
    rw [List.splitOn_append_cons_self, List.filter_append, List.getLast?_append]
    cases last : ((List.splitOn '/' path).filter fun part => part ≠ [] ∧ part ≠ ".").getLast? with
    | none => exact absurd (by rw [last]; rfl) h
    | some name => rfl
  unfold stem
  rw [same]

example : stem "schemas/menota.rng" = "menota" := by decide

/-- A request with a schema from a file, which gives the schema its name. -/
def Request.ofFile (kind : SchemaKind) (xml path : Text) : Request :=
  ⟨kind, xml, stem path, .file path⟩

/-- A request that brings its schema along. -/
def Request.ofText (kind : SchemaKind) (xml schema name : Text) : Request :=
  ⟨kind, xml, name, .inline schema⟩

/-- What becomes of a request: a result, a schema that cannot be loaded, or a
check that broke down. -/
inductive Outcome where
  | result (r : Result)
  | noSchema (source : SchemaSource)
  | unchecked (schemaName : Text)
  deriving DecidableEq, Repr

/-- The text of the fault of a schema with a name. -/
def schemaMessage (name message : Text) : Text :=
  "Schema '" ++ name ++ "': " ++ message

/-- What a request is refused with while no worker lives. -/
def refusal : Text := "Validation worker is not running"

/-- What stands in the queue: a request with its ticket, or the sign for the
worker to end. -/
inductive Item where
  | request (ticket : Nat) (r : Request)
  | stop
  deriving DecidableEq, Repr

/-- Loaded schemas by language and path. -/
abbrev Cache (σ : Type) := List ((SchemaKind × Text) × σ)

/-- The files that schemas are read from. -/
abbrev Files := Text → Option Text

/-- A service: whether its worker lives, its queue, the schemas it keeps,
the outcomes by ticket, and the next ticket. -/
structure Service (σ : Type) where
  alive : Bool
  queue : List Item
  cache : Cache σ
  outcomes : List (Nat × Outcome)
  nextTicket : Nat

namespace Service

variable {σ : Type}

/-- A service that has not been started. -/
def idle : Service σ :=
  ⟨false, [], [], [], 0⟩

/-! ## 1. The worker -/

/-- The schema of a request, and the schemas kept afterwards. -/
def schema? (e : Engine σ) (files : Files) (cache : Cache σ) (r : Request) :
    Option σ × Cache σ :=
  match r.source with
  | .inline text => (e.load r.kind text, cache)
  | .file path =>
      match List.lookup (r.kind, path) cache with
      | some schema => (some schema, cache)
      | none =>
          match (files path).bind (e.load r.kind) with
          | some schema => (some schema, ((r.kind, path), schema) :: cache)
          | none => (none, cache)

/-- The outcome of checking the document of a request against its schema. -/
def outcome (e : Engine σ) (r : Request) : Option σ → Outcome
  | none => .noSchema r.source
  | some schema =>
      match e.issues schema r.xml with
      | some issues => .result (.ofIssues r.schemaName issues)
      | none => .unchecked r.schemaName

/-- The outcome of a request, and the schemas kept afterwards. -/
def serve (e : Engine σ) (files : Files) (cache : Cache σ) (r : Request) : Outcome × Cache σ :=
  let (schema, cache) := schema? e files cache r
  (outcome e r schema, cache)

/-- The worker takes the next item of the queue and serves it. -/
def step (e : Engine σ) (files : Files) (s : Service σ) : Service σ :=
  if s.alive then
    match s.queue with
    | [] => s
    | .stop :: queue => { s with queue := queue, alive := false }
    | .request ticket r :: queue =>
        let (outcome, cache) := serve e files s.cache r
        { s with queue := queue, cache := cache, outcomes := s.outcomes ++ [(ticket, outcome)] }
  else s

/-- The worker makes a number of steps. -/
def steps (e : Engine σ) (files : Files) : Nat → Service σ → Service σ
  | 0, s => s
  | n + 1, s => steps e files n (step e files s)

/-- The worker serves all that is queued. -/
def drain (e : Engine σ) (files : Files) (s : Service σ) : Service σ :=
  steps e files s.queue.length s

/-! ## 2. The client -/

/-- Start the worker, unless it lives. -/
def start (s : Service σ) : Service σ :=
  { s with alive := true }

/-- Put the sign to end at the end of the queue and wait for the worker. -/
def stop (e : Engine σ) (files : Files) (s : Service σ) : Service σ :=
  if s.alive then drain e files { s with queue := s.queue ++ [.stop] } else s

/-- Put a request at the end of the queue and hand out its ticket; refused
while no worker lives. -/
def submit (s : Service σ) (r : Request) : Option (Nat × Service σ) :=
  if s.alive then
    some (s.nextTicket,
      { s with queue := s.queue ++ [.request s.nextTicket r], nextTicket := s.nextTicket + 1 })
  else none

/-- Submit a request and wait for its outcome; refused while no worker
lives. -/
def request (e : Engine σ) (files : Files) (s : Service σ) (r : Request) :
    Option (Outcome × Service σ) := do
  let (ticket, s) ← submit s r
  let s := drain e files s
  let outcome ← List.lookup ticket s.outcomes
  return (outcome, s)

end Service

end Transcription.Validation
