import HappyView.Consumer.Apply
import HappyView.Foundation.Procedure

/-!
# Archive rows, and folding them into the record store

The archive holds rows in blocks; a replay decodes a block, keeps the rows its filter matches,
and turns each into the event that live ingest would have applied. The fold hands creates and
updates to the ingest pipeline in batches and everything else one at a time, each after the
buffered events it must not overtake.

The world answers what a replay asks of it: a `Reply` for each request, write or download, from a
script. Where the script ends, the process is gone.
-/

namespace HappyView.Backfill

open HappyView.Foundation HappyView.Ingest HappyView.Records
open HappyView.Consumer (Event EventKind Commit markerEvent)

/-! ## Rows -/

structure Row where
  seq : Nat
  witnessedAt : Int
  kind : Nat
  collection : String
  did : String
  rkey : String
  rev : String
  payload : List UInt8
  deriving DecidableEq

def kindCreate : Nat := 1
def kindUpdate : Nat := 2
def kindDelete : Nat := 3
def kindAccount : Nat := 5
def kindSync : Nat := 6
def kindResyncCreate : Nat := 7

def isCommit (kind : Nat) : Bool :=
  kind ∈ [kindCreate, kindUpdate, kindDelete, kindResyncCreate]

def isMarker (kind : Nat) : Bool := kind ∈ [kindAccount, kindSync]

inductive RowKinds where
  | commits
  | markers
  | both
  deriving DecidableEq

structure RowFilter where
  kinds : RowKinds
  /-- Collections a commit must be in. Markers have none. -/
  collections : List String
  dids : Option (List String)
  afterSeq : Nat
  /-- Inclusive: the sweep's pinned tip. -/
  throughSeq : Nat

/-- What `keep` asks of a row besides its place. -/
def RowFilter.selects (filter : RowFilter) (row : Row) : Bool :=
  let kindOk := match filter.kinds with
    | .commits => isCommit row.kind
    | .markers => isMarker row.kind
    | .both => isCommit row.kind || isMarker row.kind
  if !kindOk then false
  else if isCommit row.kind && !filter.collections.contains row.collection then false
  else filter.dids.all (·.contains row.did)

def RowFilter.keep (filter : RowFilter) (row : Row) : Bool :=
  if row.seq ≤ filter.afterSeq || row.seq > filter.throughSeq then false else filter.selects row

structure Decoders where
  /-- `dag_cbor_to_json`. -/
  record : List UInt8 → Except String String
  /-- `dag_cbor_cid`. -/
  cid : List UInt8 → Option String
  account : List UInt8 → Except String (Bool × Option String)
  sync : List UInt8 → Except String (Option String)

section Rows

variable (decoders : Decoders)

def Row.commit (row : Row) (operation : String) (record cid : Option String) : EventKind :=
  .commit ⟨if row.rev.isEmpty then none else some row.rev, operation, row.collection, row.rkey,
    record, cid⟩

/-- The kind of event a row stands for; `none` for kinds that are not replayed. -/
def Row.eventKind (row : Row) : Except String (Option EventKind) :=
  if row.kind = kindDelete then .ok (some (row.commit "delete" none none))
  else if isCommit row.kind then do
    let record ← (decoders.record row.payload).mapError fun e =>
      "record at seq " ++ toString row.seq ++ " does not decode: " ++ e
    match decoders.cid row.payload with
    | none => .error ("record at seq " ++ toString row.seq ++ " has no CID")
    | some cid =>
      let operation := if row.kind = kindUpdate then "update" else "create"
      .ok (some (row.commit operation (some record) (some cid)))
  else if row.kind = kindAccount then do
    let (active, status) ← (decoders.account row.payload).mapError fun e =>
      "account marker at seq " ++ toString row.seq ++ " does not decode: " ++ e
    .ok (some (.account active status))
  else if row.kind = kindSync then do
    let rev ← (decoders.sync row.payload).mapError fun e =>
      "sync marker at seq " ++ toString row.seq ++ " does not decode: " ++ e
    .ok (some (.sync rev))
  else .ok none

def rowToEvent (row : Row) : Except String (Option (Event EventKind)) :=
  (row.eventKind decoders).map fun kind =>
    kind.map fun kind => ⟨row.did, .v2 row.seq row.witnessedAt, kind⟩

end Rows

/-! ## Sweeps -/

inductive SweepKind where
  | commits
  | markers
  deriving DecidableEq

structure Sweep where
  kind : SweepKind
  collections : List String
  dids : Option (List String)
  afterSeq : Nat
  cursorSeq : Nat
  tipSeq : Option Nat := none
  done : Bool := false
  deriving DecidableEq

structure ReplayDb where
  sweep : Sweep
  /-- The blocks recorded as failed; without an index, a whole segment. -/
  failures : List (String × Option Nat) := []
  /-- The events the ingest pipeline is through with, and what became of each. -/
  settled : List (Event EventKind × IngestOutcome) := []

/-! ## The world -/

inductive ArchiveError where
  | noArchive
  | unreachable
  | unauthorized
  | other (message : String)
  deriving DecidableEq

inductive Halt where
  | crashed
  | stopped
  | noArchive (error : ArchiveError)
  | failed (message : String)
  deriving DecidableEq

structure PlanRequest where
  kinds : List String
  collections : List String
  dids : List String
  afterSeq : Nat
  beforeSeq : Option Nat
  deriving DecidableEq

inductive PlanMode where
  | segment
  | blocks
  deriving DecidableEq

structure PlanEntry where
  name : String
  maxSeq : Nat
  mode : PlanMode
  blocks : List (Nat × Nat) := []
  deriving DecidableEq

structure PlanPage where
  plannedThroughSeq : Nat
  sealedTipSeq : Nat
  segments : List PlanEntry := []
  deriving DecidableEq

structure Reply where
  stop : Bool := false
  plan : PlanRequest → Except ArchiveError PlanPage := fun _ => .error .unreachable
  /-- Why a download, a read or a decoding failed, and whether that is an outage. -/
  failure : Option (String × Bool) := none
  outcome : SourceEvent → IngestOutcome := fun _ => .matched
  error : Option String := none
  written : Bool := true
  /-- Whether one that fails has taken effect all the same. -/
  applied : Bool := false

structure ReplayFold where
  pending : List (Event EventKind) := []

structure Run where
  fold : ReplayFold := {}
  entryFailures : List (String × Option Nat × String) := []
  consecutiveFailures : Nat := 0

structure World where
  db : ReplayDb
  run : Run := {}
  script : List Reply
  /-- What `ingest` and `ingest_batch` were called with. -/
  handed : List SourceEvent := []

abbrev Replay := Procedure World Halt

def ask : Replay Reply := do
  match (← get).script with
  | [] => throw .crashed
  | reply :: rest =>
    modify fun w => { w with script := rest }
    return reply

/-! ## The fold -/

def foldBatch : Nat := 200

section Fold

variable (jobId : String) (tracked : List String)

def upsertEvent (event : Event EventKind) (commit : Commit) (record : String) : SourceEvent :=
  .record {
    key := commit.key event.did
    action := if commit.operation = "update" then .update else .create
    cid := commit.cid
    rev := commit.rev
    body := some record
    origin := .backfill jobId
    stored := false }

def deleteEvent (event : Event EventKind) (commit : Commit) : SourceEvent :=
  .record {
    key := commit.key event.did
    action := .delete
    cid := none
    rev := commit.rev
    body := none
    origin := .backfill jobId
    stored := false }

def bufferedEvent (event : Event EventKind) : Option SourceEvent :=
  match event.kind with
  | .commit commit => commit.record.map (upsertEvent jobId event commit)
  | _ => none

def pendingUri (event : Event EventKind) : Option String :=
  match event.kind with
  | .commit commit => some (commit.key event.did).uri
  | _ => none

def ingest (events : List SourceEvent) : Replay Reply := do
  modify fun w => { w with handed := w.handed ++ events }
  ask

def settle (settled : List (Event EventKind × IngestOutcome)) : Replay Unit :=
  modify fun w => { w with db := { w.db with settled := w.db.settled ++ settled } }

def setPending (pending : List (Event EventKind)) : Replay Unit :=
  modify fun w => { w with run := { w.run with fold := ⟨pending⟩ } }

def flush : Replay Unit := do
  let batch := (← get).run.fold.pending
  if batch.isEmpty then return
  setPending []
  let reply ← ingest (batch.filterMap (bufferedEvent jobId))
  let outcomes := batch.map fun event =>
    (event, (bufferedEvent jobId event).elim .skipped reply.outcome)
  match reply.error with
  | some e => throw (.failed
      ("writing " ++ toString batch.length ++ " replayed records failed: " ++ e))
  | none =>
    if outcomes.any (·.2.isFailure) then throw (.failed
      ("writing " ++ toString batch.length ++ " replayed records failed; see the record event log"))
    else settle outcomes

/-- Hand one event to the pipeline, which must not answer with what `refused` holds of. -/
def ingestOne (event : Event EventKind) (source : SourceEvent) (refused : IngestOutcome → Bool)
    (message : Option String → String) : Replay Unit := do
  let reply ← ingest [source]
  if refused (reply.outcome source) then throw (.failed (message reply.error))
  else settle [(event, reply.outcome source)]

def apply (event : Event EventKind) : Replay Unit := do
  let pending := (← get).run.fold.pending
  match event.kind with
  | .commit commit =>
    let uri := (commit.key event.did).uri
    if commit.operation = "delete" then
      if pending.any fun buffered => pendingUri buffered == some uri then flush jobId
      ingestOne event (deleteEvent jobId event commit) (·.isFailure) fun _ =>
        "deleting " ++ uri ++ " failed; see its record event log"
    else
      match commit.record with
      | none => return
      | some _ =>
        setPending (pending ++ [event])
        if pending.length + 1 ≥ foldBatch then flush jobId
  | .account .. | .sync _ =>
    if pending.any (·.did == event.did) then flush jobId
    match markerEvent event.did event.cursor event.kind (some event.cursor.timeUs) tracked with
    | none => return
    | some marker =>
      ingestOne event marker (fun outcome => outcome.isFailure || outcome = .invalid)
        (·.getD "")
  | .identity _ => return

end Fold

end HappyView.Backfill
