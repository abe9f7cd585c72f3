import HappyView.Records.Store

/-!
# Events of a record source

What every source hands to the ingest pipeline, and what the pipeline answers.
-/

namespace HappyView.Ingest

open HappyView.Records

inductive Action where
  | create
  | update
  | delete
  deriving DecidableEq

inductive Origin where
  | live
  | backfill (jobId : String)
  | retry
  deriving DecidableEq

structure RecordEvent where
  key : RecordKey
  action : Action
  cid : Option String
  /-- The repo commit's rev, when the source has it. -/
  rev : Option String
  body : Option String
  origin : Origin
  /-- The body already lives in the external storage that claims the collection. -/
  stored : Bool
  deriving DecidableEq

structure AccountEvent where
  did : String
  active : Bool
  status : Option String
  /-- Set for a replayed marker: act as of that time. -/
  asOfUs : Option Int
  timeUs : Option Int
  collections : Option (List String)
  deriving DecidableEq

structure SyncEvent where
  did : String
  rev : Option String
  asOfUs : Option Int
  collections : Option (List String)
  deriving DecidableEq

inductive SourceEvent where
  | record (ev : RecordEvent)
  | account (ev : AccountEvent)
  | sync (ev : SyncEvent)
  | identity (did : String) (handle : Option String)
  deriving DecidableEq

inductive IngestOutcome where
  | matched
  | skipped
  | schemaEvent
  | errored
  | unavailable
  /-- The event can never apply as it stands. -/
  | invalid
  deriving DecidableEq

def IngestOutcome.isFailure : IngestOutcome → Bool
  | .errored | .unavailable => true
  | _ => false

structure BatchOutcome where
  outcomes : List IngestOutcome := []
  /-- Whether each event changed what is stored. -/
  changed : List Bool := []
  deriving DecidableEq

def lexiconSchemaCollection : String := "com.atproto.lexicon.schema"

end HappyView.Ingest
