import HappyView.Consumer.Workers
import HappyView.Ingest.Apply

/-!
# Applying a consumer's event

A commit goes through the ingest pipeline as a live record event; account, sync and identity
events go through it acting now. `applyReplayedMarker` applies an account or sync event from
the archive as of its own time.
-/

namespace HappyView.Consumer

open HappyView.Records HappyView.Ingest

structure Commit where
  rev : Option String
  operation : String
  collection : String
  rkey : String
  record : Option String
  cid : Option String
  deriving DecidableEq

inductive EventKind where
  | commit (commit : Commit)
  | identity (handle : Option String)
  | account (active : Bool) (status : Option String)
  | sync (rev : Option String)
  deriving DecidableEq

def parseAction : String → Option Ingest.Action
  | "create" => some .create
  | "update" => some .update
  | "delete" => some .delete
  | _ => none

def Commit.key (commit : Commit) (did : String) : RecordKey :=
  ⟨did, commit.collection, commit.rkey⟩

def Commit.recordEvent (commit : Commit) (did : String) (action : Ingest.Action) : RecordEvent where
  key := commit.key did
  action := action
  cid := commit.cid
  rev := commit.rev
  body := commit.record
  origin := .live
  stored := false

/-- The ingest event for an account, sync or identity event. `syncScope` is what a sync
purges; an account purge is not scoped. -/
def markerEvent (did : String) (cursor : CursorPoint) (kind : EventKind) (asOfUs : Option Int)
    (syncScope : List String) : Option SourceEvent :=
  match kind with
  | .account active status =>
    some (.account ⟨did, active, status, asOfUs, some cursor.timeUs, none⟩)
  | .sync rev => some (.sync ⟨did, rev, asOfUs, some syncScope⟩)
  | .identity handle => some (.identity did handle)
  | .commit _ => none

section Apply

variable (site : Site) (tracked : List String) (moment : Moment) (s : Store)

def applyCommit (did : String) (commit : Commit) : Store :=
  match parseAction commit.operation with
  | some action => Ingest.apply site tracked moment s (.record (commit.recordEvent did action))
  | none => s

def applyMarker (event : Event EventKind) (asOfUs : Option Int) : Store :=
  match markerEvent event.did event.cursor event.kind asOfUs tracked with
  | some marker => Ingest.apply site tracked moment s marker
  | none => s

def applyEvent (event : Event EventKind) : Store :=
  match event.kind with
  | .commit commit => applyCommit site tracked moment s event.did commit
  | _ => applyMarker site tracked moment s event none

def applyReplayedMarker (event : Event EventKind) : Store :=
  match event.kind with
  | .commit _ | .identity _ => s
  | _ => applyMarker site tracked moment s event (some event.cursor.timeUs)

end Apply

end HappyView.Consumer
