import HappyView.Ingest.ApplyBatch
import HappyView.Records.Purge
import HappyView.Tid

/-!
# Applying one event

What an event does to the record tables: a record event upserts or deletes its record after
the hook, an account event buries or revives the account, a sync event drops what is held
for the account. Account and sync events act now, or, when they carry `asOfUs`, as of their
own time.
-/

namespace HappyView.Ingest

open HappyView.Records HappyView.Tid

structure Site where
  isTracked : String → Bool
  /-- The collections an external storage claims; these are not in the tables. -/
  claims : String → Bool
  /-- What the CID check and the hook make of a create or update. -/
  hook : RecordEvent → String → HookedBody
  deleteHook : RecordEvent → Bool

structure Moment where
  nowUs : Int
  now : String
  backfillRunning : Bool
  activeAtPds : Bool
  /-- The external storage holds records of the account, or cannot say. -/
  holdsExternal : Bool

/-! ## Record events -/

def applyLocal (site : Site) (moment : Moment) (s : Store) (ev : RecordEvent) : Store :=
  match ev.action with
  | .create | .update =>
    match ev.body.map (site.hook ev) with
    | some (.store body) => (s.writeNetwork moment.nowUs [prepare ev body]).1
    | _ => s
  | .delete =>
    if site.deleteHook ev then s
    else s.deleteNetwork ev.key.uri ev.key.did ev.key.collection ev.rev moment.now
      moment.backfillRunning

def Site.change (site : Site) (ev : RecordEvent) : Option (Option PreparedRecord) :=
  match ev.action with
  | .create | .update =>
    match ev.body.map (site.hook ev) with
    | some (.store body) => some (some (prepare ev body))
    | _ => none
  | .delete => if site.deleteHook ev then none else some none

theorem applyLocal_eq (site : Site) (moment : Moment) (s : Store) (ev : RecordEvent) :
    applyLocal site moment s ev =
      match site.change ev with
      | none => s
      | some (some rec) => (s.writeNetwork moment.nowUs [rec]).1
      | some none => s.deleteNetwork ev.key.uri ev.key.did ev.key.collection ev.rev moment.now
          moment.backfillRunning := by
  unfold applyLocal Site.change
  cases ev.action with
  | delete => cases site.deleteHook ev <;> rfl
  | _ =>
    cases ev.body.map (site.hook ev) with
    | none => rfl
    | some hooked => cases hooked <;> rfl

def Site.keeps (site : Site) (collection : String) : Bool :=
  collection ≠ lexiconSchemaCollection && site.isTracked collection && !site.claims collection

def applyRecord (site : Site) (moment : Moment) (s : Store) (ev : RecordEvent) : Store :=
  if site.keeps ev.key.collection then applyLocal site moment s ev else s

/-! ## Account events -/

def holdsRecords (moment : Moment) (s : Store) (did : String) : Bool :=
  s.holdsLocalNetworkRecords did none none || moment.holdsExternal

/-- A deletion (`status` is `none`) of an account with records here is not believed if the
account's PDS says that it is active. The tombstone goes first, so that a backfill write
that races the purge is refused. -/
def accountPurged (moment : Moment) (s : Store) (did : String) (witnessedUs : Int)
    (status before : Option String) (collections : Option (List String)) : Store :=
  if status.isNone && holdsRecords moment s did && moment.activeAtPds then s
  else (s.writeDidTombstone did (tidFromUnixMicroseconds witnessedUs) moment.now).purge did
    collections before

/-- Lift the account's tombstone; a replayed reactivation only one older than itself. -/
def accountActive (s : Store) (did : String) (before : Option String) : Store :=
  match s.didTombstoneRev did with
  | none => s
  | some stored => if before.any (· ≤ stored) then s else s.liftDidTombstone did before

def accountEvent (moment : Moment) (s : Store) (ev : AccountEvent) : Store :=
  let before := ev.asOfUs.map tidFromUnixMicroseconds
  let witnessed := (ev.timeUs.or ev.asOfUs).getD moment.nowUs
  if ev.active then accountActive s ev.did before
  else if ev.status = some "deleted" then
    accountPurged moment s ev.did witnessed none before ev.collections
  else if ev.status = some "takendown" ∨ ev.status = some "suspended" then
    accountPurged moment s ev.did witnessed ev.status before ev.collections
  -- A deactivated account keeps its records: only a log line tells.
  else s

section Accounts

variable {moment : Moment} {s : Store} {did : String} {before : Option String}

theorem accountPurged_eq {status : Option String} {collections : Option (List String)}
    (believed : status = none → moment.activeAtPds = false) (witnessedUs : Int) :
    accountPurged moment s did witnessedUs status before collections =
      (s.writeDidTombstone did (tidFromUnixMicroseconds witnessedUs) moment.now).purge did
        collections before := by
  refine if_neg fun refused => ?_
  simp only [Bool.and_eq_true, Option.isNone_iff_eq_none] at refused
  rw [believed refused.1.1] at refused
  cases refused.2

@[simp] theorem accountActive_records : (accountActive s did before).records = s.records := by
  unfold accountActive
  split
  · rfl
  · split <;> simp

@[simp] theorem accountActive_recordTombstones :
    (accountActive s did before).recordTombstones = s.recordTombstones := by
  unfold accountActive
  split
  · rfl
  · split <;> simp

theorem didTombstoneRev_accountActive :
    (accountActive s did before).didTombstoneRev did =
      (s.didTombstoneRev did).filter fun rev => before.any (· ≤ rev) := by
  unfold accountActive
  split
  · rename_i held
    simp [held]
  · rename_i stored held
    split
    · rename_i newer
      simp [held, Option.filter_some, newer]
    · exact Store.didTombstoneRev_liftDidTombstone before

end Accounts

/-! ## Sync events -/

/-- The repo's authoritative records follow as creates, so what is held goes. -/
def repoResynced (s : Store) (did : String) (tracked : List String) (before : Option String) :
    Store :=
  s.purge did (some (tracked.filter (· ≠ lexiconSchemaCollection))) before

/-- `registered` is what a sync event without collections of its own purges. -/
def syncEvent (registered : List String) (s : Store) (ev : SyncEvent) : Store :=
  repoResynced s ev.did (ev.collections.getD registered)
    (ev.asOfUs.map fun t => ev.rev.getD (tidFromUnixMicroseconds t))

def apply (site : Site) (registered : List String) (moment : Moment) (s : Store) :
    SourceEvent → Store
  | .record ev => applyRecord site moment s ev
  | .account ev => accountEvent moment s ev
  | .sync ev => syncEvent registered s ev
  | .identity _ _ => s

end HappyView.Ingest
