import HappyView.Foundation.Text
import Mathlib.Data.List.AList
import Mathlib.Data.String.Basic

/-!
# The record tables

Records are keyed by DID, collection and record key; deletes leave a tombstone keyed
by the record's `at://` URI, and account deletions one keyed by the DID. A network
write is skipped when a tombstone supersedes its rev, and otherwise upserted under the
guards of the `ON CONFLICT` clause of its kind. Revs are TIDs, compared as strings.

Each function is one committed transaction of the source, so it maps the tables before
to the tables after. The refs table and the interning of DIDs and collections are not
part of the model: no guard reads them.
-/

namespace HappyView.Records

open HappyView.Foundation

structure RecordKey where
  did : String
  collection : String
  rkey : String
  deriving DecidableEq

def RecordKey.uri (key : RecordKey) : String :=
  "at://" ++ key.did ++ "/" ++ key.collection ++ "/" ++ key.rkey

/-- The DID, collection and record key of `at://did/collection/rkey`. -/
def parseRecordUri (uri : String) : Option (String × String × String) :=
  match (Text.strip "at://" uri).map (Text.split '/') with
  | some [did, collection, rkey] =>
    if did.isEmpty || collection.isEmpty || rkey.isEmpty then none else some (did, collection, rkey)
  | _ => none

structure PreparedRecord where
  key : RecordKey
  recordJson : String
  cid : String
  /-- The commit rev when the source carries one. -/
  rev : Option String
  deriving DecidableEq

structure Row where
  record : String
  cid : String
  rev : Option String
  /-- When the network delivered it, in microseconds; `none` while a local write
  awaits its echo. -/
  indexedAt : Option Int
  createdAt : Int
  deriving DecidableEq

structure Tombstone where
  rev : String
  deletedAt : String
  deriving DecidableEq

structure Store where
  records : AList (fun _ : RecordKey => Row) := ∅
  recordTombstones : AList (fun _ : String => Tombstone) := ∅
  didTombstones : AList (fun _ : String => Tombstone) := ∅

inductive WriteKind where
  | network
  | echoed
  | indexOnly
  deriving DecidableEq

/-! ## Tombstones -/

/-- Whether a tombstone at `tombstoneRev` supersedes a write at `rev`. -/
def superseded (tombstoneRev : String) : Option String → Bool
  | none => true
  | some rev => rev ≤ tombstoneRev

namespace Store

/-- The URIs among `candidates` that a record or DID tombstone supersedes. -/
def blockedWrites (s : Store) (candidates : List PreparedRecord) : List String :=
  (candidates.filter fun rec =>
    (s.recordTombstones.lookup rec.key.uri).any (superseded ·.rev rec.rev) ||
      (s.didTombstones.lookup rec.key.did).any (superseded ·.rev rec.rev)).map (·.key.uri)

/-- Record that `uri` was deleted at `rev`. A repeated delete keeps the newest rev. -/
def writeRecordTombstone (s : Store) (uri rev now : String) : Store :=
  match s.recordTombstones.lookup uri with
  | none => { s with recordTombstones := s.recordTombstones.insert uri ⟨rev, now⟩ }
  | some tombstone =>
    if tombstone.rev < rev then
      { s with recordTombstones := s.recordTombstones.insert uri ⟨rev, now⟩ }
    else s

end Store

/-! ## Upserts -/

def PreparedRecord.row (rec : PreparedRecord) (kind : WriteKind) (now : Int) : Row where
  record := rec.recordJson
  cid := rec.cid
  rev := if kind = .network then rec.rev else none
  indexedAt := if kind = .network then some now else none
  createdAt := now

/-- The `ON CONFLICT` clause of `kind`; `none` when its `WHERE` leaves the row alone. -/
def Row.onConflict (row excluded : Row) : WriteKind → Option Row
  | .network =>
    if (row.cid ≠ excluded.cid ∨ row.record ≠ excluded.record ∨ row.indexedAt = none) ∧
        (∀ stored ∈ row.rev, ∀ rev ∈ excluded.rev, stored ≤ rev) then
      some { row with
        record := excluded.record
        cid := excluded.cid
        indexedAt := excluded.indexedAt
        rev := excluded.rev.or row.rev }
    else none
  | .echoed => some { row with record := excluded.record, cid := excluded.cid, indexedAt := none }
  | .indexOnly => some { row with record := excluded.record }

/-- The last copy of each URI in `records`. -/
def lastCopies : List PreparedRecord → List PreparedRecord
  | [] => []
  | rec :: rest =>
    if rest.any (·.key.uri = rec.key.uri) then lastCopies rest else rec :: lastCopies rest

namespace Store

def upsertRow (kind : WriteKind) (now : Int) (s : Store) (rec : PreparedRecord) :
    Store × List String :=
  let row := match s.records.lookup rec.key with
    | none => some (rec.row kind now)
    | some row => row.onConflict (rec.row kind now) kind
  match row with
  | none => (s, [])
  | some row => ({ s with records := s.records.insert rec.key row }, [rec.key.uri])

def upsertRows (kind : WriteKind) (now : Int) (s : Store) :
    List PreparedRecord → Store × List String
  | [] => (s, [])
  | rec :: rest =>
    let (s, changed) := s.upsertRow kind now rec
    let (s, more) := s.upsertRows kind now rest
    (s, changed ++ more)

/-- Only a network batch is checked against the tombstones, all of it before any row. -/
def upsertBatch (s : Store) (kind : WriteKind) (now : Int) (records : List PreparedRecord) :
    Store × List String :=
  let records := lastCopies records
  match kind with
  | .network =>
    let blocked := s.blockedWrites records
    s.upsertRows kind now (records.filter fun rec => rec.key.uri ∉ blocked)
  | .echoed | .indexOnly => s.upsertRows kind now records

def writeNetwork (s : Store) (now : Int) (records : List PreparedRecord) : Store × List String :=
  s.upsertBatch .network now records

/-- One local write. A collection the external storage claims never touches the tables. -/
def writeLocal (claims : String → Bool) (s : Store) (kind : WriteKind) (now : Int)
    (rec : PreparedRecord) : Except String Store :=
  if kind = .network then
    .error "a network write goes through upsert_batch, not write_local"
  else if claims rec.key.collection then .ok s
  else .ok (s.upsertRows kind now [rec]).1

/-! ## Deletes -/

def find (s : Store) (key : RecordKey) : Option (Option String) :=
  (s.records.lookup key).map Row.rev

def deleteRow (s : Store) (key : RecordKey) : Store :=
  { s with records := s.records.erase key }

/-- Whether a create for a record without a row could still arrive: the account holds
network records in the collection, or a backfill may still write. -/
def createMayFollow (s : Store) (did collection : String) (backfillRunning : Bool) : Bool :=
  (s.records.entries.any fun entry =>
    entry.1.did = did && entry.1.collection = collection && entry.2.indexedAt.isSome) ||
    backfillRunning

/-- A delete without a rev: the row goes whatever its rev, which its tombstone keeps. -/
def deleteUnordered (s : Store) (uri : String) (key : RecordKey) (now : String) : Store :=
  match s.find key with
  | none => s
  | some none => s.deleteRow key
  | some (some stored) => (s.deleteRow key).writeRecordTombstone uri stored now

/-- A delete that carries a rev deletes only a row whose rev is unknown or not newer and,
unless a newer row survives it, leaves a tombstone. -/
def deleteOrdered (s : Store) (uri : String) (key : RecordKey) (rev now : String)
    (backfillRunning : Bool) : Store :=
  match s.find key with
  | none =>
    if s.createMayFollow key.did key.collection backfillRunning then
      s.writeRecordTombstone uri rev now
    else s
  | some stored =>
    if ∀ held ∈ stored, held ≤ rev then (s.deleteRow key).writeRecordTombstone uri rev now
    else s

def deleteNetwork (s : Store) (uri did collection : String) (rev : Option String) (now : String)
    (backfillRunning : Bool) : Store :=
  let rkey := ((parseRecordUri uri).map (·.2.2)).getD ""
  match rev with
  | none => s.deleteUnordered uri ⟨did, collection, rkey⟩ now
  | some rev => s.deleteOrdered uri ⟨did, collection, rkey⟩ rev now backfillRunning

/-- `deleteNetwork` without a rev, while the row still holds `expected` as its body. -/
def deleteNetworkIfBody {V : Type} [DecidableEq V] (parse : String → Option V) (s : Store)
    (uri did collection : String) (expected : V) (now : String) : Store × Bool :=
  match parseRecordUri uri with
  | none => (s, false)
  | some (_, _, rkey) =>
    let key := ⟨did, collection, rkey⟩
    if (s.records.lookup key).bind (parse ·.record) = some expected then
      (s.deleteUnordered uri key now, true)
    else (s, false)

/-- `deleteNetwork` without a rev, while the network row still has the cid and the rev that it
was read with. -/
def deleteNetworkIfUnchanged (s : Store) (uri did collection : String)
    (expectedCid expectedRev : Option String) (now : String) : Store × Bool :=
  match parseRecordUri uri with
  | none => (s, false)
  | some (_, _, rkey) =>
    let key := ⟨did, collection, rkey⟩
    match (s.records.lookup key).filter (·.indexedAt.isSome) with
    | none => (s, false)
    | some row =>
      if some row.cid ≠ expectedCid ∨ row.rev ≠ expectedRev then (s, false)
      else
        let s := s.deleteRow key
        (row.rev.elim s fun rev => s.writeRecordTombstone uri rev now, true)

end Store

end HappyView.Records
