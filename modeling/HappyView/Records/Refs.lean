import HappyView.Foundation.DerivedIndex
import HappyView.Foundation.Json
import HappyView.Records.Store
import HappyView.Spaces.Writers
import Mathlib.Data.List.Sort

/-!
# The refs table

Next to the record tables stands one row for each `at://` string in the body of a record, its
ref. `sync_refs` is its only writer: it replaces the refs of rows that were written by the
targets of the bodies that were written.

A network write upserts its rows and their refs in one transaction, and a page of the refs
rebuild reads bodies and writes refs in one. A local write commits its row first and its refs
in a second transaction, from the body it had written in the first. `refStore` is the machine
of all calls, with one action for each transaction; a local write between its two is
`pending`.
-/

namespace HappyView.Records

open HappyView.Foundation
open HappyView.Spaces.Writers (DatabaseBackend)

inductive RefTarget where
  | record (did collection rkey : String)
  /-- The text after `at://`. -/
  | atText (rest : String)
  | text (text : String)
  deriving DecidableEq

def RefTarget.parse (target : String) : RefTarget :=
  match parseRecordUri target with
  | some (did, collection, rkey) => .record did collection rkey
  | none =>
    match Text.strip "at://" target with
    | some rest => .atText rest
    | none => .text target

/-- Every string of the value that starts with `at://`. -/
def extractAtUris (value : Json) : List String :=
  (value.strings (Text.startsWith "at://")).dedup

/-- The targets of the `at://` strings in a body, which `readBody` parses; a body that is no
JSON reads as null. -/
def refTargets (readBody : String → Json) (body : String) : List RefTarget :=
  ((extractAtUris (readBody body)).insertionSort (· ≤ ·)).map RefTarget.parse

structure RefStore where
  store : Store := {}
  ids : AList (fun _ : RecordKey => Nat) := ∅
  sequence : Nat := 0
  /-- The id of the row that holds the ref, and its target. -/
  refs : List (Nat × RefTarget) := []
  /-- The local writes whose row is committed and whose refs are not, with the id and the body
  of what they wrote. -/
  pending : AList (fun _ : Nat => List (Nat × String)) := ∅
  failed : Bool := false

namespace RefStore

/-- SQLite gives a new row the id after the largest in the table, Postgres the next of its
sequence. -/
def newId (backend : DatabaseBackend) (m : RefStore) : Nat :=
  match backend with
  | .sqlite => (m.ids.entries.map (·.2)).foldr max 0 + 1
  | .postgres => m.sequence + 1

def upsertRow (backend : DatabaseBackend) (kind : WriteKind) (now : Int) (m : RefStore)
    (rec : PreparedRecord) : RefStore × List (Nat × String) :=
  match m.store.upsertRow kind now rec with
  | (_, []) => (m, [])
  | (store, _) =>
    let id := (m.ids.lookup rec.key).getD (m.newId backend)
    ({ m with
        store := store
        ids := m.ids.insert rec.key id
        sequence := max m.sequence id },
      [(id, rec.recordJson)])

def upsertRows (backend : DatabaseBackend) (kind : WriteKind) (now : Int) (m : RefStore) :
    List PreparedRecord → RefStore × List (Nat × String)
  | [] => (m, [])
  | rec :: rest =>
    let (m, written) := m.upsertRow backend kind now rec
    let (m, more) := m.upsertRows backend kind now rest
    (m, written ++ more)

/-- Replace the refs of the rows in `written` by the targets of the bodies. -/
def syncRefs (readBody : String → Json) (written : List (Nat × String)) (m : RefStore) :
    RefStore :=
  { m with refs := sync (refTargets readBody) written m.refs }

def writeNetwork (readBody : String → Json) (backend : DatabaseBackend) (now : Int)
    (records : List PreparedRecord) (m : RefStore) : RefStore :=
  let records := lastCopies records
  let blocked := m.store.blockedWrites records
  let (m, written) :=
    m.upsertRows backend .network now (records.filter fun rec => rec.key.uri ∉ blocked)
  m.syncRefs readBody written

/-- The first transaction of `write_local`. A collection that the external storage claims has
no rows here. -/
def writeLocalRow (backend : DatabaseBackend) (claims : String → Bool) (call : Nat)
    (kind : WriteKind) (now : Int) (rec : PreparedRecord) (m : RefStore) : RefStore :=
  if kind = .network then { m with failed := true }
  else if claims rec.key.collection then m
  else
    let (m, written) := m.upsertRows backend kind now [rec]
    { m with pending := m.pending.insert call written }

def hasId (m : RefStore) (id : Nat) : Bool := m.ids.entries.any (·.2 == id)

/-- The second transaction of `write_local`. A ref whose source is no row any more violates the
foreign key, and the transaction is rolled back. -/
def writeLocalRefs (readBody : String → Json) (call : Nat) (written : List (Nat × String))
    (m : RefStore) : RefStore :=
  let m := { m with pending := m.pending.erase call }
  if (entriesOf (refTargets readBody) written).all fun ref => m.hasId ref.1 then
    m.syncRefs readBody written
  else { m with failed := true }

/-- The tables after a delete of the record `key` that left the record tables as `store`: the
refs of a row go with the row. -/
def afterDelete (key : RecordKey) (store : Store) (m : RefStore) : RefStore :=
  match m.ids.lookup key, store.records.lookup key with
  | some id, none =>
    { m with
      store := store
      ids := m.ids.erase key
      refs := m.refs.filter (·.1 ≠ id) }
  | _, _ => { m with store := store }

def delete (claims : String → Bool) (uri : String) (m : RefStore) : RefStore :=
  match parseRecordUri uri with
  | none => m
  | some (did, collection, rkey) =>
    if claims collection then m
    else m.afterDelete ⟨did, collection, rkey⟩ (m.store.deleteRow ⟨did, collection, rkey⟩)

def deleteNetwork (uri did collection : String) (rev : Option String) (now : String)
    (backfillRunning : Bool) (m : RefStore) : RefStore :=
  m.afterDelete ⟨did, collection, ((parseRecordUri uri).map (·.2.2)).getD ""⟩
    (m.store.deleteNetwork uri did collection rev now backfillRunning)

/-- The ids and bodies of the first `limit` rows past `after`. -/
def page (after : Int) (limit : Nat) (m : RefStore) : List (Nat × String) :=
  let rows := (m.ids.entries.filter fun entry => after < entry.2).insertionSort
    fun a b => a.2 ≤ b.2
  (rows.take limit).filterMap fun entry =>
    (m.store.records.lookup entry.1).map fun row => (entry.2, row.record)

def rebuildRefsPage (readBody : String → Json) (after : Int) (limit : Nat) (m : RefStore) :
    RefStore :=
  m.syncRefs readBody (m.page after limit)

def refsOf (m : RefStore) (key : RecordKey) : List RefTarget :=
  match m.ids.lookup key with
  | none => []
  | some id => (m.refs.filter (·.1 = id)).map Prod.snd

end RefStore

/-- One transaction of a call. -/
inductive RefAction where
  | writeNetwork (now : Int) (records : List PreparedRecord)
  | writeLocalRow (call : Nat) (kind : WriteKind) (now : Int) (rec : PreparedRecord)
  | writeLocalRefs (call : Nat)
  | delete (uri : String)
  | deleteNetwork (uri did collection : String) (rev : Option String) (now : String)
      (backfillRunning : Bool)
  | rebuildRefsPage (after : Int) (limit : Nat)
  /-- A transaction of the call fails and is rolled back, which ends the call. -/
  | fail (call : Nat)

variable (readBody : String → Json) (backend : DatabaseBackend) (claims : String → Bool)

/-- A call has one local write to make: no second one runs under its number meanwhile. -/
def RefStore.step (m : RefStore) : RefAction → Option RefStore
  | .writeNetwork now records => some (m.writeNetwork readBody backend now records)
  | .writeLocalRow call kind now rec =>
    if (m.pending.lookup call).isSome then none
    else some (m.writeLocalRow backend claims call kind now rec)
  | .writeLocalRefs call =>
    (m.pending.lookup call).map fun written => m.writeLocalRefs readBody call written
  | .delete uri => some (m.delete claims uri)
  | .deleteNetwork uri did collection rev now backfillRunning =>
    some (m.deleteNetwork uri did collection rev now backfillRunning)
  | .rebuildRefsPage after limit => some (m.rebuildRefsPage readBody after limit)
  | .fail call => some { m with pending := m.pending.erase call, failed := true }

def refStore (start : RefStore) : Machine RefStore RefAction where
  start := start
  step := RefStore.step readBody backend claims

end HappyView.Records
