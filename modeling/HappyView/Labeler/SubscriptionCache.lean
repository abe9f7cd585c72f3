import HappyView.Foundation.FiniteMap
import HappyView.Foundation.Machine

/-!
# The cache of labeler subscriptions

Ingest asks for the active labelers with every record, so their DIDs are cached. A call of
`active` answers from the slot; if that is empty it reads the table and stores what it has read,
unless the generation has moved on since before the read. Whoever changes the table then calls
`invalidate`, which moves the generation on and clears the slot.

The calls of a process run concurrently, and every step below is one atomic access: to the slot
under its lock, to the generation, or to the database.
-/

namespace HappyView.Labeler

open HappyView.Foundation

/-! ## The table -/

/-- A row of `happyview_labeler_subscriptions`. -/
structure Subscription where
  did : String
  status : String
  deriving DecidableEq

abbrev Subscriptions := List Subscription

inductive Change where
  | add (did : String)
  | update (did status : String)
  | delete (did : String)
  deriving DecidableEq

def setStatus (rows : Subscriptions) (did status : String) : Subscriptions :=
  rows.map fun row => if row.did = did then { row with status } else row

/-- The rows after a change; `none` if no row was affected, which the handlers answer with
`NotFound`. -/
def Change.execute (rows : Subscriptions) : Change → Option Subscriptions
  | .add did =>
    if rows.any (·.did = did) then some (setStatus rows did "active")
    else some (rows ++ [⟨did, "active"⟩])
  | .update did status => if rows.any (·.did = did) then some (setStatus rows did status) else none
  | .delete did => if rows.any (·.did = did) then some (rows.filter (·.did ≠ did)) else none

/-- `SELECT did FROM happyview_labeler_subscriptions WHERE status = 'active'` -/
def activeDids (rows : Subscriptions) : List String :=
  (rows.filter (·.status = "active")).map (·.did)

structure Database where
  past : List Subscriptions := []
  rows : Subscriptions

def Database.version (db : Database) : Nat := db.past.length

def Database.at (db : Database) (version : Nat) : Option Subscriptions :=
  (db.past ++ [db.rows])[version]?

def Database.change (db : Database) (rows : Subscriptions) : Database :=
  ⟨db.past ++ [db.rows], rows⟩

/-! ## The cache -/

/-- A list of DIDs, and the version of the table it was read from. The code passes on the list
alone. -/
structure Snapshot where
  version : Nat
  dids : List String
  deriving DecidableEq

inductive Call where
  | missed
  | loaded (generation : UInt64)
  | fetched (generation : UInt64) (rows : Snapshot)
  /-- It holds the lock of the slot, and the generation is the one it had loaded. -/
  | storing (rows : Snapshot)
  | returned (rows : Snapshot)
  | failed
  deriving DecidableEq

def Call.rows : Call → Option Snapshot
  | .fetched _ rows | .storing rows | .returned rows => some rows
  | .missed | .loaded _ | .failed => none

inductive Writer where
  | changed (version : Nat)
  /-- `invalidate` has moved the generation on. -/
  | bumped (version : Nat)
  /-- `invalidate` has returned. -/
  | returned (version : Nat)
  deriving DecidableEq

def Writer.version : Writer → Nat
  | .changed version | .bumped version | .returned version => version

structure State where
  db : Database
  generation : UInt64 := 0
  active : Option Snapshot := none
  holder : Option Nat := none
  poisoned : Bool := false
  calls : AList fun _ : Nat => Call := ∅
  writers : AList fun _ : Nat => Writer := ∅

def State.setCall (s : State) (i : Nat) (call : Call) : State :=
  { s with calls := s.calls.insert i call }

def State.setWriter (s : State) (w : Nat) (writer : Writer) : State :=
  { s with writers := s.writers.insert w writer }

/-- `SubscriptionCache::active` and `invalidate`, by their accesses. -/
inductive Action where
  /-- A call of `active` begins, and reads the slot. -/
  | readSlot (i : Nat)
  | loadGeneration (i : Nat)
  | fetch (i : Nat)
  | fetchFails (i : Nat)
  /-- It takes the lock for writing and compares the generations. -/
  | lock (i : Nat)
  | store (i : Nat)
  /-- A holder of the lock panics, which poisons it. -/
  | panic (i : Nat)
  | change (w : Nat) (change : Change)
  | bump (w : Nat)
  | clear (w : Nat)
  deriving DecidableEq

/-- What the slot answers; a poisoned one is taken for empty. -/
def State.cached (s : State) : Option Snapshot := if s.poisoned then none else s.active

def step (s : State) : Action → Option State
  | .readSlot i =>
    if i ∈ s.calls ∨ s.holder.isSome then none
    else some (s.setCall i (s.cached.elim .missed .returned))
  | .loadGeneration i => match s.calls.lookup i with
    | some .missed => some (s.setCall i (.loaded s.generation))
    | _ => none
  | .fetch i => match s.calls.lookup i with
    | some (.loaded generation) =>
      some (s.setCall i (.fetched generation ⟨s.db.version, activeDids s.db.rows⟩))
    | _ => none
  | .fetchFails i => match s.calls.lookup i with
    | some (.loaded _) => some (s.setCall i .failed)
    | _ => none
  | .lock i => match s.calls.lookup i, s.holder with
    | some (.fetched generation rows), none =>
      if s.poisoned = false ∧ s.generation = generation then
        some { s.setCall i (.storing rows) with holder := some i }
      else some (s.setCall i (.returned rows))
    | _, _ => none
  | .store i => match s.calls.lookup i with
    | some (.storing rows) =>
      some { s.setCall i (.returned rows) with active := some rows, holder := none }
    | _ => none
  | .panic i => match s.calls.lookup i with
    | some (.storing _) => some { s.setCall i .failed with holder := none, poisoned := true }
    | _ => none
  | .change w change =>
    if w ∈ s.writers then none
    else (change.execute s.db.rows).map fun rows =>
      { s.setWriter w (.changed (s.db.version + 1)) with db := s.db.change rows }
  | .bump w => match s.writers.lookup w with
    | some (.changed version) =>
      some { s.setWriter w (.bumped version) with generation := s.generation + 1 }
    | _ => none
  | .clear w => match s.writers.lookup w, s.holder with
    | some (.bumped version), none => some { s.setWriter w (.returned version) with
        active := if s.poisoned then s.active else none }
    | _, _ => none

def cache (rows : Subscriptions) : Machine State Action where
  start := { db := { rows } }
  step := step

end HappyView.Labeler
