import HappyView.Foundation.FiniteMap
import HappyView.Spaces.Repo

/-!
# Concurrent write calls on one space

A call reads the space, makes its checks, waits for the space's write lock, and writes in
the transaction that holds it. Reads before the lock see what is committed at the time. In
between other calls take their own steps, and the start-up repair of record cids may move
the revision of the space.
-/

namespace HappyView.Spaces

open HappyView.Foundation

structure Flight where
  call : WriteCall
  space : HostedSpace
  readAt : Nat
  admitted : Bool

structure CommittedCall where
  did : Option String
  rev : String
  swapCommit : Option String
  /-- How many writes had committed when it read the space. -/
  readAt : Nat
  deriving DecidableEq

def Flight.committed (flight : Flight) : CommittedCall :=
  ⟨some flight.call.did.val, flight.call.stamp.rev, flight.call.swapCommit, flight.readAt⟩

structure Desk where
  store : SpaceStore
  flights : AList fun _ : Nat => Flight := ∅
  holder : Option Nat := none
  log : List CommittedCall := []

inductive CallAction where
  | resolve (id : Nat) (call : WriteCall)
  | check (id : Nat)
  | lock (id : Nat)
  | commit (id : Nat)
  /-- The call ends without a commit: it failed, was forwarded or its client is gone. -/
  | leave (id : Nat)
  | repair (rev : String)

namespace Desk

variable (crypto : Crypto) (backend : Writers.DatabaseBackend) (spaceId : String)

def step (d : Desk) : CallAction → Option Desk
  | .resolve id call =>
    match d.store.resolveSpace call.spaceRef with
    | .ok space =>
      if space.id = spaceId ∧ d.flights.lookup id = none then
        some { d with flights := d.flights.insert id ⟨call, space, d.log.length, false⟩ }
      else none
    | .error _ => none
  | .check id => (d.flights.lookup id).bind fun flight =>
    match flight.call.writesHere d.store flight.space with
    | .ok true => some { d with flights := d.flights.insert id { flight with admitted := true } }
    | _ => none
  | .lock id => (d.flights.lookup id).bind fun flight =>
    if flight.admitted ∧ d.holder = none then some { d with holder := some id } else none
  | .commit id => (d.flights.lookup id).bind fun flight =>
    if flight.admitted ∧ d.holder = some id then
      match flight.call.transact crypto backend flight.space.toSpace d.store with
      | .ok store => some
          { store := store
            flights := d.flights.erase id
            holder := none
            log := d.log ++ [flight.committed] }
      | .error _ => none
    else none
  | .leave id => some
      { d with
        flights := d.flights.erase id
        holder := if d.holder = some id then none else d.holder }
  | .repair rev => some
      { d with
        store := d.store.updateSpaceRevision spaceId rev
        log := d.log ++ [⟨none, rev, none, d.log.length⟩] }

inductive Moves (d : Desk) : Desk → Prop where
  | resolve {id : Nat} {call : WriteCall} {space : HostedSpace}
      (read : d.store.resolveSpace call.spaceRef = .ok space) (here : space.id = spaceId)
      (new : d.flights.lookup id = none) :
      Moves d { d with flights := d.flights.insert id ⟨call, space, d.log.length, false⟩ }
  | check {id : Nat} {flight : Flight} (held : d.flights.lookup id = some flight)
      (passed : flight.call.writesHere d.store flight.space = .ok true) :
      Moves d { d with flights := d.flights.insert id { flight with admitted := true } }
  | lock {id : Nat} {flight : Flight} (held : d.flights.lookup id = some flight)
      (admitted : flight.admitted = true) (free : d.holder = none) :
      Moves d { d with holder := some id }
  | commit {id : Nat} {flight : Flight} {store : SpaceStore}
      (held : d.flights.lookup id = some flight) (admitted : flight.admitted = true)
      (locked : d.holder = some id)
      (wrote : flight.call.transact crypto backend flight.space.toSpace d.store = .ok store) :
      Moves d
        { store := store
          flights := d.flights.erase id
          holder := none
          log := d.log ++ [flight.committed] }
  | leave {id : Nat} :
      Moves d
        { d with
          flights := d.flights.erase id
          holder := if d.holder = some id then none else d.holder }
  | repair {rev : String} :
      Moves d
        { d with
          store := d.store.updateSpaceRevision spaceId rev
          log := d.log ++ [⟨none, rev, none, d.log.length⟩] }

theorem step_moves {d d' : Desk} {action : CallAction}
    (h : d.step crypto backend spaceId action = some d') : Moves crypto backend spaceId d d' := by
  cases action with
  | resolve id call =>
    simp only [step] at h
    split at h
    · rename_i space read
      obtain ⟨here, ⟨⟩⟩ := Option.ite_none_right_eq_some.mp h
      exact .resolve read here.1 here.2
    · cases h
  | check id =>
    obtain ⟨flight, held, h⟩ := Option.bind_eq_some_iff.mp h
    split at h
    · rename_i passed
      cases h
      exact .check held passed
    · cases h
  | lock id =>
    obtain ⟨flight, held, h⟩ := Option.bind_eq_some_iff.mp h
    obtain ⟨⟨admitted, free⟩, ⟨⟩⟩ := Option.ite_none_right_eq_some.mp h
    exact .lock held admitted free
  | commit id =>
    obtain ⟨flight, held, h⟩ := Option.bind_eq_some_iff.mp h
    obtain ⟨⟨admitted, locked⟩, h⟩ := Option.ite_none_right_eq_some.mp h
    split at h
    · rename_i store wrote
      cases h
      exact .commit held admitted locked wrote
    · cases h
  | leave id =>
    cases h
    exact .leave
  | repair rev =>
    cases h
    exact .repair

def machine (start : SpaceStore) : Machine Desk CallAction where
  start := { store := start }
  step := step crypto backend spaceId

end Desk

end HappyView.Spaces
