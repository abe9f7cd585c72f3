import HappyView.Consumer.Apply
import HappyView.Foundation.LatePurge

/-!
# The events of one account

What each event of an account's history does to one record and to the account's tombstone,
as it comes or late. Revs and times agree with the order of the history (`InSeqOrder`), so
the tables stay behind the events to come (`Older`) and no guard refuses one of them.
-/

namespace HappyView.Consumer

open HappyView.Records HappyView.Ingest HappyView.Tid HappyView.Foundation

/-! ## Histories -/

def Event.asOf (event : Event EventKind) : String :=
  match event.kind with
  | .sync rev => rev.getD (tidFromUnixMicroseconds event.cursor.timeUs)
  | _ => tidFromUnixMicroseconds event.cursor.timeUs

/-- Revs and times agree with the order of two events. -/
def Event.Before (event later : Event EventKind) : Prop :=
  match event.kind, later.kind with
  | .commit c, .commit c' =>
    c.key event.did = c'.key later.did → ∀ r ∈ c.rev, ∀ r' ∈ c'.rev, r < r'
  | .commit c, .account _ _ | .commit c, .sync _ => ∀ r ∈ c.rev, r < later.asOf
  | .account _ _, .commit c => ∀ r ∈ c.rev, event.asOf < r
  | .sync _, .commit c => ∀ r ∈ c.rev, event.asOf ≤ r
  | .account _ _, .account _ _ => event.asOf < later.asOf
  | _, _ => True

structure InSeqOrder (did : String) (events : List (Event EventKind)) : Prop where
  own : ∀ event ∈ events, event.did = did
  commits : ∀ event ∈ events, ∀ c, event.kind = .commit c →
    c.rev.isSome ∧ (c.key did).WellFormed
  ordered : events.Pairwise Event.Before

def Event.isCommit (event : Event EventKind) : Bool :=
  match event.kind with
  | .commit _ => true
  | _ => false

/-! ## What an event does to one record -/

def Commit.change (site : Site) (did : String) (c : Commit) : Option (Option PreparedRecord) :=
  if site.keeps c.collection then
    (parseAction c.operation).bind fun action => site.change (c.recordEvent did action)
  else none

def purgesAccount (active : Bool) (status : Option String) : Bool :=
  !active &&
    (status = some "deleted" || status = some "takendown" || status = some "suspended")

def Event.purges (tracked : List String) (key : RecordKey) (event : Event EventKind) : Bool :=
  match event.kind with
  | .account active status => purgesAccount active status && key.did = event.did
  | .sync _ =>
    key.did = event.did && key.collection ∈ tracked && key.collection ≠ lexiconSchemaCollection
  | _ => false

def Event.act (site : Site) (tracked : List String) (key : RecordKey) (event : Event EventKind) :
    Option (LatePurge.Act Held String) :=
  match event.kind with
  | .commit c =>
    if c.key event.did = key then
      (c.change site event.did).map fun
        | some rec => .write rec.held
        | none => .delete
    else none
  | _ => if event.purges tracked key then some (.purge event.asOf) else none

def heldRows : LatePurge.Rows Held (String × String) String where
  content := Held.content
  exempt := Held.awaitsEcho
  older := Held.olderThan

/-! ## Room for a commit -/

/-- Nothing in the tables is as new as a commit of `key` at `rev`. -/
structure Room (s : Store) (key : RecordKey) (rev : String) : Prop where
  row : ∀ h ∈ s.held key, ∀ stored ∈ h.rev, stored < rev
  tombstone : ∀ t ∈ (s.cell key).tombstone, t < rev
  account : ∀ t ∈ s.didTombstoneRev key.did, t < rev

section Cells

variable {c : Cell} {rev bound : String} {mayFollow : Bool}

theorem row_delete_of_older (older : ∀ row ∈ c.row, ∀ stored ∈ row.rev, stored < rev) :
    (c.delete mayFollow (some rev)).row = none := by
  cases held : c.row with
  | none => cases mayFollow <;> simp [Cell.delete, Cell.deleteOrdered, held, Cell.bury]
  | some row =>
    have admitted : ∀ stored ∈ row.rev, stored ≤ rev := fun stored mem =>
      le_of_lt (older row held stored mem)
    simp only [Cell.delete, Cell.deleteOrdered, held, if_pos admitted, Cell.bury]

theorem bury_lt (older : ∀ t ∈ c.tombstone, t < bound) (new : rev < bound) :
    ∀ t ∈ (c.bury rev).tombstone, t < bound := by
  cases held : c.tombstone with
  | none => simpa [Cell.bury, held] using new
  | some t =>
    simp only [Cell.bury, held, Option.elim_some, Option.mem_some_iff, forall_eq']
    exact max_lt (older t held) new

theorem delete_tombstone_lt (older : ∀ t ∈ c.tombstone, t < bound) (new : rev < bound) :
    ∀ t ∈ (c.delete mayFollow (some rev)).tombstone, t < bound := by
  simp only [Cell.delete, Cell.deleteOrdered]
  split
  · split
    · exact bury_lt older new
    · exact older
  · split
    · exact bury_lt older new
    · exact older

end Cells

namespace Room

variable {s : Store} {key other : RecordKey} {rev bound : String} {rec : PreparedRecord}

theorem not_refuses (room : Room s rec.key rev) (at_ : rec.rev = some rev) :
    s.refuses rec = false := by
  have own := room.tombstone
  have account := room.account
  simp only [Store.cell, Store.didTombstoneRev] at own account
  simp only [Store.refuses, at_, Bool.or_eq_false_iff]
  constructor
  · cases held : s.recordTombstones.lookup rec.key.uri with
    | none => rfl
    | some tombstone => simpa [superseded, held] using own tombstone.rev (by simp [held])
  · cases held : s.didTombstones.lookup rec.key.did with
    | none => rfl
    | some tombstone => simpa [superseded, held] using account tombstone.rev (by simp [held])

theorem take_eq {h : Option Held} (older : ∀ held ∈ h, ∀ stored ∈ held.rev, stored < rev)
    (at_ : rec.rev = some rev) : Held.take h rec = heldRows.put h rec.held := by
  cases h with
  | none => rfl
  | some held =>
    have admitted : held.admits rec.rev = true := by
      simp only [Held.admits, at_, Option.all_some, Option.all_eq_true, decide_eq_true_eq]
      exact fun stored mem => le_of_lt (older held rfl stored mem)
    have whole : { rec.held with rev := rec.rev.or held.rev } = rec.held := by
      simp [PreparedRecord.held, at_]
    simp only [Held.take, admitted, and_true, whole]
    by_cases kept : held.content = rec.held.content ∧ held.stamped = true
    · rw [if_neg (by simp [kept])]
      exact (LatePurge.Rows.put_kept kept.1 (by simp [heldRows, Held.awaitsEcho, kept.2])).symm
    · rw [if_pos (by simpa [or_iff_not_imp_left] using kept)]
      refine (LatePurge.Rows.put_replaced fun same => ?_).symm
      simpa [heldRows, Held.awaitsEcho] using fun stamped => kept ⟨same, stamped⟩

theorem write_held (room : Room s rec.key rev) (at_ : rec.rev = some rev) (now : Int) :
    (s.writeNetwork now [rec]).1.held key =
      if rec.key = key then heldRows.put (s.held key) rec.held else s.held key := by
  have passes := room.not_refuses at_
  by_cases here : rec.key = key
  · subst here
    simp [Store.writeNetwork_held, lastCopies, passes, take_eq room.row at_]
  · simp [Store.writeNetwork_held, lastCopies, here]

theorem delete_held (room : Room s key rev) (wf : key.WellFormed) (now : String)
    (backfillRunning : Bool) :
    (s.deleteNetwork key.uri key.did key.collection (some rev) now backfillRunning).held other =
      if key = other then none else s.held other := by
  by_cases here : key = other
  · subst here
    have older : ∀ row ∈ (s.cell key).row, ∀ stored ∈ row.rev, stored < rev := fun row held =>
      room.row row.held (Option.mem_map_of_mem _ held)
    have cell := Store.deleteNetwork_cell (s := s) wf (some rev) now backfillRunning
    have row := (congrArg Cell.row cell).trans (row_delete_of_older older)
    rw [if_pos rfl]
    exact congrArg (Option.map Row.held) row
  · rw [if_neg here]
    exact congrArg (fun c : Cell => c.row.map Row.held)
      (Store.deleteNetwork_cell_of_ne wf (Ne.symm here) (some rev) now backfillRunning)

theorem write (room : Room s rec.key rev) (at_ : rec.rev = some rev) (now : Int)
    (next : Room s other bound) (newer : rec.key = other → rev < bound) :
    Room (s.writeNetwork now [rec]).1 other bound where
  row h mem := by
    rw [room.write_held at_] at mem
    split at mem
    · rename_i here
      rcases heldRows.put_cases (s.held other) rec.held with same | replaced
      · exact next.row h (same ▸ mem)
      · rw [replaced] at mem
        obtain rfl := Option.some.inj mem
        intro stored at'
        obtain rfl : rev = stored := Option.some.inj (at_.symm.trans at')
        exact newer here
    · exact next.row h mem
  tombstone := by
    simpa [Store.cell, Store.writeNetwork, Store.upsertBatch] using next.tombstone
  account := by
    simpa [Store.didTombstoneRev, Store.writeNetwork, Store.upsertBatch] using next.account

theorem delete (room : Room s key rev) (wf : key.WellFormed) (now : String)
    (backfillRunning : Bool) (next : Room s other bound) (newer : key = other → rev < bound) :
    Room (s.deleteNetwork key.uri key.did key.collection (some rev) now backfillRunning) other
      bound where
  row h mem := by
    rw [room.delete_held wf] at mem
    split at mem
    · cases mem
    · exact next.row h mem
  tombstone := by
    by_cases here : key = other
    · subst here
      rw [Store.deleteNetwork_cell wf]
      exact delete_tombstone_lt next.tombstone (newer rfl)
    · rw [Store.deleteNetwork_cell_of_ne wf (Ne.symm here)]
      exact next.tombstone
  account := by
    simpa [Store.didTombstoneRev] using next.account

theorem shrink {s' : Store} (next : Room s other bound)
    (rows : ∀ h ∈ s'.held other, h ∈ s.held other)
    (tombstones : s'.recordTombstones = s.recordTombstones)
    (account : ∀ t ∈ s'.didTombstoneRev other.did, t < bound) : Room s' other bound where
  row h mem := next.row h (rows h mem)
  tombstone := by
    simpa [Store.cell, tombstones] using next.tombstone
  account := account

end Room

/-! ## Markers -/

/-- The event says that the account was deleted, which its PDS is asked about. -/
def Event.isDeletion (event : Event EventKind) : Bool :=
  match event.kind with
  | .account active status => !active && status = some "deleted"
  | _ => false

def Event.isAccount (event : Event EventKind) : Bool :=
  match event.kind with
  | .account _ _ => true
  | _ => false

section Markers

variable {site : Site} {tracked : List String} {moment : Moment} {s : Store} {key : RecordKey}
  {event : Event EventKind}

/-- A marker as it comes, or `late`. -/
def applyMarkerAt (site : Site) (tracked : List String) (moment : Moment) (late : Bool) (s : Store)
    (event : Event EventKind) : Store :=
  applyMarker site tracked moment s event (if late then some event.cursor.timeUs else none)

def Event.bound (late : Bool) (event : Event EventKind) : Option String :=
  if late then some event.asOf else none

theorem applyMarkerAt_purging {active : Bool} {status : Option String}
    (kind : event.kind = .account active status) (purges : purgesAccount active status = true)
    (believed : event.isDeletion → moment.activeAtPds = false) (late : Bool) :
    applyMarkerAt site tracked moment late s event =
      (s.writeDidTombstone event.did event.asOf moment.now).purge event.did none
        (event.bound late) := by
  obtain ⟨did, cursor, _⟩ := event
  subst kind
  have before : (if late then some cursor.timeUs else none).map tidFromUnixMicroseconds =
      Event.bound late ⟨did, cursor, .account active status⟩ := by
    cases late <;> rfl
  simp only [purgesAccount, Bool.and_eq_true, Bool.not_eq_true', Bool.or_eq_true,
    decide_eq_true_eq] at purges
  obtain ⟨rfl, purges⟩ := purges
  simp only [applyMarkerAt, applyMarker, markerEvent, Ingest.apply, accountEvent, before,
    Option.some_or, Option.getD_some]
  rw [if_neg Bool.false_ne_true]
  rcases purges with (rfl | rfl) | rfl
  · rw [if_pos rfl]
    exact accountPurged_eq (fun _ => believed (by simp [Event.isDeletion])) _
  · rw [if_neg (by decide), if_pos (by simp)]
    exact accountPurged_eq (by simp) _
  · rw [if_neg (by decide), if_pos (by simp)]
    exact accountPurged_eq (by simp) _

theorem applyMarkerAt_active {status : Option String}
    (kind : event.kind = .account true status) (late : Bool) :
    applyMarkerAt site tracked moment late s event =
      accountActive s event.did (event.bound late) := by
  obtain ⟨did, cursor, _⟩ := event
  subst kind
  cases late <;> rfl

theorem applyMarkerAt_inactive {status : Option String}
    (kind : event.kind = .account false status) (keeps : purgesAccount false status = false)
    (late : Bool) : applyMarkerAt site tracked moment late s event = s := by
  obtain ⟨did, cursor, _⟩ := event
  subst kind
  simp only [purgesAccount, Bool.not_false, Bool.true_and, Bool.or_eq_false_iff,
    decide_eq_false_iff_not] at keeps
  simp [applyMarkerAt, applyMarker, markerEvent, Ingest.apply, accountEvent, keeps]

theorem applyMarkerAt_sync {rev : Option String}
    (kind : event.kind = .sync rev) (late : Bool) :
    applyMarkerAt site tracked moment late s event =
      s.purge event.did (some (tracked.filter (· ≠ lexiconSchemaCollection)))
        (event.bound late) := by
  obtain ⟨did, cursor, _⟩ := event
  subst kind
  cases late <;> rfl

theorem applyMarkerAt_identity {handle : Option String}
    (kind : event.kind = .identity handle) (late : Bool) :
    applyMarkerAt site tracked moment late s event = s := by
  obtain ⟨did, cursor, _⟩ := event
  subst kind
  rfl

theorem applyMarkerAt_held (marker : event.isCommit = false)
    (believed : event.isDeletion → moment.activeAtPds = false) (late : Bool) :
    (applyMarkerAt site tracked moment late s event).held key =
      if event.purges tracked key then
        (s.held key).filter fun h =>
          h.awaitsEcho || (event.bound late).any fun rev => !h.olderThan rev
      else s.held key := by
  cases kind : event.kind with
  | commit c => simp [Event.isCommit, kind] at marker
  | identity handle => simp [applyMarkerAt_identity kind, Event.purges, kind]
  | sync rev =>
    rw [applyMarkerAt_sync kind, Store.held_purge]
    simp [Event.purges, kind, Store.covers, and_assoc]
  | account active status =>
    cases purges : purgesAccount active status with
    | true =>
      rw [applyMarkerAt_purging kind purges believed, Store.held_purge]
      simp [Event.purges, kind, purges, Store.covers, Store.held]
    | false =>
      have same : (applyMarkerAt site tracked moment late s event).records = s.records := by
        cases active with
        | true => simp [applyMarkerAt_active kind]
        | false => rw [applyMarkerAt_inactive kind purges]
      simp [Event.purges, kind, purges, Store.held, same]

theorem applyMarkerAt_recordTombstones (marker : event.isCommit = false)
    (believed : event.isDeletion → moment.activeAtPds = false) (late : Bool) :
    (applyMarkerAt site tracked moment late s event).recordTombstones = s.recordTombstones := by
  cases kind : event.kind with
  | commit c => simp [Event.isCommit, kind] at marker
  | identity handle => rw [applyMarkerAt_identity kind]
  | sync rev => rw [applyMarkerAt_sync kind, Store.purge_tombstones.1]
  | account active status =>
    cases purges : purgesAccount active status with
    | true => simp [applyMarkerAt_purging kind purges believed, Store.purge_tombstones.1]
    | false =>
      cases active with
      | true => simp [applyMarkerAt_active kind]
      | false => rw [applyMarkerAt_inactive kind purges]

/-- What a marker makes of the account's tombstone when none is as new as the marker. -/
def Event.bury (tombstone : Option String) (event : Event EventKind) : Option String :=
  match event.kind with
  | .account active status =>
    if active then none
    else if purgesAccount active status then some event.asOf
    else tombstone
  | _ => tombstone

theorem applyMarkerAt_tombstone (marker : event.isCommit = false)
    (believed : event.isDeletion → moment.activeAtPds = false)
    (older : event.isAccount → ∀ t ∈ s.didTombstoneRev event.did, t < event.asOf) (late : Bool) :
    (applyMarkerAt site tracked moment late s event).didTombstoneRev event.did =
      event.bury (s.didTombstoneRev event.did) := by
  cases kind : event.kind with
  | commit c => simp [Event.isCommit, kind] at marker
  | identity handle => rw [applyMarkerAt_identity kind, Event.bury, kind]
  | sync rev =>
    rw [applyMarkerAt_sync kind, Event.bury, kind, Store.didTombstoneRev,
      Store.purge_tombstones.2, Store.didTombstoneRev]
  | account active status =>
    have older := older (by simp [Event.isAccount, kind])
    cases active with
    | true =>
      rw [applyMarkerAt_active kind, didTombstoneRev_accountActive, Event.bury, kind]
      cases held : s.didTombstoneRev event.did with
      | none => rfl
      | some t =>
        have lifted := older t held
        cases late <;> simp [Option.filter_some, Event.bound, lifted]
    | false =>
      cases purges : purgesAccount false status with
      | true =>
        rw [applyMarkerAt_purging kind purges believed, Store.didTombstoneRev,
          Store.purge_tombstones.2, ← Store.didTombstoneRev,
          Store.didTombstoneRev_writeDidTombstone, Event.bury, kind]
        cases held : s.didTombstoneRev event.did with
        | none => simp [purges]
        | some t => simp [purges, max_eq_right (le_of_lt (older t held))]
      | false =>
        rw [applyMarkerAt_inactive kind purges, Event.bury, kind]
        simp [purges]

end Markers

/-! ## One event -/

/-- Nothing in the tables is as new as the events to come. -/
structure Older (did : String) (s : Store) (rest : List (Event EventKind)) : Prop where
  commits : ∀ event ∈ rest, ∀ c, event.kind = .commit c → ∀ r ∈ c.rev, Room s (c.key did) r
  accounts : ∀ event ∈ rest, event.isAccount → ∀ t ∈ s.didTombstoneRev did, t < event.asOf

section Step

variable {site : Site} {tracked : List String} {moment : Moment} {did : String} {s : Store}
  {key : RecordKey} {event : Event EventKind} {rest : List (Event EventKind)}

theorem applyEvent_commit {c : Commit} (kind : event.kind = .commit c) :
    applyEvent site tracked moment s event =
      match c.change site event.did with
      | none => s
      | some (some rec) => (s.writeNetwork moment.nowUs [rec]).1
      | some none => s.deleteNetwork (c.key event.did).uri event.did c.collection c.rev moment.now
          moment.backfillRunning := by
  simp only [applyEvent, kind, applyCommit, Commit.change]
  cases parseAction c.operation with
  | none => simp
  | some action =>
    by_cases keeps : site.keeps c.collection = true
    · rw [if_pos keeps]
      exact (if_pos keeps).trans (applyLocal_eq ..)
    · rw [if_neg keeps]
      exact if_neg keeps

theorem applyEvent_marker (marker : event.isCommit = false) :
    applyEvent site tracked moment s event = applyMarkerAt site tracked moment false s event := by
  cases kind : event.kind with
  | commit c => simp [Event.isCommit, kind] at marker
  | _ => simp [applyEvent, kind, applyMarkerAt]

theorem applyReplayedMarker_eq (marker : event.isCommit = false) :
    applyReplayedMarker site tracked moment s event =
      applyMarkerAt site tracked moment true s event := by
  cases kind : event.kind with
  | commit c => simp [Event.isCommit, kind] at marker
  | identity handle => simp [applyReplayedMarker, kind, applyMarkerAt_identity kind]
  | _ => simp [applyReplayedMarker, kind, applyMarkerAt]

theorem change_write {c : Commit} {rec : PreparedRecord}
    (change : c.change site did = some (some rec)) : rec.key = c.key did ∧ rec.rev = c.rev := by
  obtain ⟨-, change⟩ := Option.ite_none_right_eq_some.mp change
  obtain ⟨action, -, change⟩ := Option.bind_eq_some_iff.mp change
  unfold Site.change at change
  split at change
  all_goals
    split at change
    all_goals
      cases change
    try exact ⟨rfl, rfl⟩

theorem InSeqOrder.tail (order : InSeqOrder did (event :: rest)) : InSeqOrder did rest where
  own later mem := order.own later (List.mem_cons_of_mem _ mem)
  commits later mem := order.commits later (List.mem_cons_of_mem _ mem)
  ordered := (List.pairwise_cons.mp order.ordered).2

theorem applyEvent_held (order : InSeqOrder did (event :: rest))
    (older : Older did s (event :: rest))
    (believed : event.isDeletion → moment.activeAtPds = false) :
    (applyEvent site tracked moment s event).held key =
      (event.act site tracked key).elim (s.held key) (heldRows.liveStep (s.held key)) := by
  have own := order.own event List.mem_cons_self
  cases marker : event.isCommit with
  | false =>
    rw [applyEvent_marker marker, applyMarkerAt_held marker believed]
    cases kind : event.kind with
    | commit c => simp [Event.isCommit, kind] at marker
    | _ =>
      simp only [Event.act, kind]
      split
      · simp [LatePurge.Rows.liveStep, heldRows, Event.bound]
      · rfl
  | true =>
    cases kind : event.kind with
    | commit c =>
      obtain ⟨hasRev, wf⟩ := order.commits event List.mem_cons_self c kind
      obtain ⟨rev, at_⟩ := Option.isSome_iff_exists.mp hasRev
      have room := older.commits event List.mem_cons_self c kind rev at_
      rw [applyEvent_commit kind]
      simp only [Event.act, kind, own]
      cases change : c.change site did with
      | none => simp
      | some written =>
        cases written with
        | none =>
          simp only [at_]
          refine (room.delete_held wf _ _).trans ?_
          split <;> rfl
        | some rec =>
          obtain ⟨here, carried⟩ := change_write change
          rw [← here] at room ⊢
          refine (room.write_held (carried.trans at_) _).trans ?_
          split <;> rfl
    | _ => simp [Event.isCommit, kind] at marker

theorem applyEvent_tombstone (order : InSeqOrder did (event :: rest))
    (older : Older did s (event :: rest))
    (believed : event.isDeletion → moment.activeAtPds = false) :
    (applyEvent site tracked moment s event).didTombstoneRev did =
      event.bury (s.didTombstoneRev did) := by
  obtain rfl := order.own event List.mem_cons_self
  cases marker : event.isCommit with
  | false =>
    rw [applyEvent_marker marker]
    exact applyMarkerAt_tombstone marker believed (older.accounts event List.mem_cons_self) false
  | true =>
    cases kind : event.kind with
    | commit c =>
      rw [applyEvent_commit kind, Event.bury, kind]
      cases c.change site event.did with
      | none => rfl
      | some written =>
        cases written with
        | none => simp [Store.didTombstoneRev]
        | some rec => simp [Store.didTombstoneRev, Store.writeNetwork, Store.upsertBatch]
    | _ => simp [Event.isCommit, kind] at marker

theorem mem_bury {tombstone : Option String} {t : String} (mem : t ∈ event.bury tombstone) :
    t ∈ tombstone ∨ event.isAccount = true ∧ t = event.asOf := by
  cases kind : event.kind with
  | account active status =>
    simp only [Event.bury, kind] at mem
    split at mem
    · cases mem
    · split at mem
      · exact .inr ⟨by simp [Event.isAccount, kind], (Option.some.inj mem).symm⟩
      · exact .inl mem
  | _ => exact .inl (by simpa [Event.bury, kind] using mem)

theorem Event.Before.bury_lt {later : Event EventKind} {tombstone : Option String}
    (before : event.Before later) (account : later.isAccount = true)
    (older : ∀ t ∈ tombstone, t < later.asOf) : ∀ t ∈ event.bury tombstone, t < later.asOf := by
  intro t mem
  rcases mem_bury mem with old | ⟨earlier, rfl⟩
  · exact older t old
  · cases kind : event.kind with
    | account active status =>
      cases kind' : later.kind with
      | account active' status' => simpa [Event.Before, kind, kind'] using before
      | _ => simp [Event.isAccount, kind'] at account
    | _ => simp [Event.isAccount, kind] at earlier

theorem Older.step (older : Older did s (event :: rest)) (order : InSeqOrder did (event :: rest))
    (believed : event.isDeletion → moment.activeAtPds = false) :
    Older did (applyEvent site tracked moment s event) rest := by
  have own := order.own event List.mem_cons_self
  have before := (List.pairwise_cons.mp order.ordered).1
  have tombstone : (applyEvent site tracked moment s event).didTombstoneRev did =
      event.bury (s.didTombstoneRev did) := applyEvent_tombstone order older believed
  refine ⟨fun later mem c' kind' r' at' => ?_, fun later mem account t held => ?_⟩
  · have next := older.commits later (List.mem_cons_of_mem _ mem) c' kind' r' at'
    have order' := before later mem
    have own' := order.own later (List.mem_cons_of_mem _ mem)
    cases marker : event.isCommit with
    | false =>
      refine next.shrink (fun h held => ?_) ?_ fun t held => ?_
      · rw [applyEvent_marker marker, applyMarkerAt_held marker believed] at held
        split at held
        · exact (Option.filter_eq_some_iff.mp held).1
        · exact held
      · rw [applyEvent_marker marker, applyMarkerAt_recordTombstones marker believed]
      · change t ∈ (applyEvent site tracked moment s event).didTombstoneRev did at held
        rw [tombstone] at held
        rcases mem_bury held with old | ⟨account, rfl⟩
        · exact next.account t old
        · cases kind : event.kind with
          | account active status =>
            simp only [Event.Before, kind, kind'] at order'
            exact order' r' at'
          | _ => simp [Event.isAccount, kind] at account
    | true =>
      cases kind : event.kind with
      | commit c =>
        obtain ⟨hasRev, wf⟩ := order.commits event List.mem_cons_self c kind
        obtain ⟨rev, at_⟩ := Option.isSome_iff_exists.mp hasRev
        have room := older.commits event List.mem_cons_self c kind rev at_
        have newer : c.key did = c'.key did → rev < r' := fun same => by
          simp only [Event.Before, kind, kind', own, own'] at order'
          exact order' same rev at_ r' at'
        rw [applyEvent_commit kind, own]
        cases change : c.change site did with
        | none => exact next
        | some written =>
          cases written with
          | none =>
            simp only [at_]
            exact room.delete wf _ _ next newer
          | some rec =>
            obtain ⟨here, carried⟩ := change_write change
            rw [← here] at room newer
            exact room.write (carried.trans at_) _ next newer
      | _ => simp [Event.isCommit, kind] at marker
  · rw [tombstone] at held
    exact (before later mem).bury_lt account
      (older.accounts later (List.mem_cons_of_mem _ mem) account) t held

end Step

end HappyView.Consumer
