import HappyView.Records.Cell
import HappyView.Foundation.LastWriter

/-!
# Network events of one record, in any order

The record's cell under network writes and deletes that carry their revs is a last writer wins
slot: its value is the body with the CID. So which sets of events converge is decided by
`LastWriter.converges_iff`.
-/

namespace HappyView.Records

open HappyView.Foundation LastWriter

abbrev NetworkEvent := Event (String × String) String

structure Delivery where
  event : NetworkEvent
  now : Int
  deletedAt : String

/-- Apply one event to the record `key` while a backfill is running. -/
def Store.deliver (key : RecordKey) (s : Store) (d : Delivery) : Store :=
  match d.event.change with
  | some (body, cid) => (s.writeNetwork d.now [⟨key, body, cid, some d.event.rev⟩]).1
  | none => s.deleteNetwork key.uri key.did key.collection (some d.event.rev) d.deletedAt true

def Store.content (s : Store) (key : RecordKey) : Option (String × String) :=
  (s.records.lookup key).map fun row => (row.record, row.cid)

/-- A row the network delivered, as a slot has it. -/
def Row.Shows (row : Row) (held : (String × String) × String) : Prop :=
  (row.record, row.cid) = held.1 ∧ row.rev = some held.2 ∧ row.indexedAt.isSome

structure Cell.Shows (c : Cell) (slot : Slot (String × String) String) : Prop where
  row : Option.Rel Row.Shows c.row slot.row
  tombstone : c.tombstone = slot.tombstone

namespace Cell.Shows

variable {c : Cell} {slot : Slot (String × String) String}

theorem bury (h : c.Shows slot) (rev : String) : (c.bury rev).Shows (slot.bury rev) :=
  ⟨h.row, by simp [Cell.bury, Slot.bury, h.tombstone]⟩

theorem blocks (h : c.Shows slot) (rev : String) :
    c.blocks (some rev) = slot.tombstone.any (rev ≤ ·) := by
  simp [Cell.blocks, superseded, h.tombstone]

theorem deleteOrdered (h : c.Shows slot) (rev : String) :
    (c.deleteOrdered true rev).Shows (slot.delete rev) := by
  obtain ⟨row, tombstone⟩ := c
  obtain ⟨held, tombstone'⟩ := slot
  obtain ⟨rows, tombstones⟩ := h
  have emptied : Cell.Shows ⟨none, tombstone⟩ ⟨none, tombstone'⟩ := ⟨.none, tombstones⟩
  cases rows with
  | none => exact emptied.bury rev
  | @some row held shows =>
    obtain ⟨value, stored⟩ := held
    have same : (∀ v ∈ row.rev, v ≤ rev) ↔ stored ≤ rev := by simp [shows.2.1]
    simp only [Cell.deleteOrdered, Slot.delete, same]
    split
    · exact emptied.bury rev
    · exact ⟨.some shows, tombstones⟩

theorem upsert (h : c.Shows slot) (rec : PreparedRecord) {rev : String}
    (carries : rec.rev = some rev)
    (admitted : c.blocks (some rev) = false) (now : Int) :
    (c.upsert .network (rec.row .network now)).Shows
      (slot.write (rec.recordJson, rec.cid) rev) := by
  rw [h.blocks] at admitted
  obtain ⟨row, tombstone⟩ := c
  obtain ⟨held, tombstone'⟩ := slot
  obtain ⟨rows, tombstones⟩ := h
  have fresh : (rec.row .network now).Shows ((rec.recordJson, rec.cid), rev) := ⟨rfl, carries, rfl⟩
  simp only [Slot.write, admitted, Bool.false_eq_true, if_false]
  cases rows with
  | none => exact ⟨.some fresh, tombstones⟩
  | @some row held shows =>
    obtain ⟨value, stored⟩ := held
    have takes : ((row.cid ≠ rec.cid ∨ row.record ≠ rec.recordJson ∨ row.indexedAt = none) ∧
        ∀ v ∈ row.rev, ∀ v' ∈ rec.rev, v ≤ v') ↔
          value ≠ (rec.recordJson, rec.cid) ∧ stored ≤ rev := by
      obtain ⟨rfl, revs, stamped⟩ := shows
      have := Option.isSome_iff_ne_none.mp stamped
      simp only [carries, revs, Option.mem_def, Option.some.injEq]
      grind
    dsimp only
    rw [if_congr takes.symm rfl rfl]
    by_cases h : (row.cid ≠ rec.cid ∨ row.record ≠ rec.recordJson ∨ row.indexedAt = none) ∧
        ∀ v ∈ row.rev, ∀ v' ∈ rec.rev, v ≤ v'
    · have merged : row.onConflict (rec.row .network now) .network =
          some ⟨rec.recordJson, rec.cid, rec.rev.or row.rev, some now, row.createdAt⟩ := if_pos h
      rw [if_pos h, Cell.upsert, Option.elim_some, merged]
      exact ⟨.some ⟨rfl, by simp [carries], rfl⟩, tombstones⟩
    · have kept : row.onConflict (rec.row .network now) .network = none := if_neg h
      rw [if_neg h, Cell.upsert, Option.elim_some, kept]
      exact ⟨.some shows, tombstones⟩

end Cell.Shows

namespace Store

variable {s : Store} {key : RecordKey}

theorem writeNetwork_cell (now : Int) (rec : PreparedRecord)
    (alive : s.didTombstones.lookup rec.key.did = none) :
    (s.writeNetwork now [rec]).1.cell rec.key =
      if (s.cell rec.key).blocks rec.rev then s.cell rec.key
      else (s.cell rec.key).upsert .network (rec.row .network now) := by
  have checked : (s.recordTombstones.lookup rec.key.uri).any (superseded ·.rev rec.rev) =
      (s.cell rec.key).blocks rec.rev := by
    simp [Cell.blocks, cell, Option.any_map]
  cases blocked : (s.cell rec.key).blocks rec.rev with
  | true =>
    rw [blocked] at checked
    simp [writeNetwork, upsertBatch, lastCopies, blockedWrites, upsertRows, checked]
  | false =>
    rw [blocked] at checked
    simp [writeNetwork, upsertBatch, lastCopies, blockedWrites, upsertRows, checked, alive,
      upsertRow_cell]

theorem deliver_shows (wf : key.WellFormed) (alive : s.didTombstones.lookup key.did = none)
    {slot : Slot (String × String) String} (shows : (s.cell key).Shows slot) (d : Delivery) :
    ((s.deliver key d).cell key).Shows (slot.apply d.event) := by
  obtain ⟨⟨rev, change⟩, now, deletedAt⟩ := d
  cases change with
  | none =>
    have mayFollow : s.createMayFollow key.did key.collection true = true := by
      simp [createMayFollow]
    simp only [deliver, Slot.apply, deleteNetwork_cell wf, Cell.delete, mayFollow]
    exact shows.deleteOrdered rev
  | some value =>
    obtain ⟨body, cid⟩ := value
    have wrote := writeNetwork_cell now ⟨key, body, cid, some rev⟩ alive
    simp only [deliver, Slot.apply]
    rw [wrote]
    cases blocked : (s.cell key).blocks (some rev) with
    | true =>
      have refused : slot.write (body, cid) rev = slot := by
        rw [shows.blocks] at blocked
        simp [Slot.write, blocked]
      simpa [refused] using shows
    | false => simpa using shows.upsert ⟨key, body, cid, some rev⟩ rfl blocked now

theorem deliver_didTombstones (d : Delivery) :
    (s.deliver key d).didTombstones = s.didTombstones := by
  unfold deliver
  split
  · simp [writeNetwork, upsertBatch]
  · simp

theorem deliver_foldl_shows (wf : key.WellFormed) (alive : s.didTombstones.lookup key.did = none)
    {slot : Slot (String × String) String} (shows : (s.cell key).Shows slot)
    (deliveries : List Delivery) :
    ((deliveries.foldl (deliver key) s).cell key).Shows
      ((deliveries.map Delivery.event).foldl Slot.apply slot) := by
  induction deliveries generalizing s slot with
  | nil => exact shows
  | cons d rest ih =>
    exact ih (by rwa [deliver_didTombstones]) (deliver_shows wf alive shows d)

theorem content_eq {slot : Slot (String × String) String} (shows : (s.cell key).Shows slot) :
    s.content key = slot.value := by
  obtain ⟨held, tombstone⟩ := slot
  have rows := shows.row
  change (s.cell key).row.map _ = held.map _
  cases stored : (s.cell key).row with
  | none =>
    rw [stored] at rows
    cases rows
    rfl
  | some row =>
    rw [stored] at rows
    cases rows with
    | some same => simpa using same.1

end Store

/-- A record without row or tombstones gets network events with distinct revs, one
transaction each, while a backfill runs. Every order of delivery ends with the row of
the newest event, or no row if that is a delete, exactly when the newest event is not a
write whose body and CID an older event wrote already with some event that does not
write them in between. -/
theorem deliveries_converge_iff (s : Store) (key : RecordKey) (wf : key.WellFormed)
    (fresh : s.cell key = {}) (alive : s.didTombstones.lookup key.did = none)
    (events : List NetworkEvent) (distinct : (events.map Event.rev).Nodup)
    (top : NetworkEvent) (mem : top ∈ events) (newest : ∀ e ∈ events, e.rev ≤ top.rev) :
    (∀ deliveries : List Delivery, (deliveries.map Delivery.event).Perm events →
      (deliveries.foldl (Store.deliver key) s).content key = top.change) ↔
    ¬ ∃ same ∈ events, ∃ other ∈ events, top.change ≠ none ∧ same.change = top.change ∧
      other.change ≠ top.change ∧ same.rev < other.rev := by
  have ends (deliveries : List Delivery) : (deliveries.foldl (Store.deliver key) s).content key =
      (replay (deliveries.map Delivery.event)).value :=
    Store.content_eq
      (Store.deliver_foldl_shows wf alive (by rw [fresh]; exact ⟨.none, rfl⟩) deliveries)
  refine Iff.trans ?_ (converges_iff distinct mem newest)
  constructor
  · intro all order perm
    have delivered : (order.map fun e => (⟨e, 0, ""⟩ : Delivery)).map Delivery.event = order := by
      simp [Function.comp_def]
    rw [← delivered, ← ends]
    exact all _ (by rwa [delivered])
  · intro all deliveries perm
    rw [ends]
    exact all _ perm

def rewrittenEvents : List NetworkEvent :=
  [⟨"20", some ("x", "c")⟩, ⟨"25", none⟩, ⟨"30", some ("x", "c")⟩]

/-- In rev order the row is there at the end. When the delete comes last it is gone, as the
second write left the row at the first one's rev. -/
theorem rewritten_lost :
    let key : RecordKey := ⟨"did:plc:a", "app.note", "1"⟩
    let deliver (order : List NetworkEvent) : Store :=
      (order.map fun e => (⟨e, 0, "now"⟩ : Delivery)).foldl (Store.deliver key) {}
    key.WellFormed ∧
    (deliver rewrittenEvents).content key = some ("x", "c") ∧
    [⟨"20", some ("x", "c")⟩, ⟨"30", some ("x", "c")⟩, ⟨"25", none⟩].Perm rewrittenEvents ∧
    (deliver [⟨"20", some ("x", "c")⟩, ⟨"30", some ("x", "c")⟩, ⟨"25", none⟩]).content key =
      none := by
  decide +kernel

/-- The same three events with a new body in the last write converge. -/
theorem deliveries_converge_updated :
    let key : RecordKey := ⟨"did:plc:a", "app.note", "1"⟩
    ∀ deliveries : List Delivery, (deliveries.map Delivery.event).Perm
        [⟨"20", some ("x", "c")⟩, ⟨"25", none⟩, ⟨"30", some ("y", "d")⟩] →
      (deliveries.foldl (Store.deliver key) {}).content key = some ("y", "d") :=
  (deliveries_converge_iff {} ⟨"did:plc:a", "app.note", "1"⟩ (by decide) rfl rfl
    [⟨"20", some ("x", "c")⟩, ⟨"25", none⟩, ⟨"30", some ("y", "d")⟩] (by decide)
    ⟨"30", some ("y", "d")⟩ (by decide) (by decide)).mpr (by decide)

end HappyView.Records
