import HappyView.Records.Store

/-!
# One record of the tables

Every operation on the tables acts on each record by itself: on its row and on the rev of its
tombstone, its *cell*. The cell operations below have no tables, keys or URIs left, and each store
operation is shown to act on a cell as one of them and to leave every other cell alone.
-/

namespace HappyView.Records

open HappyView.Foundation

/-! ## URIs name records -/

theorem RecordKey.of_parseRecordUri {key : RecordKey} {did collection rkey : String}
    (h : parseRecordUri key.uri = some (did, collection, rkey)) :
    key = ⟨did, collection, rkey⟩ := by
  have stripped : Text.strip "at://" key.uri =
      some (key.did ++ String.singleton '/' ++
        (key.collection ++ String.singleton '/' ++ key.rkey)) := by
    rw [← Text.strip_append "at://"]
    simp [RecordKey.uri, String.append_assoc]
  rw [parseRecordUri, stripped, Option.map_some, Text.split_join, Text.split_join] at h
  split at h
  · rename_i parts
    split at h
    · cases h
    · cases h
      -- Three parts in all, so each of the key's fields is one part.
      have hd := Text.split_ne_nil '/' key.did
      have hc := Text.split_ne_nil '/' key.collection
      have hr := Text.split_ne_nil '/' key.rkey
      have one : Text.split '/' key.did = [did] ∧ Text.split '/' key.collection = [collection] ∧
          Text.split '/' key.rkey = [rkey] :=
        Text.eq_singletons_of_append hd hc hr (Option.some.inj parts)
      rw [(Text.of_split_eq_singleton one.1).1.symm, (Text.of_split_eq_singleton one.2.1).1.symm,
        (Text.of_split_eq_singleton one.2.2).1.symm]
  · cases h

/-- The key's URI parses, so a delete by URI finds the key's row. -/
def RecordKey.WellFormed (key : RecordKey) : Prop := (parseRecordUri key.uri).isSome

instance (key : RecordKey) : Decidable key.WellFormed :=
  inferInstanceAs (Decidable (_ = true))

theorem RecordKey.WellFormed.parse {key : RecordKey} (h : key.WellFormed) :
    parseRecordUri key.uri = some (key.did, key.collection, key.rkey) := by
  obtain ⟨⟨did, collection, rkey⟩, parsed⟩ := Option.isSome_iff_exists.mp h
  obtain rfl := of_parseRecordUri parsed
  exact parsed

theorem RecordKey.WellFormed.uri_inj {key other : RecordKey} (h : key.WellFormed)
    (same : other.uri = key.uri) : other = key :=
  of_parseRecordUri (same ▸ h.parse)

/-! ## Cells -/

structure Cell where
  row : Option Row := none
  tombstone : Option String := none
  deriving DecidableEq

namespace Cell

def upsert (c : Cell) (kind : WriteKind) (excluded : Row) : Cell :=
  { c with row := some (c.row.elim excluded fun row => (row.onConflict excluded kind).getD row) }

/-- A tombstone at `rev`, unless there is a newer one. -/
def bury (c : Cell) (rev : String) : Cell :=
  { c with tombstone := some (c.tombstone.elim rev (max · rev)) }

/-- Whether the cell's own tombstone supersedes a write at `rev`. -/
def blocks (c : Cell) (rev : Option String) : Bool := c.tombstone.any (superseded · rev)

def deleteUnordered (c : Cell) : Cell :=
  match c.row with
  | none => c
  | some row => row.rev.elim { c with row := none } { c with row := none }.bury

def deleteOrdered (c : Cell) (mayFollow : Bool) (rev : String) : Cell :=
  match c.row with
  | none => if mayFollow then c.bury rev else c
  | some row => if ∀ held ∈ row.rev, held ≤ rev then { c with row := none }.bury rev else c

def delete (c : Cell) (mayFollow : Bool) : Option String → Cell
  | none => c.deleteUnordered
  | some rev => c.deleteOrdered mayFollow rev

end Cell

namespace Store

def cell (s : Store) (key : RecordKey) : Cell :=
  ⟨s.records.lookup key, (s.recordTombstones.lookup key.uri).map (·.rev)⟩

variable {s : Store} {key other : RecordKey}

/-! ## Upserts act on cells -/

@[simp] theorem upsertRow_recordTombstones (kind : WriteKind) (now : Int) (rec : PreparedRecord) :
    (s.upsertRow kind now rec).1.recordTombstones = s.recordTombstones := by
  unfold upsertRow
  dsimp only
  split <;> rfl

@[simp] theorem upsertRow_didTombstones (kind : WriteKind) (now : Int) (rec : PreparedRecord) :
    (s.upsertRow kind now rec).1.didTombstones = s.didTombstones := by
  unfold upsertRow
  dsimp only
  split <;> rfl

@[simp] theorem upsertRows_didTombstones (kind : WriteKind) (now : Int)
    (records : List PreparedRecord) :
    (s.upsertRows kind now records).1.didTombstones = s.didTombstones := by
  induction records generalizing s with
  | nil => rfl
  | cons rec rest ih => exact ih.trans (upsertRow_didTombstones kind now rec)

@[simp] theorem upsertRows_recordTombstones (kind : WriteKind) (now : Int)
    (records : List PreparedRecord) :
    (s.upsertRows kind now records).1.recordTombstones = s.recordTombstones := by
  induction records generalizing s with
  | nil => rfl
  | cons rec rest ih => exact ih.trans (upsertRow_recordTombstones kind now rec)

theorem upsertRow_cell (kind : WriteKind) (now : Int) (rec : PreparedRecord) :
    (s.upsertRow kind now rec).1.cell rec.key =
      (s.cell rec.key).upsert kind (rec.row kind now) := by
  unfold upsertRow cell Cell.upsert
  cases stored : s.records.lookup rec.key with
  | none => simp
  | some row => cases merged : row.onConflict (rec.row kind now) kind <;> simp [stored, merged]

theorem upsertRow_cell_of_ne (kind : WriteKind) (now : Int) {rec : PreparedRecord}
    (ne : key ≠ rec.key) : (s.upsertRow kind now rec).1.cell key = s.cell key := by
  unfold upsertRow cell
  dsimp only
  split
  · rfl
  · simp [AList.lookup_insert_ne ne]

/-! ## Tombstones and deletes act on cells -/

theorem writeRecordTombstone_cell (s : Store) (key : RecordKey) (rev now : String) :
    (s.writeRecordTombstone key.uri rev now).cell key = (s.cell key).bury rev := by
  unfold writeRecordTombstone cell Cell.bury
  cases stored : s.recordTombstones.lookup key.uri with
  | none => simp
  | some tombstone =>
    by_cases newer : tombstone.rev < rev
    · simp [newer, max_eq_right newer.le]
    · simp [newer, stored, max_eq_left (not_lt.mp newer)]

theorem writeRecordTombstone_cell_of_ne {uri : String} (ne : key.uri ≠ uri) (rev now : String) :
    (s.writeRecordTombstone uri rev now).cell key = s.cell key := by
  unfold writeRecordTombstone cell
  split
  · simp [AList.lookup_insert_ne ne]
  · split
    · simp [AList.lookup_insert_ne ne]
    · rfl

@[simp] theorem writeRecordTombstone_didTombstones (uri rev now : String) :
    (s.writeRecordTombstone uri rev now).didTombstones = s.didTombstones := by
  unfold writeRecordTombstone
  split
  · rfl
  · split <;> rfl

@[simp] theorem deleteRow_cell (s : Store) (key : RecordKey) :
    (s.deleteRow key).cell key = { s.cell key with row := none } := by
  simp [deleteRow, cell]

theorem deleteRow_cell_of_ne (ne : key ≠ other) : (s.deleteRow other).cell key = s.cell key := by
  simp [deleteRow, cell, AList.lookup_erase_ne ne]

theorem find_eq (s : Store) (key : RecordKey) : s.find key = (s.cell key).row.map Row.rev := rfl

theorem deleteUnordered_cell (s : Store) (key : RecordKey) (now : String) :
    (s.deleteUnordered key.uri key now).cell key = (s.cell key).deleteUnordered := by
  rw [deleteUnordered, find_eq, Cell.deleteUnordered]
  cases (s.cell key).row with
  | none => rfl
  | some row => cases rev : row.rev <;> simp [rev, writeRecordTombstone_cell]

theorem deleteUnordered_cell_of_ne (ne : key ≠ other) (uri_ne : key.uri ≠ other.uri)
    (now : String) :
    (s.deleteUnordered other.uri other now).cell key = s.cell key := by
  unfold deleteUnordered
  split
  · rfl
  · exact deleteRow_cell_of_ne ne
  · rw [writeRecordTombstone_cell_of_ne uri_ne, deleteRow_cell_of_ne ne]

theorem deleteOrdered_cell (s : Store) (key : RecordKey) (rev now : String)
    (backfillRunning : Bool) :
    (s.deleteOrdered key.uri key rev now backfillRunning).cell key =
      (s.cell key).deleteOrdered
        (s.createMayFollow key.did key.collection backfillRunning) rev := by
  rw [deleteOrdered, find_eq, Cell.deleteOrdered]
  cases (s.cell key).row with
  | none =>
    cases s.createMayFollow key.did key.collection backfillRunning <;>
      simp [writeRecordTombstone_cell]
  | some row =>
    dsimp only [Option.map_some]
    split
    · rw [writeRecordTombstone_cell, deleteRow_cell]
    · rfl

theorem deleteOrdered_cell_of_ne (ne : key ≠ other) (uri_ne : key.uri ≠ other.uri)
    (rev now : String)
    (backfillRunning : Bool) :
    (s.deleteOrdered other.uri other rev now backfillRunning).cell key = s.cell key := by
  unfold deleteOrdered
  split
  · split
    · exact writeRecordTombstone_cell_of_ne uri_ne _ _
    · rfl
  · split
    · rw [writeRecordTombstone_cell_of_ne uri_ne, deleteRow_cell_of_ne ne]
    · rfl

@[simp] theorem deleteUnordered_didTombstones (uri now : String) :
    (s.deleteUnordered uri key now).didTombstones = s.didTombstones := by
  unfold deleteUnordered
  split <;> simp [deleteRow]

@[simp] theorem deleteOrdered_didTombstones (uri rev now : String) (backfillRunning : Bool) :
    (s.deleteOrdered uri key rev now backfillRunning).didTombstones = s.didTombstones := by
  unfold deleteOrdered
  split <;> split <;> simp [deleteRow]

@[simp] theorem deleteNetwork_didTombstones (uri did collection : String) (rev : Option String)
    (now : String) (backfillRunning : Bool) :
    (s.deleteNetwork uri did collection rev now backfillRunning).didTombstones =
      s.didTombstones := by
  cases rev <;> simp [deleteNetwork]

theorem deleteNetwork_cell (wf : key.WellFormed) (rev : Option String) (now : String)
    (backfillRunning : Bool) :
    (s.deleteNetwork key.uri key.did key.collection rev now backfillRunning).cell key =
      (s.cell key).delete (s.createMayFollow key.did key.collection backfillRunning) rev := by
  simp only [deleteNetwork, wf.parse, Option.map_some, Option.getD_some]
  cases rev with
  | none => exact deleteUnordered_cell s key now
  | some rev => exact deleteOrdered_cell s key rev now backfillRunning

theorem deleteNetwork_cell_of_ne (wf : other.WellFormed) (ne : key ≠ other) (rev : Option String)
    (now : String) (backfillRunning : Bool) :
    (s.deleteNetwork other.uri other.did other.collection rev now backfillRunning).cell key =
      s.cell key := by
  have uri_ne : key.uri ≠ other.uri := fun same => ne (wf.uri_inj same)
  simp only [deleteNetwork, wf.parse, Option.map_some, Option.getD_some]
  cases rev with
  | none => exact deleteUnordered_cell_of_ne ne uri_ne now
  | some rev => exact deleteOrdered_cell_of_ne ne uri_ne rev now backfillRunning

end Store

end HappyView.Records
