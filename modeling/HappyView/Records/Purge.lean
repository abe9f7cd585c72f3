import HappyView.Records.Batch
import Mathlib.Data.List.Perm.Subperm

/-!
# Account tombstones and purges

An account's deletion leaves a tombstone keyed by its DID. A purge deletes the network
records of a DID, in batches: every one, or, as of a rev, those whose rev is unknown or
older. A row of a local write that awaits its echo stays.
-/

namespace HappyView.Records

def Row.purgeable (row : Row) (before : Option String) : Bool :=
  row.indexedAt.isSome && before.all fun before => row.rev.all (· < before)

def purgeBatchSize : Nat := 500

namespace Store

/-- Record that `did` was deleted at `rev`. A repeated delete keeps the newest rev. -/
def writeDidTombstone (s : Store) (did rev now : String) : Store :=
  match s.didTombstones.lookup did with
  | none => { s with didTombstones := s.didTombstones.insert did ⟨rev, now⟩ }
  | some tombstone =>
    if tombstone.rev < rev then
      { s with didTombstones := s.didTombstones.insert did ⟨rev, now⟩ }
    else s

def didTombstoneRev (s : Store) (did : String) : Option String :=
  (s.didTombstones.lookup did).map (·.rev)

/-- With `before`, only a tombstone older than it goes. -/
def liftDidTombstone (s : Store) (did : String) (before : Option String) : Store :=
  match before with
  | none => { s with didTombstones := s.didTombstones.erase did }
  | some before =>
    if (s.didTombstoneRev did).any (· < before) then
      { s with didTombstones := s.didTombstones.erase did }
    else s

/-! ## Purges -/

def covers (did : String) (collections : Option (List String)) (key : RecordKey) : Bool :=
  key.did = did && collections.all (key.collection ∈ ·)

/-- The network records `did` holds, optionally only in `collections` and as of `before`. -/
def heldNetworkIds (s : Store) (did : String) (collections : Option (List String))
    (before : Option String) : List RecordKey :=
  (s.records.entries.filter fun entry =>
    covers did collections entry.1 && entry.2.purgeable before).map (·.1)

def holdsLocalNetworkRecords (s : Store) (did : String) (collections : Option (List String))
    (before : Option String) : Bool :=
  ((s.heldNetworkIds did collections before).take 1).isEmpty = false

def deleteIds (s : Store) (ids : List RecordKey) : Store := ids.foldl deleteRow s

/-- Delete up to `limit` records; also how many were selected. -/
def purgeNetworkBatch (s : Store) (did : String) (collections : Option (List String))
    (before : Option String) (limit : Nat) : Store × Nat :=
  let ids := (s.heldNetworkIds did collections before).take limit
  (s.deleteIds ids, ids.length)

/-- The loop of `purge_local`; `fuel` bounds its turns. -/
def purgeBatches (did : String) (collections : Option (List String)) (before : Option String) :
    Nat → Store → Store
  | 0, s => s
  | fuel + 1, s =>
    let (s, deleted) := s.purgeNetworkBatch did collections before purgeBatchSize
    if deleted < purgeBatchSize then s else purgeBatches did collections before fuel s

def purgeLocal (s : Store) (did : String) (collections : Option (List String))
    (before : Option String) : Store :=
  if s.holdsLocalNetworkRecords did collections before then
    purgeBatches did collections before (s.records.entries.length + 1) s
  else s

def purge (s : Store) (did : String) (collections : Option (List String))
    (before : Option String) : Store :=
  if collections = some [] then s else s.purgeLocal did collections before

section Purges

variable {s : Store} {did : String} {collections : Option (List String)} {before : Option String}
  {key : RecordKey}

theorem mem_heldNetworkIds :
    key ∈ s.heldNetworkIds did collections before ↔
      covers did collections key = true ∧
        ∃ row, s.records.lookup key = some row ∧ row.purgeable before = true := by
  unfold heldNetworkIds
  rw [List.mem_map]
  constructor
  · rintro ⟨⟨held, row⟩, mem, rfl⟩
    obtain ⟨mem, chosen⟩ := List.mem_filter.mp mem
    rw [Bool.and_eq_true] at chosen
    exact ⟨chosen.1, row, AList.mem_lookup_iff.mpr mem, chosen.2⟩
  · rintro ⟨covered, row, held, chosen⟩
    have entry : ⟨key, row⟩ ∈ s.records.entries := AList.mem_lookup_iff.mp held
    exact ⟨⟨key, row⟩, List.mem_filter.mpr ⟨entry, by simp [covered, chosen]⟩, rfl⟩

theorem nodup_heldNetworkIds : (s.heldNetworkIds did collections before).Nodup := by
  have keys : (s.records.entries.map Sigma.fst).Nodup := s.records.nodupKeys
  exact keys.sublist (List.filter_sublist.map _)

theorem deleteIds_tombstones (ids : List RecordKey) :
    (s.deleteIds ids).recordTombstones = s.recordTombstones ∧
      (s.deleteIds ids).didTombstones = s.didTombstones := by
  induction ids generalizing s with
  | nil => exact ⟨rfl, rfl⟩
  | cons id ids ih => exact ih

theorem deleteIds_lookup (ids : List RecordKey) :
    (s.deleteIds ids).records.lookup key =
      if key ∈ ids then none else s.records.lookup key := by
  induction ids generalizing s with
  | nil => rfl
  | cons id ids ih =>
    refine (ih (s := s.deleteRow id)).trans ?_
    by_cases here : key = id
    · subst here
      simp [deleteRow]
    · simp [deleteRow, here, AList.lookup_erase_ne here]

theorem mem_heldNetworkIds_deleteIds {ids : List RecordKey} :
    key ∈ (s.deleteIds ids).heldNetworkIds did collections before ↔
      key ∈ s.heldNetworkIds did collections before ∧ key ∉ ids := by
  simp only [mem_heldNetworkIds, deleteIds_lookup]
  by_cases gone : key ∈ ids <;> simp [gone]

theorem purgeBatches_lookup (fuel : Nat)
    (enough : (s.heldNetworkIds did collections before).length < fuel) :
    (purgeBatches did collections before fuel s).records.lookup key =
      if key ∈ s.heldNetworkIds did collections before then none else s.records.lookup key := by
  induction fuel generalizing s with
  | zero => omega
  | succ fuel ih =>
    set held := s.heldNetworkIds did collections before with heldIs
    have size : purgeBatchSize = 500 := rfl
    have batch : (held.take purgeBatchSize).length = min purgeBatchSize held.length :=
      List.length_take
    unfold purgeBatches
    dsimp only
    split
    · rename_i last
      have last : (held.take purgeBatchSize).length < purgeBatchSize := last
      have whole : held.take purgeBatchSize = held := List.take_of_length_le (by omega)
      rw [purgeNetworkBatch, deleteIds_lookup, ← heldIs, whole]
    · rename_i full
      have full : ¬ (held.take purgeBatchSize).length < purgeBatchSize := full
      obtain ⟨first, rest, taken⟩ : ∃ first rest, held.take purgeBatchSize = first :: rest :=
        List.exists_cons_of_length_pos (by omega)
      have fewer : (first :: (s.deleteIds (held.take purgeBatchSize)).heldNetworkIds did
          collections before).Subperm held := by
        refine List.Nodup.subperm (List.nodup_cons.mpr ⟨fun mem => ?_, nodup_heldNetworkIds⟩) ?_
        · exact (mem_heldNetworkIds_deleteIds.mp mem).2 (by simp [taken])
        · intro id mem
          rcases List.mem_cons.mp mem with rfl | mem
          · exact List.mem_of_mem_take (by rw [taken]; exact List.mem_cons_self)
          · exact (mem_heldNetworkIds_deleteIds.mp mem).1
      have shorter := fewer.length_le
      rw [List.length_cons] at shorter
      have rest := ih (s := s.deleteIds (held.take purgeBatchSize)) (by omega)
      refine rest.trans ?_
      simp only [deleteIds_lookup, mem_heldNetworkIds_deleteIds, ← heldIs]
      by_cases here : key ∈ held.take purgeBatchSize
      · simp [here, List.mem_of_mem_take here]
      · simp [here]

theorem purgeBatches_tombstones (fuel : Nat) :
    (purgeBatches did collections before fuel s).recordTombstones = s.recordTombstones ∧
      (purgeBatches did collections before fuel s).didTombstones = s.didTombstones := by
  induction fuel generalizing s with
  | zero => exact ⟨rfl, rfl⟩
  | succ fuel ih =>
    have batch := deleteIds_tombstones (s := s)
      ((s.heldNetworkIds did collections before).take purgeBatchSize)
    unfold purgeBatches
    dsimp only
    split
    · exact batch
    · exact ⟨ih.1.trans batch.1, ih.2.trans batch.2⟩

theorem purge_tombstones :
    (s.purge did collections before).recordTombstones = s.recordTombstones ∧
      (s.purge did collections before).didTombstones = s.didTombstones := by
  unfold purge purgeLocal
  split
  · exact ⟨rfl, rfl⟩
  · split
    · exact purgeBatches_tombstones _
    · exact ⟨rfl, rfl⟩

/-- A purge deletes every record it selects, and no other. -/
theorem purge_lookup (key : RecordKey) :
    (s.purge did collections before).records.lookup key =
      if key ∈ s.heldNetworkIds did collections before then none else s.records.lookup key := by
  unfold purge purgeLocal
  split
  · rename_i nothing
    subst nothing
    simp [mem_heldNetworkIds, covers]
  · split
    · refine purgeBatches_lookup _ (Nat.lt_succ_of_le ?_)
      rw [heldNetworkIds, List.length_map]
      exact List.length_filter_le ..
    · rename_i nothing
      have empty : s.heldNetworkIds did collections before = [] := by
        simpa [holdsLocalNetworkRecords] using nothing
      simp [empty]

end Purges

end Store

/-- The rows a purge leaves alone: those of a local write that awaits its echo. -/
def Held.awaitsEcho (h : Held) : Bool := !h.stamped

/-- A row as of `rev`: older, or of unknown age. -/
def Held.olderThan (h : Held) (rev : String) : Bool := h.rev.all (· < rev)

theorem Held.olderThan_iff {h : Held} {rev : String} :
    h.olderThan rev = true ↔ ∀ stored ∈ h.rev, stored < rev := by
  simp only [olderThan, Option.all_eq_true, decide_eq_true_eq, Option.mem_def]

namespace Store

variable {s : Store} {did : String} {collections : Option (List String)} {key : RecordKey}

theorem held_purge (before : Option String) :
    (s.purge did collections before).held key =
      if covers did collections key then
        (s.held key).filter fun h => h.awaitsEcho || before.any fun rev => !h.olderThan rev
      else s.held key := by
  have chosen (row : Row) : row.purgeable before =
      !(row.held.awaitsEcho || before.any fun rev => !row.held.olderThan rev) := by
    cases before <;> simp [Row.purgeable, Row.held, Held.awaitsEcho, Held.olderThan]
  simp only [held, purge_lookup, mem_heldNetworkIds]
  cases covered : covers did collections key with
  | false => simp
  | true =>
    cases s.records.lookup key with
    | none => simp
    | some row =>
      simp only [Option.some.injEq, exists_eq_left', chosen, true_and]
      cases h : row.held.awaitsEcho || before.any fun rev => !row.held.olderThan rev <;>
        simp [Option.filter_some, h]

/-! ## The tombstone -/

theorem didTombstoneRev_writeDidTombstone (rev now : String) :
    (s.writeDidTombstone did rev now).didTombstoneRev did =
      some ((s.didTombstoneRev did).elim rev (max · rev)) := by
  unfold writeDidTombstone didTombstoneRev
  cases held : s.didTombstones.lookup did with
  | none => simp
  | some tombstone =>
    simp only [Option.map_some, Option.elim_some]
    split
    · rename_i newer
      simp [max_eq_right (le_of_lt newer)]
    · rename_i newer
      simp [held, max_eq_left (not_lt.mp newer)]

@[simp] theorem writeDidTombstone_records (rev now : String) :
    (s.writeDidTombstone did rev now).records = s.records := by
  unfold writeDidTombstone
  split
  · rfl
  · split <;> rfl

@[simp] theorem writeDidTombstone_recordTombstones (rev now : String) :
    (s.writeDidTombstone did rev now).recordTombstones = s.recordTombstones := by
  unfold writeDidTombstone
  split
  · rfl
  · split <;> rfl

theorem didTombstoneRev_liftDidTombstone (before : Option String) :
    (s.liftDidTombstone did before).didTombstoneRev did =
      (s.didTombstoneRev did).filter fun rev => before.any (· ≤ rev) := by
  cases before with
  | none => simp [liftDidTombstone, didTombstoneRev]
  | some before =>
    unfold liftDidTombstone
    cases held : s.didTombstoneRev did with
    | none => simp [held]
    | some rev =>
      simp only [Option.any_some]
      by_cases older : rev < before
      · simp [older, didTombstoneRev, Option.filter_some]
      · simp [older, held, Option.filter_some]

@[simp] theorem liftDidTombstone_records (before : Option String) :
    (s.liftDidTombstone did before).records = s.records := by
  cases before with
  | none => rfl
  | some before =>
    unfold liftDidTombstone
    dsimp only
    split <;> rfl

@[simp] theorem liftDidTombstone_recordTombstones (before : Option String) :
    (s.liftDidTombstone did before).recordTombstones = s.recordTombstones := by
  cases before with
  | none => rfl
  | some before =>
    unfold liftDidTombstone
    dsimp only
    split <;> rfl

end Store

end HappyView.Records
