import HappyView.Records.Convergence

/-!
# A batch of network records

`write_network` takes a list of records and writes each URI once, with its last copy. For what it
stores, one call on a list is the same as calls on the last copies one by one. The copies before
the last are never compared with it, so calls on every record of the list one by one may end
differently.
-/

namespace HappyView.Records

open HappyView.Foundation

/-- A row without its clock readings: whether it was stamped is all a guard reads. -/
structure Held where
  body : String
  cid : String
  rev : Option String
  stamped : Bool
  deriving DecidableEq

def Row.held (row : Row) : Held := ⟨row.record, row.cid, row.rev, row.indexedAt.isSome⟩

def PreparedRecord.held (rec : PreparedRecord) : Held := ⟨rec.recordJson, rec.cid, rec.rev, true⟩

namespace Held

def content (h : Held) : String × String := (h.body, h.cid)

/-- The rev guard of a network write: it does not replace a newer row. -/
def admits (h : Held) (rev : Option String) : Bool := h.rev.all fun stored => rev.all (stored ≤ ·)

/-- The row after a network write of `rec`. -/
def take : Option Held → PreparedRecord → Option Held
  | none, rec => some rec.held
  | some h, rec =>
    if (h.content ≠ rec.held.content ∨ h.stamped = false) ∧ h.admits rec.rev then
      some { rec.held with rev := rec.rev.or h.rev }
    else some h

theorem onConflict_held (row : Row) (rec : PreparedRecord) (now : Int) :
    (((row.onConflict (rec.row .network now) .network).getD row).held) =
      (take (some row.held) rec).getD row.held := by
  have guard : ((row.cid ≠ rec.cid ∨ row.record ≠ rec.recordJson ∨ row.indexedAt = none) ∧
      ∀ stored ∈ row.rev, ∀ rev ∈ rec.rev, stored ≤ rev) ↔
      (row.held.content ≠ rec.held.content ∨ row.held.stamped = false) ∧
        row.held.admits rec.rev := by
    simp only [content, admits, Row.held, PreparedRecord.held, Option.all_eq_true,
      decide_eq_true_eq, Option.mem_def]
    refine and_congr ?_ Iff.rfl
    cases row.indexedAt <;> simp [Prod.ext_iff]
    tauto
  simp only [take, ← guard, Row.onConflict, PreparedRecord.row, if_true]
  split <;> rfl

theorem content_take {h : Option Held} {rec : PreparedRecord}
    (admitted : ∀ held ∈ h, held.admits rec.rev) :
    (take h rec).map content = some rec.held.content := by
  cases h with
  | none => rfl
  | some held =>
    have := admitted held rfl
    simp only [take, this, and_true]
    split
    · rfl
    · simp_all

theorem take_of_not_admits {h : Held} {rec : PreparedRecord} (refused : h.admits rec.rev = false) :
    take (some h) rec = some h := by
  simp [take, refused]

end Held

/-! ## Last copies -/

section LastCopies

variable {records : List PreparedRecord}

theorem lastCopies_sublist : (lastCopies records).Sublist records := by
  induction records with
  | nil => exact .slnil
  | cons rec rest ih =>
    rw [lastCopies]
    split
    · exact ih.cons rec
    · exact ih.cons_cons rec

theorem nodup_lastCopies : ((lastCopies records).map (·.key.uri)).Nodup := by
  induction records with
  | nil => exact .nil
  | cons rec rest ih =>
    rw [lastCopies]
    split
    · exact ih
    · rename_i last
      refine List.nodup_cons.mpr ⟨fun mem => last ?_, ih⟩
      obtain ⟨copy, mem, same⟩ := List.mem_map.mp mem
      simpa using ⟨copy, lastCopies_sublist.subset mem, same⟩

theorem exists_lastCopy {rec : PreparedRecord} (mem : rec ∈ records) :
    ∃ last ∈ lastCopies records, last.key.uri = rec.key.uri := by
  induction records generalizing rec with
  | nil => simp at mem
  | cons first rest ih =>
    rw [lastCopies]
    split
    · rename_i again
      rcases List.mem_cons.mp mem with rfl | mem
      · obtain ⟨copy, found, same⟩ := List.any_eq_true.mp again
        obtain ⟨last, kept, uri⟩ := ih found
        exact ⟨last, kept, uri.trans (by simpa using same)⟩
      · exact ih mem
    · rcases List.mem_cons.mp mem with rfl | mem
      · exact ⟨rec, by simp, rfl⟩
      · obtain ⟨last, kept, uri⟩ := ih mem
        exact ⟨last, by simp [kept], uri⟩

theorem lastCopies_filter (key : RecordKey)
    (named : ∀ a ∈ records, ∀ b ∈ records, a.key.uri = b.key.uri → a.key = b.key) :
    (records.filter (·.key = key) = [] ∧ (lastCopies records).filter (·.key = key) = []) ∨
      ∃ earlier last, records.filter (·.key = key) = earlier ++ [last] ∧
        (lastCopies records).filter (·.key = key) = [last] := by
  induction records with
  | nil => exact .inl ⟨rfl, rfl⟩
  | cons rec rest ih =>
    have ih := ih fun a ha b hb => named a (by simp [ha]) b (by simp [hb])
    by_cases here : rec.key = key
    · by_cases again : rest.any (·.key.uri = rec.key.uri) = true
      · -- A later copy of the same URI is one of the same record.
        rw [lastCopies, if_pos again, List.filter_cons_of_pos (by simpa using here)]
        rcases ih with ⟨none, -⟩ | ⟨earlier, last, all, kept⟩
        · obtain ⟨copy, mem, same⟩ := List.any_eq_true.mp again
          have := named copy (by simp [mem]) rec (by simp) (by simpa using same)
          have mem : copy ∈ rest.filter (·.key = key) := by simp [mem, this, here]
          simp [none] at mem
        · exact .inr ⟨rec :: earlier, last, by simp [all], kept⟩
      · rw [lastCopies, if_neg again, List.filter_cons_of_pos (by simpa using here),
          List.filter_cons_of_pos (by simpa using here)]
        have none : rest.filter (·.key = key) = [] := by
          rw [List.filter_eq_nil_iff]
          intro copy mem same
          refine again (List.any_eq_true.mpr ⟨copy, mem, ?_⟩)
          simp_all
        rcases ih with ⟨-, kept⟩ | ⟨earlier, last, all, -⟩
        · exact .inr ⟨[], rec, by simp [none], by simp [kept]⟩
        · simp [none] at all
    · rw [lastCopies, List.filter_cons_of_neg (by simpa using here)]
      split
      · exact ih
      · rw [List.filter_cons_of_neg (by simpa using here)]
        exact ih

end LastCopies

/-! ## What a call stores -/

namespace Store

variable {s : Store} {key : RecordKey} {rec : PreparedRecord}

def held (s : Store) (key : RecordKey) : Option Held := (s.records.lookup key).map Row.held

/-- A record or DID tombstone supersedes `rec`. -/
def refuses (s : Store) (rec : PreparedRecord) : Bool :=
  (s.recordTombstones.lookup rec.key.uri).any (superseded ·.rev rec.rev) ||
    (s.didTombstones.lookup rec.key.did).any (superseded ·.rev rec.rev)

/-- `write_network` on one record after another, each call at its own time. -/
def writeEach (s : Store) (calls : List (Int × PreparedRecord)) : Store :=
  calls.foldl (fun s call => (s.writeNetwork call.1 [call.2]).1) s

theorem content_eq_held : s.content key = (s.held key).map Held.content := by
  simp [content, held, Row.held, Held.content, Function.comp_def]

theorem upsertRow_held (now : Int) (rec : PreparedRecord) (key : RecordKey) :
    (s.upsertRow .network now rec).1.held key =
      if rec.key = key then Held.take (s.held key) rec else s.held key := by
  by_cases here : rec.key = key
  · subst here
    have cell := congrArg Cell.row (upsertRow_cell (s := s) .network now rec)
    simp only [Store.cell, Cell.upsert] at cell
    rw [if_pos rfl, held, held, cell]
    cases s.records.lookup rec.key with
    | none => rfl
    | some row =>
      simp only [Option.elim_some, Option.map_some, Held.onConflict_held]
      simp only [Held.take]
      split <;> rfl
  · have cell := congrArg Cell.row (upsertRow_cell_of_ne (s := s) .network now (Ne.symm here))
    rw [if_neg here, held, held]
    exact congrArg _ cell

theorem upsertRows_cons (now : Int) (rec : PreparedRecord) (rest : List PreparedRecord) :
    (s.upsertRows .network now (rec :: rest)).1 =
      ((s.upsertRow .network now rec).1.upsertRows .network now rest).1 := rfl

theorem upsertRows_held (now : Int) (records : List PreparedRecord) (key : RecordKey) :
    (s.upsertRows .network now records).1.held key =
      (records.filter (·.key = key)).foldl Held.take (s.held key) := by
  induction records generalizing s with
  | nil => rfl
  | cons rec rest ih =>
    rw [upsertRows_cons, ih, upsertRow_held, List.filter_cons]
    by_cases here : rec.key = key <;> simp [here]

theorem writeNetwork_held (now : Int) (records : List PreparedRecord) (key : RecordKey) :
    (s.writeNetwork now records).1.held key =
      ((lastCopies records).filter fun rec => rec.key = key ∧ s.refuses rec = false).foldl
        Held.take (s.held key) := by
  have passed : (lastCopies records).filter
      (fun rec => rec.key.uri ∉ s.blockedWrites (lastCopies records)) =
        (lastCopies records).filter (fun rec => s.refuses rec = false) := by
    refine List.filter_congr fun rec mem => ?_
    have blocked : rec.key.uri ∈ s.blockedWrites (lastCopies records) ↔ s.refuses rec = true := by
      constructor
      · intro h
        obtain ⟨copy, refused, same⟩ := List.mem_map.mp h
        obtain ⟨mem', refused⟩ := List.mem_filter.mp refused
        obtain rfl := List.inj_on_of_nodup_map nodup_lastCopies mem' mem same
        exact refused
      · intro refused
        exact List.mem_map.mpr ⟨rec, List.mem_filter.mpr ⟨mem, refused⟩, rfl⟩
    simp [blocked]
  rw [writeNetwork, upsertBatch, upsertRows_held, passed, List.filter_filter]
  simp

@[simp] theorem writeNetwork_refuses (now : Int) (records : List PreparedRecord) :
    (s.writeNetwork now records).1.refuses rec = s.refuses rec := by
  simp [refuses, writeNetwork, upsertBatch]

theorem writeEach_held (calls : List (Int × PreparedRecord)) (key : RecordKey) :
    (s.writeEach calls).held key =
      ((calls.map (·.2)).filter fun rec => rec.key = key ∧ s.refuses rec = false).foldl
        Held.take (s.held key) := by
  induction calls generalizing s with
  | nil => rfl
  | cons call rest ih =>
    obtain ⟨now, rec⟩ := call
    refine ih.trans ?_
    simp only [writeNetwork_refuses, writeNetwork_held, lastCopies, List.map_cons, List.any_nil,
      Bool.false_eq_true, if_false]
    by_cases written : rec.key = key ∧ s.refuses rec = false
    · simp [written]
    · simp [written]

end Store

/-! ## The last copy and the ones before it -/

/-- A copy that is not newer than `last`: both carry a rev, or neither does. -/
def PreparedRecord.NotNewer (rec last : PreparedRecord) : Prop :=
  (rec.rev = none ∧ last.rev = none) ∨
    ∃ rev ∈ rec.rev, ∃ lastRev ∈ last.rev, rev ≤ lastRev

instance (rec last : PreparedRecord) : Decidable (rec.NotNewer last) :=
  inferInstanceAs (Decidable (_ ∨ _))

/-- Every URI names one record, and its last copy is at least as new as the others. -/
def NewestLast (records : List PreparedRecord) : Prop :=
  ∀ last ∈ lastCopies records, ∀ rec ∈ records, rec.key.uri = last.key.uri →
    rec.key = last.key ∧ rec.NotNewer last

instance (records : List PreparedRecord) : Decidable (NewestLast records) :=
  inferInstanceAs (Decidable (∀ _ ∈ _, _))

theorem NewestLast.named {records : List PreparedRecord} (newest : NewestLast records) :
    ∀ a ∈ records, ∀ b ∈ records, a.key.uri = b.key.uri → a.key = b.key := by
  intro a ha b hb same
  obtain ⟨last, kept, uri⟩ := exists_lastCopy ha
  rw [(newest last kept a ha uri.symm).1, (newest last kept b hb (same.symm.trans uri.symm)).1]

theorem Store.refuses_of_notNewer {s : Store} {rec last : PreparedRecord}
    (same : rec.key = last.key) (order : rec.NotNewer last) (refused : s.refuses last = true) :
    s.refuses rec = true := by
  have carried (t : String) (h : superseded t last.rev = true) : superseded t rec.rev = true := by
    rcases order with ⟨none, -⟩ | ⟨rev, carries, lastRev, last_carries, le⟩
    · simp [none, superseded]
    · rw [Option.mem_def] at carries last_carries
      rw [carries]
      rw [last_carries] at h
      exact decide_eq_true (le_trans le (of_decide_eq_true h))
  simp only [refuses, Bool.or_eq_true, Option.any_eq_true] at refused ⊢
  rw [same]
  rcases refused with ⟨t, found, h⟩ | ⟨t, found, h⟩
  · exact .inl ⟨t, found, carried _ h⟩
  · exact .inr ⟨t, found, carried _ h⟩

namespace Held

theorem admits_of_notNewer {rec last : PreparedRecord} (order : rec.NotNewer last) {h : Held}
    (carries : h.rev = rec.rev) : h.admits last.rev := by
  rcases order with ⟨-, none⟩ | ⟨rev, hr, lastRev, hl, le⟩
  · simp [admits, none]
  · rw [Option.mem_def] at hr hl
    simp [admits, carries, hr, hl, le]

theorem admits_take {rec last : PreparedRecord} (order : rec.NotNewer last) {h : Option Held}
    (admitted : ∀ held ∈ h, held.admits last.rev) :
    ∀ held ∈ take h rec, held.admits last.rev := by
  cases h with
  | none =>
    rintro held ⟨⟩
    exact admits_of_notNewer order rfl
  | some h =>
    intro held taken
    simp only [take] at taken
    split at taken
    · cases taken
      cases carries : rec.rev with
      | some rev => exact admits_of_notNewer order (by simp [carries])
      | none =>
        -- Then the last copy has no rev either.
        rcases order with ⟨-, none⟩ | ⟨rev, hr, -⟩
        · simp [admits, none]
        · rw [carries] at hr
          cases hr
    · cases taken
      exact admitted h rfl

theorem admits_foldl {last : PreparedRecord} {earlier : List PreparedRecord} {h : Option Held}
    (order : ∀ rec ∈ earlier, rec.NotNewer last) (admitted : ∀ held ∈ h, held.admits last.rev) :
    ∀ held ∈ earlier.foldl take h, held.admits last.rev := by
  induction earlier generalizing h with
  | nil => exact admitted
  | cons rec earlier ih =>
    exact ih (fun copy mem => order copy (by simp [mem]))
      (admits_take (order rec (by simp)) admitted)

theorem not_admits_of_notNewer {rec last : PreparedRecord} (order : rec.NotNewer last) {h : Held}
    (refused : h.admits last.rev = false) : h.admits rec.rev = false := by
  rcases order with ⟨-, none⟩ | ⟨rev, hr, lastRev, hl, le⟩
  · simp [admits, none] at refused
  · rw [Option.mem_def] at hr hl
    cases stored : h.rev with
    | none => simp [admits, stored] at refused
    | some held =>
      simp only [admits, stored, hl, Option.all_some, decide_eq_false_iff_not, not_le] at refused
      simpa [admits, stored, hr] using lt_of_le_of_lt le refused

theorem foldl_take_of_not_admits {last : PreparedRecord} {earlier : List PreparedRecord} {h : Held}
    (order : ∀ rec ∈ earlier, rec.NotNewer last) (refused : h.admits last.rev = false) :
    earlier.foldl take (some h) = some h := by
  induction earlier with
  | nil => rfl
  | cons rec earlier ih =>
    have first := take_of_not_admits (not_admits_of_notNewer (order rec (by simp)) refused)
    rw [List.foldl_cons, first]
    exact ih fun copy mem => order copy (by simp [mem])

theorem content_take_foldl {last : PreparedRecord} {earlier : List PreparedRecord}
    (order : ∀ rec ∈ earlier, rec.NotNewer last) (h : Option Held) :
    (take (earlier.foldl take h) last).map content = (take h last).map content := by
  by_cases admitted : ∀ held ∈ h, held.admits last.rev = true
  · rw [content_take (admits_foldl order admitted), content_take admitted]
  · cases h with
    | none => simp at admitted
    | some held =>
      have refused : held.admits last.rev = false := by simpa using admitted
      rw [foldl_take_of_not_admits order refused]

end Held

/-- One call of `write_network` stores what calls on the last copy of each URI store, and
what calls on every record store if the last copies are the newest. -/
theorem writeNetwork_batch (s : Store) (now : Int) (records : List PreparedRecord) :
    (∀ calls : List (Int × PreparedRecord), calls.map (·.2) = lastCopies records → ∀ key,
      (s.writeNetwork now records).1.content key = (s.writeEach calls).content key) ∧
    (NewestLast records → ∀ calls : List (Int × PreparedRecord), calls.map (·.2) = records →
      ∀ key, (s.writeNetwork now records).1.content key = (s.writeEach calls).content key) := by
  constructor
  · intro calls same key
    rw [Store.content_eq_held, Store.content_eq_held, Store.writeNetwork_held,
      Store.writeEach_held, same]
  · intro newest calls same key
    rw [Store.content_eq_held, Store.content_eq_held, Store.writeNetwork_held,
      Store.writeEach_held, same]
    have written (records : List PreparedRecord) :
        records.filter (fun rec => rec.key = key ∧ s.refuses rec = false) =
          (records.filter (·.key = key)).filter (s.refuses · = false) := by
      simp [List.filter_filter, Bool.and_comm]
    rw [written, written]
    rcases lastCopies_filter key newest.named with ⟨all, kept⟩ | ⟨earlier, last, all, kept⟩
    · rw [all, kept]
    · have isLast : last ∈ (lastCopies records).filter (·.key = key) := by simp [kept]
      obtain ⟨isLast, atKey⟩ := List.mem_filter.mp isLast
      have order : ∀ rec ∈ earlier, rec.key = last.key ∧ rec.NotNewer last := by
        intro rec mem
        have mem : rec ∈ records.filter (·.key = key) := by simp [all, mem]
        obtain ⟨mem, here⟩ := List.mem_filter.mp mem
        refine newest last isLast rec mem ?_
        rw [of_decide_eq_true here, of_decide_eq_true atKey]
      rw [all, kept]
      cases refused : s.refuses last with
      | true =>
        have none : earlier.filter (s.refuses · = false) = [] := by
          rw [List.filter_eq_nil_iff]
          intro rec mem
          simp [Store.refuses_of_notNewer (order rec mem).1 (order rec mem).2 refused]
        rw [List.filter_append, none]
        simp [refused]
      | false =>
        have left : ∀ rec ∈ earlier.filter (s.refuses · = false), rec.NotNewer last :=
          fun rec mem => (order rec (List.mem_filter.mp mem).1).2
        simpa [refused] using (Held.content_take_foldl left (s.held key)).symm

/-- Two copies of a note with the older one last. The batch stores it; writing one after the
other keeps the newer. -/
theorem writeNetwork_batch_differs :
    let key : RecordKey := ⟨"did:plc:a", "app.note", "1"⟩
    let records : List PreparedRecord := [⟨key, "x", "c", some "30"⟩, ⟨key, "y", "d", some "20"⟩]
    (Store.writeNetwork {} 0 records).1.content key = some ("y", "d") ∧
      (Store.writeEach {} (records.map (0, ·))).content key = some ("x", "c") := by
  decide +kernel

theorem writeNetwork_batch_inOrder :
    let key : RecordKey := ⟨"did:plc:a", "app.note", "1"⟩
    let records : List PreparedRecord := [⟨key, "y", "d", some "20"⟩, ⟨key, "x", "c", some "30"⟩]
    ∀ other, (Store.writeNetwork {} 0 records).1.content other =
      (Store.writeEach {} (records.map (0, ·))).content other := by
  intro key records
  refine (writeNetwork_batch {} 0 records).2 ?_ _ (by simp [Function.comp_def])
  decide +kernel

end HappyView.Records
