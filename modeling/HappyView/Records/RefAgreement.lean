import HappyView.Foundation.FiniteMap
import HappyView.Records.Batch
import HappyView.Records.Refs
import Mathlib.Order.Nat

/-!
# Refs and bodies

Between the two transactions of a local write the refs of its row may be those of an older
body; the call is then `pending`, and it will write the refs of its own body. The invariant is
that every stored body has its refs, or those that some pending call is still to write. A refs
transaction keeps it as long as the row still holds a body with the targets it writes: a row
that another writer has replaced since gets the refs of a body that is gone.
-/

namespace HappyView.Records

open HappyView.Foundation
open HappyView.Spaces.Writers (DatabaseBackend)

namespace RefStore

variable {m m' : RefStore} {readBody : String → Json} {backend : DatabaseBackend}

/-! ## Rows with their ids -/

def entry (m : RefStore) (key : RecordKey) : Option (Nat × String) :=
  (m.ids.lookup key).bind fun id => (m.store.records.lookup key).map fun row => (id, row.record)

theorem entry_eq_some {key : RecordKey} {id : Nat} {body : String} :
    m.entry key = some (id, body) ↔
      m.ids.lookup key = some id ∧ ∃ row, m.store.records.lookup key = some row ∧
        row.record = body := by
  simp [entry, Option.bind_eq_some_iff]

def Holds (m : RefStore) (id : Nat) (body : String) : Prop := ∃ key, m.entry key = some (id, body)

def rows (m : RefStore) : List (Nat × String) :=
  m.ids.entries.filterMap fun entry =>
    (m.store.records.lookup entry.1).map fun row => (entry.2, row.record)

theorem mem_rows {id : Nat} {body : String} : (id, body) ∈ m.rows ↔ m.Holds id body := by
  unfold rows Holds
  rw [List.mem_filterMap]
  constructor
  · rintro ⟨⟨key, _⟩, mem, found⟩
    obtain ⟨row, stored, ⟨⟩⟩ := Option.map_eq_some_iff.mp found
    exact ⟨key, entry_eq_some.mpr ⟨AList.mem_lookup_iff.mpr mem, row, stored, rfl⟩⟩
  · rintro ⟨key, found⟩
    obtain ⟨named, row, stored, rfl⟩ := entry_eq_some.mp found
    exact ⟨⟨key, id⟩, AList.mem_lookup_iff.mp named, by simp [stored]⟩

/-- The rows and no others have ids, one each, and the sequence is past them. -/
structure Sound (m : RefStore) : Prop where
  held : ∀ key, (m.ids.lookup key).isSome = (m.store.records.lookup key).isSome
  unique : ∀ key other id, m.ids.lookup key = some id → m.ids.lookup other = some id → key = other
  bounded : ∀ key id, m.ids.lookup key = some id → id ≤ m.sequence

theorem Sound.holds (sound : m.Sound) {key : RecordKey} {id : Nat}
    (named : m.ids.lookup key = some id) : ∃ body, m.entry key = some (id, body) := by
  have held := sound.held key
  rw [named] at held
  obtain ⟨row, stored⟩ := Option.isSome_iff_exists.mp held.symm
  exact ⟨row.record, entry_eq_some.mpr ⟨named, row, stored, rfl⟩⟩

theorem Sound.holds_unique (sound : m.Sound) {id : Nat} {body other : String}
    (h : m.Holds id body) (k : m.Holds id other) : body = other := by
  obtain ⟨key, h⟩ := h
  obtain ⟨key', k⟩ := k
  have same := sound.unique key key' id (entry_eq_some.mp h).1 (entry_eq_some.mp k).1
  rw [same, k] at h
  cases h
  rfl

theorem exists_of_hasId {id : Nat} (h : m.hasId id = true) : ∃ key, m.ids.lookup key = some id := by
  obtain ⟨⟨key, _⟩, mem, same⟩ := List.any_eq_true.mp h
  cases eq_of_beq same
  exact ⟨key, AList.mem_lookup_iff.mpr mem⟩

theorem lt_newId (backend : DatabaseBackend) (sound : m.Sound) {key : RecordKey} {id : Nat}
    (named : m.ids.lookup key = some id) : id < m.newId backend := by
  cases backend with
  | sqlite =>
    have mem : id ∈ m.ids.entries.map (·.2) :=
      List.mem_map.mpr ⟨⟨key, id⟩, AList.mem_lookup_iff.mp named, rfl⟩
    exact Nat.lt_succ_of_le (List.le_max_of_le mem le_rfl)
  | postgres => exact Nat.lt_succ_of_le (sound.bounded key id named)

/-! ## Upserts -/

theorem store_upsertRow (s : Store) (kind : WriteKind) (now : Int) (rec : PreparedRecord) :
    s.upsertRow kind now rec = (s, []) ∨
      ∃ row, s.upsertRow kind now rec =
          ({ s with records := s.records.insert rec.key row }, [rec.key.uri]) ∧
        row.record = rec.recordJson := by
  unfold Store.upsertRow
  cases s.records.lookup rec.key with
  | none => exact .inr ⟨_, rfl, rfl⟩
  | some old =>
    cases kind with
    | network =>
      dsimp only [Row.onConflict]
      split_ifs
      · exact .inr ⟨_, rfl, rfl⟩
      · exact .inl rfl
    | echoed => exact .inr ⟨_, rfl, rfl⟩
    | indexOnly => exact .inr ⟨_, rfl, rfl⟩

def place (m : RefStore) (key : RecordKey) (id : Nat) (row : Row) : RefStore :=
  { m with
    store := { m.store with records := m.store.records.insert key row }
    ids := m.ids.insert key id
    sequence := max m.sequence id }

theorem upsertRow_cases (backend : DatabaseBackend) (m : RefStore) (kind : WriteKind) (now : Int)
    (rec : PreparedRecord) : m.upsertRow backend kind now rec = (m, []) ∨
      ∃ row : Row, row.record = rec.recordJson ∧
        m.upsertRow backend kind now rec =
          (m.place rec.key ((m.ids.lookup rec.key).getD (m.newId backend)) row,
            [((m.ids.lookup rec.key).getD (m.newId backend), rec.recordJson)]) := by
  obtain unchanged | ⟨row, changed, body⟩ := store_upsertRow m.store kind now rec
  · exact .inl (by simp only [upsertRow, unchanged])
  · exact .inr ⟨row, body, by simp only [upsertRow, changed, place]⟩

section Place

variable {key other : RecordKey} {id : Nat} {row : Row}

theorem entry_place : (m.place key id row).entry key = some (id, row.record) := by
  simp [entry, place, AList.lookup_insert]

theorem entry_place_of_ne (ne : other ≠ key) :
    (m.place key id row).entry other = m.entry other := by
  simp only [entry, place, AList.lookup_insert_ne ne]

theorem Sound.place (sound : m.Sound)
    (free : ∀ other, m.ids.lookup other = some id → other = key) : (m.place key id row).Sound where
  held := by
    intro other
    by_cases same : other = key
    · subst same
      simp [RefStore.place, AList.lookup_insert]
    · simp only [RefStore.place, AList.lookup_insert_ne same, sound.held other]
  unique := by
    intro left right id' h k
    obtain ⟨rfl, rfl⟩ | left' := lookup_insert_cases h
    · obtain ⟨rfl, -⟩ | right' := lookup_insert_cases k
      · rfl
      · exact (free right right').symm
    · obtain ⟨rfl, rfl⟩ | right' := lookup_insert_cases k
      · exact free left left'
      · exact sound.unique left right id' left' right'
  bounded := by
    intro other id' h
    obtain ⟨-, rfl⟩ | h := lookup_insert_cases h
    · exact le_max_right _ _
    · exact (sound.bounded other id' h).trans (le_max_left _ _)

end Place

theorem Sound.free (sound : m.Sound) (key other : RecordKey)
    (named : m.ids.lookup other = some ((m.ids.lookup key).getD (m.newId backend))) :
    other = key := by
  cases own : m.ids.lookup key with
  | none =>
    rw [own] at named
    exact absurd rfl (lt_newId backend sound named).ne
  | some id =>
    rw [own] at named
    exact sound.unique other key id named own

/-- Upserting records of the keys `keys` has taken `m` to `m'` and written `written`. -/
structure Writes (keys : List RecordKey) (written : List (Nat × String)) (m m' : RefStore) :
    Prop where
  sound : m'.Sound
  apart : ∀ key ∉ keys, m'.entry key = m.entry key
  kept : ∀ key id body, m.entry key = some (id, body) → ∃ new, m'.entry key = some (id, new)
  listed : ∀ key, m'.entry key = m.entry key ∨ ∃ row ∈ written, m'.entry key = some row
  stored : ∀ row ∈ written, ∃ key ∈ keys, m'.entry key = some row

theorem Writes.refl (sound : m.Sound) (keys : List RecordKey) : Writes keys [] m m where
  sound := sound
  apart := fun _ _ => rfl
  kept := fun _ _ body h => ⟨body, h⟩
  listed := fun _ => .inl rfl
  stored := by simp

theorem Writes.append {m'' : RefStore} {keys keys' : List RecordKey}
    {written written' : List (Nat × String)} (h : Writes keys written m m')
    (k : Writes keys' written' m' m'') (disjoint : ∀ key ∈ keys, key ∉ keys') :
    Writes (keys ++ keys') (written ++ written') m m'' where
  sound := k.sound
  apart := by
    intro key absent
    rw [List.mem_append, not_or] at absent
    rw [k.apart key absent.2, h.apart key absent.1]
  kept := by
    intro key id body found
    obtain ⟨new, found⟩ := h.kept key id body found
    exact k.kept key id new found
  listed := by
    intro key
    obtain later | ⟨row, mem, found⟩ := k.listed key
    · obtain same | ⟨row, mem, found⟩ := h.listed key
      · exact .inl (later.trans same)
      · exact .inr ⟨row, List.mem_append_left _ mem, later.trans found⟩
    · exact .inr ⟨row, List.mem_append_right _ mem, found⟩
  stored := by
    intro row mem
    obtain mem | mem := List.mem_append.mp mem
    · obtain ⟨key, listed, found⟩ := h.stored row mem
      exact ⟨key, List.mem_append_left _ listed, (k.apart key (disjoint key listed)).trans found⟩
    · obtain ⟨key, listed, found⟩ := k.stored row mem
      exact ⟨key, List.mem_append_right _ listed, found⟩

theorem upsertRow_writes (backend : DatabaseBackend) (sound : m.Sound) (kind : WriteKind)
    (now : Int) (rec : PreparedRecord) :
    Writes [rec.key] (m.upsertRow backend kind now rec).2 m
      (m.upsertRow backend kind now rec).1 := by
  obtain unchanged | ⟨row, body, changed⟩ := upsertRow_cases backend m kind now rec
  · rw [unchanged]
    exact .refl sound _
  rw [changed, ← body]
  exact {
    sound := sound.place (sound.free rec.key)
    apart := fun key absent => entry_place_of_ne (List.mem_singleton.not.mp absent)
    kept := by
      intro key id body found
      by_cases same : key = rec.key
      · subst same
        rw [(entry_eq_some.mp found).1]
        exact ⟨_, entry_place⟩
      · exact ⟨body, (entry_place_of_ne same).trans found⟩
    listed := by
      intro key
      by_cases same : key = rec.key
      · subst same
        exact .inr ⟨_, List.mem_singleton_self _, entry_place⟩
      · exact .inl (entry_place_of_ne same)
    stored := by
      intro row mem
      cases List.mem_singleton.mp mem
      exact ⟨rec.key, List.mem_singleton_self _, entry_place⟩ }

theorem upsertRows_writes (sound : m.Sound) (kind : WriteKind) (now : Int)
    {records : List PreparedRecord} (nodup : (records.map (·.key)).Nodup) :
    Writes (records.map (·.key)) (m.upsertRows backend kind now records).2 m
      (m.upsertRows backend kind now records).1 := by
  induction records generalizing m with
  | nil => exact .refl sound _
  | cons rec rest ih =>
    obtain ⟨new, nodup⟩ := List.nodup_cons.mp nodup
    have first := upsertRow_writes backend sound kind now rec
    refine Writes.append first (ih first.sound nodup) ?_
    intro key mem
    rwa [List.mem_singleton.mp mem]

@[simp] theorem upsertRow_refs (backend : DatabaseBackend) (m : RefStore) (kind : WriteKind)
    (now : Int) (rec : PreparedRecord) :
    (m.upsertRow backend kind now rec).1.refs = m.refs ∧
      (m.upsertRow backend kind now rec).1.pending = m.pending ∧
      (m.upsertRow backend kind now rec).1.failed = m.failed := by
  obtain h | ⟨row, -, h⟩ := upsertRow_cases backend m kind now rec <;>
    simp [h, place]

@[simp] theorem upsertRows_refs (backend : DatabaseBackend) (m : RefStore) (kind : WriteKind)
    (now : Int) (records : List PreparedRecord) :
    (m.upsertRows backend kind now records).1.refs = m.refs ∧
      (m.upsertRows backend kind now records).1.pending = m.pending ∧
      (m.upsertRows backend kind now records).1.failed = m.failed := by
  induction records generalizing m with
  | nil => exact ⟨rfl, rfl, rfl⟩
  | cons rec rest ih => simp [upsertRows, ih]

theorem upsertRows_singleton (kind : WriteKind) (now : Int) (rec : PreparedRecord) :
    m.upsertRows backend kind now [rec] = m.upsertRow backend kind now rec := by
  simp [upsertRows]

theorem Writes.cases {keys : List RecordKey} {written : List (Nat × String)}
    (h : Writes keys written m m') {id : Nat} {body : String} (held : m'.Holds id body) :
    (id, body) ∈ written ∨ id ∉ written.map Prod.fst ∧ m.Holds id body := by
  obtain ⟨key, found⟩ := held
  obtain same | ⟨row, mem, new⟩ := h.listed key
  · by_cases mem : id ∈ written.map Prod.fst
    · obtain ⟨⟨_, other⟩, listed, rfl⟩ := List.mem_map.mp mem
      obtain ⟨key', -, stored⟩ := h.stored _ listed
      rw [h.sound.holds_unique ⟨key, found⟩ ⟨key', stored⟩]
      exact .inl listed
    · exact .inr ⟨mem, key, same ▸ found⟩
  · rw [new] at found
    cases found
    exact .inl mem

/-! ## The invariant -/

/-- A pending local write is to write the refs that the body has. -/
def Promised (readBody : String → Json) (pending : AList fun _ : Nat => List (Nat × String))
    (id : Nat) (body : String) : Prop :=
  ∃ call ∈ pending.entries, ∃ row ∈ call.2,
    row.1 = id ∧ refTargets readBody row.2 = refTargets readBody body

theorem promised_iff {pending : AList fun _ : Nat => List (Nat × String)} {id : Nat}
    {body : String} :
    Promised readBody pending id body ↔
      ∃ call written old, pending.lookup call = some written ∧ (id, old) ∈ written ∧
        refTargets readBody old = refTargets readBody body := by
  constructor
  · rintro ⟨⟨call, written⟩, pends, ⟨id, old⟩, mem, rfl, same⟩
    exact ⟨call, written, old, AList.mem_lookup_iff.mpr pends, mem, same⟩
  · rintro ⟨call, written, old, pends, mem, same⟩
    exact ⟨⟨call, written⟩, AList.mem_lookup_iff.mp pends, (id, old), mem, rfl, same⟩

structure Inv (readBody : String → Json) (m : RefStore) : Prop where
  sound : m.Sound
  rooted : ∀ ref ∈ m.refs, ∃ body, m.Holds ref.1 body
  single : ∀ call written, m.pending.lookup call = some written →
    ∀ row ∈ written, ∀ other ∈ written, row = other
  covered : m.failed = false → ∀ id body, m.Holds id body →
    Indexed (refTargets readBody) m.refs id body ∨ Promised readBody m.pending id body

theorem Inv.write_sync (inv : Inv readBody m) {keys : List RecordKey}
    {written : List (Nat × String)} (h : Writes keys written m m') (refs : m'.refs = m.refs)
    (pending : m'.pending = m.pending) (failed : m'.failed = m.failed) :
    Inv readBody (m'.syncRefs readBody written) where
  sound := ⟨h.sound.held, h.sound.unique, h.sound.bounded⟩
  rooted := by
    rintro ⟨id, target⟩ mem
    obtain ⟨body, mem, -⟩ | ⟨mem, -⟩ := mem_sync.mp mem
    · obtain ⟨key, -, stored⟩ := h.stored _ mem
      exact ⟨body, key, stored⟩
    · obtain ⟨body, key, found⟩ := inv.rooted _ (refs ▸ mem)
      obtain ⟨new, found⟩ := h.kept key _ body found
      exact ⟨new, key, found⟩
  single := fun call written found => inv.single call written (pending ▸ found)
  covered := by
    intro alive id body held
    obtain mem | ⟨absent, held⟩ := h.cases (show m'.Holds id body from held)
    · refine .inl (indexed_sync mem fun other mem' => ?_)
      obtain ⟨key, -, stored⟩ := h.stored _ mem
      obtain ⟨key', -, stored'⟩ := h.stored _ mem'
      rw [h.sound.holds_unique ⟨key, stored⟩ ⟨key', stored'⟩]
    · obtain indexed | promised := inv.covered (failed ▸ alive) id body held
      · refine .inl ((indexed_sync_of_not_mem absent).mpr ?_)
        rwa [refs]
      · refine .inr ?_
        rw [show (m'.syncRefs readBody written).pending = m.pending from pending]
        exact promised

/-! ## The steps -/

theorem Inv.writeNetwork (inv : Inv readBody m) (now : Int) (records : List PreparedRecord) :
    Inv readBody (m.writeNetwork readBody backend now records) := by
  have nodup : (((lastCopies records).filter fun rec =>
      rec.key.uri ∉ m.store.blockedWrites (lastCopies records)).map (·.key)).Nodup := by
    refine List.Nodup.of_map RecordKey.uri ?_
    rw [List.map_map]
    exact nodup_lastCopies.sublist (List.filter_sublist.map _)
  obtain ⟨refs, pending, failed⟩ := upsertRows_refs backend m .network now _
  exact inv.write_sync (upsertRows_writes inv.sound .network now nodup) refs pending failed

theorem page_writes (sound : m.Sound) (after : Int) (limit : Nat) :
    Writes m.ids.keys (m.page after limit) m m where
  sound := sound
  apart := fun _ _ => rfl
  kept := fun _ _ body h => ⟨body, h⟩
  listed := fun _ => .inl rfl
  stored := by
    intro row mem
    obtain ⟨entry, taken, found⟩ := List.mem_filterMap.mp mem
    obtain ⟨stored, lookup, rfl⟩ := Option.map_eq_some_iff.mp found
    have sorted := (List.perm_insertionSort _ _).mem_iff.mp (List.mem_of_mem_take taken)
    have named := AList.mem_lookup_iff.mpr (List.mem_filter.mp sorted).1
    exact ⟨entry.1, AList.lookup_isSome.mp (by rw [named]; rfl),
      entry_eq_some.mpr ⟨named, stored, lookup, rfl⟩⟩

theorem Inv.rebuildRefsPage (inv : Inv readBody m) (after : Int) (limit : Nat) :
    Inv readBody (m.rebuildRefsPage readBody after limit) :=
  inv.write_sync (page_writes inv.sound after limit) rfl rfl rfl

theorem Inv.fail (inv : Inv readBody m) (pending : AList fun _ : Nat => List (Nat × String))
    (fewer : ∀ call written, pending.lookup call = some written →
      m.pending.lookup call = some written) :
    Inv readBody { m with pending := pending, failed := true } where
  sound := ⟨inv.sound.held, inv.sound.unique, inv.sound.bounded⟩
  rooted := inv.rooted
  single := fun call written found => inv.single call written (fewer call written found)
  covered := nofun

theorem Inv.writeLocalRow (inv : Inv readBody m) {claims : String → Bool} {call : Nat}
    (idle : m.pending.lookup call = none) (kind : WriteKind) (now : Int) (rec : PreparedRecord) :
    Inv readBody (m.writeLocalRow backend claims call kind now rec) := by
  unfold RefStore.writeLocalRow
  split_ifs
  · exact inv.fail m.pending fun _ _ found => found
  · exact inv
  rw [upsertRows_singleton]
  have h := upsertRow_writes backend inv.sound kind now rec
  obtain ⟨refs, pending, failed⟩ := upsertRow_refs backend m kind now rec
  exact {
    sound := ⟨h.sound.held, h.sound.unique, h.sound.bounded⟩
    rooted := by
      intro ref mem
      obtain ⟨body, key, found⟩ := inv.rooted ref (refs ▸ mem)
      obtain ⟨new, found⟩ := h.kept key _ body found
      exact ⟨new, key, found⟩
    single := by
      intro other written found
      obtain ⟨-, rfl⟩ | old := lookup_insert_cases found
      · obtain h | ⟨row, -, h⟩ := upsertRow_cases backend m kind now rec <;> simp [h]
      · exact inv.single other written (pending ▸ old)
    covered := by
      intro alive id body held
      -- what the row now holds is what this call has written and promised
      obtain mem | ⟨-, held⟩ := h.cases held
      · exact .inr (promised_iff.mpr ⟨call, _, body, AList.lookup_insert _, mem, rfl⟩)
      · obtain indexed | promised := inv.covered (failed ▸ alive) id body held
        · exact .inl (by rwa [← refs] at indexed)
        · obtain ⟨other, written, old, found, mem, same⟩ := promised_iff.mp promised
          refine .inr (promised_iff.mpr ⟨other, written, old, ?_, mem, same⟩)
          have ne : other ≠ call := by
            rintro rfl
            rw [idle] at found
            cases found
          rw [AList.lookup_insert_ne ne, pending, found] }

/-- When the refs transaction of a local write runs, a row it writes the refs of holds a body
with those targets, or another pending call is to write the refs of the body it holds. -/
def InTurn (readBody : String → Json) (m : RefStore) : RefAction → Prop
  | .writeLocalRefs call =>
    ∀ written ∈ m.pending.lookup call, ∀ row ∈ written, ∀ stored ∈ m.rows, stored.1 = row.1 →
      refTargets readBody row.2 = refTargets readBody stored.2 ∨
        Promised readBody (m.pending.erase call) stored.1 stored.2
  | _ => True

instance (readBody : String → Json) (m : RefStore) :
    ∀ action, Decidable (InTurn readBody m action)
  | .writeLocalRefs _ => by unfold InTurn Promised; infer_instance
  | .writeNetwork .. | .writeLocalRow .. | .delete _ | .deleteNetwork .. | .rebuildRefsPage ..
  | .fail _ => inferInstanceAs (Decidable True)

theorem Inv.writeLocalRefs (inv : Inv readBody m) {call : Nat} {written : List (Nat × String)}
    (found : m.pending.lookup call = some written)
    (inTurn : InTurn readBody m (.writeLocalRefs call)) :
    Inv readBody (m.writeLocalRefs readBody call written) := by
  have fewer (other : Nat) (rows : List (Nat × String))
      (h : (m.pending.erase call).lookup other = some rows) : m.pending.lookup other = some rows :=
    (lookup_erase_some h).2
  dsimp only [RefStore.writeLocalRefs]
  split_ifs with keyed
  swap
  · exact inv.fail _ fewer
  exact {
    sound := ⟨inv.sound.held, inv.sound.unique, inv.sound.bounded⟩
    rooted := by
      rintro ⟨id, target⟩ mem
      obtain new | ⟨old, -⟩ := mem_sync.mp mem
      · -- the foreign key
        obtain ⟨key, named⟩ :=
          exists_of_hasId (List.all_eq_true.mp keyed _ (mem_entriesOf.mpr new))
        obtain ⟨body, held⟩ := inv.sound.holds named
        exact ⟨body, key, held⟩
      · exact inv.rooted _ old
    single := fun other rows h => inv.single other rows (fewer other rows h)
    covered := by
      intro alive id body held
      by_cases mem : id ∈ written.map Prod.fst
      · obtain ⟨⟨_, old⟩, listed, rfl⟩ := List.mem_map.mp mem
        obtain same | promised := inTurn written found _ listed (_, body) (mem_rows.mpr held) rfl
        · refine .inl ?_
          unfold Indexed
          rw [← same]
          refine indexed_sync listed fun other listed' => ?_
          cases inv.single call written found _ listed _ listed'
          rfl
        · exact .inr promised
      · obtain indexed | promised := inv.covered alive id body held
        · exact .inl ((indexed_sync_of_not_mem mem).mpr indexed)
        · obtain ⟨other, rows, old, pends, listed, same⟩ := promised_iff.mp promised
          refine .inr (promised_iff.mpr ⟨other, rows, old, ?_, listed, same⟩)
          have ne : other ≠ call := by
            rintro rfl
            rw [found] at pends
            cases pends
            exact mem (List.mem_map.mpr ⟨_, listed, rfl⟩)
          exact (AList.lookup_erase_ne ne).trans pends }

/-! ### Deletes -/

@[simp] theorem writeRecordTombstone_records (s : Store) (uri rev now : String) :
    (s.writeRecordTombstone uri rev now).records = s.records := by
  unfold Store.writeRecordTombstone
  split
  · rfl
  · split_ifs <;> rfl

theorem deleteNetwork_records (s : Store) (uri did collection : String) (rev : Option String)
    (now : String) (backfillRunning : Bool) :
    (s.deleteNetwork uri did collection rev now backfillRunning).records = s.records ∨
      (s.deleteNetwork uri did collection rev now backfillRunning).records =
        s.records.erase ⟨did, collection, ((parseRecordUri uri).map (·.2.2)).getD ""⟩ := by
  unfold Store.deleteNetwork
  cases rev with
  | none =>
    dsimp only [Store.deleteUnordered]
    split
    · exact .inl rfl
    · exact .inr rfl
    · exact .inr (writeRecordTombstone_records _ _ _ _)
  | some rev =>
    dsimp only [Store.deleteOrdered]
    split
    · split_ifs
      · exact .inl (writeRecordTombstone_records _ _ _ _)
      · exact .inl rfl
    · split_ifs
      · exact .inr (writeRecordTombstone_records _ _ _ _)
      · exact .inl rfl

theorem Inv.of_lookup (inv : Inv readBody m) {store : Store}
    (same : ∀ key, store.records.lookup key = m.store.records.lookup key) :
    Inv readBody { m with store := store } := by
  have entries (key : RecordKey) : entry { m with store := store } key = m.entry key := by
    simp only [entry, same]
  have holds (id : Nat) (body : String) :
      Holds { m with store := store } id body ↔ m.Holds id body := by
    simp only [Holds, entries]
  exact {
    sound := ⟨fun key => (inv.sound.held key).trans (by rw [same]), inv.sound.unique,
      inv.sound.bounded⟩
    rooted := fun ref mem => (inv.rooted ref mem).imp fun body => (holds ref.1 body).mpr
    single := inv.single
    covered := fun alive id body held => inv.covered alive id body ((holds id body).mp held) }

theorem Inv.drop (inv : Inv readBody m) {key : RecordKey} {id : Nat} {store : Store}
    (named : m.ids.lookup key = some id) (gone : store.records.lookup key = none)
    (apart : ∀ other ≠ key, store.records.lookup other = m.store.records.lookup other) :
    Inv readBody { m with
      store := store
      ids := m.ids.erase key
      refs := m.refs.filter (·.1 ≠ id) } := by
  set m' : RefStore := { m with
    store := store
    ids := m.ids.erase key
    refs := m.refs.filter (·.1 ≠ id) }
  have entries (other : RecordKey) (ne : other ≠ key) : m'.entry other = m.entry other := by
    simp only [m', entry, apart other ne, AList.lookup_erase_ne ne]
  have holds {id' : Nat} {body : String} (held : m'.Holds id' body) :
      id' ≠ id ∧ m.Holds id' body := by
    obtain ⟨other, found⟩ := held
    obtain ⟨ne, named'⟩ := lookup_erase_some (entry_eq_some.mp found).1
    refine ⟨?_, other, (entries other ne).symm.trans found⟩
    rintro rfl
    exact ne (inv.sound.unique other key id' named' named)
  exact {
    sound := {
      held := by
        intro other
        by_cases same : other = key
        · subst same
          simp [m', gone, AList.lookup_erase]
        · simpa only [m', apart other same, AList.lookup_erase_ne same] using inv.sound.held other
      unique := fun left right id' h k =>
        inv.sound.unique left right id' (lookup_erase_some h).2 (lookup_erase_some k).2
      bounded := fun other id' h => inv.sound.bounded other id' (lookup_erase_some h).2 }
    rooted := by
      intro ref mem
      obtain ⟨mem, ne⟩ := List.mem_filter.mp mem
      obtain ⟨body, other, found⟩ := inv.rooted ref mem
      refine ⟨body, other, (entries other ?_).trans found⟩
      rintro rfl
      rw [(entry_eq_some.mp found).1] at named
      cases named
      simp at ne
    single := inv.single
    covered := by
      intro alive id' body held
      obtain ⟨ne, held⟩ := holds held
      obtain indexed | promised := inv.covered alive id' body held
      · exact .inl ((indexed_filter (· ≠ id) (decide_eq_true ne)).mpr indexed)
      · exact .inr promised }

theorem Inv.afterDelete (inv : Inv readBody m) {key : RecordKey} {store : Store}
    (deleted : store.records = m.store.records ∨ store.records = m.store.records.erase key) :
    Inv readBody (m.afterDelete key store) := by
  have apart (other : RecordKey) (ne : other ≠ key) :
      store.records.lookup other = m.store.records.lookup other := by
    obtain h | h := deleted
    · rw [h]
    · rw [h, AList.lookup_erase_ne ne]
  unfold RefStore.afterDelete
  split
  next id named gone => exact inv.drop named gone apart
  next other =>
    refine inv.of_lookup fun k => ?_
    by_cases same : k = key
    · subst same
      obtain h | h := deleted
      · rw [h]
      · have gone : store.records.lookup k = none := by rw [h, AList.lookup_erase]
        have unnamed : m.ids.lookup k = none :=
          Option.eq_none_iff_forall_ne_some.mpr fun id named => other id named gone
        have held := inv.sound.held k
        rw [unnamed] at held
        rw [gone, Option.isSome_eq_false_iff.mp held.symm |> Option.isNone_iff_eq_none.mp]
    · exact apart k same

/-! ## All runs -/

theorem Inv.step {claims : String → Bool} {action : RefAction} (inv : Inv readBody m)
    (inTurn : InTurn readBody m action) (step : m.step readBody backend claims action = some m') :
    Inv readBody m' := by
  cases action with
  | writeNetwork now records =>
    cases step
    exact inv.writeNetwork now records
  | writeLocalRow call kind now rec =>
    obtain ⟨idle, ⟨⟩⟩ := Option.ite_none_left_eq_some.mp step
    exact inv.writeLocalRow (Option.not_isSome_iff_eq_none.mp idle) kind now rec
  | writeLocalRefs call =>
    obtain ⟨written, found, rfl⟩ := Option.map_eq_some_iff.mp step
    exact inv.writeLocalRefs found inTurn
  | delete uri =>
    cases step
    unfold RefStore.delete
    split
    · exact inv
    · split_ifs
      · exact inv
      · exact inv.afterDelete (.inr rfl)
  | deleteNetwork uri did collection rev now backfillRunning =>
    cases step
    exact inv.afterDelete (deleteNetwork_records m.store uri did collection rev now backfillRunning)
  | rebuildRefsPage after limit =>
    cases step
    exact inv.rebuildRefsPage after limit
  | fail call =>
    cases step
    exact inv.fail _ fun _ _ found => (lookup_erase_some found).2

/-- The refs of each record are the targets in its body, and every ref belongs to a record. -/
structure Agrees (readBody : String → Json) (m : RefStore) : Prop where
  targets : ∀ key row, m.store.records.lookup key = some row →
    ∀ target, target ∈ m.refsOf key ↔ target ∈ refTargets readBody row.record
  source : ∀ ref ∈ m.refs, ∃ key, m.ids.lookup key = some ref.1 ∧
    (m.store.records.lookup key).isSome = true

theorem mem_refsOf {key : RecordKey} {id : Nat} (named : m.ids.lookup key = some id)
    (target : RefTarget) : target ∈ m.refsOf key ↔ (id, target) ∈ m.refs := by
  simp [refsOf, named]

theorem inv_of_agrees (sound : m.Sound) (agrees : m.Agrees readBody) (idle : m.pending = ∅) :
    Inv readBody m where
  sound := sound
  rooted := by
    intro ref mem
    obtain ⟨key, named, -⟩ := agrees.source ref mem
    obtain ⟨body, held⟩ := sound.holds named
    exact ⟨body, key, held⟩
  single := by simp [idle]
  covered := by
    rintro - id body ⟨key, found⟩
    obtain ⟨named, row, stored, rfl⟩ := entry_eq_some.mp found
    exact .inl fun target =>
      (mem_refsOf named target).symm.trans (agrees.targets key row stored target)

theorem Inv.agrees (inv : Inv readBody m) (returned : m.pending = ∅) (alive : m.failed = false) :
    m.Agrees readBody where
  targets := by
    intro key row stored target
    have held := inv.sound.held key
    rw [stored] at held
    obtain ⟨id, named⟩ := Option.isSome_iff_exists.mp held
    obtain indexed | promised :=
      inv.covered alive id row.record ⟨key, entry_eq_some.mpr ⟨named, row, stored, rfl⟩⟩
    · exact (mem_refsOf named target).trans (indexed target)
    · obtain ⟨call, mem, -⟩ := promised
      simp [returned] at mem
  source := by
    intro ref mem
    obtain ⟨body, key, found⟩ := inv.rooted ref mem
    obtain ⟨named, row, stored, -⟩ := entry_eq_some.mp found
    exact ⟨key, named, by rw [stored]; rfl⟩

/-- In every run whose refs transactions come in turn, once all calls have returned without
error, the refs of each record are the targets in its stored body. -/
theorem refs_agree {claims : String → Bool} {start : RefStore} {actions : List RefAction}
    (sound : start.Sound) (agrees : start.Agrees readBody) (idle : start.pending = ∅)
    (run : (refStore readBody backend claims start).run actions = some m)
    (inTurn : (refStore readBody backend claims start).Along (InTurn readBody) actions)
    (returned : m.pending = ∅) (noError : m.failed = false) : m.Agrees readBody := by
  have inv : Inv readBody m :=
    Machine.induct_along (inv_of_agrees sound agrees idle)
      (fun _ _ _ inv inTurn step => inv.step inTurn step) inTurn run
  exact inv.agrees returned noError

section Witness

private def inTurnRun : List RefAction :=
  [.writeLocalRow 1 .echoed 10 ⟨⟨"did", "c", "r"⟩, "at://a", "cid1", none⟩,
    .writeLocalRefs 1,
    .writeNetwork 20 [⟨⟨"did", "c", "r"⟩, "at://b", "cid2", some "rev1"⟩]]

theorem empty_sound : ({} : RefStore).Sound where
  held := fun _ => rfl
  unique := nofun
  bounded := nofun

theorem refs_agree_afterEcho :
    ∃ m, (refStore Json.string .sqlite (fun _ => false) {}).run inTurnRun = some m ∧
      m.refsOf ⟨"did", "c", "r"⟩ = [.atText "b"] ∧ m.Agrees Json.string := by
  have checked : ((refStore Json.string .sqlite (fun _ => false) {}).run inTurnRun).any
      (fun m => m.pending.entries = [] ∧ m.failed = false ∧
        m.refsOf ⟨"did", "c", "r"⟩ = [.atText "b"]) = true := by decide +kernel
  obtain ⟨m, run, checked⟩ := (Option.any_eq_true _ _).mp checked
  obtain ⟨returned, noError, refs⟩ := of_decide_eq_true checked
  exact ⟨m, run, refs, refs_agree empty_sound ⟨nofun, nofun⟩ rfl run (by decide +kernel)
    (AList.ext returned) noError⟩

/-- The network write comes between the two transactions of the local one. -/
theorem refs_overtaken :
    ∃ m, (refStore Json.string .sqlite (fun _ => false) {}).run
        [.writeLocalRow 1 .echoed 10 ⟨⟨"did", "c", "r"⟩, "at://a", "cid1", none⟩,
          .writeNetwork 20 [⟨⟨"did", "c", "r"⟩, "at://b", "cid2", some "rev1"⟩],
          .writeLocalRefs 1] = some m ∧
      m.pending = ∅ ∧ m.failed = false ∧
      (m.store.records.lookup ⟨"did", "c", "r"⟩).map Row.record = some "at://b" ∧
      m.refsOf ⟨"did", "c", "r"⟩ = [.atText "a"] ∧ ¬ m.Agrees Json.string := by
  have checked : ((refStore Json.string .sqlite (fun _ => false) {}).run
      [.writeLocalRow 1 .echoed 10 ⟨⟨"did", "c", "r"⟩, "at://a", "cid1", none⟩,
        .writeNetwork 20 [⟨⟨"did", "c", "r"⟩, "at://b", "cid2", some "rev1"⟩],
        .writeLocalRefs 1]).any
      (fun m => m.pending.entries = [] ∧ m.failed = false ∧
        (m.store.records.lookup ⟨"did", "c", "r"⟩).map Row.record = some "at://b" ∧
        m.refsOf ⟨"did", "c", "r"⟩ = [.atText "a"]) = true := by decide +kernel
  obtain ⟨m, run, checked⟩ := (Option.any_eq_true _ _).mp checked
  obtain ⟨returned, noError, body, refs⟩ := of_decide_eq_true checked
  refine ⟨m, run, AList.ext returned, noError, body, refs, fun agrees => ?_⟩
  obtain ⟨row, stored, body⟩ := Option.map_eq_some_iff.mp body
  have same := agrees.targets _ row stored (.atText "a")
  rw [refs, body] at same
  exact absurd (same.mp (List.mem_singleton_self _)) (by decide +kernel)

end Witness

end RefStore

end HappyView.Records
