import HappyView.Spaces.SetHash
import HappyView.Spaces.WriteCalls

/-!
# Moving a repo to its author's PDS

`happyview.migrate-space-repo` lists the repo's records, marks the repo as migrating,
replays the records into the PDS, checks the PDS's commit against the listed records, and
makes the PDS the source of truth. Every access to the repo's state is a statement of its
own: a mode is set by reading the row and writing the whole row back.

`migration` is the machine of one run together with the write calls on the space and with
other writers at the PDS.
-/

namespace HappyView.Spaces

open HappyView.Foundation

structure RecordVersion where
  collection : String
  rkey : String
  cid : String
  deriving DecidableEq

def SpaceRecord.version (row : SpaceRecord) : RecordVersion := ⟨row.collection, row.rkey, row.cid⟩

/-- The hash that a host signs once it holds these records and nothing else. -/
def setDigest (crypto : Crypto) (records : List RecordVersion) : List UInt8 :=
  crypto.sha256 (foldElements (fun r => crypto.element r.collection r.rkey r.cid) records).asBytes

def SpaceStore.listAllSpaceRecords (s : SpaceStore) (spaceId did : String) : List SpaceRecord :=
  (s.authorRecords spaceId did).insertionSort fun a b =>
    a.collection < b.collection ∨ a.collection = b.collection ∧ a.rkey ≤ b.rkey

def batchSize : Nat := 50

structure Snapshot where
  records : List SpaceRecord
  /-- How many writes had committed to the space when the records were listed. -/
  listedAt : Nat

/-- How far a run has got. A `row` is a repo state that was read and is to be written back. -/
inductive MigrationPhase where
  | idle
  | started
  | listed (snapshot : Snapshot)
  | toMigrating (snapshot : Snapshot) (row : RepoState)
  | replaying (snapshot : Snapshot) (sent : Nat)
  | verified (snapshot : Snapshot) (described : List RecordVersion) (rev : String)
  | toCursor (snapshot : Snapshot) (described : List RecordVersion) (rev : String)
      (row : RepoState)
  | handed (snapshot : Snapshot) (described : List RecordVersion)
  | toNative (snapshot : Snapshot) (described : List RecordVersion) (row : RepoState)
  | failed
  | toPolyfill (row : RepoState)
  | ended

/-- What was there when the run set the mode to native. -/
structure Handover where
  localRecords : List RecordVersion
  described : List RecordVersion
  time : Nat

structure Migration where
  desk : Desk
  phase : MigrationPhase := .idle
  pds : List RecordVersion := []
  handover : Option Handover := none

inductive MigrationAction where
  | call (action : CallAction)
  | start
  | list
  | read
  | write
  | replay
  | verify (rev : String)
  | fail
  /-- The run is over: nobody authorised it, or its job was taken over. -/
  | quit
  | pds (records : List RecordVersion)

namespace Migration

variable (crypto : Crypto) (backend : Writers.DatabaseBackend) (spaceId did : String)

/-- `get_or_create_repo_state`: the row is there afterwards. -/
def created (store : SpaceStore) : SpaceStore :=
  match store.readRepoState spaceId did with
  | some _ => store
  | none => store.updateRepoState spaceId did .created

def withStore (m : Migration) (store : SpaceStore) : Migration :=
  { m with desk := { m.desk with store := store } }

/-- The second half of `set_mode`: nothing to do if the mode is set, and an error if the
transition is not one the flow defines. -/
def setMode (store : SpaceStore) (row : RepoState) (mode : HostMode) : Option SpaceStore :=
  if row.hostMode = mode then some store
  else if canTransition row.hostMode mode then
    some (store.updateRepoState spaceId did { row with hostMode := mode })
  else none

def batch (snapshot : Snapshot) (sent : Nat) : List SpaceRecord :=
  (snapshot.records.drop (batchSize * sent)).take batchSize

/-- What the PDS stores for a record it acknowledges: it derives the cid from the value. -/
def acknowledged (row : SpaceRecord) : Option RecordVersion :=
  (crypto.contentCid row.record).map fun cid => ⟨row.collection, row.rkey, cid⟩

/-- The PDS acknowledges a batch of creates; it rejects one with a key it already holds. -/
def acknowledge (pds : List RecordVersion) (rows : List SpaceRecord) :
    Option (List RecordVersion) :=
  if rows.all fun row =>
    pds.all fun held => (held.collection, held.rkey) ≠ (row.collection, row.rkey)
  then (rows.mapM (acknowledged crypto)).map (pds ++ ·) else none

def readRow (m : Migration) : Option MigrationPhase :=
  let row := m.desk.store.getOrCreateRepoState spaceId did
  match m.phase with
  | .listed snapshot => some (.toMigrating snapshot row)
  | .verified snapshot described rev => some (.toCursor snapshot described rev row)
  | .handed snapshot described => some (.toNative snapshot described row)
  | .failed => some (.toPolyfill row)
  | _ => none

def writeRow (m : Migration) : Option Migration :=
  match m.phase with
  | .toMigrating snapshot row =>
    match setMode spaceId did m.desk.store row .migrating with
    | some store => some { m.withStore store with phase := .replaying snapshot 0 }
    | none => some { m with phase := .failed }
  | .toCursor snapshot described rev row => some
      { m.withStore (m.desk.store.updateRepoState spaceId did { row with syncCursor := some rev })
        with phase := .handed snapshot described }
  | .toNative _ described row =>
    match setMode spaceId did m.desk.store row .native with
    | some store => some
        { m.withStore store with
          phase := .ended
          handover := if row.hostMode = .native then none else some
            { localRecords := (m.desk.store.authorRecords spaceId did).map SpaceRecord.version
              described := described
              time := m.desk.log.length } }
    | none => some { m with phase := .failed }
  | .toPolyfill row => some
      { m.withStore ((setMode spaceId did m.desk.store row .polyfill).getD m.desk.store) with
        phase := .ended }
  | _ => none

def step (m : Migration) : MigrationAction → Option Migration
  | .call action => (m.desk.step crypto backend spaceId action).map fun desk => { m with desk }
  | .start =>
    match m.phase with
    | .idle => some
        { m.withStore (created spaceId did m.desk.store) with
          phase := if (m.desk.store.getOrCreateRepoState spaceId did).hostMode = .native then .ended
            else .started }
    | _ => none
  | .list =>
    match m.phase with
    | .started => some { m with
        phase := .listed ⟨m.desk.store.listAllSpaceRecords spaceId did, m.desk.log.length⟩ }
    | _ => none
  | .read => (readRow spaceId did m).map fun phase =>
    { m.withStore (created spaceId did m.desk.store) with phase := phase }
  | .write => writeRow spaceId did m
  | .replay =>
    match m.phase with
    | .replaying snapshot sent =>
      if batchSize * sent < snapshot.records.length then
        (acknowledge crypto m.pds (batch snapshot sent)).map fun pds =>
          { m with phase := .replaying snapshot (sent + 1), pds := pds }
      else none
    | _ => none
  | .verify rev =>
    match m.phase with
    | .replaying snapshot sent =>
      if snapshot.records.length ≤ batchSize * sent ∧
          setDigest crypto m.pds = setDigest crypto (snapshot.records.map SpaceRecord.version) then
        some { m with phase := .verified snapshot m.pds rev }
      else none
    | _ => none
  | .fail =>
    match m.phase with
    | .idle | .toPolyfill _ | .ended => none
    | _ => some { m with phase := .failed }
  | .quit =>
    match m.phase with
    | .idle | .ended => none
    | _ => some { m with phase := .ended }
  | .pds records => some { m with pds := records }

def machine (start : SpaceStore) : Machine Migration MigrationAction where
  start := { desk := { store := start } }
  step := step crypto backend spaceId did

/-! ## Handing over -/

/-- Nothing is lost: the two copies hold the same records when the mode is set, and no write
of the author commits here afterwards. -/
def NothingLost (m : Migration) : Prop :=
  ∀ handover, m.handover = some handover →
    (∀ version, version ∈ handover.localRecords ↔ version ∈ handover.described) ∧
    ∀ entry ∈ m.desk.log.drop handover.time, entry.did ≠ some did

def toVerify : MigrationPhase → Option Snapshot
  | .replaying snapshot _ => some snapshot
  | _ => none

def toHandOver : MigrationPhase → Option Snapshot
  | .toNative snapshot _ _ => some snapshot
  | _ => none

/-- A commit with the hash of the listed records describes them. When the mode is set to
native, no write of the author has committed since the records were listed, and none is past
its check of the mode. -/
def Undisturbed (m : Migration) : MigrationAction → Prop
  | .verify _ => ∀ snapshot ∈ toVerify m.phase,
      setDigest crypto m.pds = setDigest crypto (snapshot.records.map SpaceRecord.version) →
      m.pds ⊆ snapshot.records.map SpaceRecord.version ∧
        snapshot.records.map SpaceRecord.version ⊆ m.pds
  | .write => ∀ snapshot ∈ toHandOver m.phase,
      (∀ entry ∈ m.desk.log.drop snapshot.listedAt, entry.did ≠ some did) ∧
      ∀ entry ∈ m.desk.flights.entries, entry.2.call.did.val = did → entry.2.admitted = false
  | _ => True

instance (m : Migration) : ∀ action, Decidable (Undisturbed crypto did m action)
  | .verify _ | .write => inferInstanceAs (Decidable (∀ snapshot ∈ _, _))
  | .call _ | .start | .list | .read | .replay | .fail | .quit | .pds _ => .isTrue trivial

/-! ## The invariant -/

/-- The records of a snapshot are the author's, unless the author has written since. -/
structure Current (desk : Desk) (snapshot : Snapshot) : Prop where
  past : snapshot.listedAt ≤ desk.log.length
  same : (∀ entry ∈ desk.log.drop snapshot.listedAt, entry.did ≠ some did) →
    ∀ row, row ∈ desk.store.authorRecords spaceId did ↔ row ∈ snapshot.records

structure Handed (desk : Desk) (handover : Handover) : Prop where
  same : ∀ version, version ∈ handover.localRecords ↔ version ∈ handover.described
  past : handover.time ≤ desk.log.length
  quiet : ∀ entry ∈ desk.log.drop handover.time, entry.did ≠ some did
  native : (desk.store.readRepoState spaceId did).map (·.hostMode) = some .native
  idle : ∀ id flight, desk.flights.lookup id = some flight → flight.call.did.val = did →
    flight.admitted = false

def Sound (desk : Desk) : MigrationPhase → Prop
  | .listed snapshot | .toMigrating snapshot _ | .replaying snapshot _ =>
    Current spaceId did desk snapshot
  | .verified snapshot described _ | .toCursor snapshot described _ _ | .handed snapshot described
  | .toNative snapshot described _ =>
    Current spaceId did desk snapshot ∧
      ∀ version, version ∈ described ↔ version ∈ snapshot.records.map SpaceRecord.version
  | .idle | .started | .failed | .toPolyfill _ | .ended => True

structure Inv (m : Migration) : Prop where
  tidy : m.desk.store.Tidy fun _ => True
  read : ∀ id flight, m.desk.flights.lookup id = some flight →
    flight.space.id = spaceId ∧ m.desk.store.Resolved flight.space.toSpace
  sound : Sound spaceId did m.desk m.phase
  handed : ∀ handover, m.handover = some handover →
    m.phase = .ended ∧ Handed spaceId did m.desk handover

section Steps

variable {crypto : Crypto} {backend : Writers.DatabaseBackend} {spaceId did : String}
  {m m' : Migration} {desk desk' : Desk}

theorem Sound.mono {phase : MigrationPhase} (sound : Sound spaceId did desk phase)
    (keep : ∀ snapshot, Current spaceId did desk snapshot → Current spaceId did desk' snapshot) :
    Sound spaceId did desk' phase := by
  cases phase with
  | listed | toMigrating | replaying => exact keep _ sound
  | verified | toCursor | handed | toNative => exact ⟨keep _ sound.1, sound.2⟩
  | idle | started | failed | toPolyfill | ended => trivial

structure Beside (store store' : SpaceStore) : Prop where
  records : store'.records = store.records
  spaces : store'.spaces = store.spaces

theorem updateRepoState_beside (store : SpaceStore) (row : RepoState) :
    Beside store (store.updateRepoState spaceId did row) :=
  ⟨rfl, rfl⟩

theorem created_beside (store : SpaceStore) : Beside store (created spaceId did store) := by
  unfold created
  split <;> exact ⟨rfl, rfl⟩

theorem setMode_beside {store store' : SpaceStore} {row : RepoState} {mode : HostMode}
    (h : setMode spaceId did store row mode = some store') : Beside store store' := by
  unfold setMode at h
  split at h
  · cases h
    exact ⟨rfl, rfl⟩
  · split at h
    · cases h
      exact updateRepoState_beside _ _
    · cases h

theorem Current.beside {store : SpaceStore} {snapshot : Snapshot}
    (beside : Beside desk.store store) (current : Current spaceId did desk snapshot) :
    Current spaceId did { desk with store := store } snapshot where
  past := current.past
  same quiet row := by
    rw [← current.same quiet row, SpaceStore.authorRecords, SpaceStore.authorRecords,
      beside.records]

theorem Inv.proceed (inv : Inv spaceId did m) (active : m.phase ≠ .ended) {store : SpaceStore}
    (beside : Beside m.desk.store store) {phase : MigrationPhase} {pds : List RecordVersion}
    (sound : Sound spaceId did m.desk phase) :
    Inv spaceId did { m.withStore store with phase := phase, pds := pds } where
  tidy uri row held := (inv.tidy uri row (beside.records ▸ held)).congr beside.spaces
  read id flight held :=
    ⟨(inv.read id flight held).1, (inv.read id flight held).2.congr beside.spaces⟩
  sound := sound.mono fun _ => Current.beside beside
  handed handover set := absurd (inv.handed handover set).1 active

theorem readRow_sound {phase : MigrationPhase} (sound : Sound spaceId did m.desk m.phase)
    (h : readRow spaceId did m = some phase) :
    m.phase ≠ .ended ∧ Sound spaceId did m.desk phase := by
  unfold readRow at h
  split at h <;> cases h <;> simp_all [Sound]

theorem Inv.handOver (inv : Inv spaceId did m) {snapshot : Snapshot}
    {described : List RecordVersion} {row : RepoState} {store : SpaceStore}
    (phase : m.phase = .toNative snapshot described row) (ok : Undisturbed crypto did m .write)
    (new : row.hostMode ≠ .native)
    (set : setMode spaceId did m.desk.store row .native = some store) :
    Handed spaceId did { m.desk with store := store }
      ⟨(m.desk.store.authorRecords spaceId did).map SpaceRecord.version, described,
        m.desk.log.length⟩ := by
  have sound := inv.sound
  rw [phase] at sound
  obtain ⟨current, describes⟩ := sound
  obtain ⟨quiet, idle⟩ := ok snapshot (by rw [phase]; rfl)
  rw [setMode, if_neg new] at set
  obtain ⟨-, ⟨⟩⟩ := Option.ite_none_right_eq_some.mp set
  refine ⟨fun version => ?_, le_rfl, by simp, ?_, fun id flight held =>
    idle ⟨id, flight⟩ (AList.mem_lookup_iff.mp held)⟩
  · simp only [describes, List.mem_map, current.same quiet]
  · simp [SpaceStore.readRepoState, SpaceStore.updateRepoState]

theorem Inv.write (inv : Inv spaceId did m) (ok : Undisturbed crypto did m .write)
    (h : writeRow spaceId did m = some m') : Inv spaceId did m' := by
  have sound := inv.sound
  unfold writeRow at h
  split at h
  · rename_i snapshot row phase
    rw [phase] at sound
    split at h <;> cases h
    · rename_i store set
      exact inv.proceed (by simp [phase]) (setMode_beside set) sound
    · exact inv.proceed (by simp [phase]) ⟨rfl, rfl⟩ trivial
  · rename_i snapshot described rev row phase
    rw [phase] at sound
    cases h
    exact inv.proceed (by simp [phase]) (updateRepoState_beside _ _) sound
  · rename_i snapshot described row phase
    split at h <;> cases h
    · rename_i store set
      have after : Inv spaceId did { m.withStore store with phase := .ended } :=
        inv.proceed (by simp [phase]) (setMode_beside set) trivial
      refine ⟨after.tidy, after.read, trivial, fun handover handed => ⟨rfl, ?_⟩⟩
      obtain ⟨new, ⟨⟩⟩ := Option.ite_none_left_eq_some.mp handed
      exact inv.handOver phase ok new set
    · exact inv.proceed (by simp [phase]) ⟨rfl, rfl⟩ trivial
  · rename_i row phase
    cases h
    refine inv.proceed (by simp [phase]) ?_ trivial
    cases set : setMode spaceId did m.desk.store row .polyfill with
    | none => exact ⟨rfl, rfl⟩
    | some store => exact setMode_beside set
  · cases h

/-! ## Write calls beside the run -/

theorem authoritative_of_writesHere {call : WriteCall} {s : SpaceStore} {space : HostedSpace}
    {row : RepoState} (h : call.writesHere s space = .ok true)
    (held : s.readRepoState space.id call.did.val = some row) :
    row.hostMode.isAuthoritativeHere = true := by
  obtain ⟨-, -, h⟩ := bind_eq_ok.mp h
  obtain ⟨-, -, h⟩ := bind_eq_ok.mp h
  dsimp only at h
  split at h
  · rename_i here
    rwa [held] at here
  · cases h

theorem quiet_concat {log : List CommittedCall} {entry : CommittedCall} {time : Nat}
    (past : time ≤ log.length) :
    (∀ found ∈ (log ++ [entry]).drop time, found.did ≠ some did) ↔
      (∀ found ∈ log.drop time, found.did ≠ some did) ∧ entry.did ≠ some did := by
  rw [List.drop_append_of_le_length past]
  simp [or_imp, forall_and]

theorem Inv.log (inv : Inv spaceId did m) {store : SpaceStore}
    {flights : AList fun _ : Nat => Flight} {holder : Option Nat} {entry : CommittedCall}
    (kept : ∀ id flight, flights.lookup id = some flight → m.desk.flights.lookup id = some flight)
    (spaces : ∀ d t k, store.spaceIdAt d t k = m.desk.store.spaceIdAt d t k)
    (tidy : store.Tidy fun _ => True)
    (mine : entry.did = some did → m.handover = none)
    (others : entry.did ≠ some did →
      (∀ row, row ∈ store.authorRecords spaceId did ↔
        row ∈ m.desk.store.authorRecords spaceId did) ∧
      store.readRepoState spaceId did = m.desk.store.readRepoState spaceId did) :
    Inv spaceId did { m with desk := ⟨store, flights, holder, m.desk.log ++ [entry]⟩ } where
  tidy := tidy
  read id flight held := by
    obtain ⟨here, resolved⟩ := inv.read id flight (kept id flight held)
    exact ⟨here, resolved.did, resolved.typeNsid, resolved.skey, (spaces _ _ _).trans resolved.id⟩
  sound := by
    refine inv.sound.mono fun snapshot current => ⟨?_, fun quiet row => ?_⟩
    · have := current.past
      simp only [List.length_append]
      omega
    · obtain ⟨before, other⟩ := (quiet_concat current.past).mp quiet
      exact ((others other).1 row).trans (current.same before row)
  handed handover set := by
    obtain ⟨ended, handed⟩ := inv.handed handover set
    have other : entry.did ≠ some did := fun own => by simp [mine own] at set
    have past : handover.time ≤ (m.desk.log ++ [entry]).length := by
      have := handed.past
      simp only [List.length_append]
      omega
    refine ⟨ended, handed.same, past, (quiet_concat handed.past).mpr
      ⟨handed.quiet, other⟩, (others other).2 ▸ handed.native, fun id flight held =>
      handed.idle id flight (kept id flight held)⟩

theorem Inv.reschedule (inv : Inv spaceId did m) {flights : AList fun _ : Nat => Flight}
    {holder : Option Nat}
    (read : ∀ id flight, flights.lookup id = some flight →
      flight.space.id = spaceId ∧ m.desk.store.Resolved flight.space.toSpace)
    (idle : (m.desk.store.readRepoState spaceId did).map (·.hostMode) = some .native →
      ∀ id flight, flights.lookup id = some flight → flight.call.did.val = did →
        flight.admitted = false ∨ m.desk.flights.lookup id = some flight) :
    Inv spaceId did
      { m with desk := { m.desk with flights := flights, holder := holder } } where
  tidy := inv.tidy
  read := read
  sound := inv.sound.mono fun _ current => ⟨current.past, current.same⟩
  handed handover set := by
    obtain ⟨ended, handed⟩ := inv.handed handover set
    refine ⟨ended, handed.same, handed.past, handed.quiet, handed.native, ?_⟩
    intro id flight held own
    rcases idle handed.native id flight held own with waiting | old
    · exact waiting
    · exact handed.idle id flight old own

theorem Inv.call (inv : Inv spaceId did m) (moves : Desk.Moves crypto backend spaceId m.desk desk) :
    Inv spaceId did { m with desk := desk } := by
  cases moves with
  | @resolve id call space read here new =>
    refine inv.reschedule (fun other flight held => ?_) fun _ other flight held _ => ?_
    · rcases lookup_insert_cases held with ⟨-, rfl⟩ | held
      · exact ⟨here, SpaceStore.resolveSpace_resolved read⟩
      · exact inv.read other flight held
    · rcases lookup_insert_cases held with ⟨-, rfl⟩ | held
      · exact .inl rfl
      · exact .inr held
  | @check id flight held passed =>
    refine inv.reschedule (fun other found held' => ?_) fun native other found held' own => ?_
    · rcases lookup_insert_cases held' with ⟨-, rfl⟩ | held'
      · exact inv.read id flight held
      · exact inv.read other found held'
    · rcases lookup_insert_cases held' with ⟨-, rfl⟩ | held'
      · obtain ⟨row, state, mode⟩ := Option.map_eq_some_iff.mp native
        have here := authoritative_of_writesHere passed
          ((inv.read id flight held).1 ▸ own ▸ state)
        simp [mode, HostMode.isAuthoritativeHere] at here
      · exact .inr held'
  | lock => exact inv.reschedule inv.read fun _ _ _ held _ => .inr held
  | @commit id flight store held admitted locked wrote =>
    obtain ⟨here, resolved⟩ := inv.read id flight held
    obtain ⟨tidy, others⟩ := SpaceStore.transact_cases inv.tidy resolved (by simp) wrote
    obtain ⟨state, states⟩ := SpaceStore.transact_repoStates wrote
    refine inv.log (fun _ _ held => (lookup_erase_some held).2) (fun d t k => ?_) tidy
      (fun own => ?_)
      fun other => ?_
    · rw [SpaceStore.spaceIdAt, SpaceStore.transact_spaces wrote]
      exact SpaceStore.spaceIdAt_updateSpaceRevision ..
    · have own : flight.call.did.val = did := Option.some.inj own
      cases set : m.handover with
      | none => rfl
      | some handover =>
        have := (inv.handed handover set).2.idle id flight held own
        simp [this] at admitted
    · have other : did ≠ flight.call.did.val := fun same => other (congrArg some same.symm)
      refine ⟨fun row => ?_, ?_⟩
      · rw [SpaceStore.mem_authorRecords, SpaceStore.mem_authorRecords]
        refine and_congr_left fun own => exists_congr fun uri => others uri row ?_
        exact fun writer => other (own.2.symm.trans writer.2)
      · rw [SpaceStore.readRepoState, states, AList.lookup_insert_ne (by simp [other])]
        rfl
  | leave =>
    exact inv.reschedule (fun other flight held => inv.read other flight (lookup_erase_some held).2)
      fun _ _ _ held _ => .inr (lookup_erase_some held).2
  | @repair rev =>
    have ids := SpaceStore.spaceIdAt_updateSpaceRevision m.desk.store spaceId rev
    exact inv.log (fun _ _ => id) ids (fun uri row held => (inv.tidy uri row held).moved ids)
      (by simp) fun _ => ⟨fun _ => Iff.rfl, rfl⟩

theorem Inv.step {action : MigrationAction} (inv : Inv spaceId did m)
    (ok : Undisturbed crypto did m action)
    (h : step crypto backend spaceId did m action = some m') : Inv spaceId did m' := by
  have sound := inv.sound
  cases action with
  | call action =>
    obtain ⟨desk, moved, rfl⟩ := Option.map_eq_some_iff.mp h
    exact inv.call (Desk.step_moves _ _ _ moved)
  | start =>
    simp only [Migration.step] at h
    split at h <;> cases h
    rename_i phase
    refine inv.proceed (by simp [phase]) (created_beside _) ?_
    split <;> trivial
  | list =>
    simp only [Migration.step] at h
    split at h <;> cases h
    rename_i phase
    refine inv.proceed (by simp [phase]) ⟨rfl, rfl⟩ ⟨le_rfl, fun _ row => ?_⟩
    exact (List.mem_insertionSort _).symm
  | read =>
    obtain ⟨phase, read, rfl⟩ := Option.map_eq_some_iff.mp h
    obtain ⟨active, sound⟩ := readRow_sound sound read
    exact inv.proceed active (created_beside _) sound
  | write => exact inv.write ok h
  | replay =>
    simp only [Migration.step] at h
    split at h
    · rename_i snapshot sent phase
      obtain ⟨-, h⟩ := Option.ite_none_right_eq_some.mp h
      obtain ⟨pds, -, rfl⟩ := Option.map_eq_some_iff.mp h
      rw [phase] at sound
      exact inv.proceed (by simp [phase]) ⟨rfl, rfl⟩ sound
    · cases h
  | verify rev =>
    simp only [Migration.step] at h
    split at h
    · rename_i snapshot sent phase
      obtain ⟨⟨-, agrees⟩, ⟨⟩⟩ := Option.ite_none_right_eq_some.mp h
      rw [phase] at sound
      obtain ⟨sub, sup⟩ := ok snapshot (by rw [phase]; rfl) agrees
      exact inv.proceed (by simp [phase]) ⟨rfl, rfl⟩
        ⟨sound, fun version => ⟨fun mem => sub mem, fun mem => sup mem⟩⟩
    · cases h
  | fail =>
    simp only [Migration.step] at h
    split at h <;> cases h
    exact inv.proceed ‹_› ⟨rfl, rfl⟩ trivial
  | quit =>
    simp only [Migration.step] at h
    split at h <;> cases h
    exact inv.proceed ‹_› ⟨rfl, rfl⟩ trivial
  | pds records =>
    cases h
    exact ⟨inv.tidy, inv.read, sound, inv.handed⟩

end Steps

/-- In every run in which the author's writes stay clear of the handover, no write is lost. -/
theorem nothingLost (crypto : Crypto) (backend : Writers.DatabaseBackend) (start : SpaceStore)
    (spaceId did : String) (tidy : start.Tidy fun _ => True) (actions : List MigrationAction)
    (m : Migration)
    (clear : (machine crypto backend spaceId did start).Along (Undisturbed crypto did) actions)
    (run : (machine crypto backend spaceId did start).run actions = some m) :
    NothingLost did m := by
  have inv : Inv spaceId did m := by
    refine Machine.induct_along (P := Inv spaceId did) ?_ ?_ clear run
    · exact ⟨tidy, by simp [machine], trivial, by simp [machine]⟩
    · exact fun m action m' inv ok step => inv.step ok step
  intro handover set
  obtain ⟨-, handed⟩ := inv.handed handover set
  exact ⟨handed.same, handed.quiet⟩

/-! ## Two runs -/

def forumCreate (rkey rev : String) : WriteCall :=
  createRecord forumMember "at://did:plc:s/space/app.forum/main" "app.note"
    "x" rkey ⟨rev, 0, "2222222222222", []⟩

def forumWrites (id : Nat) (rkey rev : String) : List MigrationAction :=
  [.call (.resolve id (forumCreate rkey rev)), .call (.check id), .call (.lock id),
    .call (.commit id)]

/-- As `joinedCrypto`, with a hash that keeps two bytes. -/
def shortCrypto : Crypto := { joinedCrypto with sha256 := List.take 2 }

def forumMachine : Machine Migration MigrationAction :=
  machine shortCrypto .postgres "s1" "did:plc:a" forumStore

def moveAfterWrite : List MigrationAction :=
  forumWrites 1 "1" "2222222222222" ++
    [.start, .list, .read, .write, .replay, .verify "r", .read, .write, .read, .write]

theorem nothingLost_moveAfterWrite :
    ∃ m handover, forumMachine.run moveAfterWrite = some m ∧ m.handover = some handover ∧
      handover.localRecords = [⟨"app.note", "1", "x"⟩] ∧ NothingLost "did:plc:a" m := by
  have moved : (forumMachine.run moveAfterWrite).any (fun m => m.handover.any fun handover =>
      decide (handover.localRecords = [⟨"app.note", "1", "x"⟩])) = true := by decide +kernel
  obtain ⟨m, run, moved⟩ := (Option.any_eq_true _ _).mp moved
  obtain ⟨handover, set, records⟩ := (Option.any_eq_true _ _).mp moved
  refine ⟨m, handover, run, set, of_decide_eq_true records, ?_⟩
  refine nothingLost shortCrypto .postgres forumStore "s1" "did:plc:a" ?_ moveAfterWrite m ?_ run
  · simp [SpaceStore.Tidy, forumStore]
  · decide +kernel

def writeWhileMoving : List MigrationAction :=
  [.start, .list, .read, .write, .verify "r"] ++ forumWrites 1 "1" "2222222222222" ++
    [.read, .write, .read, .write]

/-- A write that has found the repo hosted here commits after the repo has moved. -/
def writeAcrossHandover : List MigrationAction :=
  [.call (.resolve 1 (forumCreate "1" "2222222222222")), .call (.check 1), .start, .list, .read,
    .write, .verify "r", .read, .write, .read, .write, .call (.lock 1), .call (.commit 1)]

/-- The record of the first run is not at the PDS; the write of the second is made after the
PDS became the source of truth. -/
theorem writes_lost :
    (∃ m, forumMachine.run writeWhileMoving = some m ∧ ¬ NothingLost "did:plc:a" m) ∧
      ∃ m, forumMachine.run writeAcrossHandover = some m ∧ ¬ NothingLost "did:plc:a" m := by
  have first : (forumMachine.run writeWhileMoving).any (fun m => m.handover.any fun handover =>
      decide (⟨"app.note", "1", "x"⟩ ∈ handover.localRecords ∧ handover.described = [])) = true :=
    by decide +kernel
  have second : (forumMachine.run writeAcrossHandover).any (fun m => m.handover.any
      fun handover : Handover => decide
        (∃ entry ∈ m.desk.log.drop handover.time, entry.did = some "did:plc:a")) = true := by
    decide +kernel
  constructor
  · obtain ⟨m, run, moved⟩ := (Option.any_eq_true _ _).mp first
    obtain ⟨handover, set, found⟩ := (Option.any_eq_true _ _).mp moved
    obtain ⟨here, nothing⟩ := of_decide_eq_true found
    refine ⟨m, run, fun kept => ?_⟩
    have there := ((kept handover set).1 _).mp here
    simp [nothing] at there
  · obtain ⟨m, run, moved⟩ := (Option.any_eq_true _ _).mp second
    obtain ⟨handover, set, found⟩ := (Option.any_eq_true _ _).mp moved
    obtain ⟨entry, mem, own⟩ := of_decide_eq_true found
    exact ⟨m, run, fun kept => (kept handover set).2 entry mem own⟩

end Migration

end HappyView.Spaces
