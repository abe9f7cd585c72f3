import HappyView.Spaces.Car
import HappyView.Spaces.NativeSync

/-!
# Serving a repo

`getRepo` reads the repo's state in one statement and its records in another. A write of the
author that commits in between is in the records and not in the commit. And a repo's rows are not
written by the write calls alone: `sync_repo` copies the host's operations one statement at a
time and adopts its commit later or not at all, and a change of the host mode writes back a row
of the repo's state that it has read before.
-/

namespace HappyView.Spaces

open HappyView.Foundation

/-! ## The handler -/

def SpaceStore.listRepoRows (s : SpaceStore) (spaceId did : String) :
    List (Σ _ : String, SpaceRecord) :=
  let rows := s.records.entries.filter fun row => row.2.spaceId = spaceId ∧ row.2.authorDid = did
  rows.insertionSort fun a b => a.2.collection < b.2.collection ∨
    a.2.collection = b.2.collection ∧ a.2.rkey ≤ b.2.rkey

def noCommit : AppError := .notFound "no commit exists for this repo"

/-- A value of the repo's state that has to be there and to be 32 bytes long. -/
def to32 (field : String) (value : Option (List UInt8)) : Except AppError (List UInt8) := do
  let bytes ← require (.internal ("corrupt repo state: missing " ++ field)) value
  ensure (.internal ("corrupt repo state: " ++ field ++ " is not 32 bytes")) (bytes.length = 32)
  return bytes

/-- The commit that the repo's state describes. A repo synced from elsewhere may hold only
its hash. -/
def RepoState.carCommit (state : RepoState) (did spaceRef : String) :
    Except AppError CarCommit := do
  let hash ← require noCommit state.hash
  ensure (.internal "corrupt repo state: hash is not 32 bytes") (hash.length = 32)
  let rev ← require (.internal "corrupt repo state: missing rev") state.rev
  if state.ikm.isNone && state.sig.isNone && state.mac.isNone then
    return .mac ⟨1, did, spaceRef, rev, hash⟩
  else
    let ikm ← to32 "ikm" state.ikm
    let mac ← to32 "mac" state.mac
    let sig ← require (.internal "corrupt repo state: missing sig") state.sig
    return .signed ⟨1, hash, ikm, mac, sig, rev⟩

structure RepoReading where
  did : String
  spaceRef : String
  state : RepoState
  readAt : Nat

def RepoReading.respond (codec : Codec) (reading : RepoReading)
    (rows : List (Σ _ : String, SpaceRecord)) : Except AppError (Car × List UInt8) := do
  let commit ← reading.state.carCommit reading.did reading.spaceRef
  let car ← Car.ofRecords codec commit rows
  return (car, ← car.bytes codec)

/-! ## Reads beside the writes -/

structure ServedRepo where
  did : String
  car : Car
  body : List UInt8
  /-- The writes that had committed to the space when the records were read. -/
  log : List CommittedCall

/-- A statement on a repo's rows outside the transaction of a write call. -/
inductive RowWrite where
  /-- `sync_repo` writes an operation of the host into the index. -/
  | apply (op : RepoOp)
  /-- The repo's state is written as a whole: `sync_repo` adopts a commit, or the mode changes. -/
  | saveState (row : RepoState)

def RowWrite.run (backend : Writers.DatabaseBackend) (space : Space) (did : String)
    (s : SpaceStore) : RowWrite → Except AppError SpaceStore
  | .apply op => applyRepoOp backend space did op s
  | .saveState row => .ok (s.updateRepoState space.id did row)

structure RepoServer where
  desk : Desk
  readings : AList fun _ : Nat => RepoReading := ∅
  served : List ServedRepo := []
  /-- The authors whose rows were written outside a write call. -/
  touched : List String := []

inductive ServeAction where
  | call (action : CallAction)
  | rowWrite (spaceRef : String) (did : { did : String // NoSlash did }) (write : RowWrite)
  | readState (id : Nat) (did spaceRef : String)
  | readRecords (id : Nat)

namespace RepoServer

variable (codec : Codec) (backend : Writers.DatabaseBackend) (spaceId : String)

def step (m : RepoServer) : ServeAction → Option RepoServer
  | .call action => (m.desk.step codec.crypto backend spaceId action).map fun desk =>
      { m with desk := desk }
  | .rowWrite spaceRef did write =>
    match m.desk.store.resolveSpace spaceRef with
    | .ok space =>
      -- The row of the repo's state was read or made before.
      if space.id = spaceId ∧ (m.desk.store.readRepoState spaceId did).isSome then
        (write.run backend space.toSpace did m.desk.store).toOption.map fun store =>
          { m with desk := { m.desk with store := store }, touched := did :: m.touched }
      else none
    | .error _ => none
  | .readState id did spaceRef =>
    match m.desk.store.resolveSpace spaceRef, m.desk.store.readRepoState spaceId did with
    | .ok space, some state =>
      if space.id = spaceId ∧ m.readings.lookup id = none then
        some { m with
          readings := m.readings.insert id ⟨did, spaceRef, state, m.desk.log.length⟩ }
      else none
    | _, _ => none
  | .readRecords id => (m.readings.lookup id).map fun reading =>
    match reading.respond codec (m.desk.store.listRepoRows spaceId reading.did) with
    | .ok (car, body) =>
      { m with
        readings := m.readings.erase id
        served := m.served ++ [⟨reading.did, car, body, m.desk.log⟩] }
    | .error _ => { m with readings := m.readings.erase id }

inductive Moves (m : RepoServer) : ServeAction → RepoServer → Prop where
  | call {action : CallAction} {desk : Desk}
      (moves : Desk.Moves codec.crypto backend spaceId m.desk desk) :
      Moves m (.call action) { m with desk := desk }
  | rowWrite {spaceRef : String} {did : { did : String // NoSlash did }} {write : RowWrite}
      {space : HostedSpace} {store : SpaceStore} (here : space.id = spaceId)
      (resolved : m.desk.store.Resolved space.toSpace)
      (kept : (m.desk.store.readRepoState spaceId did).isSome)
      (wrote : write.run backend space.toSpace did m.desk.store = .ok store) :
      Moves m (.rowWrite spaceRef did write)
        { m with desk := { m.desk with store := store }, touched := did :: m.touched }
  | readState {id : Nat} {did spaceRef : String} {state : RepoState}
      (read : m.desk.store.readRepoState spaceId did = some state) :
      Moves m (.readState id did spaceRef)
        { m with readings := m.readings.insert id ⟨did, spaceRef, state, m.desk.log.length⟩ }
  | serve {id : Nat} {reading : RepoReading} {car : Car} {body : List UInt8}
      (held : m.readings.lookup id = some reading)
      (response : reading.respond codec (m.desk.store.listRepoRows spaceId reading.did) =
        .ok (car, body)) :
      Moves m (.readRecords id)
        { m with
          readings := m.readings.erase id
          served := m.served ++ [⟨reading.did, car, body, m.desk.log⟩] }
  | fail {id : Nat} : Moves m (.readRecords id) { m with readings := m.readings.erase id }

theorem step_moves {m m' : RepoServer} {action : ServeAction}
    (h : m.step codec backend spaceId action = some m') :
    Moves codec backend spaceId m action m' := by
  cases action with
  | call action =>
    obtain ⟨desk, taken, rfl⟩ := Option.map_eq_some_iff.mp h
    exact .call (Desk.step_moves _ _ _ taken)
  | rowWrite spaceRef did write =>
    simp only [step] at h
    split at h
    · rename_i space found
      obtain ⟨⟨here, kept⟩, h⟩ := Option.ite_none_right_eq_some.mp h
      obtain ⟨store, done, rfl⟩ := Option.map_eq_some_iff.mp h
      cases wrote : write.run backend space.toSpace did m.desk.store with
      | error e => simp [wrote, Except.toOption] at done
      | ok store' =>
        obtain rfl : store' = store := by simpa [wrote, Except.toOption] using done
        exact .rowWrite here (SpaceStore.resolveSpace_resolved found) kept wrote
    · cases h
  | readState id did spaceRef =>
    simp only [step] at h
    split at h
    · rename_i space state resolved read
      obtain ⟨-, ⟨⟩⟩ := Option.ite_none_right_eq_some.mp h
      exact .readState read
    · cases h
  | readRecords id =>
    obtain ⟨reading, held, rfl⟩ := Option.map_eq_some_iff.mp h
    split
    · rename_i car body response
      exact .serve held response
    · exact .fail

def machine (start : SpaceStore) : Machine RepoServer ServeAction where
  start := { desk := { store := start } }
  step := step codec backend spaceId

def lastRev (did : String) (log : List CommittedCall) : Option String :=
  (log.filter (·.did = some did)).getLast?.map (·.rev)

/-- When a call reads the records, no write of the repo's author has committed since it read
the repo's state, and the repo's rows were written by write calls only. -/
def Quiet (m : RepoServer) : ServeAction → Prop
  | .readRecords id => ∀ reading ∈ m.readings.lookup id, reading.did ∉ m.touched ∧
      ∀ entry ∈ m.desk.log.drop reading.readAt, entry.did ≠ some reading.did
  | .call _ | .rowWrite .. | .readState .. => True

instance (m : RepoServer) (action : ServeAction) : Decidable (Quiet m action) := by
  cases action <;> unfold Quiet <;> infer_instance

structure Consistent (served : ServedRepo) : Prop where
  body : served.car.bytes codec = .ok served.body
  hash : served.car.commit.hash = served.car.digest codec
  rev : some served.car.commit.rev = lastRev served.did served.log

end RepoServer

/-! ## What a write stores -/

section Write

variable {s s' : SpaceStore} {crypto : Crypto} {backend : Writers.DatabaseBackend}
  {space : Space} {did : String}

/-- Every cid stored for an author in `R` is that of the stored value. -/
def SpaceStore.Addressed (s : SpaceStore) (crypto : Crypto) (R : String → Prop) : Prop :=
  ∀ uri row, s.records.lookup uri = some row → R row.authorDid →
    crypto.contentCid row.record = some row.cid

variable {R : String → Prop}

theorem SpaceStore.Addressed.insert {uri : String} {row : SpaceRecord}
    (addressed : s.Addressed crypto R) (new : crypto.contentCid row.record = some row.cid) :
    { s with records := s.records.insert uri row }.Addressed crypto R := by
  intro other found held
  rcases lookup_insert_cases held with ⟨-, rfl⟩ | held
  · exact fun _ => new
  · exact addressed other found held

theorem SpaceStore.Addressed.erase {uri : String} (addressed : s.Addressed crypto R) :
    (s.deleteSpaceRecord uri).Addressed crypto R := by
  intro other found held
  exact addressed other found (lookup_erase_some held).2

theorem SpaceStore.Addressed.applyOp {op : WriteOp} {applied : AppliedOp}
    (addressed : s.Addressed crypto R)
    (h : s.applyOp crypto backend space did op = .ok (applied, s')) : s'.Addressed crypto R := by
  cases op with
  | create collection rkey value =>
    obtain ⟨cid, computed, h⟩ := bind_eq_ok.mp h
    obtain ⟨after, inserted, ⟨⟩⟩ := bind_eq_ok.mp h
    unfold insertSpaceRecord at inserted
    split at inserted <;> cases inserted
    exact addressed.insert (require_eq_ok.mp computed)
  | update collection rkey value swap =>
    cases swap with
    | some swap =>
      obtain ⟨cid, computed, h⟩ := bind_eq_ok.mp h
      obtain ⟨after, swapped, ⟨⟩⟩ := bind_eq_ok.mp h
      unfold upsertSpaceRecordWithSwap at swapped
      split at swapped <;> cases swapped
      exact addressed.insert (require_eq_ok.mp computed)
    | none =>
      obtain ⟨cid, computed, ⟨⟩⟩ := bind_eq_ok.mp h
      obtain upserted | ⟨held, -, upserted⟩ := s.upsertSpaceRecord_cases backend
        (recordUri space.did space.typeNsid space.skey did collection rkey)
        ⟨space.id, did, collection, rkey, value, cid⟩
      all_goals
        rw [upserted]
        exact addressed.insert (require_eq_ok.mp computed)
  | delete collection rkey swap =>
    cases swap with
    | some swap =>
      obtain ⟨after, swapped, ⟨⟩⟩ := bind_eq_ok.mp h
      unfold deleteSpaceRecordWithSwap at swapped
      split at swapped <;> cases swapped
      exact addressed.erase
    | none =>
      obtain ⟨held, -, h⟩ := bind_eq_ok.mp h
      obtain ⟨-, -, ⟨⟩⟩ := bind_eq_ok.mp h
      exact addressed.erase

theorem SpaceStore.Addressed.applyOps {ops : List WriteOp} {appliedOps : List AppliedOp}
    (addressed : s.Addressed crypto R)
    (h : applyOps crypto backend space did ops s = .ok (appliedOps, s')) :
    s'.Addressed crypto R := by
  induction ops generalizing s appliedOps with
  | nil =>
    cases h
    exact addressed
  | cons op ops ih =>
    obtain ⟨⟨first, mid⟩, one, h⟩ := bind_eq_ok.mp h
    obtain ⟨⟨rest, last⟩, more, ⟨⟩⟩ := bind_eq_ok.mp h
    exact ih (addressed.applyOp one) more

theorem SpaceStore.Addressed.transact {call : WriteCall} (addressed : s.Addressed crypto R)
    (h : call.transact crypto backend space s = .ok s') : s'.Addressed crypto R := by
  obtain ⟨⟨applied, mid⟩, wrote, h⟩ := bind_eq_ok.mp h
  obtain ⟨records, -⟩ := commitWrite_cases h
  intro uri row held
  rw [records] at held
  exact addressed.applyOps wrote uri row held

theorem SpaceStore.transact_commit {call : WriteCall}
    (h : call.transact crypto backend space s = .ok s') :
    ∃ state : RepoState, s'.repoStates = s.repoStates.insert (space.id, call.did.val) state ∧
      state.hash = some (crypto.sha256 state.lthashState) ∧
      state.rev = some call.stamp.rev := by
  obtain ⟨⟨applied, mid⟩, wrote, h⟩ := bind_eq_ok.mp h
  obtain ⟨-, -, h⟩ := bind_eq_ok.mp h
  obtain ⟨⟨recorded, rows⟩, -, ⟨⟩⟩ := bind_eq_ok.mp h
  rw [← (applyOps_frame wrote).2]
  refine ⟨_, rfl, ?_, ?_⟩ <;> simp only

/-! ## What other statements leave alone -/

/-- What a statement on one repo's rows leaves of the others. -/
structure SpaceStore.Spares (s s' : SpaceStore) (crypto : Crypto) (spaceId did : String) :
    Prop where
  tidy : s'.Tidy fun _ => True
  spaces : s'.spaces = s.spaces
  rows : ∀ uri (row : SpaceRecord), row.authorDid ≠ did →
    s'.records.lookup uri = some row → s.records.lookup uri = some row
  states : ∀ id author, author ≠ did → s'.readRepoState id author = s.readRepoState id author
  kept : ∀ id author, (s.readRepoState id author).isSome → (s'.readRepoState id author).isSome
  own : ∀ uri (row : SpaceRecord), row.authorDid = did → s'.records.lookup uri = some row →
    s.records.lookup uri = some row ∨ row.spaceId = spaceId
  total : ∀ id author, author ≠ did →
    total (weigh crypto id author) s'.records = total (weigh crypto id author) s.records

theorem SpaceStore.Touches.spares {op : WriteOp} (tidy : s.Tidy fun _ => True)
    (agree : ElementsAgree crypto.element fun _ => True) (resolved : s.Resolved space)
    (author : NoSlash did) (after : s'.Tidy fun _ => True) (touches : s.Touches s' space did)
    (put : (∃ row, s.Sits (fun _ => True) (op.uri space did) row ∧
        s' = { s with records := s.records.insert (op.uri space did) row }) ∨
      s' = { s with records := s.records.erase (op.uri space did) }) :
    s.Spares s' crypto space.id did := by
  have states (id who : String) : s'.readRepoState id who = s.readRepoState id who := by
    rw [readRepoState, touches.repoStates]
    rfl
  refine ⟨after, touches.spaces, fun uri row other => (touches.others uri row (by simp [other])).mp,
    fun id who _ => states id who, fun id who kept => by rwa [states], fun uri row own held => ?_,
    fun id who other => ?_⟩
  · by_cases here : row.spaceId = space.id
    · exact .inr here
    · exact .inl ((touches.others uri row (by simp [here])).mp held)
  · have share : share (weigh crypto id who) s.records (op.uri space did) = 0 := by
      rw [share_uri tidy agree resolved author trivial, if_neg (by simp [Ne.symm other])]
    obtain ⟨row, sits, rfl⟩ | rfl := put
    · obtain ⟨-, same, -⟩ := sits.same resolved author
      rw [total_insert, share, weigh, if_neg (by simp [same, Ne.symm other])]
      simp
    · rw [total_erase, share, sub_zero]

def RepoOp.place (op : RepoOp) : WriteOp := .delete op.collection op.rkey none

theorem applyRepoOp_cases {op : RepoOp} (h : applyRepoOp backend space did op s = .ok s') :
    s' = { s with records := s.records.erase (op.place.uri space did) } ∨ ∃ row : SpaceRecord,
      row.spaceId = space.id ∧ row.authorDid = did ∧ row.collection = op.collection ∧
        row.rkey = op.rkey ∧ s' = s.upsertSpaceRecord backend (op.place.uri space did) row := by
  unfold applyRepoOp at h
  dsimp only at h
  cases action : op.action with
  | delete =>
    rw [action] at h
    cases h
    exact .inl rfl
  | create | update =>
    rw [action] at h
    dsimp only at h
    split at h
    · cases h
      exact .inr ⟨_, rfl, rfl, rfl, rfl, rfl⟩
    · cases h

theorem applyRepoOp_puts {op : RepoOp} (tidy : s.Tidy fun _ => True) (resolved : s.Resolved space)
    (author : NoSlash did) (h : applyRepoOp backend space did op s = .ok s') :
    (∃ row, s.Sits (fun _ => True) (op.place.uri space did) row ∧
        s' = { s with records := s.records.insert (op.place.uri space did) row }) ∨
      s' = { s with records := s.records.erase (op.place.uri space did) } := by
  obtain erased | ⟨row, id, own, collection, rkey, rfl⟩ := applyRepoOp_cases h
  · exact .inr erased
  · refine .inl ?_
    obtain upserted | ⟨held, found, upserted⟩ :=
      s.upsertSpaceRecord_cases backend (op.place.uri space did) row
    · refine ⟨row, ⟨space, resolved, id, own ▸ author, trivial, ?_⟩, upserted⟩
      rw [own, collection, rkey]
      rfl
    · obtain ⟨of, known, id, part, _, uri⟩ := tidy _ _ found
      exact ⟨{ held with record := row.record, cid := row.cid },
        ⟨of, known, id, part, trivial, uri⟩, upserted⟩

theorem SpaceStore.run_spares {write : RowWrite} (tidy : s.Tidy fun _ => True)
    (agree : ElementsAgree crypto.element fun _ => True) (resolved : s.Resolved space)
    (author : NoSlash did) (h : write.run backend space did s = .ok s') :
    s.Spares s' crypto space.id did := by
  cases write with
  | saveState row =>
    cases h
    have reads (id who : String) (other : (id, who) ≠ (space.id, did)) :
        (s.updateRepoState space.id did row).readRepoState id who = s.readRepoState id who :=
      AList.lookup_insert_ne other
    refine ⟨fun uri found held => (tidy uri found held).congr rfl, rfl, fun _ _ _ held => held,
      fun id who other => reads id who (by simp [other]), fun id who kept => ?_,
      fun _ _ _ held => .inl held, fun _ _ _ => rfl⟩
    by_cases here : (id, who) = (space.id, did)
    · cases here
      exact Option.isSome_iff_exists.mpr ⟨row, AList.lookup_insert _⟩
    · rwa [reads id who here]
  | apply op =>
    have puts := applyRepoOp_puts tidy resolved author h
    obtain ⟨row, sits, written⟩ | written := puts
    · obtain ⟨after, touches⟩ := tidy.put resolved author sits
      rw [← written] at after touches
      exact touches.spares tidy agree resolved author after (.inl ⟨row, sits, written⟩)
    · have ⟨after, touches⟩ : s'.Tidy (fun _ => True) ∧ s.Touches s' space did :=
        written ▸ tidy.take resolved author
      exact touches.spares tidy agree resolved author after (.inr written)

end Write

/-! ## Runs -/

namespace RepoServer

theorem lastRev_concat {did : String} {log : List CommittedCall} {entry : CommittedCall} :
    lastRev did (log ++ [entry]) = if entry.did = some did then some entry.rev
      else lastRev did log := by
  unfold lastRev
  split <;> simp_all [List.filter_append]

section

variable {codec : Codec} {backend : Writers.DatabaseBackend} {spaceId : String}
  {m m' : RepoServer} {desk : Desk} {touched : List String}

/-- What the stored commits and the calls under way say of the store. -/
structure DeskInv (codec : Codec) (spaceId : String) (touched : List String) (desk : Desk) :
    Prop where
  hashed : desk.store.Hashed codec.crypto (fun _ => True) fun _ did => did ∉ touched
  addressed : desk.store.Addressed codec.crypto (· ∉ touched)
  read : ∀ id flight, desk.flights.lookup id = some flight →
    flight.space.id = spaceId ∧ desk.store.Resolved flight.space.toSpace
  commit : ∀ did ∉ touched, ∀ state, desk.store.readRepoState spaceId did = some state →
    state.hash = some (codec.sha256 state.lthashState) ∧ state.rev = lastRev did desk.log

theorem deskInv_fresh {start : SpaceStore} (records : start.records = ∅)
    (states : start.repoStates = ∅) : DeskInv codec spaceId [] { store := start } where
  hashed := SpaceStore.hashed_fresh records states
  addressed uri row held := by simp [records] at held
  read id flight held := by simp at held
  commit did _ state held := by simp [SpaceStore.readRepoState, states] at held

theorem DeskInv.reschedule (inv : DeskInv codec spaceId touched desk)
    {flights : AList fun _ : Nat => Flight} {holder : Option Nat}
    (read : ∀ id flight, flights.lookup id = some flight →
      flight.space.id = spaceId ∧ desk.store.Resolved flight.space.toSpace) :
    DeskInv codec spaceId touched { desk with flights := flights, holder := holder } :=
  { inv with read := read }

theorem DeskInv.commits (inv : DeskInv codec spaceId touched desk) {id : Nat} {flight : Flight}
    {store : SpaceStore} (held : desk.flights.lookup id = some flight)
    (wrote : flight.call.transact codec.crypto backend flight.space.toSpace desk.store =
      .ok store) :
    DeskInv codec spaceId touched
      { store := store
        flights := desk.flights.erase id
        log := desk.log ++ [flight.committed] } := by
  obtain ⟨here, resolved⟩ := inv.read id flight held
  obtain ⟨state, states, hash, rev⟩ := SpaceStore.transact_commit wrote
  have agree : ElementsAgree codec.crypto.element fun _ => True :=
    elementsAgree_recordElement codec.expand _
  refine ⟨inv.hashed.transact agree (by simp) resolved wrote, inv.addressed.transact wrote,
    fun other found held => ?_, fun did apart found read => ?_⟩
  · obtain ⟨here, resolved⟩ := inv.read other found (lookup_erase_some held).2
    refine ⟨here, resolved.did, resolved.typeNsid, resolved.skey, ?_⟩
    rw [← resolved.id, SpaceStore.spaceIdAt, SpaceStore.transact_spaces wrote]
    exact SpaceStore.spaceIdAt_updateSpaceRevision ..
  · simp only [SpaceStore.readRepoState, states] at read
    rw [lastRev_concat]
    by_cases own : flight.call.did.val = did
    · rw [here, own, AList.lookup_insert, Option.some_inj] at read
      rw [← read, if_pos (by simp [Flight.committed, own])]
      exact ⟨hash, rev⟩
    · rw [AList.lookup_insert_ne (by simp [Ne.symm own])] at read
      rw [if_neg (by simpa [Flight.committed] using own)]
      exact inv.commit did apart found read

theorem DeskInv.moves (inv : DeskInv codec spaceId touched desk) {desk' : Desk}
    (moves : Desk.Moves codec.crypto backend spaceId desk desk') :
    DeskInv codec spaceId touched desk' := by
  cases moves with
  | @resolve id call space read here new =>
    refine inv.reschedule fun other flight held => ?_
    rcases lookup_insert_cases held with ⟨-, rfl⟩ | held
    · exact ⟨here, SpaceStore.resolveSpace_resolved read⟩
    · exact inv.read other flight held
  | @check id flight held passed =>
    refine inv.reschedule fun other found held' => ?_
    rcases lookup_insert_cases held' with ⟨-, rfl⟩ | held'
    · exact inv.read id flight held
    · exact inv.read other found held'
  | lock => exact inv.reschedule inv.read
  | commit held admitted locked wrote => exact inv.commits held wrote
  | leave =>
    exact inv.reschedule fun other flight held => inv.read other flight (lookup_erase_some held).2
  | @repair rev =>
    have ids := SpaceStore.spaceIdAt_updateSpaceRevision desk.store spaceId rev
    refine ⟨⟨fun uri row held => (inv.hashed.tidy uri row held).moved ids, inv.hashed.known,
      inv.hashed.hash⟩, inv.addressed, fun id flight held => ?_, fun did apart state held => ?_⟩
    · obtain ⟨here, resolved⟩ := inv.read id flight held
      exact ⟨here, resolved.did, resolved.typeNsid, resolved.skey, (ids _ _ _).trans resolved.id⟩
    · rw [lastRev_concat, if_neg (by simp)]
      exact inv.commit did apart state held

theorem DeskInv.spared (inv : DeskInv codec spaceId touched desk) {store : SpaceStore}
    {did : String} (kept : (desk.store.readRepoState spaceId did).isSome)
    (spares : desk.store.Spares store codec.crypto spaceId did) :
    DeskInv codec spaceId (did :: touched) { desk with store := store } := by
  refine ⟨⟨spares.tidy, fun uri row held => ?_, fun id author apart => ?_⟩,
    fun uri row held apart => ?_, fun id flight held => ?_, fun author apart state held => ?_⟩
  · by_cases own : row.authorDid = did
    · rcases spares.own uri row own held with before | here
      · exact spares.kept _ _ (inv.hashed.known uri row before)
      · rw [own, here]
        exact spares.kept _ _ kept
    · exact spares.kept _ _ (inv.hashed.known uri row (spares.rows uri row own held))
  · obtain ⟨other, apart⟩ := not_or.mp (mt List.mem_cons.mpr apart)
    rw [SpaceStore.getOrCreateRepoState, spares.states id author other,
      spares.total id author other]
    exact inv.hashed.hash id author apart
  · obtain ⟨other, apart⟩ := not_or.mp (mt List.mem_cons.mpr apart)
    exact inv.addressed uri row (spares.rows uri row other held) apart
  · obtain ⟨here, resolved⟩ := inv.read id flight held
    exact ⟨here, resolved.congr spares.spaces⟩
  · obtain ⟨other, apart⟩ := not_or.mp (mt List.mem_cons.mpr apart)
    rw [spares.states spaceId author other] at held
    exact inv.commit author apart state held

/-- A reading is the stored state as long as only write calls have written the repo's rows, and
the author has not written since. -/
structure Current (spaceId : String) (touched : List String) (desk : Desk)
    (reading : RepoReading) : Prop where
  past : reading.readAt ≤ desk.log.length
  same : reading.did ∉ touched →
    (∀ entry ∈ desk.log.drop reading.readAt, entry.did ≠ some reading.did) →
    desk.store.readRepoState spaceId reading.did = some reading.state

theorem Current.concat {reading : RepoReading} {store : SpaceStore}
    {flights : AList fun _ : Nat => Flight} {holder : Option Nat} {entry : CommittedCall}
    (current : Current spaceId touched desk reading)
    (others : entry.did ≠ some reading.did →
      store.readRepoState spaceId reading.did = desk.store.readRepoState spaceId reading.did) :
    Current spaceId touched ⟨store, flights, holder, desk.log ++ [entry]⟩ reading where
  past := by
    have := current.past
    simp only [List.length_append]
    omega
  same apart quiet := by
    rw [List.drop_append_of_le_length current.past] at quiet
    rw [others (quiet entry (by simp))]
    exact current.same apart fun found mem => quiet found (by simp [mem])

theorem Current.moves {desk' : Desk} {reading : RepoReading}
    (current : Current spaceId touched desk reading)
    (moves : Desk.Moves codec.crypto backend spaceId desk desk') :
    Current spaceId touched desk' reading := by
  cases moves with
  | resolve | check | lock | leave => exact ⟨current.past, current.same⟩
  | @commit id flight store held admitted locked wrote =>
    refine current.concat fun other => ?_
    obtain ⟨state, states⟩ := SpaceStore.transact_repoStates wrote
    have other : reading.did ≠ flight.call.did.val := fun same => other (congrArg some same.symm)
    rw [SpaceStore.readRepoState, states, AList.lookup_insert_ne (by simp [other])]
    rfl
  | repair => exact current.concat fun _ => rfl

/-! ## The response -/

theorem carCommit_cases {state : RepoState} {did spaceRef : String} {commit : CarCommit}
    (h : state.carCommit did spaceRef = .ok commit) :
    state.hash = some commit.hash ∧ state.rev = some commit.rev := by
  obtain ⟨hash, hashed, h⟩ := bind_eq_ok.mp h
  obtain ⟨-, -, h⟩ := bind_eq_ok.mp h
  obtain ⟨rev, revised, h⟩ := bind_eq_ok.mp h
  rw [require_eq_ok] at hashed revised
  split at h
  · cases h
    exact ⟨hashed, revised⟩
  · obtain ⟨ikm, -, h⟩ := bind_eq_ok.mp h
    obtain ⟨mac, -, h⟩ := bind_eq_ok.mp h
    obtain ⟨sig, -, ⟨⟩⟩ := bind_eq_ok.mp h
    exact ⟨hashed, revised⟩

theorem listRepoRows_perm (s : SpaceStore) (spaceId did : String) :
    ((s.listRepoRows spaceId did).map (·.2)).Perm (s.authorRecords spaceId did) := by
  have sorted := List.perm_insertionSort
    (fun a b : Σ _ : String, SpaceRecord => a.2.collection < b.2.collection ∨
      a.2.collection = b.2.collection ∧ a.2.rkey ≤ b.2.rkey)
    (s.records.entries.filter fun row => row.2.spaceId = spaceId ∧ row.2.authorDid = did)
  rw [SpaceStore.authorRecords, List.filter_map]
  exact sorted.map _

theorem DeskInv.digest (inv : DeskInv codec spaceId touched desk) {did : String}
    {state : RepoState} (apart : did ∉ touched)
    (held : desk.store.readRepoState spaceId did = some state) {commit : CarCommit} {car : Car}
    (h : Car.ofRecords codec commit (desk.store.listRepoRows spaceId did) = .ok car) :
    car.commit = commit ∧ state.hash = some (car.digest codec) := by
  have perm := listRepoRows_perm desk.store spaceId did
  have cids : ∀ row ∈ desk.store.listRepoRows spaceId did,
      codec.computeRecordCid row.2.record = some row.2.cid := by
    intro row mem
    obtain ⟨⟨uri, stored⟩, -, own⟩ := SpaceStore.mem_authorRecords.mp
      (perm.mem_iff.mp (List.mem_map_of_mem mem))
    exact inv.addressed uri row.2 stored (own ▸ apart)
  obtain ⟨same, digest⟩ := Car.digest_ofRecords cids h
  have stored := inv.hashed.hash spaceId did apart
  rw [SpaceStore.getOrCreateRepoState, held, Option.getD_some, desk.store.total_weigh,
    ← foldElements_perm perm] at stored
  refine ⟨same, ?_⟩
  rw [(inv.commit did apart state held).1, stored, digest, foldElements_eq, foldElements_eq,
    List.map_map]
  rfl

theorem DeskInv.respond (inv : DeskInv codec spaceId touched desk) {reading : RepoReading}
    {car : Car} {body : List UInt8} (apart : reading.did ∉ touched)
    (held : desk.store.readRepoState spaceId reading.did = some reading.state)
    (h : reading.respond codec (desk.store.listRepoRows spaceId reading.did) = .ok (car, body)) :
    Consistent codec ⟨reading.did, car, body, desk.log⟩ := by
  obtain ⟨commit, described, h⟩ := bind_eq_ok.mp h
  obtain ⟨found, indexed, h⟩ := bind_eq_ok.mp h
  obtain ⟨written, wrote, ⟨⟩⟩ := bind_eq_ok.mp h
  obtain ⟨hash, rev⟩ := carCommit_cases described
  obtain ⟨rfl, digest⟩ := inv.digest apart held indexed
  refine ⟨wrote, ?_, ?_⟩
  · exact Option.some.inj (hash.symm.trans digest)
  · rw [← rev, (inv.commit _ apart _ held).2]

structure Inv (codec : Codec) (spaceId : String) (m : RepoServer) : Prop where
  desk : DeskInv codec spaceId m.touched m.desk
  current : ∀ id reading, m.readings.lookup id = some reading →
    Current spaceId m.touched m.desk reading
  served : ∀ served ∈ m.served, Consistent codec served

theorem Inv.step {action : ServeAction} (inv : Inv codec spaceId m) (quiet : Quiet m action)
    (moves : Moves codec backend spaceId m action m') : Inv codec spaceId m' := by
  cases moves with
  | call moves =>
    exact ⟨inv.desk.moves moves, fun id reading held =>
      (inv.current id reading held).moves moves, inv.served⟩
  | @rowWrite spaceRef did write space store here resolved kept wrote =>
    subst here
    have agree : ElementsAgree codec.crypto.element fun _ => True :=
      elementsAgree_recordElement codec.expand _
    have spares := SpaceStore.run_spares inv.desk.hashed.tidy agree resolved did.property wrote
    refine ⟨inv.desk.spared kept spares, fun id reading held => ?_, inv.served⟩
    obtain ⟨past, same⟩ := inv.current id reading held
    refine ⟨past, fun apart quiet => ?_⟩
    obtain ⟨other, apart⟩ := not_or.mp (mt List.mem_cons.mpr apart)
    exact (spares.states _ _ other).trans (same apart quiet)
  | @readState id did spaceRef state read =>
    refine ⟨inv.desk, fun other reading held => ?_, inv.served⟩
    rcases lookup_insert_cases held with ⟨-, rfl⟩ | held
    · exact ⟨le_rfl, fun _ _ => read⟩
    · exact inv.current other reading held
  | @serve id reading car body held response =>
    refine ⟨inv.desk, fun other found held => inv.current other found (lookup_erase_some held).2,
      fun served mem => ?_⟩
    rcases List.mem_append.mp mem with old | new
    · exact inv.served served old
    · rw [List.mem_singleton.mp new]
      obtain ⟨apart, still⟩ := quiet reading held
      exact inv.desk.respond apart ((inv.current id reading held).same apart still) response
  | fail =>
    exact ⟨inv.desk, fun other found held => inv.current other found (lookup_erase_some held).2,
      inv.served⟩

end

/-- For all interleavings of write calls, other statements on the rows and `getRepo` calls on a
space that begins without records: if no write of its author commits between a call's two reads
and only write calls have written the repo's rows, every CAR file served has a commit whose hash
is that of exactly the records in the file and whose revision is that of the author's last write
when the records were read. -/
theorem served_consistent (codec : Codec) (backend : Writers.DatabaseBackend) (spaceId : String)
    (start : SpaceStore) (fresh : start.records = ∅ ∧ start.repoStates = ∅)
    (actions : List ServeAction) (m : RepoServer)
    (quiet : (machine codec backend spaceId start).Along Quiet actions)
    (run : (machine codec backend spaceId start).run actions = some m) :
    ∀ served ∈ m.served, Consistent codec served := by
  have inv : Inv codec spaceId m := by
    refine Machine.induct_along ?_ (fun s a t inv ok taken => ?_) quiet run
    · exact ⟨deskInv_fresh fresh.1 fresh.2, fun _ _ held => by simp [machine] at held,
        fun _ mem => by simp [machine] at mem⟩
    · exact inv.step ok (step_moves codec backend spaceId taken)
  exact inv.served

def shortCodec : Codec where
  expand text := fun _ => text.length
  recordToDagCbor record := some record.toUTF8.toList
  encodeCbor _ := .ok []
  cidText bytes := String.ofList (bytes.map fun byte => Char.ofNat byte.toNat)
  sha256 bytes := bytes.take 32
  sign _ _ _ _ := []
  computeMac _ _ _ _ _ := List.replicate 32 0

def putPost (id : Nat) (rkey rev : String) : List ServeAction :=
  [.resolve id (putRecord forumMember "at://did:plc:s/space/app.forum/main" "app.post" rkey "text"
      none ⟨rev, 0, rev, List.replicate 32 0⟩), .check id, .lock id, .commit id].map .call

def readForum (id : Nat) : ServeAction :=
  .readState id "did:plc:a" "at://did:plc:s/space/app.forum/main"

def quietRead : List ServeAction :=
  putPost 0 "1" "2222222222222" ++ putPost 1 "2" "2222222222223" ++ [readForum 2, .readRecords 2]

theorem served_consistent_quietRead :
    ∃ m, (machine shortCodec .sqlite "s1" forumStore).run quietRead = some m ∧
      m.served.length = 1 ∧ ∀ served ∈ m.served, Consistent shortCodec served := by
  obtain ⟨m, run, one⟩ := (Option.any_eq_true _ _).mp (by decide +kernel :
    ((machine shortCodec .sqlite "s1" forumStore).run quietRead).any
      (fun m => m.served.length = 1) = true)
  exact ⟨m, run, of_decide_eq_true one,
    served_consistent shortCodec .sqlite "s1" forumStore ⟨rfl, rfl⟩ quietRead m
      (by decide +kernel) run⟩

def tornRead : List ServeAction :=
  putPost 0 "1" "2222222222222" ++ [readForum 2] ++ putPost 1 "2" "2222222222223" ++
    [.readRecords 2]

/-- The file has the second record, and the commit from before it. -/
theorem served_torn :
    ∃ m, (machine shortCodec .sqlite "s1" forumStore).run tornRead = some m ∧
      ∃ served ∈ m.served,
        served.car.entries.map (·.path) = ["app.post/1", "app.post/2"] ∧
        served.car.commit.hash ≠ served.car.digest shortCodec ∧
        served.car.commit.rev = "2222222222222" ∧
        lastRev served.did served.log = some "2222222222223" := by
  obtain ⟨m, run, found⟩ := (Option.any_eq_true _ _).mp (by decide +kernel :
    ((machine shortCodec .sqlite "s1" forumStore).run tornRead).any (fun m =>
      m.served.any fun served =>
        served.car.entries.map (·.path) = ["app.post/1", "app.post/2"] ∧
        served.car.commit.hash ≠ served.car.digest shortCodec ∧
        served.car.commit.rev = "2222222222222" ∧
        lastRev served.did served.log = some "2222222222223") = true)
  obtain ⟨served, mem, torn⟩ := List.any_eq_true.mp found
  exact ⟨m, run, served, mem, of_decide_eq_true torn⟩

end RepoServer

end HappyView.Spaces
