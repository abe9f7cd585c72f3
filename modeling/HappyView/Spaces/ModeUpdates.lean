import HappyView.Spaces.Migration

/-!
# Updates of a repo's mode and cursor beside its writes

`set_mode` and `hand_off` read the repo's state, change one column and write the whole row back,
without the space's lock. `ModeDesk` runs any number of such updates beside the write calls on the
space.
-/

namespace HappyView.Spaces

open HappyView.Foundation

structure CommitState where
  lthashState : List UInt8
  rev : Option String
  hash : Option (List UInt8)
  ikm : Option (List UInt8)
  sig : Option (List UInt8)
  mac : Option (List UInt8)
  deriving DecidableEq

def RepoState.commitState (row : RepoState) : CommitState :=
  ⟨row.lthashState, row.rev, row.hash, row.ikm, row.sig, row.mac⟩

structure HeldRow where
  row : RepoState
  readAt : Nat

structure ModeDesk where
  desk : Desk
  held : AList fun _ : Nat => HeldRow := ∅
  /-- What the last committed write of the author stored; at first what was there. -/
  committed : CommitState

inductive ModeAction where
  | call (action : CallAction)
  /-- An update reads the row, which is created unless it is there. -/
  | read (id : Nat)
  /-- `set_mode` writes its row back. -/
  | setMode (id : Nat) (mode : HostMode)
  /-- `hand_off` writes its row back with the PDS's revision. -/
  | setCursor (id : Nat) (rev : String)
  | drop (id : Nat)

namespace ModeDesk

variable (crypto : Crypto) (backend : Writers.DatabaseBackend) (spaceId did : String)

def stored (m : ModeDesk) : CommitState :=
  (m.desk.store.getOrCreateRepoState spaceId did).commitState

def withStore (m : ModeDesk) (store : SpaceStore) : ModeDesk :=
  { m with desk := { m.desk with store := store } }

def step (m : ModeDesk) : ModeAction → Option ModeDesk
  | .call action => (m.desk.step crypto backend spaceId action).map fun desk =>
    { m with
      desk := desk
      committed := if (desk.log.drop m.desk.log.length).any (·.did = some did) then
          (desk.store.getOrCreateRepoState spaceId did).commitState
        else m.committed }
  | .read id =>
    if m.held.lookup id = none then
      some { m.withStore (Migration.created spaceId did m.desk.store) with
        held := m.held.insert id
          ⟨m.desk.store.getOrCreateRepoState spaceId did, m.desk.log.length⟩ }
    else none
  | .setMode id mode => (m.held.lookup id).map fun held =>
    { m.withStore ((Migration.setMode spaceId did m.desk.store held.row mode).getD m.desk.store)
      with held := m.held.erase id }
  | .setCursor id rev => (m.held.lookup id).map fun held =>
    { m.withStore (m.desk.store.updateRepoState spaceId did
        { held.row with syncCursor := some rev }) with held := m.held.erase id }
  | .drop id => some { m with held := m.held.erase id }

def machine (start : SpaceStore) : Machine ModeDesk ModeAction where
  start :=
    { desk := { store := start }
      committed := (start.getOrCreateRepoState spaceId did).commitState }
  step := step crypto backend spaceId did

def writesBack (m : ModeDesk) : ModeAction → Option HeldRow
  | .setMode id _ | .setCursor id _ => m.held.lookup id
  | _ => none

/-- No write of the author has committed since the row that is written back was read. -/
def Current (m : ModeDesk) (action : ModeAction) : Prop :=
  ∀ held ∈ m.writesBack action, ∀ entry ∈ m.desk.log.drop held.readAt, entry.did ≠ some did

instance (m : ModeDesk) (action : ModeAction) : Decidable (Current did m action) :=
  inferInstanceAs (Decidable (∀ held ∈ _, _))

/-! ## The invariant -/

/-- The stored columns are the committed ones, and so are those of every row read since. -/
structure Inv (m : ModeDesk) : Prop where
  stored : m.stored spaceId did = m.committed
  flights : ∀ id flight, m.desk.flights.lookup id = some flight → flight.space.id = spaceId
  read : ∀ id held, m.held.lookup id = some held → held.readAt ≤ m.desk.log.length
  current : ∀ id held, m.held.lookup id = some held →
    (∀ entry ∈ m.desk.log.drop held.readAt, entry.did ≠ some did) →
      held.row.commitState = m.committed

section Steps

variable {crypto : Crypto} {backend : Writers.DatabaseBackend} {spaceId did : String}
  {m m' : ModeDesk} {desk : Desk}

theorem getOrCreateRepoState_created (spaceId did : String) (store : SpaceStore) :
    (Migration.created spaceId did store).getOrCreateRepoState spaceId did =
      store.getOrCreateRepoState spaceId did := by
  unfold Migration.created SpaceStore.getOrCreateRepoState
  cases held : store.readRepoState spaceId did with
  | some row => simp [held]
  | none => simp [SpaceStore.readRepoState, SpaceStore.updateRepoState]

theorem getOrCreateRepoState_update (store : SpaceStore) (row : RepoState) :
    (store.updateRepoState spaceId did row).getOrCreateRepoState spaceId did = row := by
  simp [SpaceStore.getOrCreateRepoState, SpaceStore.readRepoState, SpaceStore.updateRepoState]

theorem setMode_commitState (store : SpaceStore) (row : RepoState) (mode : HostMode) :
    let store' := (Migration.setMode spaceId did store row mode).getD store
    store' = store ∨
      (store'.getOrCreateRepoState spaceId did).commitState = row.commitState := by
  unfold Migration.setMode
  split
  · exact .inl rfl
  · split
    · refine .inr ?_
      rw [Option.getD_some, getOrCreateRepoState_update]
      rfl
    · exact .inl rfl

theorem Inv.writeBack (inv : Inv spaceId did m) {id : Nat} {store : SpaceStore} {held : HeldRow}
    (found : m.held.lookup id = some held)
    (current : ∀ entry ∈ m.desk.log.drop held.readAt, entry.did ≠ some did)
    (wrote : store = m.desk.store ∨
      (store.getOrCreateRepoState spaceId did).commitState = held.row.commitState) :
    Inv spaceId did { m.withStore store with held := m.held.erase id } where
  stored := by
    rcases wrote with rfl | wrote
    · exact inv.stored
    · exact wrote.trans (inv.current id held found current)
  flights := inv.flights
  read other row found := inv.read other row (lookup_erase_some found).2
  current other row found := inv.current other row (lookup_erase_some found).2

theorem Inv.reschedule (inv : Inv spaceId did m) {entries : List CommittedCall}
    (states : desk.store.getOrCreateRepoState spaceId did =
      m.desk.store.getOrCreateRepoState spaceId did)
    (log : desk.log = m.desk.log ++ entries)
    (flights : ∀ id flight, desk.flights.lookup id = some flight → flight.space.id = spaceId) :
    Inv spaceId did { m with desk := desk } where
  stored := (congrArg RepoState.commitState states).trans inv.stored
  flights := flights
  read id row found := by
    have := inv.read id row found
    simp only [log, List.length_append]
    omega
  current id row found quiet := by
    refine inv.current id row found fun entry mem => quiet entry ?_
    rw [log, List.drop_append_of_le_length (inv.read id row found)]
    exact List.mem_append_left _ mem

theorem Inv.commit (inv : Inv spaceId did m) {entry : CommittedCall}
    (own : entry.did = some did) (log : desk.log = m.desk.log ++ [entry])
    (flights : ∀ id flight, desk.flights.lookup id = some flight → flight.space.id = spaceId) :
    Inv spaceId did
      { m with
        desk := desk
        committed := (desk.store.getOrCreateRepoState spaceId did).commitState } where
  stored := rfl
  flights := flights
  read id row found := by
    have := inv.read id row found
    simp only [log, List.length_append]
    omega
  current id row found quiet := by
    refine absurd own (quiet entry ?_)
    simp [log, List.drop_append_of_le_length (inv.read id row found)]

theorem Inv.call (inv : Inv spaceId did m)
    (moves : Desk.Moves crypto backend spaceId m.desk desk) :
    Inv spaceId did
      { m with
        desk := desk
        committed := if (desk.log.drop m.desk.log.length).any (·.did = some did) then
            (desk.store.getOrCreateRepoState spaceId did).commitState
          else m.committed } := by
  cases moves with
  | @resolve id call space read here new =>
    simp only [List.drop_length, List.any_nil, Bool.false_eq_true, if_false]
    refine inv.reschedule rfl (List.append_nil _).symm fun other flight found => ?_
    rcases lookup_insert_cases found with ⟨-, rfl⟩ | found
    · exact here
    · exact inv.flights other flight found
  | @check id flight held passed =>
    simp only [List.drop_length, List.any_nil, Bool.false_eq_true, if_false]
    refine inv.reschedule rfl (List.append_nil _).symm fun other found held' => ?_
    rcases lookup_insert_cases held' with ⟨-, rfl⟩ | held'
    · exact inv.flights id flight held
    · exact inv.flights other found held'
  | lock =>
    simp only [List.drop_length, List.any_nil, Bool.false_eq_true, if_false]
    exact inv.reschedule rfl (List.append_nil _).symm inv.flights
  | @commit id flight store held admitted locked wrote =>
    obtain ⟨state, states⟩ := SpaceStore.transact_repoStates wrote
    have flights (other : Nat) (found : Flight)
        (held : (m.desk.flights.erase id).lookup other = some found) : found.space.id = spaceId :=
      inv.flights other found (lookup_erase_some held).2
    simp only [List.drop_left, List.any_cons, List.any_nil, Bool.or_false, decide_eq_true_eq]
    split
    · rename_i own
      exact inv.commit own rfl flights
    · rename_i other
      have stored : store.getOrCreateRepoState spaceId did =
          m.desk.store.getOrCreateRepoState spaceId did := by
        have apart : (spaceId, did) ≠ (flight.space.id, flight.call.did.val) := fun same =>
          other (congrArg some (Prod.mk.inj same).2.symm)
        simp only [SpaceStore.getOrCreateRepoState, SpaceStore.readRepoState, states,
          AList.lookup_insert_ne apart]
      exact inv.reschedule stored rfl flights
  | leave =>
    simp only [List.drop_length, List.any_nil, Bool.false_eq_true, if_false]
    exact inv.reschedule rfl (List.append_nil _).symm fun other flight found =>
      inv.flights other flight (lookup_erase_some found).2
  | repair =>
    simp only [List.drop_left, List.any_cons, List.any_nil, Bool.or_false, reduceCtorEq,
      decide_false, Bool.false_eq_true, if_false]
    exact inv.reschedule rfl rfl inv.flights

theorem Inv.step {action : ModeAction} (inv : Inv spaceId did m) (current : Current did m action)
    (h : step crypto backend spaceId did m action = some m') : Inv spaceId did m' := by
  cases action with
  | call action =>
    obtain ⟨desk, moved, rfl⟩ := Option.map_eq_some_iff.mp h
    exact inv.call (Desk.step_moves crypto backend spaceId moved)
  | read id =>
    obtain ⟨-, ⟨⟩⟩ := Option.ite_none_right_eq_some.mp h
    have created := getOrCreateRepoState_created spaceId did m.desk.store
    refine ⟨?_, inv.flights, fun other row found => ?_, fun other row found quiet => ?_⟩
    · exact (congrArg RepoState.commitState created).trans inv.stored
    · rcases lookup_insert_cases found with ⟨-, rfl⟩ | found
      · exact Nat.le_refl _
      · exact inv.read other row found
    · rcases lookup_insert_cases found with ⟨-, rfl⟩ | found
      · exact inv.stored
      · exact inv.current other row found quiet
  | setMode id mode =>
    obtain ⟨held, found, rfl⟩ := Option.map_eq_some_iff.mp h
    exact inv.writeBack found (current held found) (setMode_commitState ..)
  | setCursor id rev =>
    obtain ⟨held, found, rfl⟩ := Option.map_eq_some_iff.mp h
    refine inv.writeBack found (current held found) (.inr ?_)
    rw [getOrCreateRepoState_update]
    rfl
  | drop id =>
    cases h
    exact ⟨inv.stored, inv.flights,
      fun other row found => inv.read other row (lookup_erase_some found).2,
      fun other row found => inv.current other row (lookup_erase_some found).2⟩

end Steps

/-- In every run of write calls and of updates of the mode and the cursor, as long as every
update writes back a row that no write of the author has overtaken, the columns of a commit
are those that the last committed write stored. -/
theorem commitState_kept (start : SpaceStore) (actions : List ModeAction) (m : ModeDesk)
    (run : (machine crypto backend spaceId did start).run actions = some m)
    (current : (machine crypto backend spaceId did start).Along (Current did) actions) :
    m.stored spaceId did = m.committed := by
  have inv : Inv spaceId did m := by
    refine Machine.induct_along (P := Inv spaceId did) ?_ ?_ current run
    · exact ⟨rfl, by simp [machine], by simp [machine], by simp [machine]⟩
    · exact fun m action m' inv ok step => inv.step ok step
  exact inv.stored

def forumCommit : List ModeAction :=
  [.call (.resolve 1 (Migration.forumCreate "1" "2222222222222")), .call (.check 1),
    .call (.lock 1), .call (.commit 1)]

def updatesInTurn : List ModeAction :=
  [.read 1, .setMode 1 .migrating] ++ forumCommit ++ [.read 2, .setCursor 2 "r"]

theorem commitState_kept_inTurn : ∃ m,
    (machine joinedCrypto .postgres "s1" "did:plc:a" forumStore).run updatesInTurn = some m ∧
    m.committed.rev = some "2222222222222" ∧ m.stored "s1" "did:plc:a" = m.committed := by
  obtain ⟨m, run, rev⟩ := (Option.any_eq_true _ _).mp (by decide +kernel :
    ((machine joinedCrypto .postgres "s1" "did:plc:a" forumStore).run updatesInTurn).any
      (fun m => m.committed.rev = some "2222222222222") = true)
  exact ⟨m, run, of_decide_eq_true rev,
    commitState_kept _ _ _ _ _ _ m run (by decide +kernel)⟩

def updateAcrossCommit : List ModeAction := .read 1 :: forumCommit ++ [.setMode 1 .migrating]

/-- The columns of the commit are undone, while its record stays. -/
theorem commitState_undone : ∃ m,
    (machine joinedCrypto .postgres "s1" "did:plc:a" forumStore).run updateAcrossCommit = some m ∧
    m.committed.rev = some "2222222222222" ∧ (m.stored "s1" "did:plc:a").rev = none ∧
    (m.desk.store.authorRecords "s1" "did:plc:a").length = 1 ∧
    m.stored "s1" "did:plc:a" ≠ m.committed := by
  obtain ⟨m, run, facts⟩ := (Option.any_eq_true _ _).mp (by decide +kernel :
    ((machine joinedCrypto .postgres "s1" "did:plc:a" forumStore).run updateAcrossCommit).any
      (fun m => decide (m.committed.rev = some "2222222222222" ∧
        (m.stored "s1" "did:plc:a").rev = none ∧
        (m.desk.store.authorRecords "s1" "did:plc:a").length = 1)) = true)
  obtain ⟨committed, undone, record⟩ := of_decide_eq_true facts
  refine ⟨m, run, committed, undone, record, fun same => ?_⟩
  rw [same, committed] at undone
  cases undone

end ModeDesk

end HappyView.Spaces
