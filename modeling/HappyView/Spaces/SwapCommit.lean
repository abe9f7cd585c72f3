import HappyView.Spaces.SetHash
import HappyView.Spaces.WriteCalls
import Mathlib.Data.List.Nodup

/-!
# swapCommit under concurrent writes

`applyWrites` compares `swapCommit` with the revision in the row it read first, and takes
the write lock later. What commits in between is not seen, so two calls with one value may
both commit. `swapCommit_iff` says that this is all that can go wrong.
-/

namespace HappyView.Spaces

open HappyView.Foundation

/-- The revisions of the space, from the first on; the empty text stands for none. -/
def revisions (start : Option String) (log : List CommittedCall) : List String :=
  start.getD "" :: log.map (·.rev)

/-- A compare-and-swap: a value is used up by one commit, and from the read of the space to
the commit the revision is the value given. -/
structure SwapSafe (start : Option String) (log : List CommittedCall) : Prop where
  once : ∀ (i j : Nat) (a b : CommittedCall), log[i]? = some a → log[j]? = some b →
    a.swapCommit.isSome → a.swapCommit = b.swapCommit → i = j
  unchanged : ∀ (i : Nat) (entry : CommittedCall) value, log[i]? = some entry →
    entry.swapCommit = some value →
    ∀ time, entry.readAt ≤ time → time ≤ i → (revisions start log)[time]? = some value

/-- No write commits between the read of the space by a call with a `swapCommit` and the
call's own commit. -/
def InTurn (log : List CommittedCall) : Prop :=
  ∀ (i : Nat) (entry : CommittedCall), log[i]? = some entry → entry.swapCommit.isSome →
    entry.readAt = i

theorem checkSwapCommit_eq_ok {revision : Option String} {value : String} :
    checkSwapCommit revision (some value) = .ok () ↔ revision.getD "" = value := by
  cases revision with
  | some current => simp [checkSwapCommit]
  | none => simp [checkSwapCommit, eq_comm (a := "")]

/-! ## The revision of a space -/

def SpaceStore.revisionOf (s : SpaceStore) (spaceId : String) : Option String :=
  (s.spaces.find? (·.id = spaceId)).bind (·.revision)

section Revision

variable {s : SpaceStore} {spaceId rev : String}

theorem SpaceStore.ids_updateSpaceRevision (s : SpaceStore) (spaceId rev : String) :
    (s.updateSpaceRevision spaceId rev).spaces.map (·.id) = s.spaces.map (·.id) := by
  rw [updateSpaceRevision, List.map_map]
  refine List.map_congr_left fun space _ => ?_
  simp only [Function.comp_apply]
  split <;> rfl

theorem SpaceStore.revisionOf_updateSpaceRevision (hosted : spaceId ∈ s.spaces.map (·.id)) :
    (s.updateSpaceRevision spaceId rev).revisionOf spaceId = some rev := by
  obtain ⟨space, mem, here⟩ := List.mem_map.mp hosted
  have moved : (s.updateSpaceRevision spaceId rev).spaces.find? (·.id = spaceId) =
      (s.spaces.find? (·.id = spaceId)).map fun space =>
        if space.id = spaceId then { space with revision := some rev } else space := by
    rw [updateSpaceRevision, List.find?_map]
    congr 2
    funext space
    simp only [Function.comp_apply]
    split <;> rfl
  cases found : s.spaces.find? (·.id = spaceId) with
  | none => exact absurd (by simpa using here) (List.find?_eq_none.mp found space mem)
  | some first =>
    have id : first.id = spaceId := by simpa using List.find?_some found
    rw [revisionOf, moved, found]
    simp [id]

theorem SpaceStore.revisionOf_resolveSpace {ref : String} {space : HostedSpace}
    (ids : (s.spaces.map (·.id)).Nodup) (read : s.resolveSpace ref = .ok space) :
    s.revisionOf space.id = space.revision := by
  obtain ⟨uri, -, h⟩ := bind_eq_ok.mp read
  obtain ⟨found, held, last⟩ := bind_eq_ok.mp h
  obtain ⟨-, -, same⟩ := bind_eq_ok.mp last
  cases same
  have mem := List.mem_of_find?_eq_some (require_eq_ok.mp held)
  cases first : s.spaces.find? (·.id = space.id) with
  | none => exact absurd (by simp) (List.find?_eq_none.mp first space mem)
  | some other =>
    have id : other.id = space.id := by simpa using List.find?_some first
    have same : other = space :=
      List.inj_on_of_nodup_map ids (List.mem_of_find?_eq_some first) mem id
    rw [revisionOf, first, same]
    rfl

end Revision

/-! ## Runs -/

theorem revisions_concat (start : Option String) (log : List CommittedCall)
    (entry : CommittedCall) :
    revisions start (log ++ [entry]) = revisions start log ++ [entry.rev] := by
  simp [revisions]

theorem length_revisions (start : Option String) (log : List CommittedCall) :
    (revisions start log).length = log.length + 1 := by
  simp [revisions]

theorem revisions_mono {start : Option String} {log : List CommittedCall} {entry : CommittedCall}
    {time : Nat} {rev : String} (h : (revisions start log)[time]? = some rev) :
    (revisions start (log ++ [entry]))[time]? = some rev := by
  rw [revisions_concat, List.getElem?_append_left (List.getElem?_eq_some_iff.mp h).1, h]

structure Desk.Inv (start : SpaceStore) (spaceId : String) (d : Desk) : Prop where
  ids : d.store.spaces.map (·.id) = start.spaces.map (·.id)
  current : (revisions (start.revisionOf spaceId) d.log)[d.log.length]? =
    some ((d.store.revisionOf spaceId).getD "")
  read : ∀ id (flight : Flight), d.flights.lookup id = some flight →
    flight.space.id = spaceId ∧ (revisions (start.revisionOf spaceId) d.log)[flight.readAt]? =
      some (flight.space.revision.getD "")
  compared : ∀ id (flight : Flight), d.flights.lookup id = some flight → flight.admitted →
    ∀ value, flight.call.swapCommit = some value → flight.space.revision.getD "" = value
  logged : ∀ (i : Nat) (entry : CommittedCall), d.log[i]? = some entry →
    ∀ value, entry.swapCommit = some value →
      entry.readAt ≤ i ∧ (revisions (start.revisionOf spaceId) d.log)[entry.readAt]? = some value

theorem compared_of_writesHere {call : WriteCall} {s : SpaceStore} {space : HostedSpace}
    (h : call.writesHere s space = .ok true) {value : String}
    (swap : call.swapCommit = some value) : space.revision.getD "" = value := by
  obtain ⟨-, -, h⟩ := bind_eq_ok.mp h
  obtain ⟨-, -, h⟩ := bind_eq_ok.mp h
  dsimp only at h
  split at h
  · obtain ⟨⟨⟩, passed, -⟩ := bind_eq_ok.mp h
    rw [swap] at passed
    exact checkSwapCommit_eq_ok.mp passed
  · cases h

section Runs

variable {crypto : Crypto} {backend : Writers.DatabaseBackend} {start : SpaceStore}
  {spaceId : String}

theorem Desk.Inv.advance {d : Desk} (inv : d.Inv start spaceId)
    (hosted : spaceId ∈ start.spaces.map (·.id)) {store : SpaceStore}
    {flights : AList fun _ : Nat => Flight} {holder : Option Nat} {entry : CommittedCall}
    (spaces : store.spaces = (d.store.updateSpaceRevision spaceId entry.rev).spaces)
    (kept : ∀ id flight, flights.lookup id = some flight → d.flights.lookup id = some flight)
    (right : ∀ value, entry.swapCommit = some value → entry.readAt ≤ d.log.length ∧
      (revisions (start.revisionOf spaceId) d.log)[entry.readAt]? = some value) :
    Desk.Inv start spaceId ⟨store, flights, holder, d.log ++ [entry]⟩ where
  ids := by rw [spaces, SpaceStore.ids_updateSpaceRevision, inv.ids]
  current := by
    have moved : store.revisionOf spaceId = some entry.rev := by
      rw [SpaceStore.revisionOf, spaces]
      exact SpaceStore.revisionOf_updateSpaceRevision (inv.ids ▸ hosted)
    have last : (d.log ++ [entry]).length =
        (revisions (start.revisionOf spaceId) d.log).length := by
      rw [length_revisions, List.length_append, List.length_singleton]
    rw [moved, revisions_concat, last, List.getElem?_concat_length, Option.getD_some]
  read id flight held :=
    ⟨(inv.read id flight (kept id flight held)).1,
      revisions_mono (inv.read id flight (kept id flight held)).2⟩
  compared id flight held := inv.compared id flight (kept id flight held)
  logged i found held value swap := by
    rcases Nat.lt_or_ge i d.log.length with old | new
    · rw [List.getElem?_append_left old] at held
      obtain ⟨before, read⟩ := inv.logged i found held value swap
      exact ⟨before, revisions_mono read⟩
    · have last : i = d.log.length := by
        have := (List.getElem?_eq_some_iff.mp held).1
        rw [List.length_append, List.length_singleton] at this
        omega
      subst last
      simp only [List.getElem?_concat_length, Option.some.injEq] at held
      subst held
      exact ⟨(right value swap).1, revisions_mono (right value swap).2⟩

theorem Desk.Inv.step {d d' : Desk} (ids : (start.spaces.map (·.id)).Nodup)
    (hosted : spaceId ∈ start.spaces.map (·.id)) (inv : d.Inv start spaceId)
    (moves : Moves crypto backend spaceId d d') : d'.Inv start spaceId := by
  cases moves with
  | @resolve id call space read here new =>
    have now : (revisions (start.revisionOf spaceId) d.log)[d.log.length]? =
        some (space.revision.getD "") := by
      rw [inv.current, ← here, SpaceStore.revisionOf_resolveSpace (inv.ids ▸ ids) read]
    refine ⟨inv.ids, inv.current, fun other flight held => ?_, fun other flight held => ?_,
      inv.logged⟩
    · rcases lookup_insert_cases held with ⟨-, rfl⟩ | held
      · exact ⟨here, now⟩
      · exact inv.read other flight held
    · rcases lookup_insert_cases held with ⟨-, rfl⟩ | held
      · simp
      · exact inv.compared other flight held
  | @check id flight held passed =>
    refine ⟨inv.ids, inv.current, fun other found held' => ?_, fun other found held' => ?_,
      inv.logged⟩
    · rcases lookup_insert_cases held' with ⟨-, rfl⟩ | held'
      · exact inv.read id flight held
      · exact inv.read other found held'
    · rcases lookup_insert_cases held' with ⟨-, rfl⟩ | held'
      · exact fun _ value swap => compared_of_writesHere passed swap
      · exact inv.compared other found held'
  | lock => exact ⟨inv.ids, inv.current, inv.read, inv.compared, inv.logged⟩
  | @commit id flight store held admitted locked wrote =>
    obtain ⟨here, read⟩ := inv.read id flight held
    refine inv.advance hosted ?_ (fun _ _ held => (lookup_erase_some held).2) fun value swap => ?_
    · rw [SpaceStore.transact_spaces wrote, here]
      rfl
    · have bound := (List.getElem?_eq_some_iff.mp read).1
      rw [length_revisions] at bound
      exact ⟨Nat.lt_succ_iff.mp bound, inv.compared id flight held admitted value swap ▸ read⟩
  | @leave id =>
    exact ⟨inv.ids, inv.current, fun other flight held => inv.read other flight
      (lookup_erase_some held).2, fun other flight held => inv.compared other flight
      (lookup_erase_some held).2, inv.logged⟩
  | repair => exact inv.advance hosted rfl (fun _ _ => id) (by simp)

/-- In every run on one space, if its revisions are distinct: `swapCommit` is a
compare-and-swap exactly when no write commits between the read of the space by a call with
a `swapCommit` and the call's own commit. -/
theorem swapCommit_iff (crypto : Crypto) (backend : Writers.DatabaseBackend) (start : SpaceStore)
    (spaceId : String) (ids : (start.spaces.map (·.id)).Nodup)
    (hosted : spaceId ∈ start.spaces.map (·.id)) (actions : List CallAction) (d : Desk)
    (run : (Desk.machine crypto backend spaceId start).run actions = some d)
    (distinct : (revisions (start.revisionOf spaceId) d.log).Nodup) :
    SwapSafe (start.revisionOf spaceId) d.log ↔ InTurn d.log := by
  have inv : d.Inv start spaceId := by
    refine Machine.induct (P := fun _ d => d.Inv start spaceId) ?_ ?_ run
    · exact ⟨rfl, rfl, by simp [Desk.machine], by simp [Desk.machine], by simp [Desk.machine]⟩
    · exact fun _ d _ d' inv step => inv.step ids hosted (Desk.step_moves _ _ _ step)
  constructor
  · intro safe i entry held swaps
    obtain ⟨value, swap⟩ := Option.isSome_iff_exists.mp swaps
    obtain ⟨before, read⟩ := inv.logged i entry held value swap
    have last := safe.unchanged i entry value held swap i before le_rfl
    exact (List.getElem?_inj (List.getElem?_eq_some_iff.mp read).1 distinct).mp
      (read.trans last.symm)
  · intro turn
    have compared (i : Nat) (entry : CommittedCall) (value : String) (held : d.log[i]? = some entry)
        (swap : entry.swapCommit = some value) :
        (revisions (start.revisionOf spaceId) d.log)[i]? = some value := by
      have read := (inv.logged i entry held value swap).2
      rwa [turn i entry held (by simp [swap])] at read
    refine ⟨fun i j a b ha hb swaps same => ?_, fun i entry value held swap time after before => ?_⟩
    · obtain ⟨value, swap⟩ := Option.isSome_iff_exists.mp swaps
      have first := compared i a value ha swap
      have second := compared j b value hb (same ▸ swap)
      exact (List.getElem?_inj (List.getElem?_eq_some_iff.mp first).1 distinct).mp
        (first.trans second.symm)
    · have now : time = i := by
        rw [turn i entry held (by simp [swap])] at after
        omega
      rw [now]
      exact compared i entry value held swap

end Runs

/-- A batch of one record, under the `swapCommit` given. -/
def swapCall (swapCommit rkey rev : String) : WriteCall :=
  applyWrites forumMember "at://did:plc:s/space/app.forum/main"
    (some swapCommit) [.create "app.note" rkey "x"] ⟨rev, 0, "2222222222222", []⟩

def swapMachine : Machine Desk CallAction := Desk.machine joinedCrypto .postgres "s1" forumStore

def swapsTogether : List CallAction :=
  [.resolve 1 (swapCall "" "1" "2222222222222"), .resolve 2 (swapCall "" "2" "2222222222223"),
    .check 1, .check 2, .lock 1, .commit 1, .lock 2, .commit 2]

/-- Both commit, with one `swapCommit`. -/
theorem swapCommit_twice :
    ∃ d, swapMachine.run swapsTogether = some d ∧
      ¬ SwapSafe (forumStore.revisionOf "s1") d.log := by
  have both : (swapMachine.run swapsTogether).any (fun d => decide
      (d.log = [⟨some "did:plc:a", "2222222222222", some "", 0⟩,
        ⟨some "did:plc:a", "2222222222223", some "", 0⟩])) = true := by
    decide +kernel
  obtain ⟨d, run, log⟩ := (Option.any_eq_true _ _).mp both
  have log := of_decide_eq_true log
  refine ⟨d, run, fun safe => ?_⟩
  rw [log] at safe
  have same := safe.once 0 1 ⟨some "did:plc:a", "2222222222222", some "", 0⟩
    ⟨some "did:plc:a", "2222222222223", some "", 0⟩ rfl rfl rfl rfl
  omega

def swapsInTurn : List CallAction :=
  [.resolve 1 (swapCall "" "1" "2222222222222"), .check 1, .lock 1, .commit 1,
    .resolve 2 (swapCall "2222222222222" "2" "2222222222223"), .check 2, .lock 2, .commit 2]

theorem swapCommit_inTurn :
    ∃ d, swapMachine.run swapsInTurn = some d ∧ SwapSafe (forumStore.revisionOf "s1") d.log := by
  have both : (swapMachine.run swapsInTurn).any (fun d => decide
      (d.log = [⟨some "did:plc:a", "2222222222222", some "", 0⟩,
        ⟨some "did:plc:a", "2222222222223", some "2222222222222", 1⟩])) = true := by
    decide +kernel
  obtain ⟨d, run, log⟩ := (Option.any_eq_true _ _).mp both
  have log := of_decide_eq_true log
  refine ⟨d, run, (swapCommit_iff joinedCrypto .postgres forumStore "s1" (by decide) (by decide)
    swapsInTurn d run ?_).mpr ?_⟩
  · rw [log]
    decide +kernel
  · intro i entry held _
    rw [log] at held
    match i with
    | 0 | 1 => cases held; rfl
    | i + 2 => simp at held

end HappyView.Spaces
