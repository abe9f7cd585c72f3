import HappyView.Spaces.SyncInvariant

/-!
# When a sync ends with the host's records

A run that is alone from its start to its end, against a host that does not change, ends
with the host's records in the index whenever it does not fail (`Solo`). What came before
need only have kept the invariant: runs one at a time do, wherever they fail, and so do
overlapping runs as long as each operation is applied by the run that was the last to finish
listing.

A run that is overtaken may undo what a later listing has applied.
-/

namespace HappyView.Spaces.SyncDesk

open HappyView.Foundation

variable (crypto : Crypto) (backend : Writers.DatabaseBackend) (space : Space) (did : String)

/-- The index has the host's records and no others. -/
def Agrees (m : SyncDesk) : Prop :=
  ∀ r, r ∈ m.store.indexedRecords space.id did ↔ r ∈ hostRecords m.host

/-- A store to start from: the repo is native, and its index is what the host had at the saved
cursor, which is nothing if there is none. -/
structure Starts (store : SpaceStore) (host : List HostCommit) : Prop where
  honest : Honest host
  placed : store.Placed space did
  native : (store.getOrCreateRepoState space.id did).hostMode = .native
  issued : ∀ rev ∈ (store.getOrCreateRepoState space.id did).syncCursor,
    ∃ commit ∈ host, commit.rev = rev
  index : ∀ r, r ∈ store.indexedRecords space.id did ↔ r ∈ hostRecords
    (Paging.upTo HostCommit.rev (store.getOrCreateRepoState space.id did).syncCursor host)

section

variable {crypto : Crypto} {backend : Writers.DatabaseBackend} {space : Space} {did : String}
  {m m' : SyncDesk} {n best : Nat}

theorem Starts.inv {store : SpaceStore} {host : List HostCommit}
    (starts : Starts space did store host) :
    ∃ best, Inv space did (machine crypto backend space did store host).start best := by
  let cursor := (store.getOrCreateRepoState space.id did).syncCursor
  let seen := Paging.upTo HostCommit.rev cursor host
  have whole : seen ++ Paging.after HostCommit.rev cursor host = host :=
    Paging.upTo_append_after starts.honest.1
  have cut : Cut host cursor seen.length := by
    refine ⟨?_, ?_, starts.issued⟩
    · simpa using congrArg List.length whole.symm |>.ge.trans' (by simp)
    · nth_rewrite 2 [← whole]
      rw [List.take_left]
  have same : ∀ key, store.indexedAt space did key =
      (KeyedLog.current (hostLog seen)).lookup key := by
    intro key
    refine Option.ext fun value => ?_
    have := starts.index ⟨key.1, key.2, value.1, value.2⟩
    rwa [starts.placed.mem_indexedRecords, mem_hostRecords] at this
  refine ⟨seen.length, starts.honest, starts.placed, starts.native, cut.le, ⟨_, le_rfl, cut⟩, ?_,
    by simp [machine], by simp [machine]⟩
  intro key settled
  have taken : (hostLog host).take seen.length = hostLog seen := by
    rw [hostLog, ← List.map_take, ← cut.upTo]
    rfl
  calc store.indexedAt space did key
    _ = (KeyedLog.current ((hostLog host).take seen.length)).lookup key := by rw [taken, same]
    _ = (KeyedLog.current (hostLog host)).lookup key := settled.lookup_take

theorem Inv.agrees (inv : Inv space did m best) (all : Mirrors space did m m.host.length) :
    Agrees space did m := by
  have length : (hostLog m.host).length = m.host.length := by simp [hostLog]
  unfold Mirrors at all
  rw [← length] at all
  exact indexedRecords_iff inv.placed (KeyedLog.mirrors_length.mp all)

theorem Inv.fold_eq (inv : Inv space did m best) (agrees : Agrees space did m) :
    crypto.sha256 (m.fold crypto space did).asBytes =
      setDigest crypto ((hostRecords m.host).map RepoRecord.version) := by
  have sorted : (m.store.listAllSpaceRecords space.id did).Perm
      (m.store.authorRecords space.id did) := List.perm_insertionSort _ _
  have same : (m.store.indexedRecords space.id did).Perm (hostRecords m.host) :=
    (List.perm_ext_iff_of_nodup inv.placed.nodup_indexedRecords (nodup_hostRecords _)).mpr agrees
  have versions : ((m.store.listAllSpaceRecords space.id did).map SpaceRecord.version).Perm
      ((hostRecords m.host).map RepoRecord.version) := by
    refine (sorted.map _).trans ?_
    have mapped := same.map RepoRecord.version
    rwa [SpaceStore.indexedRecords, List.map_map] at mapped
  exact congrArg (fun state : LtHashState => crypto.sha256 state.asBytes)
    (foldElements_perm versions)

/-! ## One run alone -/

variable (crypto space did)

/-- How far run `n` has got against a host that has not changed since it listed. -/
def SoloPhase (m : SyncDesk) (n : Nat) : SyncPhase → Prop
  | .listing .. => True
  | .applying window _ => window.readTo = m.host.length ∧ m.latest = some (n, m.host.length)
  | .fetched window commit => window.readTo = m.host.length ∧
      commit.hash = setDigest crypto ((hostRecords m.host).map RepoRecord.version)
  | .agreed window .. | .saving window .. => window.readTo = m.host.length

def SyncOutcome.Caught : SyncOutcome → Prop
  | .upToDate | .applied .. => True
  | .notNative | .diverged .. => False

structure Solo (m : SyncDesk) (n : Nat) : Prop where
  inv : ∃ best, Inv space did m best
  phase : ∀ phase, m.runs.lookup n = some phase → SoloPhase crypto m n phase
  ended : ∀ outcome, (n, some outcome) ∈ m.ended →
    m.runs.lookup n = none ∧ Mirrors space did m m.host.length ∧ SyncOutcome.Caught outcome

variable {crypto space did}

theorem Solo.active (solo : Solo crypto space did m n) {phase : SyncPhase}
    (held : m.runs.lookup n = some phase) (outcome : SyncOutcome) :
    (n, some outcome) ∉ m.ended := by
  intro returned
  have none := (solo.ended outcome returned).1
  rw [held] at none
  cases none

theorem Solo.failed (solo : Solo crypto space did m n) {phase : SyncPhase}
    (held : m.runs.lookup n = some phase) : Solo crypto space did (m.finish n none) n := by
  obtain ⟨best, inv⟩ := solo.inv
  refine ⟨⟨best, inv.finish n none⟩, ?_, ?_⟩
  · intro phase found
    exact absurd rfl (lookup_erase_some found).1
  · intro outcome returned
    have returned : (n, some outcome) ∈ m.ended := by simpa [finish] using returned
    exact absurd returned (solo.active held outcome)

theorem Solo.proceeds {phase phase' : SyncPhase} (solo : Solo crypto space did m n)
    (held : m.runs.lookup n = some phase) (inv : ∃ best, Inv space did m' best)
    (runs : m'.runs = m.runs.insert n phase') (ended : m'.ended = m.ended)
    (new : SoloPhase crypto m' n phase') : Solo crypto space did m' n := by
  refine ⟨inv, ?_, ?_⟩
  · intro found here
    rw [runs, AList.lookup_insert] at here
    cases here
    exact new
  · intro outcome returned
    rw [ended] at returned
    exact absurd returned (solo.active held outcome)

theorem Solo.finishes {phase : SyncPhase} {outcome : SyncOutcome}
    (solo : Solo crypto space did m n) (held : m.runs.lookup n = some phase)
    (inv : ∃ best, Inv space did m' best) (runs : m'.runs = m.runs.erase n)
    (ended : m'.ended = (n, some outcome) :: m.ended)
    (all : Mirrors space did m' m'.host.length) (caught : SyncOutcome.Caught outcome) :
    Solo crypto space did m' n := by
  have gone : m'.runs.lookup n = none := by rw [runs, AList.lookup_erase]
  refine ⟨inv, ?_, ?_⟩
  · intro phase here
    rw [gone] at here
    cases here
  · intro other returned
    rw [ended, List.mem_cons] at returned
    rcases returned with same | returned
    · cases same
      exact ⟨gone, all, caught⟩
    · exact absurd returned (solo.active held other)

theorem Cut.length_le {host : List HostCommit} {since : Option String} {k : Nat}
    (honest : Honest host) (cut : Cut host since k) (none : entriesSince host since = []) :
    host.length ≤ k := by
  rw [cut.entriesSince_eq honest, List.flatMap_eq_nil_iff] at none
  by_contra short
  obtain ⟨commit, rest, more⟩ := List.exists_cons_of_ne_nil
    (show host.drop k ≠ [] by simpa using short)
  have mem : commit ∈ host.drop k := by simp [more]
  exact (honest.2 commit (List.mem_of_mem_drop mem)).some (none commit mem)

theorem Solo.listed {since : Option String} {got ops : List RepoOp}
    (solo : Solo crypto space did m n) (held : m.runs.lookup n = some (.listing since got))
    (listed : Listed m.host since ops)
    (whole : (entriesSince m.host since).length ≤ ops.length) :
    Solo crypto space did (m.listed n ops) n := by
  obtain ⟨best, inv⟩ := solo.inv
  obtain ⟨cut, -⟩ := inv.runs n _ held
  have inv' : Inv space did (m.listed n ops) best := inv.listed cut listed whole
  unfold SyncDesk.listed at inv' ⊢
  cases last : ops.getLast? with
  | none =>
    obtain ⟨k, le, cut⟩ := cut
    have nothing : entriesSince m.host since = [] := by
      simpa [List.getLast?_eq_none_iff.mp last] using whole
    have all : m.host.length ≤ best := (Cut.length_le inv.honest cut nothing).trans le
    rw [last] at inv'
    exact solo.finishes held ⟨best, inv'⟩ rfl rfl (inv.mirrors.mono all) trivial
  | some op =>
    rw [last] at inv'
    exact solo.proceeds held ⟨best, inv'⟩ rfl rfl ⟨rfl, rfl⟩

theorem Solo.step {action : SyncAction} (solo : Solo crypto space did m n)
    (own : action.run = some n) (step : Step crypto backend space did m action m') :
    Solo crypto space did m' n := by
  obtain ⟨best, inv⟩ := solo.inv
  cases step with
  | host later valid => cases own
  | start free new =>
    cases own
    have inv' := inv.start n
    unfold begin at inv' ⊢
    rw [if_pos inv.native] at inv' ⊢
    refine ⟨⟨best, inv'⟩, ?_, ?_⟩
    · intro phase here
      rw [proceed, AList.lookup_insert] at here
      cases here
      trivial
    · intro outcome returned
      exact absurd (List.mem_map_of_mem (f := Prod.fst) returned) new
  | failed own' held =>
    cases Option.some.inj (own'.symm.trans own)
    exact solo.failed held
  | page held next =>
    cases own
    obtain ⟨cut, listed⟩ := inv.runs n _ held
    exact solo.proceeds held ⟨best, inv.proceed ⟨cut, next.listed listed⟩⟩ rfl rfl trivial
  | lastPage held next all =>
    cases own
    obtain ⟨-, listed⟩ := inv.runs n _ held
    exact solo.listed held (next.listed listed) (next.length_le all)
  | apply held applied =>
    cases own
    obtain ⟨last, latest⟩ := solo.phase _ held
    have turn : m.latest.map Prod.fst = some n := by rw [latest]; rfl
    exact solo.proceeds held ⟨best, inv.apply turn held applied⟩ rfl rfl ⟨last, latest⟩
  | commit held latest =>
    cases own
    obtain ⟨known, done, -⟩ := inv.runs n _ held
    obtain ⟨last, -⟩ := solo.phase _ held
    refine solo.proceeds held ⟨best, inv.proceed ⟨known, done rfl⟩⟩ rfl rfl ⟨last, ?_⟩
    obtain ⟨commit, -, rfl⟩ := Option.map_eq_some_iff.mp latest
    dsimp only
    split <;> rfl
  | check held =>
    cases own
    obtain ⟨last, hash⟩ := solo.phase _ held
    obtain ⟨-, mirrors⟩ := inv.runs n _ held
    have agrees := inv.agrees (last ▸ mirrors)
    have inv' : Inv space did (m.check crypto space did n _ _) best := inv.check held
    -- The commit is that of the records the run has just applied.
    unfold SyncDesk.check at inv' ⊢
    simp only [hash, inv.fold_eq agrees, ne_eq, not_true_eq_false, if_false] at inv' ⊢
    exact solo.proceeds held ⟨best, inv'⟩ rfl rfl last
  | reread held =>
    cases own
    exact solo.proceeds held ⟨best, inv.reread held⟩ rfl rfl (solo.phase _ held)
  | save held =>
    cases own
    have last := solo.phase _ held
    obtain ⟨-, mirrors, -⟩ := inv.runs n _ held
    refine solo.finishes held ⟨_, inv.save held⟩ rfl rfl ?_ trivial
    exact last ▸ mirrors

theorem agrees_of_alone {start : SyncDesk} {last : List SyncAction} {outcome : SyncOutcome}
    {store : SpaceStore} {host : List HostCommit} (inv : ∃ best, Inv space did start best)
    (own : ∀ action ∈ last, action.run = some n)
    (run : (machine crypto backend space did store host).runFrom start (.start n :: last) = some m)
    (returned : (n, some outcome) ∈ m.ended) : Agrees space did m ∧ SyncOutcome.Caught outcome := by
  have alone : Solo crypto space did start n := by
    obtain ⟨first, started, -⟩ := Machine.runFrom_cons.mp run
    obtain ⟨⟨free, new⟩, -⟩ := Option.ite_none_right_eq_some.mp started
    refine ⟨inv, ?_, ?_⟩
    · intro phase held
      rw [free] at held
      cases held
    · intro outcome returned
      exact absurd (List.mem_map_of_mem (f := Prod.fst) returned) new
  have owned : (machine crypto backend space did store host).AlongFrom
      (fun _ action => action.run = some n) start (.start n :: last) := by
    refine Machine.alongFrom_of_forall ?_ start
    intro action mem _
    rcases List.mem_cons.mp mem with rfl | mem
    · rfl
    · exact own action mem
  have solo : Solo crypto space did m n :=
    Machine.induct_alongFrom (P := (Solo crypto space did · n))
      (fun s action t solo own step => solo.step own (step_cases step)) alone owned run
  obtain ⟨-, all, caught⟩ := solo.ended outcome returned
  obtain ⟨best, inv⟩ := solo.inv
  exact ⟨inv.agrees all, caught⟩

end

/-! ## Runs one at a time -/

/-- A run starts only when no other is on its way. -/
def OneAtATime (m : SyncDesk) : SyncAction → Prop
  | .start _ => m.runs.keys = []
  | _ => True

instance (m : SyncDesk) : ∀ action, Decidable (OneAtATime m action)
  | .start _ => inferInstanceAs (Decidable (_ = _))
  | .host _ | .page .. | .apply _ | .commit .. | .check _ | .reread _ | .save _ | .fail _ =>
    .isTrue trivial

/-- A commit that the host has issued: it describes the records after some write. -/
def Issued (host : List HostCommit) (commit : VerifiedCommit) : Prop :=
  ∃ written, written <+: host ∧ written.getLast?.map HostCommit.rev = some commit.rev ∧
    commit.hash = setDigest crypto ((hostRecords written).map RepoRecord.version)

/-- The commit of a run is the host's, and a run that goes on from its check does so with the
hash of the index. -/
def Verified (m : SyncDesk) : SyncPhase → Prop
  | .listing .. | .applying .. => True
  | .fetched _ commit => Issued crypto m.host commit
  | .agreed _ commit fold | .saving _ commit fold _ =>
    Issued crypto m.host commit ∧ commit.hash = crypto.sha256 fold.asBytes ∧
      fold = m.fold crypto space did

structure Alone (m : SyncDesk) : Prop where
  one : ∀ id phase, m.runs.lookup id = some phase →
    ∀ other, other ≠ id → m.runs.lookup other = none
  turn : ∀ id window pending, m.runs.lookup id = some (.applying window pending) →
    m.latest.map Prod.fst = some id
  verified : ∀ id phase, m.runs.lookup id = some phase → Verified crypto space did m phase

section

variable {crypto : Crypto} {backend : Writers.DatabaseBackend} {space : Space} {did : String}
  {m m' : SyncDesk} {id best : Nat} {phase : SyncPhase}

theorem Alone.proceeds (others : ∀ other, other ≠ id → m.runs.lookup other = none)
    (runs : m'.runs = m.runs.insert id phase)
    (turn : ∀ window pending, phase = .applying window pending →
      m'.latest.map Prod.fst = some id)
    (verified : Verified crypto space did m' phase) : Alone crypto space did m' := by
  have only {other : Nat} {found : SyncPhase} (held : m'.runs.lookup other = some found) :
      other = id ∧ found = phase := by
    rw [runs] at held
    by_cases own : other = id
    · subst own
      rw [AList.lookup_insert] at held
      exact ⟨rfl, (Option.some.inj held).symm⟩
    · rw [AList.lookup_insert_ne own, others other own] at held
      cases held
  refine ⟨?_, ?_, ?_⟩
  · intro other found held another distinct
    obtain ⟨rfl, -⟩ := only held
    rw [runs, AList.lookup_insert_ne distinct]
    exact others another distinct
  · intro other window pending held
    obtain ⟨rfl, same⟩ := only held
    exact turn window pending same.symm
  · intro other found held
    obtain ⟨-, rfl⟩ := only held
    exact verified

theorem Alone.finishes (others : ∀ other, other ≠ id → m.runs.lookup other = none)
    (runs : m'.runs = m.runs.erase id) : Alone crypto space did m' := by
  have none (other : Nat) (found : SyncPhase) (held : m'.runs.lookup other = some found) :
      False := by
    rw [runs] at held
    obtain ⟨distinct, held⟩ := lookup_erase_some held
    rw [others other distinct] at held
    cases held
  exact ⟨fun other found held => (none other found held).elim,
    fun other _ _ held => (none other _ held).elim,
    fun other found held => (none other found held).elim⟩

theorem Issued.append {host : List HostCommit} {commit : VerifiedCommit} (new : HostCommit)
    (issued : Issued crypto host commit) : Issued crypto (host ++ [new]) commit := by
  obtain ⟨written, part, rev, hash⟩ := issued
  exact ⟨written, part.trans (List.prefix_append host [new]), rev, hash⟩

theorem latestCommit_issued {host : List HostCommit} {commit : VerifiedCommit}
    {signature : Option (List UInt8 × List UInt8 × List UInt8)}
    (latest : latestCommit crypto host signature = some commit) : Issued crypto host commit := by
  obtain ⟨last, isLast, rfl⟩ := Option.map_eq_some_iff.mp latest
  refine ⟨host, List.prefix_refl host, ?_, ?_⟩
  · rw [isLast]
    dsimp only
    split <;> rfl
  · dsimp only
    split <;> rfl

theorem Alone.step {action : SyncAction} (alone : Alone crypto space did m)
    (inv : Inv space did m best) (ok : OneAtATime m action)
    (step : Step crypto backend space did m action m') : Alone crypto space did m' := by
  cases step with
  | @host commit later valid =>
    refine ⟨alone.one, alone.turn, fun id phase held => ?_⟩
    have before := alone.verified id phase held
    cases phase with
    | listing _ _ | applying _ _ => trivial
    | fetched _ _ => exact Issued.append commit before
    | agreed _ _ _ | saving _ _ _ _ => exact ⟨Issued.append commit before.1, before.2⟩
  | @start id free new =>
    have none (other : Nat) (_ : other ≠ id) : m.runs.lookup other = none := by
      rw [AList.lookup_eq_none, AList.mem_keys, show m.runs.keys = [] from ok]
      exact List.not_mem_nil
    unfold begin
    rw [if_pos inv.native]
    exact Alone.proceeds none rfl (by simp) trivial
  | failed own held => exact Alone.finishes (alone.one _ _ held) rfl
  | page held next => exact Alone.proceeds (alone.one _ _ held) rfl (by simp) trivial
  | lastPage held next all =>
    unfold SyncDesk.listed
    split
    · exact Alone.finishes (alone.one _ _ held) rfl
    · exact Alone.proceeds (alone.one _ _ held) rfl (fun _ _ _ => rfl) trivial
  | apply held applied =>
    refine Alone.proceeds (alone.one _ _ held) rfl (fun _ _ _ => ?_) trivial
    exact alone.turn _ _ _ held
  | commit held latest =>
    exact Alone.proceeds (alone.one _ _ held) rfl (by simp) (latestCommit_issued latest)
  | check held =>
    simp only [check]
    split
    · exact Alone.finishes (alone.one _ _ held) rfl
    · rename_i same
      refine Alone.proceeds (alone.one _ _ held) rfl (by simp) ?_
      exact ⟨alone.verified _ _ held, not_not.mp same, rfl⟩
  | reread held =>
    rw [inv.created_eq]
    exact Alone.proceeds (alone.one _ _ held) rfl (by simp) (alone.verified _ _ held)
  | save held => exact Alone.finishes (alone.one _ _ held) rfl

theorem alone_run {store : SpaceStore} {host : List HostCommit} {actions : List SyncAction}
    (starts : Starts space did store host)
    (turns : (machine crypto backend space did store host).Along OneAtATime actions)
    (run : (machine crypto backend space did store host).run actions = some m) :
    (∃ best, Inv space did m best) ∧ Alone crypto space did m := by
  refine Machine.induct_along
    (P := fun m => (∃ best, Inv space did m best) ∧ Alone crypto space did m) ?_ ?_ turns run
  · exact ⟨starts.inv, by simp [machine], by simp [machine], by simp [machine]⟩
  · rintro m action m' ⟨⟨best, inv⟩, alone⟩ ok step
    have step := step_cases step
    refine ⟨inv.step ?_ step, alone.step inv ok step⟩
    exact fun id window pending _ held => alone.turn id window pending held

theorem cursor_moved {action : SyncAction} (inv : Inv space did m best)
    (step : Step crypto backend space did m action m')
    (moved : m'.cursor space did ≠ m.cursor space did) :
    ∃ id window commit fold row, action = .save id ∧
      m.runs.lookup id = some (.saving window commit fold row) ∧
      m'.cursor space did = some window.lastRev := by
  cases step with
  | host later valid => exact absurd rfl moved
  | start free new =>
    refine absurd ?_ moved
    unfold begin
    rw [if_pos inv.native, inv.created_eq]
    rfl
  | failed own held => exact absurd rfl moved
  | page held next => exact absurd rfl moved
  | lastPage held next all =>
    refine absurd ?_ moved
    unfold SyncDesk.listed
    split <;> rfl
  | apply held applied =>
    refine absurd ?_ moved
    unfold cursor SpaceStore.getOrCreateRepoState SpaceStore.readRepoState
    rw [applyRepoOp_repoStates applied]
  | commit held latest => exact absurd rfl moved
  | check held =>
    refine absurd ?_ moved
    simp only [check]
    split <;> rfl
  | reread held =>
    refine absurd ?_ moved
    rw [inv.created_eq]
    rfl
  | @save id window commit fold row held =>
    refine ⟨id, window, commit, fold, row, rfl, held, ?_⟩
    simp [SyncDesk.save, finish, cursor, SpaceStore.getOrCreateRepoState,
      SpaceStore.readRepoState, SpaceStore.updateRepoState, adopt_syncCursor]

end

/-- Runs one at a time, wherever they fail: if the last one ends without an error and the host
does not change meanwhile, the index has the host's records. The cursor moves only when the
hash of the index is that of a commit of the host. -/
theorem sync_converges (store : SpaceStore) (host : List HostCommit)
    (starts : Starts space did store host) (actions : List SyncAction) (m : SyncDesk)
    (turns : (machine crypto backend space did store host).Along OneAtATime actions)
    (run : (machine crypto backend space did store host).run actions = some m) :
    (∀ before n last outcome, actions = before ++ .start n :: last →
      (∀ action ∈ last, action.run = some n) → (n, some outcome) ∈ m.ended →
      Agrees space did m ∧ SyncOutcome.Caught outcome) ∧
    ∀ action m', step crypto backend space did m action = some m' →
      m'.cursor space did ≠ m.cursor space did →
      ∃ id window commit fold row, action = .save id ∧
        m.runs.lookup id = some (.saving window commit fold row) ∧
        m'.cursor space did = some window.lastRev ∧ Issued crypto m.host commit ∧
        commit.hash = crypto.sha256 (m.fold crypto space did).asBytes := by
  obtain ⟨⟨best, inv⟩, alone⟩ := alone_run starts turns run
  constructor
  · rintro before n last outcome rfl own returned
    obtain ⟨mid, first, rest⟩ := Machine.runFrom_append.mp run
    have before := (alone_run starts (Machine.alongFrom_append turns) first).1
    exact agrees_of_alone before own rest returned
  · intro action m' step moved
    obtain ⟨id, window, commit, fold, row, act, held, cursor⟩ :=
      cursor_moved inv (step_cases step) moved
    obtain ⟨issued, hash, rfl⟩ := alone.verified id _ held
    exact ⟨id, window, commit, _, row, act, held, cursor, issued, hash⟩

/-! ## A repo of one note -/

def forumSpace : Space := ⟨"s1", "did:plc:s", "app.forum", "main", none⟩

def nativeStore : SpaceStore :=
  forumStore.updateRepoState "s1" "did:plc:a" { RepoState.created with hostMode := .native }

def noteCreated : HostCommit := ⟨"r1", [⟨"r1", "app.note", "1", some "x", none, some "x"⟩]⟩

def noteDeleted : HostCommit := ⟨"r2", [⟨"r2", "app.note", "1", none, some "x", none⟩]⟩

def noteMachine : Machine SyncDesk SyncAction :=
  machine Migration.shortCrypto .sqlite forumSpace "did:plc:a" nativeStore []

def syncRun (id : Nat) : List SyncAction :=
  [.page id 10 false false, .apply id, .commit id none, .check id, .reread id, .save id]

theorem nativeStore_starts : Starts forumSpace "did:plc:a" nativeStore [] where
  honest := ⟨by simp [Paging.Ascending], by simp⟩
  placed := by
    have none (uri : String) : nativeStore.records.lookup uri = none := rfl
    exact ⟨by simp [none], by simp [none]⟩
  native := by decide +kernel
  issued := by
    have none : (nativeStore.getOrCreateRepoState forumSpace.id "did:plc:a").syncCursor = none := by
      decide +kernel
    simp [none]
  index := by
    have none : nativeStore.indexedRecords forumSpace.id "did:plc:a" = [] := by decide +kernel
    simp [none, Paging.upTo, hostRecords, hostLog, KeyedLog.current, KeyedLog.replay]

def afterFailure : List SyncAction :=
  [.host noteCreated, .start 1, .page 1 10 false false, .apply 1, .fail 1]

theorem sync_converges_afterFailure :
    ∃ m, noteMachine.run (afterFailure ++ .start 2 :: syncRun 2) = some m ∧
      Agrees forumSpace "did:plc:a" m := by
  have done : (noteMachine.run (afterFailure ++ .start 2 :: syncRun 2)).any
      (fun m => decide ((2, some (.applied 1 "r1")) ∈ m.ended)) = true := by decide +kernel
  obtain ⟨m, run, returned⟩ := (Option.any_eq_true _ _).mp done
  have turns : noteMachine.Along OneAtATime (afterFailure ++ .start 2 :: syncRun 2) := by
    decide +kernel
  have converges := sync_converges Migration.shortCrypto .sqlite forumSpace "did:plc:a"
    nativeStore [] nativeStore_starts _ m turns run
  exact ⟨m, run, (converges.1 _ 2 _ _ rfl (by decide) (of_decide_eq_true returned)).1⟩

/-! ## Overlapping runs -/

/-- An operation is applied only by the run that was the last to finish listing. -/
def InTurn (m : SyncDesk) : SyncAction → Prop
  | .apply id => m.latest.map Prod.fst = some id
  | _ => True

instance (m : SyncDesk) : ∀ action, Decidable (InTurn m action)
  | .apply _ => inferInstanceAs (Decidable (_ = _))
  | .host _ | .start _ | .page .. | .commit .. | .check _ | .reread _ | .save _ | .fail _ =>
    .isTrue trivial

/-- However runs overlap and wherever they fail, as long as each operation is applied in turn:
a further sync that nothing else interferes with leaves the host's records in the index. -/
theorem overlapping_converge (store : SpaceStore) (host : List HostCommit)
    (starts : Starts space did store host) (actions : List SyncAction) (m : SyncDesk)
    (turns : (machine crypto backend space did store host).Along InTurn actions)
    (run : (machine crypto backend space did store host).run actions = some m)
    (n : Nat) (last : List SyncAction) (own : ∀ action ∈ last, action.run = some n)
    (m' : SyncDesk) (outcome : SyncOutcome)
    (further : (machine crypto backend space did store host).runFrom m (.start n :: last) = some m')
    (returned : (n, some outcome) ∈ m'.ended) : Agrees space did m' := by
  have inv : ∃ best, Inv space did m best := by
    refine Machine.induct_along (P := fun m => ∃ best, Inv space did m best) starts.inv ?_ turns run
    rintro m action m' ⟨best, inv⟩ turn step
    refine inv.step ?_ (step_cases step)
    rintro id window pending rfl -
    exact turn
  exact (agrees_of_alone inv own further returned).1

def interleaved : List SyncAction :=
  [.host noteCreated, .start 1, .start 2, .page 1 10 false false, .apply 1, .commit 1 none,
    .check 1, .page 2 10 false false, .apply 2, .reread 1, .save 1, .commit 2 none, .check 2,
    .reread 2, .save 2, .host noteDeleted]

theorem overlapping_converge_interleaved :
    ∃ m m', noteMachine.run interleaved = some m ∧
      noteMachine.runFrom m (.start 3 :: syncRun 3) = some m' ∧
      Agrees forumSpace "did:plc:a" m' := by
  have done : (noteMachine.run (interleaved ++ .start 3 :: syncRun 3)).any
      (fun m => decide ((3, some (.applied 1 "r2")) ∈ m.ended)) = true := by decide +kernel
  obtain ⟨m', run, returned⟩ := (Option.any_eq_true _ _).mp done
  obtain ⟨m, first, further⟩ := Machine.runFrom_append.mp run
  have turns : noteMachine.Along InTurn interleaved := by decide +kernel
  exact ⟨m, m', first, further, overlapping_converge Migration.shortCrypto .sqlite forumSpace
    "did:plc:a" nativeStore [] nativeStore_starts _ m turns first 3 _ (by decide) m' _ further
    (of_decide_eq_true returned)⟩

/-- The first run lists the note and is overtaken by a second one, which lists its deletion
too. The first then puts the note back. -/
def overtaken : List SyncAction :=
  [.host noteCreated, .start 1, .page 1 10 false false, .host noteDeleted, .start 2] ++ syncRun 2 ++
    [.apply 1, .commit 1 none, .check 1]

/-- All runs have ended without an error, and a further sync finds nothing to do, but the
index has a note that the host has deleted. -/
theorem overtaken_diverges :
    ∃ m m', noteMachine.run overtaken = some m ∧ m.runs.keys = [] ∧
      m.ended.map (fun run => (run.1, run.2.isSome)) = [(1, true), (2, true)] ∧
      noteMachine.runFrom m [.start 3, .page 3 10 false false] = some m' ∧
      (3, some .upToDate) ∈ m'.ended ∧ ¬ Agrees forumSpace "did:plc:a" m' := by
  have ended : (noteMachine.run overtaken).any (fun m => decide (m.runs.keys = [] ∧
      m.ended.map (fun run => (run.1, run.2.isSome)) = [(1, true), (2, true)]) &&
      (noteMachine.runFrom m [.start 3, .page 3 10 false false]).any fun m' =>
        decide ((3, some .upToDate) ∈ m'.ended ∧
          ⟨"app.note", "1", "x", "x"⟩ ∈ m'.store.indexedRecords "s1" "did:plc:a" ∧
          hostRecords m'.host = [])) = true := by decide +kernel
  obtain ⟨m, run, both⟩ := (Option.any_eq_true _ _).mp ended
  obtain ⟨first, second⟩ := Bool.and_eq_true_iff.mp both
  obtain ⟨idle, fine⟩ := of_decide_eq_true first
  obtain ⟨m', further, last⟩ := (Option.any_eq_true _ _).mp second
  obtain ⟨returned, indexed, none⟩ := of_decide_eq_true last
  refine ⟨m, m', run, idle, fine, further, returned, fun agrees => ?_⟩
  have there := (agrees _).mp indexed
  rw [none] at there
  cases there

end HappyView.Spaces.SyncDesk
