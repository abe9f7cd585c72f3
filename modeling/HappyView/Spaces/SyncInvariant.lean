import HappyView.Spaces.NativeSync

/-!
# What the runs of a sync keep

The index is read as a map from record keys to cids and values, `indexedAt`, and the host's
log as a log of updates of such a map. A cursor stands for a place in the log (`Cut`), and
the operations that a run has listed are those from its cursor on (`Serves`).

`Inv m best` says that the index mirrors the log at `best`, which no saved cursor is past. It
is kept by every step in which an operation is applied only by the run that was the last to
finish listing.
-/

namespace HappyView.Spaces

open HappyView.Foundation

/-! ## The index as a map -/

section Index

variable {space : Space} {did : String} {s : SpaceStore} {backend : Writers.DatabaseBackend}
  {key other : String × String}

/-- The rows of the repo stand at the URIs of their keys, and these URIs hold nothing else. -/
structure SpaceStore.Placed (s : SpaceStore) (space : Space) (did : String) : Prop where
  at_uri : ∀ key row, NoSlash key.1 → s.records.lookup (keyUri space did key) = some row →
    row.spaceId = space.id ∧ row.authorDid = did ∧ (row.collection, row.rkey) = key
  of_row : ∀ uri row, s.records.lookup uri = some row → row.spaceId = space.id →
    row.authorDid = did → NoSlash row.collection ∧ uri = keyUri space did (row.collection, row.rkey)

def SpaceStore.indexedAt (s : SpaceStore) (space : Space) (did : String) (key : String × String) :
    Option (String × String) :=
  if NoSlash key.1 then
    (s.records.lookup (keyUri space did key)).map fun row => (row.cid, row.record)
  else none

theorem keyUri_inj (first : NoSlash key.1) (second : NoSlash other.1)
    (same : keyUri space did key = keyUri space did other) : key = other := by
  -- The two URIs differ in the path only.
  have path : "/".intercalate [key.1, key.2] = "/".intercalate [other.1, other.2] := by
    unfold keyUri recordUri at same
    simp only [String.intercalate_cons_cons, ← String.toList_inj, String.toList_append,
      List.append_assoc, List.append_cancel_left_eq] at same ⊢
    exact same
  obtain ⟨collection, rkey⟩ := intercalate_inj first second path
  exact Prod.ext collection (by simpa using rkey)

theorem SpaceStore.indexedAt_insert {row : SpaceRecord} (plain : NoSlash key.1) :
    { s with records := s.records.insert (keyUri space did key) row }.indexedAt space did =
      Function.update (s.indexedAt space did) key (some (row.cid, row.record)) := by
  funext other
  unfold indexedAt
  by_cases here : other = key
  · subst here
    simp [plain]
  · rw [Function.update_of_ne here]
    split
    · rename_i noSlash
      rw [AList.lookup_insert_ne fun same => here (keyUri_inj noSlash plain same)]
    · rfl

theorem SpaceStore.indexedAt_delete (plain : NoSlash key.1) :
    (s.deleteSpaceRecord (keyUri space did key)).indexedAt space did =
      Function.update (s.indexedAt space did) key none := by
  funext other
  unfold indexedAt deleteSpaceRecord
  by_cases here : other = key
  · subst here
    simp
  · rw [Function.update_of_ne here]
    split
    · rename_i noSlash
      rw [AList.lookup_erase_ne fun same => here (keyUri_inj noSlash plain same)]
    · rfl

theorem SpaceStore.Placed.insert {row : SpaceRecord} (placed : s.Placed space did)
    (plain : NoSlash key.1) (own : row.spaceId = space.id ∧ row.authorDid = did ∧
      (row.collection, row.rkey) = key) :
    { s with records := s.records.insert (keyUri space did key) row }.Placed space did where
  at_uri := by
    intro other found noSlash held
    rcases lookup_insert_cases held with ⟨same, rfl⟩ | held
    · rw [keyUri_inj noSlash plain same]
      exact own
    · exact placed.at_uri other found noSlash held
  of_row := by
    intro uri found held id author
    rcases lookup_insert_cases held with ⟨rfl, rfl⟩ | held
    · obtain ⟨-, -, rfl⟩ := own
      exact ⟨plain, rfl⟩
    · exact placed.of_row uri found held id author

theorem SpaceStore.Placed.delete (placed : s.Placed space did) (uri : String) :
    (s.deleteSpaceRecord uri).Placed space did where
  at_uri := fun key row plain held => placed.at_uri key row plain (lookup_erase_some held).2
  of_row := fun uri row held => placed.of_row uri row (lookup_erase_some held).2

theorem applyRepoOp_repoStates {op : RepoOp} {s' : SpaceStore}
    (h : applyRepoOp backend space did op s = .ok s') : s'.repoStates = s.repoStates := by
  unfold applyRepoOp at h
  split at h
  · cases h
    rfl
  all_goals
    split at h
    · cases h
      obtain same | ⟨held, found, same⟩ := s.upsertSpaceRecord_cases backend _ _ <;> rw [same]
    · cases h

structure RepoOp.Ready (op : RepoOp) : Prop where
  collection : NoSlash op.collection
  delete : op.action = .delete ↔ op.cid = none
  value : op.cid.isSome → op.value.isSome

theorem applyRepoOp_eq {op : RepoOp} {s' : SpaceStore} (placed : s.Placed space did)
    (ready : op.Ready) (h : applyRepoOp backend space did op s = .ok s') :
    s'.indexedAt space did = Function.update (s.indexedAt space did) op.key op.update.2 ∧
      s'.Placed space did := by
  have plain : NoSlash op.key.1 := ready.collection
  unfold applyRepoOp at h
  split at h
  · rename_i action
    have gone : op.update.2 = none := by simp [OpEntry.update, ready.delete.mp action]
    cases h
    rw [gone]
    exact ⟨SpaceStore.indexedAt_delete plain, placed.delete _⟩
  all_goals
    split at h
    · rename_i cid value hasCid hasValue
      have new : op.update.2 = some (cid, value) := by simp [OpEntry.update, hasCid, hasValue]
      cases h
      rw [new]
      obtain same | ⟨held, found, same⟩ := s.upsertSpaceRecord_cases backend _ _ <;> rw [same]
      · exact ⟨SpaceStore.indexedAt_insert plain, placed.insert plain ⟨rfl, rfl, rfl⟩⟩
      · obtain ⟨id, author, sameKey⟩ := placed.at_uri _ _ plain found
        exact ⟨SpaceStore.indexedAt_insert plain, placed.insert plain ⟨id, author, sameKey⟩⟩
    · cases h

theorem SpaceStore.Placed.mem_indexedRecords (placed : s.Placed space did) (r : RepoRecord) :
    r ∈ s.indexedRecords space.id did ↔
      s.indexedAt space did (r.collection, r.rkey) = some (r.cid, r.value) := by
  constructor
  · intro mem
    obtain ⟨row, here, rfl⟩ := List.mem_map.mp mem
    obtain ⟨⟨uri, held⟩, id, author⟩ := mem_authorRecords.mp here
    obtain ⟨plain, rfl⟩ := placed.of_row uri row held id author
    simp [indexedAt, SpaceRecord.indexed, plain, held]
  · intro here
    obtain ⟨plain, found⟩ := Option.ite_none_right_eq_some.mp here
    obtain ⟨row, held, same⟩ := Option.map_eq_some_iff.mp found
    obtain ⟨id, author, key⟩ := placed.at_uri _ row plain held
    refine List.mem_map.mpr ⟨row, mem_authorRecords.mpr ⟨⟨_, held⟩, id, author⟩, ?_⟩
    simp only [Prod.mk.injEq] at same key
    rw [SpaceRecord.indexed, key.1, key.2, same.1, same.2]

theorem SpaceStore.Placed.nodup_indexedRecords (placed : s.Placed space did) :
    (s.indexedRecords space.id did).Nodup := by
  unfold indexedRecords authorRecords
  rw [List.filter_map, List.map_map]
  refine List.Nodup.map_on ?_ (s.records.nodupKeys.nodup.filter _)
  -- The key of a row gives the URI it stands at.
  rintro ⟨uri, row⟩ mem ⟨uri', row'⟩ mem' same
  obtain ⟨held, own⟩ := List.mem_filter.mp mem
  obtain ⟨held', own'⟩ := List.mem_filter.mp mem'
  have here := AList.mem_lookup_iff.mpr held
  have here' := AList.mem_lookup_iff.mpr held'
  simp only [Function.comp_apply, decide_eq_true_eq] at own own'
  obtain ⟨-, rfl⟩ := placed.of_row uri row here own.1 own.2
  obtain ⟨-, rfl⟩ := placed.of_row uri' row' here' own'.1 own'.2
  simp only [Function.comp_apply, SpaceRecord.indexed, RepoRecord.mk.injEq] at same
  rw [same.1, same.2.1] at here
  rw [same.1, same.2.1, Option.mem_unique here here']

end Index

/-! ## The host's records -/

section Host

variable {space : Space} {did : String} {host : List HostCommit} {since : Option String} {n : Nat}

theorem mem_hostRecords (r : RepoRecord) : r ∈ hostRecords host ↔
    (KeyedLog.current (hostLog host)).lookup (r.collection, r.rkey) = some (r.cid, r.value) := by
  rw [hostRecords, List.mem_map, ← Option.mem_def, AList.mem_lookup_iff]
  constructor
  · rintro ⟨entry, mem, rfl⟩
    exact mem
  · exact fun mem => ⟨_, mem, rfl⟩

theorem nodup_hostRecords (host : List HostCommit) : (hostRecords host).Nodup := by
  refine List.Nodup.map_on ?_ (KeyedLog.current (hostLog host)).nodupKeys.nodup
  rintro ⟨⟨c, r⟩, cid, value⟩ - ⟨⟨c', r'⟩, cid', value'⟩ - same
  simp only [RepoRecord.mk.injEq] at same
  obtain ⟨rfl, rfl, rfl, rfl⟩ := same
  rfl

theorem indexedRecords_iff {s : SpaceStore} (placed : s.Placed space did)
    (same : ∀ key, s.indexedAt space did key = (KeyedLog.current (hostLog host)).lookup key)
    (r : RepoRecord) : r ∈ s.indexedRecords space.id did ↔ r ∈ hostRecords host := by
  rw [placed.mem_indexedRecords, mem_hostRecords, same]

/-! ## Cursors -/

/-- The cursor stands between the first `n` commits and the others. -/
structure Cut (host : List HostCommit) (cursor : Option String) (n : Nat) : Prop where
  le : n ≤ host.length
  upTo : Paging.upTo HostCommit.rev cursor host = host.take n
  issued : ∀ rev ∈ cursor, ∃ commit ∈ host, commit.rev = rev

theorem Cut.append {new : HostCommit} (cut : Cut host since n)
    (later : ∀ commit ∈ host, commit.rev < new.rev) : Cut (host ++ [new]) since n where
  le := by
    have := cut.le
    simp
    omega
  upTo := by
    rw [Paging.upTo_append, cut.upTo, List.take_append_of_le_length cut.le]
    intro commit mem rev past
    obtain ⟨issuer, held, rfl⟩ := cut.issued rev past
    rw [List.mem_singleton.mp mem]
    exact later issuer held
  issued := by
    intro rev past
    obtain ⟨issuer, held, same⟩ := cut.issued rev past
    exact ⟨issuer, by simp [held], same⟩

theorem Cut.after (honest : Honest host) (cut : Cut host since n) :
    Paging.after HostCommit.rev since host = host.drop n := by
  have whole : Paging.upTo HostCommit.rev since host ++ _ = host :=
    Paging.upTo_append_after honest.1
  rw [cut.upTo] at whole
  nth_rewrite 3 [← List.take_append_drop n host] at whole
  exact List.append_cancel_left whole

theorem Cut.last {front : List HostCommit} {last : HostCommit} (honest : Honest (front ++ [last])) :
    Cut (front ++ [last]) (some last.rev) (front ++ [last]).length where
  le := le_rfl
  upTo := by
    rw [List.take_length]
    exact Paging.upTo_of_le (Paging.key_le_last honest.1)
  issued := by
    intro rev mem
    exact ⟨last, by simp, Option.mem_some_iff.mp mem⟩

/-! ## Pages -/

/-- The served entries are the first of all entries, where values of entries that are
superseded may be missing. -/
inductive Serves : List OpEntry → List OpEntry → Prop where
  | nil (all : List OpEntry) : Serves all []
  | cons {entry served : OpEntry} {all got : List OpEntry} (rest : Serves all got)
      (same : served = entry ∨
        served = { entry with value := none } ∧ ∃ later ∈ all, later.key = entry.key) :
      Serves (entry :: all) (served :: got)

theorem Serves.append {all got : List OpEntry} (serves : Serves all got) (new : List OpEntry) :
    Serves (all ++ new) got := by
  induction serves with
  | nil all => exact .nil _
  | cons rest same ih =>
    refine .cons ih (same.imp_right ?_)
    rintro ⟨withheld, later, mem, key⟩
    exact ⟨withheld, later, by simp [mem], key⟩

theorem length_serve (keep : Bool) (all : List OpEntry) : (serve keep all).length = all.length := by
  induction all with
  | nil => rfl
  | cons entry later ih => simp [serve, ih]

theorem serves_serve (keep : Bool) (all : List OpEntry) (count : Nat) :
    Serves all ((serve keep all).take count) := by
  induction all generalizing count with
  | nil => simpa [serve] using Serves.nil []
  | cons entry later ih =>
    cases count with
    | zero => exact .nil _
    | succ count =>
      refine .cons (ih count) ?_
      split
      · exact .inl rfl
      · rename_i superseded
        have found : keep = false ∧ ∃ x ∈ later, x.key = entry.key := by simpa using superseded
        exact .inr ⟨rfl, found.2⟩

theorem Serves.page {all got : List OpEntry} (serves : Serves all got) (keep : Bool)
    (count : Nat) :
    Serves all (got ++ (serve keep (all.drop got.length)).take count) := by
  induction serves with
  | nil all => exact serves_serve keep all count
  | cons rest same ih => exact .cons ih same

theorem Serves.keys {all got : List OpEntry} (serves : Serves all got)
    (whole : all.length ≤ got.length) : got.map OpEntry.key = all.map OpEntry.key := by
  induction serves with
  | nil all => simpa using whole
  | cons rest same ih =>
    rw [List.map_cons, List.map_cons, ih (by simpa using whole)]
    obtain rfl | ⟨rfl, -⟩ := same <;> rfl

theorem Serves.lastPer_eq {all got : List OpEntry} (serves : Serves all got)
    (whole : all.length ≤ got.length) :
    KeyedLog.lastPer OpEntry.key got = KeyedLog.lastPer OpEntry.key all := by
  induction serves with
  | nil all =>
    have none : all = [] := by simpa using whole
    rw [none]
  | @cons entry served all got rest same ih =>
    have whole : all.length ≤ got.length := by simpa using whole
    have sameKey : served.key = entry.key := by
      obtain rfl | ⟨rfl, -⟩ := same <;> rfl
    have sameKeys : got.all (·.key ≠ entry.key) = all.all (·.key ≠ entry.key) := by
      simpa [Function.comp_def] using congrArg (List.all · (· ≠ entry.key)) (rest.keys whole)
    simp only [KeyedLog.lastPer, sameKey, sameKeys, ih whole]
    obtain rfl | ⟨-, later, mem, key⟩ := same
    · rfl
    · have superseded : ¬ all.all (·.key ≠ entry.key) = true := by
        simpa using ⟨later, mem, key⟩
      rw [if_neg superseded, if_neg superseded]

theorem Serves.revs {all got : List OpEntry} (serves : Serves all got)
    (whole : all.length ≤ got.length) : got.map OpEntry.rev = all.map OpEntry.rev := by
  induction serves with
  | nil all => simpa using whole
  | cons rest same ih =>
    rw [List.map_cons, List.map_cons, ih (by simpa using whole)]
    obtain rfl | ⟨rfl, -⟩ := same <;> rfl

theorem parseRepoOp_eq {entry : OpEntry} {op : RepoOp} (h : parseRepoOp entry = .ok op) :
    op.toOpEntry = entry ∧ (op.action = .delete ↔ op.cid = none) := by
  unfold parseRepoOp at h
  split at h <;> cases h <;> simp_all

theorem parseRepoOpsPage_eq {entries : List OpEntry} {ops : List RepoOp}
    (h : parseRepoOpsPage entries = .ok ops) :
    ops.map (·.toOpEntry) = entries ∧ ∀ op ∈ ops, op.action = .delete ↔ op.cid = none := by
  induction entries generalizing ops with
  | nil =>
    cases h
    simp
  | cons entry entries ih =>
    obtain ⟨op, first, h⟩ := bind_eq_ok.mp h
    obtain ⟨rest, later, h⟩ := bind_eq_ok.mp h
    cases h
    obtain ⟨same, action⟩ := parseRepoOp_eq first
    obtain ⟨sameRest, actions⟩ := ih later
    exact ⟨by rw [List.map_cons, same, sameRest], List.forall_mem_cons.mpr ⟨action, actions⟩⟩

structure Listed (host : List HostCommit) (since : Option String) (ops : List RepoOp) : Prop where
  serves : Serves (entriesSince host since) (ops.map (·.toOpEntry))
  actions : ∀ op ∈ ops, op.action = .delete ↔ op.cid = none

theorem Cut.entriesSince_eq (honest : Honest host) (cut : Cut host since n) :
    entriesSince host since = (host.drop n).flatMap HostCommit.entries := by
  rw [entriesSince, cut.after honest]

theorem Cut.entriesSince_append {new : HostCommit} (honest : Honest (host ++ [new]))
    (cut : Cut host since n) (later : ∀ commit ∈ host, commit.rev < new.rev) :
    entriesSince (host ++ [new]) since = entriesSince host since ++ new.entries := by
  have before : Honest host :=
    ⟨(List.pairwise_append.mp honest.1).1, fun commit mem => honest.2 commit (by simp [mem])⟩
  rw [(cut.append later).entriesSince_eq honest, cut.entriesSince_eq before,
    List.drop_append_of_le_length cut.le, List.flatMap_append, List.flatMap_singleton]

variable {ops : List RepoOp}

theorem Listed.latest_eq (listed : Listed host since ops)
    (whole : (entriesSince host since).length ≤ ops.length) :
    (latestOpPerRecord ops).map (·.toOpEntry) =
      KeyedLog.lastPer OpEntry.key (entriesSince host since) := by
  rw [latestOpPerRecord, ← KeyedLog.lastPer_map]
  exact listed.serves.lastPer_eq (by simpa using whole)

section Whole

variable (honest : Honest host) (cut : Cut host since n) (listed : Listed host since ops)
  (whole : (entriesSince host since).length ≤ ops.length)

include honest cut listed whole

theorem Listed.updates_eq : (latestOpPerRecord ops).map (·.update) =
      KeyedLog.lastPer Prod.fst ((hostLog host).drop n).flatten := by
  have updates : ((hostLog host).drop n).flatten =
      (entriesSince host since).map OpEntry.update := by
    rw [cut.entriesSince_eq honest, hostLog, ← List.map_drop, ← List.flatMap_def, List.map_flatMap]
    rfl
  rw [updates, KeyedLog.lastPer_map]
  calc (latestOpPerRecord ops).map (·.update)
    _ = ((latestOpPerRecord ops).map (·.toOpEntry)).map OpEntry.update := by simp
    _ = (KeyedLog.lastPer OpEntry.key (entriesSince host since)).map OpEntry.update := by
      rw [listed.latest_eq whole]

theorem Listed.ready {op : RepoOp} (mem : op ∈ latestOpPerRecord ops) :
    op.Ready ∧ (KeyedLog.current (hostLog host)).lookup op.key = op.update.2 := by
  constructor
  · have entry : op.toOpEntry ∈ entriesSince host since := by
      refine KeyedLog.lastPer_subset OpEntry.key _ ?_
      rw [← listed.latest_eq whole]
      exact List.mem_map_of_mem mem
    rw [cut.entriesSince_eq honest] at entry
    obtain ⟨commit, held, entry⟩ := List.mem_flatMap.mp entry
    have valid := (honest.2 commit (List.mem_of_mem_drop held)).entries _ entry
    refine ⟨valid.collection, ?_, valid.value⟩
    exact listed.actions op (KeyedLog.lastPer_subset _ _ mem)
  · have last : op.update ∈ KeyedLog.lastPer Prod.fst ((hostLog host).drop n).flatten := by
      rw [← listed.updates_eq honest cut whole]
      exact List.mem_map_of_mem mem
    rw [← List.take_append_drop n (hostLog host), KeyedLog.current_append]
    exact KeyedLog.lookup_replay_of_lastPer last

theorem Listed.covers : ∀ batch ∈ (hostLog host).drop n, ∀ u ∈ batch,
      ∃ v ∈ (latestOpPerRecord ops).map (·.update), v.1 = u.1 := by
  intro batch mem u here
  rw [listed.updates_eq honest cut whole]
  exact KeyedLog.exists_lastPer (List.mem_flatten.mpr ⟨batch, mem, here⟩)

theorem Listed.cut_last {last : RepoOp} (isLast : ops.getLast? = some last) :
    Cut host (some last.rev) host.length := by
  have revs : ops.map (·.rev) = (entriesSince host since).map OpEntry.rev := by
    simpa [Function.comp_def] using listed.serves.revs (by simpa using whole)
  rw [cut.entriesSince_eq honest] at revs
  have isLastRev : ((host.drop n).flatMap HostCommit.entries).getLast?.map OpEntry.rev =
      some last.rev := by
    rw [← List.getLast?_map, ← revs, List.getLast?_map, isLast]
    rfl
  obtain rfl | ⟨front, commit, rfl⟩ := List.eq_nil_or_concat' host
  · simp at isLastRev
  · have some := (honest.2 commit (by simp)).some
    by_cases inside : n ≤ front.length
    · rw [List.drop_append_of_le_length inside, List.flatMap_append, List.flatMap_singleton,
        List.getLast?_append_of_ne_nil _ some] at isLastRev
      obtain ⟨entry, isLastEntry, rev⟩ := Option.map_eq_some_iff.mp isLastRev
      have mem : entry ∈ commit.entries := List.mem_of_getLast? isLastEntry
      rw [← rev, (honest.2 commit (by simp)).rev entry mem]
      exact Cut.last honest
    · -- A cursor at the end leaves nothing to list.
      rw [List.drop_eq_nil_of_le (by simp; omega)] at isLastRev
      simp at isLastRev

end Whole

end Host

/-! ## What a step does -/

namespace SyncDesk

/-- The page of `ops` goes on where `got` ended. -/
structure Page (host : List HostCommit) (since : Option String) (got ops : List RepoOp)
    (keep : Bool) (count : Nat) : Prop where
  same : ops.map (·.toOpEntry) =
    (serve keep ((entriesSince host since).drop got.length)).take count
  actions : ∀ op ∈ ops, op.action = .delete ↔ op.cid = none

section Step

variable (crypto : Crypto) (backend : Writers.DatabaseBackend) (space : Space) (did : String)

inductive Step (m : SyncDesk) : SyncAction → SyncDesk → Prop where
  | host {commit : HostCommit} (later : ∀ earlier ∈ m.host, earlier.rev < commit.rev)
      (valid : commit.Valid) : Step m (.host commit) { m with host := m.host ++ [commit] }
  | start {id : Nat} (free : m.runs.lookup id = none) (new : id ∉ m.ended.map Prod.fst) :
      Step m (.start id) (m.begin space did id)
  | failed {action : SyncAction} {id : Nat} {phase : SyncPhase} (own : action.run = some id)
      (held : m.runs.lookup id = some phase) : Step m action (m.finish id none)
  | page {id count : Nat} {keep : Bool} {since : Option String} {got ops : List RepoOp}
      (held : m.runs.lookup id = some (.listing since got))
      (next : Page m.host since got ops keep count) :
      Step m (.page id count true keep) (m.proceed id (.listing since (got ++ ops)))
  | lastPage {id count : Nat} {keep : Bool} {since : Option String} {got ops : List RepoOp}
      (held : m.runs.lookup id = some (.listing since got))
      (next : Page m.host since got ops keep count)
      (all : ((entriesSince m.host since).drop got.length).length ≤ count) :
      Step m (.page id count false keep) (m.listed id (got ++ ops))
  | apply {id : Nat} {window : Window} {op : RepoOp} {pending : List RepoOp} {store : SpaceStore}
      (held : m.runs.lookup id = some (.applying window (op :: pending)))
      (applied : applyRepoOp backend space did op m.store = .ok store) :
      Step m (.apply id) { m.proceed id (.applying window pending) with store := store }
  | commit {id : Nat} {window : Window} {commit : VerifiedCommit}
      {signature : Option (List UInt8 × List UInt8 × List UInt8)}
      (held : m.runs.lookup id = some (.applying window []))
      (latest : latestCommit crypto m.host signature = some commit) :
      Step m (.commit id signature) (m.proceed id (.fetched window commit))
  | check {id : Nat} {window : Window} {commit : VerifiedCommit}
      (held : m.runs.lookup id = some (.fetched window commit)) :
      Step m (.check id) (m.check crypto space did id window commit)
  | reread {id : Nat} {window : Window} {commit : VerifiedCommit} {fold : LtHashState}
      (held : m.runs.lookup id = some (.agreed window commit fold)) :
      Step m (.reread id)
        { m.proceed id (.saving window commit fold (m.store.getOrCreateRepoState space.id did)) with
          store := Migration.created space.id did m.store }
  | save {id : Nat} {window : Window} {commit : VerifiedCommit} {fold : LtHashState}
      {row : RepoState} (held : m.runs.lookup id = some (.saving window commit fold row)) :
      Step m (.save id) (m.save space did id window commit fold row)

variable {crypto backend space did} {m m' : SyncDesk}

theorem step_cases {action : SyncAction} (h : step crypto backend space did m action = some m') :
    Step crypto backend space did m action m' := by
  cases action with
  | host commit =>
    obtain ⟨⟨later, valid⟩, ⟨⟩⟩ := Option.ite_none_right_eq_some.mp h
    exact .host later valid
  | start id =>
    obtain ⟨⟨free, new⟩, ⟨⟩⟩ := Option.ite_none_right_eq_some.mp h
    exact .start free new
  | page id count more keep =>
    simp only [step] at h
    split at h
    · rename_i held
      obtain ⟨enough, h⟩ := Option.ite_none_right_eq_some.mp h
      split at h
      · cases h
        exact .failed rfl held
      · rename_i ops parsed
        obtain ⟨same, actions⟩ := parseRepoOpsPage_eq parsed
        cases more with
        | true =>
          cases h
          exact .page held ⟨same, actions⟩
        | false =>
          cases h
          exact .lastPage held ⟨same, actions⟩ (enough.resolve_left (by simp))
    · cases h
  | apply id =>
    simp only [step] at h
    split at h
    · rename_i held
      split at h <;> cases h
      · rename_i applied
        exact .apply held applied
      · exact .failed rfl held
    · cases h
  | commit id signature =>
    simp only [step] at h
    split at h
    · rename_i held
      obtain ⟨commit, latest, rfl⟩ := Option.map_eq_some_iff.mp h
      exact .commit held latest
    · cases h
  | check id =>
    simp only [step] at h
    split at h <;> cases h
    rename_i held
    exact .check held
  | reread id =>
    simp only [step] at h
    split at h <;> cases h
    rename_i held
    exact .reread held
  | save id =>
    simp only [step] at h
    split at h <;> cases h
    rename_i held
    exact .save held
  | fail id =>
    simp only [step] at h
    split at h <;> cases h
    rename_i held
    exact .failed rfl held

variable {host : List HostCommit} {since : Option String} {got ops : List RepoOp} {keep : Bool}
  {count : Nat}

theorem Page.listed (page : Page host since got ops keep count) (listed : Listed host since got) :
    Listed host since (got ++ ops) := by
  refine ⟨?_, List.forall_mem_append.mpr ⟨listed.actions, page.actions⟩⟩
  rw [List.map_append, page.same]
  simpa using listed.serves.page keep count

theorem Page.length_le (page : Page host since got ops keep count)
    (all : ((entriesSince host since).drop got.length).length ≤ count) :
    (entriesSince host since).length ≤ (got ++ ops).length := by
  have size : ops.length = ((entriesSince host since).drop got.length).length := by
    have := congrArg List.length page.same
    rw [List.length_map, List.length_take, length_serve] at this
    rw [this, Nat.min_eq_right all]
  rw [List.length_append, size, List.length_drop]
  omega

end Step

end SyncDesk

/-! ## The invariant -/

namespace SyncDesk

variable (space : Space) (did : String)

/-- The index is right about every record that the host has not changed since its `n`-th
commit. -/
def Mirrors (m : SyncDesk) (n : Nat) : Prop :=
  KeyedLog.Mirrors (m.store.indexedAt space did) (hostLog m.host) n

def cursor (m : SyncDesk) : Option String := (m.store.getOrCreateRepoState space.id did).syncCursor

structure Known (host : List HostCommit) (latest : Option (Nat × Nat)) (window : Window) :
    Prop where
  cut : Cut host (some window.lastRev) window.readTo
  le : ∀ id t, latest = some (id, t) → window.readTo ≤ t

/-- The run that was the last to list has still to apply `pending`. -/
structure Applying (view : String × String → Option (String × String)) (host : List HostCommit)
    (latest : Option (Nat × Nat)) (window : Window) (pending : List RepoOp) : Prop where
  ge : ∀ id t, latest = some (id, t) → t ≤ window.readTo
  catches : KeyedLog.CatchesUp view (hostLog host) window.readTo (pending.map (·.update))
  ready : ∀ op ∈ pending, op.Ready ∧
    (KeyedLog.current ((hostLog host).take window.readTo)).lookup op.key = op.update.2

/-- A run that has applied everything leaves an index that mirrors what it listed. One that
has not may do so only while it is the last to have listed. -/
def PhaseInv (m : SyncDesk) (best id : Nat) : SyncPhase → Prop
  | .listing since got => (∃ n ≤ best, Cut m.host since n) ∧ Listed m.host since got
  | .applying window pending =>
    Known m.host m.latest window ∧ (pending = [] → Mirrors space did m window.readTo) ∧
      ∀ t, m.latest = some (id, t) →
        Applying (m.store.indexedAt space did) m.host m.latest window pending
  | .fetched window _ | .agreed window _ _ =>
    Known m.host m.latest window ∧ Mirrors space did m window.readTo
  | .saving window _ _ row =>
    Known m.host m.latest window ∧ Mirrors space did m window.readTo ∧ row.hostMode = .native

structure Inv (m : SyncDesk) (best : Nat) : Prop where
  honest : Honest m.host
  placed : m.store.Placed space did
  native : (m.store.getOrCreateRepoState space.id did).hostMode = .native
  le : best ≤ m.host.length
  cursor : ∃ n ≤ best, Cut m.host (m.cursor space did) n
  mirrors : Mirrors space did m best
  latest : ∀ id t, m.latest = some (id, t) → best ≤ t
  runs : ∀ id phase, m.runs.lookup id = some phase → PhaseInv space did m best id phase

section Steps

variable {crypto : Crypto} {backend : Writers.DatabaseBackend} {space : Space} {did : String}
  {m m' : SyncDesk} {best id : Nat} {phase : SyncPhase}

theorem Inv.proceed (inv : Inv space did m best) (new : PhaseInv space did m best id phase) :
    Inv space did (m.proceed id phase) best where
  honest := inv.honest
  placed := inv.placed
  native := inv.native
  le := inv.le
  cursor := inv.cursor
  mirrors := inv.mirrors
  latest := inv.latest
  runs := by
    intro other found held
    rcases lookup_insert_cases held with ⟨rfl, rfl⟩ | held
    · exact new
    · exact inv.runs other found held

theorem Inv.finish (inv : Inv space did m best) (id : Nat) (outcome : Option SyncOutcome) :
    Inv space did (m.finish id outcome) best where
  honest := inv.honest
  placed := inv.placed
  native := inv.native
  le := inv.le
  cursor := inv.cursor
  mirrors := inv.mirrors
  latest := inv.latest
  runs := fun other found held => inv.runs other found (lookup_erase_some held).2

theorem Inv.created_eq (inv : Inv space did m best) :
    Migration.created space.id did m.store = m.store := by
  have native := inv.native
  unfold SpaceStore.getOrCreateRepoState at native
  unfold Migration.created
  cases held : m.store.readRepoState space.id did with
  | some row => rfl
  | none =>
    rw [held] at native
    cases native

theorem Inv.start (inv : Inv space did m best) (id : Nat) :
    Inv space did (m.begin space did id) best := by
  unfold begin
  rw [inv.created_eq, if_pos inv.native]
  refine inv.proceed ⟨inv.cursor, ?_⟩
  exact ⟨.nil _, by simp⟩

/-! ### The host -/

theorem hostLog_append (host : List HostCommit) (commit : HostCommit) :
    hostLog (host ++ [commit]) = hostLog host ++ [commit.updates] := by
  simp [hostLog]

theorem Inv.host {commit : HostCommit} (inv : Inv space did m best)
    (later : ∀ earlier ∈ m.host, earlier.rev < commit.rev) (valid : commit.Valid) :
    Inv space did { m with host := m.host ++ [commit] } best := by
  have mirrors {n : Nat} (le : n ≤ m.host.length) (mirrors : Mirrors space did m n) :
      Mirrors space did { m with host := m.host ++ [commit] } n := by
    unfold Mirrors
    rw [hostLog_append]
    exact mirrors.append (by simpa [hostLog] using le)
  have known {window : Window} (known : Known m.host m.latest window) :
      Known (m.host ++ [commit]) m.latest window :=
    ⟨known.cut.append later, known.le⟩
  have honest : Honest (m.host ++ [commit]) := by
    refine ⟨List.pairwise_append.mpr ⟨inv.honest.1, by simp, by simpa using later⟩, ?_⟩
    exact List.forall_mem_append.mpr ⟨inv.honest.2, by simpa using valid⟩
  refine ⟨honest, inv.placed, inv.native, ?_, ?_, mirrors inv.le inv.mirrors, inv.latest, ?_⟩
  · have := inv.le
    simp
    omega
  · obtain ⟨n, le, cut⟩ := inv.cursor
    exact ⟨n, le, cut.append later⟩
  · intro id phase held
    have before := inv.runs id phase held
    cases phase with
    | listing since got =>
      obtain ⟨⟨n, le, cut⟩, listed⟩ := before
      refine ⟨⟨n, le, cut.append later⟩, ?_, listed.actions⟩
      rw [cut.entriesSince_append honest later]
      exact listed.serves.append commit.entries
    | applying window pending =>
      obtain ⟨held, done, mine⟩ := before
      refine ⟨known held, fun none => mirrors held.cut.le (done none), fun t last => ?_⟩
      obtain ⟨ge, catches, ready⟩ := mine t last
      have le : window.readTo ≤ (hostLog m.host).length := by simpa [hostLog] using held.cut.le
      refine ⟨ge, ?_, ?_⟩
      · rw [hostLog_append]
        exact catches.append le
      · rw [hostLog_append, List.take_append_of_le_length le]
        exact ready
    | fetched window commit => exact ⟨known before.1, mirrors before.1.cut.le before.2⟩
    | agreed window commit fold => exact ⟨known before.1, mirrors before.1.cut.le before.2⟩
    | saving window commit fold row =>
      exact ⟨known before.1, mirrors before.1.cut.le before.2.1, before.2.2⟩

/-! ### Listing -/

variable {since : Option String} {ops : List RepoOp}

theorem Inv.listed (inv : Inv space did m best) (cut : ∃ n ≤ best, Cut m.host since n)
    (listed : Listed m.host since ops)
    (whole : (entriesSince m.host since).length ≤ ops.length) :
    Inv space did (m.listed id ops) best := by
  obtain ⟨n, le, cut⟩ := cut
  unfold SyncDesk.listed
  split
  · exact inv.finish id _
  rename_i last isLast
  refine ⟨inv.honest, inv.placed, inv.native, inv.le, inv.cursor, inv.mirrors, ?_, ?_⟩
  · rintro _ _ ⟨⟩
    exact inv.le
  intro other phase held
  by_cases own : other = id
  · subst own
    obtain rfl := Option.some.inj ((AList.lookup_insert _).symm.trans held)
    have catches : KeyedLog.CatchesUp (m.store.indexedAt space did) (hostLog m.host) m.host.length
        ((latestOpPerRecord ops).map (·.update)) := by
      refine KeyedLog.Mirrors.catchesUp (inv.mirrors.mono le) ?_
      rw [List.take_of_length_le (by simp [hostLog])]
      exact listed.covers inv.honest cut whole
    refine ⟨⟨listed.cut_last inv.honest cut whole isLast, ?_⟩, ?_, fun t _ => ⟨?_, catches, ?_⟩⟩
    · rintro _ _ ⟨⟩
      exact le_rfl
    · intro none
      rw [none] at catches
      exact KeyedLog.catchesUp_nil.mp catches
    · rintro _ _ ⟨⟩
      exact le_rfl
    · have all : (hostLog m.host).take m.host.length = hostLog m.host :=
        List.take_of_length_le (by simp [hostLog])
      rw [show (m.proceed other _).host = m.host from rfl, all]
      exact fun op mem => listed.ready inv.honest cut whole mem
  · -- Another run that is still applying is no longer the last to have listed.
    have before := inv.runs other phase ((AList.lookup_insert_ne own).symm.trans held)
    have known {window : Window} (known : Known m.host m.latest window) :
        Known m.host (some (id, m.host.length)) window := by
      refine ⟨known.cut, ?_⟩
      rintro _ _ ⟨⟩
      exact known.cut.le
    cases phase with
    | listing since got => exact before
    | applying window pending =>
      refine ⟨known before.1, before.2.1, ?_⟩
      rintro _ ⟨⟩
      exact absurd rfl own
    | fetched window commit => exact ⟨known before.1, before.2⟩
    | agreed window commit fold => exact ⟨known before.1, before.2⟩
    | saving window commit fold row => exact ⟨known before.1, before.2⟩

/-! ### Applying and saving -/

theorem Inv.apply {window : Window} {op : RepoOp} {pending : List RepoOp} {store : SpaceStore}
    (inv : Inv space did m best) (turn : m.latest.map Prod.fst = some id)
    (held : m.runs.lookup id = some (.applying window (op :: pending)))
    (h : applyRepoOp backend space did op m.store = .ok store) :
    Inv space did { m.proceed id (.applying window pending) with store := store } best := by
  obtain ⟨⟨last, t⟩, latest, rfl⟩ : ∃ last, m.latest = some last ∧ last.1 = id :=
    Option.map_eq_some_iff.mp turn
  obtain ⟨known, -, whenLatest⟩ := inv.runs last _ held
  have mine := whenLatest t latest
  have sameEnd : window.readTo = t := le_antisymm (known.le _ t latest) (mine.ge _ t latest)
  obtain ⟨ready, value⟩ := mine.ready op (by simp)
  obtain ⟨view, placed⟩ := applyRepoOp_eq inv.placed ready h
  have read :
      store.getOrCreateRepoState space.id did = m.store.getOrCreateRepoState space.id did := by
    unfold SpaceStore.getOrCreateRepoState SpaceStore.readRepoState
    rw [applyRepoOp_repoStates h]
  -- What was listed up to here or earlier is not disturbed by a value of the latest listing.
  have mirrors {n : Nat} (le : n ≤ window.readTo) (mirrors : Mirrors space did m n) :
      KeyedLog.Mirrors (store.indexedAt space did) (hostLog m.host) n := by
    rw [view]
    exact mirrors.write (u := op.update) le value
  have catches : KeyedLog.CatchesUp (store.indexedAt space did) (hostLog m.host) window.readTo
      (pending.map (·.update)) := by
    rw [view]
    exact KeyedLog.CatchesUp.write mine.catches value
  have le : best ≤ window.readTo := sameEnd ▸ inv.latest _ t latest
  refine ⟨inv.honest, placed, ?_, inv.le, ?_, mirrors le inv.mirrors, inv.latest, ?_⟩
  · exact (congrArg RepoState.hostMode read).trans inv.native
  · have sameCursor : (store.getOrCreateRepoState space.id did).syncCursor = m.cursor space did :=
      congrArg RepoState.syncCursor read
    obtain ⟨n, le, cut⟩ := inv.cursor
    rw [← sameCursor] at cut
    exact ⟨n, le, cut⟩
  intro other phase found
  by_cases own : other = last
  · subst own
    obtain rfl := Option.some.inj ((AList.lookup_insert _).symm.trans found)
    refine ⟨known, ?_, fun t _ => ⟨mine.ge, catches, fun op mem => mine.ready op (by simp [mem])⟩⟩
    intro none
    rw [none] at catches
    exact KeyedLog.catchesUp_nil.mp catches
  · have before := inv.runs other phase ((AList.lookup_insert_ne own).symm.trans found)
    have others {window' : Window} (known' : Known m.host m.latest window')
        (before : Mirrors space did m window'.readTo) :
        KeyedLog.Mirrors (store.indexedAt space did) (hostLog m.host) window'.readTo :=
      mirrors (sameEnd ▸ known'.le _ t latest) before
    cases phase with
    | listing since got => exact before
    | applying window' pending' =>
      refine ⟨before.1, fun none => others before.1 (before.2.1 none), fun t' last' => ?_⟩
      have same := Option.some.inj (latest.symm.trans last')
      exact absurd (congrArg Prod.fst same).symm own
    | fetched window' commit => exact ⟨before.1, others before.1 before.2⟩
    | agreed window' commit fold => exact ⟨before.1, others before.1 before.2⟩
    | saving window' commit fold row =>
      exact ⟨before.1, others before.1 before.2.1, before.2.2⟩

theorem adopt_hostMode (row : RepoState) (window : Window) (commit : VerifiedCommit)
    (fold : LtHashState) : (adopt row window commit fold).hostMode = row.hostMode := by
  cases commit <;> simp only [adopt]

theorem adopt_syncCursor (row : RepoState) (window : Window) (commit : VerifiedCommit)
    (fold : LtHashState) : (adopt row window commit fold).syncCursor = some window.lastRev := by
  cases commit <;> rfl

theorem Inv.save {window : Window} {commit : VerifiedCommit} {fold : LtHashState} {row : RepoState}
    (inv : Inv space did m best)
    (held : m.runs.lookup id = some (.saving window commit fold row)) :
    Inv space did (m.save space did id window commit fold row) (max best window.readTo) := by
  obtain ⟨known, mirrors, native⟩ := inv.runs id _ held
  have read : (m.store.updateRepoState space.id did (adopt row window commit fold)
      ).getOrCreateRepoState space.id did = adopt row window commit fold := by
    simp [SpaceStore.getOrCreateRepoState, SpaceStore.readRepoState, SpaceStore.updateRepoState]
  suffices saved : Inv space did { m with
      store := m.store.updateRepoState space.id did (adopt row window commit fold) }
      (max best window.readTo) from saved.finish id _
  refine ⟨inv.honest, ⟨inv.placed.at_uri, inv.placed.of_row⟩, ?_, ?_, ?_, ?_, ?_, ?_⟩
  · rw [read, adopt_hostMode]
    exact native
  · exact max_le inv.le known.cut.le
  · refine ⟨window.readTo, le_max_right _ _, ?_⟩
    unfold SyncDesk.cursor
    rw [read, adopt_syncCursor]
    exact known.cut
  · -- The index mirrors the log at both places.
    rcases le_total best window.readTo with le | le
    · rw [max_eq_right le]
      exact mirrors
    · rw [max_eq_left le]
      exact inv.mirrors
  · exact fun last t latest => max_le (inv.latest last t latest) (known.le last t latest)
  · intro other phase found
    have before := inv.runs other phase found
    cases phase with
    | listing since got =>
      obtain ⟨⟨n, le, cut⟩, listed⟩ := before
      exact ⟨⟨n, le.trans (le_max_left _ _), cut⟩, listed⟩
    | applying _ _ | fetched _ _ | agreed _ _ _ | saving _ _ _ _ => exact before

theorem Inv.check {window : Window} {commit : VerifiedCommit} (inv : Inv space did m best)
    (held : m.runs.lookup id = some (.fetched window commit)) :
    Inv space did (m.check crypto space did id window commit) best := by
  simp only [SyncDesk.check]
  split
  · exact inv.finish id _
  · obtain ⟨known, mirrors⟩ := inv.runs id _ held
    exact inv.proceed ⟨known, mirrors⟩

theorem Inv.reread {window : Window} {commit : VerifiedCommit} {fold : LtHashState}
    (inv : Inv space did m best) (held : m.runs.lookup id = some (.agreed window commit fold)) :
    Inv space did
      { m.proceed id (.saving window commit fold (m.store.getOrCreateRepoState space.id did)) with
        store := Migration.created space.id did m.store } best := by
  rw [inv.created_eq]
  obtain ⟨known, mirrors⟩ := inv.runs id _ held
  exact inv.proceed ⟨known, mirrors, inv.native⟩

theorem Inv.step {action : SyncAction} (inv : Inv space did m best)
    (turn : ∀ id window pending, action = .apply id →
      m.runs.lookup id = some (.applying window pending) → m.latest.map Prod.fst = some id)
    (step : Step crypto backend space did m action m') : ∃ best', Inv space did m' best' := by
  cases step with
  | host later valid => exact ⟨best, inv.host later valid⟩
  | start free new => exact ⟨best, inv.start _⟩
  | failed own held => exact ⟨best, inv.finish _ none⟩
  | page held next =>
    obtain ⟨cut, listed⟩ := inv.runs _ _ held
    exact ⟨best, inv.proceed ⟨cut, next.listed listed⟩⟩
  | lastPage held next all =>
    obtain ⟨cut, listed⟩ := inv.runs _ _ held
    exact ⟨best, inv.listed cut (next.listed listed) (next.length_le all)⟩
  | apply held applied => exact ⟨best, inv.apply (turn _ _ _ rfl held) held applied⟩
  | commit held latest =>
    obtain ⟨known, done, -⟩ := inv.runs _ _ held
    exact ⟨best, inv.proceed ⟨known, done rfl⟩⟩
  | check held => exact ⟨best, inv.check held⟩
  | reread held => exact ⟨best, inv.reread held⟩
  | save held => exact ⟨_, inv.save held⟩

end Steps

end SyncDesk

end HappyView.Spaces
