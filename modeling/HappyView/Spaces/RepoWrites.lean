import HappyView.Foundation.FiniteMap
import HappyView.Spaces.Repo

/-!
# What a write touches

A record is stored under its URI. The parts of a URI up to the path of the record are free of
slashes, since spaces are found by parsing a URI and authors are DIDs, so a write finds at its URI
only records of its own author in its own space.
-/

namespace HappyView.Spaces

open HappyView.Foundation

def recordPath (collection rkey : String) : String := "/".intercalate [collection, rkey]

def WriteOp.key : WriteOp → String × String
  | .create collection rkey _ | .update collection rkey _ _ | .delete collection rkey _ =>
    (collection, rkey)

/-! ## Addresses -/

def NoSlash (s : String) : Prop := '/' ∉ s.toList

instance (s : String) : Decidable (NoSlash s) := inferInstanceAs (Decidable (_ ∉ _))

def SpaceStore.spaceIdAt (s : SpaceStore) (did typeNsid skey : String) : Option String :=
  (s.spaces.find? fun space =>
    space.did = did && space.typeNsid = typeNsid && space.skey = skey).map (·.id)

theorem intercalate_inj {a b a' b' : String} {l l' : List String} (ha : NoSlash a)
    (ha' : NoSlash a') (h : "/".intercalate (a :: b :: l) = "/".intercalate (a' :: b' :: l')) :
    a = a' ∧ "/".intercalate (b :: l) = "/".intercalate (b' :: l') := by
  rw [String.intercalate_cons_cons, String.intercalate_cons_cons] at h
  exact Text.join_inj ha ha' h

theorem recordUri_inj {d t k u c r d' t' k' u' c' r' : String} (hd : NoSlash d) (ht : NoSlash t)
    (hk : NoSlash k) (hu : NoSlash u) (hd' : NoSlash d') (ht' : NoSlash t') (hk' : NoSlash k')
    (hu' : NoSlash u') (h : recordUri d t k u c r = recordUri d' t' k' u' c' r') :
    (d = d' ∧ t = t' ∧ k = k') ∧ u = u' ∧ recordPath c r = recordPath c' r' := by
  have space : NoSlash "space" := by decide +kernel
  have text := Option.some.inj <| (Text.strip_append "at://" _).symm.trans <|
    (congrArg (Text.strip "at://") h).trans (Text.strip_append _ _)
  obtain ⟨sameDid, fromSpace⟩ := intercalate_inj hd hd' text
  obtain ⟨-, fromType⟩ := intercalate_inj space space fromSpace
  obtain ⟨sameType, fromKey⟩ := intercalate_inj ht ht' fromType
  obtain ⟨sameKey, fromUser⟩ := intercalate_inj hk hk' fromKey
  obtain ⟨sameUser, samePath⟩ := intercalate_inj hu hu' fromUser
  exact ⟨⟨sameDid, sameType, sameKey⟩, sameUser, samePath⟩

structure SpaceStore.Resolved (s : SpaceStore) (space : Space) : Prop where
  did : NoSlash space.did
  typeNsid : NoSlash space.typeNsid
  skey : NoSlash space.skey
  id : s.spaceIdAt space.did space.typeNsid space.skey = some space.id

theorem SpaceUri.parse_noSlash {ref : String} {uri : SpaceUri} (h : SpaceUri.parse ref = .ok uri) :
    NoSlash uri.did ∧ NoSlash uri.typeNsid ∧ NoSlash uri.skey := by
  obtain ⟨text, -, parts⟩ := bind_eq_ok.mp h
  have each : ∀ part ∈ Text.split '/' text, NoSlash part := fun _ => Text.not_mem_of_mem_split
  generalize Text.split '/' text = list at each parts
  unfold SpaceUri.ofParts at parts
  split at parts
  · rename_i did second typeNsid skey rest
    have all : NoSlash did ∧ NoSlash typeNsid ∧ NoSlash skey :=
      ⟨each _ (by simp), each _ (by simp), each _ (by simp)⟩
    split at parts
    · cases parts
    split at parts
    · cases parts
    split at parts
    · split at parts
      · cases parts
      · cases parts
        exact all
    · cases parts
      exact all
    · cases parts
  · cases parts

theorem SpaceStore.resolveSpace_resolved {s : SpaceStore} {ref : String} {space : HostedSpace}
    (h : s.resolveSpace ref = .ok space) : s.Resolved space.toSpace := by
  obtain ⟨uri, parsed, h⟩ := bind_eq_ok.mp h
  obtain ⟨found, h, last⟩ := bind_eq_ok.mp h
  obtain ⟨-, -, same⟩ := bind_eq_ok.mp last
  cases same
  have held := require_eq_ok.mp h
  obtain ⟨did, typeNsid, skey⟩ := SpaceUri.parse_noSlash parsed
  have here := List.find?_some held
  simp only [Bool.and_eq_true, decide_eq_true_eq] at here
  obtain ⟨⟨sameDid, sameType⟩, sameKey⟩ := here
  refine ⟨sameDid ▸ did, sameType ▸ typeNsid, sameKey ▸ skey, ?_⟩
  rw [spaceIdAt, sameDid, sameType, sameKey, held]
  rfl

/-! ## One write -/

section Write

variable {s s' : SpaceStore} {crypto : Crypto} {backend : Writers.DatabaseBackend}
  {space : Space} {did : String} {op : WriteOp} {applied : AppliedOp} {K : String × String → Prop}

/-- The row stands at the URI that its columns give. -/
def SpaceStore.Sits (s : SpaceStore) (K : String × String → Prop) (uri : String)
    (row : SpaceRecord) : Prop :=
  ∃ space : Space, s.Resolved space ∧ row.spaceId = space.id ∧ NoSlash row.authorDid ∧
    K (row.collection, row.rkey) ∧
    uri = recordUri space.did space.typeNsid space.skey row.authorDid row.collection row.rkey

def WriteOp.uri (op : WriteOp) (space : Space) (did : String) : String :=
  recordUri space.did space.typeNsid space.skey did op.key.1 op.key.2

theorem SpaceStore.Sits.same {row : SpaceRecord} (resolved : s.Resolved space)
    (author : NoSlash did) (sits : s.Sits K (op.uri space did) row) :
    row.spaceId = space.id ∧ row.authorDid = did ∧ K (row.collection, row.rkey) ∧
      recordPath row.collection row.rkey = recordPath op.key.1 op.key.2 := by
  obtain ⟨space', resolved', id, author', known, uri⟩ := sits
  obtain ⟨⟨sameDid, sameType, sameKey⟩, same, path⟩ :=
    recordUri_inj resolved.did resolved.typeNsid resolved.skey author resolved'.did
      resolved'.typeNsid resolved'.skey author' uri
  have ids := resolved.id
  rw [sameDid, sameType, sameKey, resolved'.id] at ids
  exact ⟨id.trans (Option.some.inj ids), same.symm, known, path.symm⟩

inductive WriteOp.Leaves (op : WriteOp) (space : Space) (did : String) (held : Option SpaceRecord) :
    SpaceRecord → Prop where
  | new (record cid : String) :
      Leaves op space did held ⟨space.id, did, op.key.1, op.key.2, record, cid⟩
  | changed (record cid : String) {row : SpaceRecord} (old : held = some row) :
      Leaves op space did held { row with record := record, cid := cid }

theorem SpaceStore.upsertSpaceRecord_cases (s : SpaceStore) (backend : Writers.DatabaseBackend)
    (uri : String) (row : SpaceRecord) :
    s.upsertSpaceRecord backend uri row = { s with records := s.records.insert uri row } ∨
    ∃ held, s.records.lookup uri = some held ∧ s.upsertSpaceRecord backend uri row =
      { s with
        records := s.records.insert uri { held with record := row.record, cid := row.cid } } := by
  unfold upsertSpaceRecord
  split
  · rename_i held found
    exact .inr ⟨held, found, rfl⟩
  · exact .inl rfl

theorem SpaceStore.applyOp_cases
    (h : s.applyOp crypto backend space did op = .ok (applied, s')) :
    (applied.collection = op.key.1 ∧ applied.rkey = op.key.2) ∧
    applied.oldCid = (s.records.lookup (op.uri space did)).map (·.cid) ∧
    ((∃ row, op.Leaves space did (s.records.lookup (op.uri space did)) row ∧
        applied.newCid = some row.cid ∧
        s' = { s with records := s.records.insert (op.uri space did) row }) ∨
      (applied.newCid = none ∧ s' = { s with records := s.records.erase (op.uri space did) })) := by
  cases op with
  | create collection rkey value =>
    obtain ⟨cid, -, h⟩ := bind_eq_ok.mp h
    obtain ⟨after, inserted, h⟩ := bind_eq_ok.mp h
    cases h
    unfold insertSpaceRecord at inserted
    split at inserted
    · cases inserted
    · rename_i absent
      cases inserted
      refine ⟨⟨rfl, rfl⟩, ?_, .inl ⟨_, .new _ _, rfl, rfl⟩⟩
      simp_all [getSpaceRecord, WriteOp.uri, WriteOp.key]
  | update collection rkey value swap =>
    cases swap with
    | some swap =>
      obtain ⟨cid, -, h⟩ := bind_eq_ok.mp h
      obtain ⟨after, swapped, h⟩ := bind_eq_ok.mp h
      cases h
      unfold upsertSpaceRecordWithSwap at swapped
      split at swapped
      · rename_i held match_
        cases swapped
        obtain ⟨found, same⟩ := Option.filter_eq_some_iff.mp match_
        refine ⟨⟨rfl, rfl⟩, ?_, .inl ⟨_, .changed _ _ found, rfl, rfl⟩⟩
        simp_all [getSpaceRecord, WriteOp.uri, WriteOp.key]
      · cases swapped
    | none =>
      obtain ⟨cid, -, h⟩ := bind_eq_ok.mp h
      cases h
      obtain upserted | ⟨held, found, upserted⟩ := s.upsertSpaceRecord_cases backend
        (recordUri space.did space.typeNsid space.skey did collection rkey)
        ⟨space.id, did, collection, rkey, value, cid⟩
      · exact ⟨⟨rfl, rfl⟩, rfl, .inl ⟨_, .new _ _, rfl, upserted⟩⟩
      · exact ⟨⟨rfl, rfl⟩, rfl, .inl ⟨_, .changed _ _ found, rfl, upserted⟩⟩
  | delete collection rkey swap =>
    cases swap with
    | some swap =>
      obtain ⟨after, swapped, h⟩ := bind_eq_ok.mp h
      cases h
      unfold deleteSpaceRecordWithSwap at swapped
      split at swapped
      · rename_i held match_
        cases swapped
        obtain ⟨found, same⟩ := Option.filter_eq_some_iff.mp match_
        refine ⟨⟨rfl, rfl⟩, ?_, .inr ⟨rfl, rfl⟩⟩
        simp_all [getSpaceRecord, WriteOp.uri, WriteOp.key]
      · cases swapped
    | none =>
      obtain ⟨held, found, h⟩ := bind_eq_ok.mp h
      obtain ⟨-, -, h⟩ := bind_eq_ok.mp h
      cases h
      refine ⟨⟨rfl, rfl⟩, ?_, .inr ⟨rfl, rfl⟩⟩
      rw [require_eq_ok] at found
      simp_all [getSpaceRecord, WriteOp.uri, WriteOp.key]

theorem SpaceStore.applyOps_frame {ops : List WriteOp} {appliedOps : List AppliedOp}
    (h : applyOps crypto backend space did ops s = .ok (appliedOps, s')) :
    s'.spaces = s.spaces ∧ s'.repoStates = s.repoStates := by
  induction ops generalizing s appliedOps with
  | nil =>
    cases h
    exact ⟨rfl, rfl⟩
  | cons op ops ih =>
    obtain ⟨⟨first, mid⟩, one, h⟩ := bind_eq_ok.mp h
    obtain ⟨⟨rest, last⟩, more, h⟩ := bind_eq_ok.mp h
    cases h
    have same := ih more
    obtain ⟨-, -, ⟨row, -, -, rfl⟩ | ⟨-, rfl⟩⟩ := applyOp_cases one <;> exact same

/-! ## What a transaction leaves as it was -/

/-- Every row sits at its URI, with a key in `K`. -/
def SpaceStore.Tidy (s : SpaceStore) (K : String × String → Prop) : Prop :=
  ∀ uri row, s.records.lookup uri = some row → s.Sits K uri row

structure SpaceStore.Touches (s s' : SpaceStore) (space : Space) (did : String) : Prop where
  spaces : s'.spaces = s.spaces
  repoStates : s'.repoStates = s.repoStates
  others : ∀ uri (row : SpaceRecord), ¬ (row.spaceId = space.id ∧ row.authorDid = did) →
    (s'.records.lookup uri = some row ↔ s.records.lookup uri = some row)

theorem SpaceStore.Touches.refl (s : SpaceStore) : s.Touches s space did :=
  ⟨rfl, rfl, fun _ _ _ => Iff.rfl⟩

theorem SpaceStore.Touches.trans {s'' : SpaceStore} (first : s.Touches s' space did)
    (second : s'.Touches s'' space did) : s.Touches s'' space did where
  spaces := second.spaces.trans first.spaces
  repoStates := second.repoStates.trans first.repoStates
  others uri row other := (second.others uri row other).trans (first.others uri row other)

theorem SpaceStore.Resolved.congr (resolved : s.Resolved space) (same : s'.spaces = s.spaces) :
    s'.Resolved space := by
  refine ⟨resolved.did, resolved.typeNsid, resolved.skey, ?_⟩
  rw [spaceIdAt, same]
  exact resolved.id

theorem SpaceStore.Sits.congr {uri : String} {row : SpaceRecord} (sits : s.Sits K uri row)
    (same : s'.spaces = s.spaces) : s'.Sits K uri row := by
  obtain ⟨space, resolved, rest⟩ := sits
  exact ⟨space, resolved.congr same, rest⟩

theorem WriteOp.Leaves.sits {row : SpaceRecord} (tidy : s.Tidy K) (resolved : s.Resolved space)
    (author : NoSlash did) (known : K op.key)
    (leaves : op.Leaves space did (s.records.lookup (op.uri space did)) row) :
    s.Sits K (op.uri space did) row := by
  cases leaves with
  | new record cid => exact ⟨space, resolved, rfl, author, known, rfl⟩
  | changed record cid old =>
    obtain ⟨space', resolved', rest⟩ := tidy _ _ old
    exact ⟨space', resolved', rest⟩

theorem SpaceStore.Tidy.mine (tidy : s.Tidy K) (resolved : s.Resolved space)
    (author : NoSlash did) {row : SpaceRecord}
    (held : s.records.lookup (op.uri space did) = some row) :
    row.spaceId = space.id ∧ row.authorDid = did := by
  obtain ⟨id, same, -⟩ := (tidy _ _ held).same resolved author
  exact ⟨id, same⟩

theorem SpaceStore.Tidy.put (tidy : s.Tidy K) (resolved : s.Resolved space)
    (author : NoSlash did) {row : SpaceRecord} (sits : s.Sits K (op.uri space did) row) :
    { s with records := s.records.insert (op.uri space did) row }.Tidy K ∧
      s.Touches { s with records := s.records.insert (op.uri space did) row } space did := by
  obtain ⟨id, same, -⟩ := sits.same resolved author
  refine ⟨fun uri found held => ?_, rfl, rfl, fun uri found other => ?_⟩
  · rcases lookup_insert_cases held with ⟨rfl, rfl⟩ | held
    · exact sits.congr rfl
    · exact (tidy uri found held).congr rfl
  · by_cases here : uri = op.uri space did
    · subst here
      rw [AList.lookup_insert]
      refine ⟨fun same' => ?_, fun held => absurd (tidy.mine resolved author held) other⟩
      cases same'
      exact absurd ⟨id, same⟩ other
    · rw [AList.lookup_insert_ne here]

theorem SpaceStore.Tidy.take (tidy : s.Tidy K) (resolved : s.Resolved space)
    (author : NoSlash did) :
    { s with records := s.records.erase (op.uri space did) }.Tidy K ∧
      s.Touches { s with records := s.records.erase (op.uri space did) } space did := by
  refine ⟨fun uri found held => ?_, rfl, rfl, fun uri found other => ?_⟩
  · exact (tidy uri found (lookup_erase_some held).2).congr rfl
  · by_cases here : uri = op.uri space did
    · subst here
      rw [AList.lookup_erase]
      exact ⟨nofun, fun held => absurd (tidy.mine resolved author held) other⟩
    · rw [AList.lookup_erase_ne here]

theorem SpaceStore.applyOp_touches (tidy : s.Tidy K) (resolved : s.Resolved space)
    (author : NoSlash did) (known : K op.key)
    (h : s.applyOp crypto backend space did op = .ok (applied, s')) :
    s'.Tidy K ∧ s.Touches s' space did := by
  obtain ⟨-, -, ⟨row, leaves, -, rfl⟩ | ⟨-, rfl⟩⟩ := applyOp_cases h
  · exact tidy.put resolved author (leaves.sits tidy resolved author known)
  · exact tidy.take resolved author

theorem SpaceStore.applyOps_touches (author : NoSlash did) {ops : List WriteOp}
    {appliedOps : List AppliedOp} (tidy : s.Tidy K) (resolved : s.Resolved space)
    (known : ∀ op ∈ ops, K op.key)
    (h : applyOps crypto backend space did ops s = .ok (appliedOps, s')) :
    s'.Tidy K ∧ s.Touches s' space did := by
  induction ops generalizing s appliedOps with
  | nil =>
    cases h
    exact ⟨tidy, .refl _⟩
  | cons op ops ih =>
    obtain ⟨⟨first, mid⟩, one, h⟩ := bind_eq_ok.mp h
    obtain ⟨⟨rest, last⟩, more, h⟩ := bind_eq_ok.mp h
    cases h
    obtain ⟨tidy₁, touches₁⟩ := applyOp_touches tidy resolved author (known op (by simp)) one
    obtain ⟨tidy₂, touches₂⟩ :=
      ih tidy₁ (resolved.congr touches₁.spaces) (fun op mem => known op (by simp [mem])) more
    exact ⟨tidy₂, touches₁.trans touches₂⟩

theorem SpaceStore.spaceIdAt_updateSpaceRevision (s : SpaceStore)
    (spaceId rev d t k : String) :
    (s.updateSpaceRevision spaceId rev).spaceIdAt d t k = s.spaceIdAt d t k := by
  unfold spaceIdAt updateSpaceRevision
  induction s.spaces with
  | nil => rfl
  | cons first spaces ih =>
    simp only [List.map_cons, List.find?_cons]
    by_cases here : first.id = spaceId
    · simp only [here, if_true]
      split
      · simp [here]
      · exact ih
    · simp only [here, if_false]
      split
      · rfl
      · exact ih

theorem SpaceStore.commitWrite_cases {stamp : Stamp} {ops : List AppliedOp}
    (h : s.commitWrite crypto space did stamp ops = .ok s') :
    s'.records = s.records ∧ s'.spaces = (s.updateSpaceRevision space.id stamp.rev).spaces ∧
    ∃ state : RepoState, s'.repoStates = s.repoStates.insert (space.id, did) state ∧
      state.lthashState = (ops.foldl (foldOp crypto)
        (.fromBytes (s.getOrCreateRepoState space.id did).lthashState)).asBytes := by
  obtain ⟨-, -, h⟩ := bind_eq_ok.mp h
  obtain ⟨⟨recorded, rows⟩, -, h⟩ := bind_eq_ok.mp h
  cases h
  refine ⟨rfl, rfl, _, rfl, ?_⟩
  simp only

theorem SpaceStore.Sits.moved {uri : String} {row : SpaceRecord} (sits : s.Sits K uri row)
    (same : ∀ d t k, s'.spaceIdAt d t k = s.spaceIdAt d t k) : s'.Sits K uri row := by
  obtain ⟨space, resolved, rest⟩ := sits
  exact ⟨space, ⟨resolved.did, resolved.typeNsid, resolved.skey, (same _ _ _).trans resolved.id⟩,
    rest⟩

theorem SpaceStore.transact_spaces {call : WriteCall}
    (h : call.transact crypto backend space s = .ok s') :
    s'.spaces = (s.updateSpaceRevision space.id call.stamp.rev).spaces := by
  obtain ⟨⟨applied, mid⟩, wrote, h⟩ := bind_eq_ok.mp h
  rw [(commitWrite_cases h).2.1, updateSpaceRevision, updateSpaceRevision, (applyOps_frame wrote).1]

theorem SpaceStore.transact_repoStates {call : WriteCall}
    (h : call.transact crypto backend space s = .ok s') :
    ∃ state, s'.repoStates = s.repoStates.insert (space.id, call.did.val) state := by
  obtain ⟨⟨applied, mid⟩, wrote, h⟩ := bind_eq_ok.mp h
  obtain ⟨-, -, state, states, -⟩ := commitWrite_cases h
  exact ⟨state, (applyOps_frame wrote).2 ▸ states⟩

theorem SpaceStore.mem_authorRecords {s : SpaceStore} {spaceId author : String}
    {row : SpaceRecord} : row ∈ s.authorRecords spaceId author ↔
      (∃ uri, s.records.lookup uri = some row) ∧ row.spaceId = spaceId ∧
        row.authorDid = author := by
  rw [authorRecords, List.mem_filter, List.mem_map, decide_eq_true_eq]
  refine and_congr ⟨?_, ?_⟩ Iff.rfl
  · rintro ⟨entry, held, rfl⟩
    exact ⟨entry.1, AList.mem_lookup_iff.mpr held⟩
  · rintro ⟨uri, held⟩
    exact ⟨⟨uri, row⟩, AList.mem_lookup_iff.mp held, rfl⟩

theorem SpaceStore.transact_cases {call : WriteCall} (tidy : s.Tidy K)
    (resolved : s.Resolved space) (known : ∀ op ∈ call.writes, K op.key)
    (h : call.transact crypto backend space s = .ok s') :
    s'.Tidy K ∧
    (∀ uri (row : SpaceRecord), ¬ (row.spaceId = space.id ∧ row.authorDid = call.did.val) →
      (s'.records.lookup uri = some row ↔ s.records.lookup uri = some row)) := by
  have spaces := transact_spaces h
  obtain ⟨⟨applied, mid⟩, wrote, h⟩ := bind_eq_ok.mp h
  obtain ⟨tidy, touches⟩ := applyOps_touches call.did.property tidy resolved known wrote
  obtain ⟨records, -⟩ := commitWrite_cases h
  have moved (d t k : String) : s'.spaceIdAt d t k = mid.spaceIdAt d t k := by
    rw [spaceIdAt, spaces, spaceIdAt, touches.spaces]
    exact spaceIdAt_updateSpaceRevision s space.id call.stamp.rev d t k
  refine ⟨fun uri row held => ?_, ?_⟩
  · rw [records] at held
    exact (tidy uri row held).moved moved
  · rw [records]
    exact touches.others

end Write

end HappyView.Spaces
