import HappyView.Spaces.RepoWrites
import Mathlib.Tactic.Abel

/-!
# The set hash follows the records

Every committed call moves the author's set hash by the elements it removes and adds, taken from
the previous cid that each write saw.

A record is stored under its URI, which two pairs of collection and record key may share: no call
refuses a collection with a slash. The hash is right whenever elements do not tell such pairs
apart. `record_element`, which joins collection and key as the URI does, never does.
-/

namespace HappyView.Spaces

open HappyView.Foundation

/-- The element of a record does not depend on how its path splits, for the keys in `K`. -/
def ElementsAgree (element : String → String → String → LtHashState) (K : String × String → Prop) :
    Prop :=
  ∀ a b, K a → K b → recordPath a.1 a.2 = recordPath b.1 b.2 →
    ∀ cid, element a.1 a.2 cid = element b.1 b.2 cid

section Write

variable {s s' : SpaceStore} {crypto : Crypto} {backend : Writers.DatabaseBackend}
  {space : Space} {did : String} {op : WriteOp} {applied : AppliedOp} {K : String × String → Prop}

def weigh (crypto : Crypto) (spaceId did : String) (_ : String) (row : SpaceRecord) :
    LtHashState :=
  if row.spaceId = spaceId ∧ row.authorDid = did then
    crypto.element row.collection row.rkey row.cid
  else 0

def AppliedOp.delta (crypto : Crypto) (op : AppliedOp) : LtHashState :=
  op.newCid.elim 0 (crypto.element op.collection op.rkey) -
    op.oldCid.elim 0 (crypto.element op.collection op.rkey)

theorem foldOp_eq (crypto : Crypto) (hash : LtHashState) (op : AppliedOp) :
    SpaceStore.foldOp crypto hash op = hash + op.delta crypto := by
  unfold SpaceStore.foldOp AppliedOp.delta
  cases op.oldCid <;> cases op.newCid <;>
    simp only [Option.elim, LtHashState.add_eq, LtHashState.remove_eq] <;> abel

theorem foldl_foldOp (crypto : Crypto) (hash : LtHashState) (ops : List AppliedOp) :
    ops.foldl (SpaceStore.foldOp crypto) hash = hash + (ops.map (·.delta crypto)).sum := by
  induction ops generalizing hash with
  | nil => simp
  | cons op ops ih =>
    rw [List.foldl_cons, ih, foldOp_eq, List.map_cons, List.sum_cons, add_assoc]

theorem SpaceStore.share_uri (tidy : s.Tidy K) (agree : ElementsAgree crypto.element K)
    (resolved : s.Resolved space) (author : NoSlash did) (known : K op.key)
    (spaceId author' : String) :
    share (weigh crypto spaceId author') s.records (op.uri space did) =
      if space.id = spaceId ∧ did = author' then
        ((s.records.lookup (op.uri space did)).map (·.cid)).elim 0
          (crypto.element op.key.1 op.key.2)
      else 0 := by
  unfold share
  cases held : s.records.lookup (op.uri space did) with
  | none => simp
  | some row =>
    obtain ⟨id, same, other, path⟩ := (tidy _ _ held).same resolved author
    simp only [Option.elim, weigh, id, same, Option.map_some]
    rw [agree _ _ other known path]

theorem SpaceStore.applyOp_total (tidy : s.Tidy K) (agree : ElementsAgree crypto.element K)
    (resolved : s.Resolved space) (author : NoSlash did) (known : K op.key)
    (h : s.applyOp crypto backend space did op = .ok (applied, s')) (spaceId author' : String) :
    total (weigh crypto spaceId author') s'.records =
      total (weigh crypto spaceId author') s.records +
        if space.id = spaceId ∧ did = author' then applied.delta crypto else 0 := by
  obtain ⟨key, old, ⟨row, leaves, new, rfl⟩ | ⟨new, rfl⟩⟩ := applyOp_cases h
  · obtain ⟨id, same, other, path⟩ :=
      (leaves.sits tidy resolved author known).same resolved author
    rw [total_insert, share_uri tidy agree resolved author known, AppliedOp.delta, old, new,
      key.1, key.2]
    simp only [weigh, id, same, Option.elim]
    rw [agree _ _ other known path]
    split
    · abel
    · simp
  · rw [total_erase, share_uri tidy agree resolved author known, AppliedOp.delta, old, new,
      key.1, key.2]
    split
    · simp [sub_eq_add_neg]
    · simp

theorem SpaceStore.applyOps_total (agree : ElementsAgree crypto.element K)
    (author : NoSlash did) {ops : List WriteOp} {appliedOps : List AppliedOp} (tidy : s.Tidy K)
    (resolved : s.Resolved space) (known : ∀ op ∈ ops, K op.key)
    (h : applyOps crypto backend space did ops s = .ok (appliedOps, s'))
    (spaceId author' : String) :
    total (weigh crypto spaceId author') s'.records =
      total (weigh crypto spaceId author') s.records +
        if space.id = spaceId ∧ did = author' then (appliedOps.map (·.delta crypto)).sum
        else 0 := by
  induction ops generalizing s appliedOps with
  | nil =>
    cases h
    simp
  | cons op ops ih =>
    obtain ⟨⟨first, mid⟩, one, h⟩ := bind_eq_ok.mp h
    obtain ⟨⟨rest, last⟩, more, h⟩ := bind_eq_ok.mp h
    cases h
    have knownOp := known op (by simp)
    obtain ⟨tidy₁, touches₁⟩ := applyOp_touches tidy resolved author knownOp one
    rw [ih tidy₁ (resolved.congr touches₁.spaces) (fun op mem => known op (by simp [mem])) more,
      applyOp_total tidy agree resolved author knownOp one, add_assoc, List.map_cons, List.sum_cons]
    split <;> simp

/-! ## Committing -/

/-- The set hash stored for a repo in `R` is that of the stored records. -/
structure SpaceStore.Hashed (s : SpaceStore) (crypto : Crypto) (K : String × String → Prop)
    (R : String → String → Prop) : Prop where
  tidy : s.Tidy K
  known : ∀ uri row, s.records.lookup uri = some row →
    (s.readRepoState row.spaceId row.authorDid).isSome
  hash : ∀ spaceId author, R spaceId author →
    (s.getOrCreateRepoState spaceId author).lthashState =
      (total (weigh crypto spaceId author) s.records).asBytes

variable {R : String → String → Prop}

theorem SpaceStore.Hashed.transact {call : WriteCall} (hashed : s.Hashed crypto K R)
    (agree : ElementsAgree crypto.element K) (known : ∀ op ∈ call.writes, K op.key)
    (resolved : s.Resolved space) (h : call.transact crypto backend space s = .ok s') :
    s'.Hashed crypto K R := by
  obtain ⟨tidy, others⟩ := transact_cases hashed.tidy resolved known h
  obtain ⟨⟨applied, mid⟩, wrote, h⟩ := bind_eq_ok.mp h
  obtain ⟨-, touches⟩ := applyOps_touches call.did.property hashed.tidy resolved known wrote
  obtain ⟨records, -, state, states, hash⟩ := commitWrite_cases h
  rw [touches.repoStates] at states
  have reads (spaceId author : String) : s'.readRepoState spaceId author =
      if space.id = spaceId ∧ call.did.val = author then some state
      else s.readRepoState spaceId author := by
    unfold readRepoState
    rw [states]
    split
    · rename_i here
      rw [here.1, here.2, AList.lookup_insert]
    · rename_i away
      rw [AList.lookup_insert_ne]
      rintro ⟨⟩
      exact away ⟨rfl, rfl⟩
  refine ⟨tidy, fun uri row held => ?_, fun spaceId author covered => ?_⟩
  · rw [reads]
    split
    · rfl
    · rename_i away
      refine hashed.known uri row ((others uri row fun mine => away ?_).mp held)
      exact ⟨mine.1.symm, mine.2.symm⟩
  · rw [getOrCreateRepoState, reads, records,
      applyOps_total agree call.did.property hashed.tidy resolved known wrote]
    split
    · rename_i here
      have before := hashed.hash space.id call.did.val (by rwa [here.1, here.2])
      have middle : mid.getOrCreateRepoState space.id call.did.val =
          s.getOrCreateRepoState space.id call.did.val := by
        simp only [getOrCreateRepoState, readRepoState, touches.repoStates]
      rw [Option.getD_some, hash, foldl_foldOp, middle, before, LtHashState.fromBytes_asBytes,
        here.1, here.2]
    · rw [add_zero]
      exact hashed.hash spaceId author covered

theorem SpaceStore.Hashed.perform {call : WriteCall} (hashed : s.Hashed crypto K R)
    (agree : ElementsAgree crypto.element K) (known : ∀ op ∈ call.writes, K op.key) :
    (s.perform crypto backend call).Hashed crypto K R := by
  unfold SpaceStore.perform
  split
  · rename_i space admitted
    split
    · rename_i after wrote
      refine hashed.transact agree known ?_ wrote
      obtain ⟨found, resolves, rest⟩ := bind_eq_ok.mp admitted
      obtain ⟨here, -, same⟩ := bind_eq_ok.mp rest
      cases here <;> cases same
      exact resolveSpace_resolved resolves
    · exact hashed
  · exact hashed

theorem SpaceStore.hashed_fresh (records : s.records = ∅) (states : s.repoStates = ∅) :
    s.Hashed crypto K R where
  tidy uri row held := by simp [records] at held
  known uri row held := by simp [records] at held
  hash spaceId author _ := by
    rw [records, total_empty, getOrCreateRepoState, readRepoState, states]
    simp [RepoState.created, LtHashState.asBytes_zero]

end Write

/-! ## Runs -/

def SpaceRecord.element (crypto : Crypto) (row : SpaceRecord) : LtHashState :=
  crypto.element row.collection row.rkey row.cid

theorem SpaceStore.total_weigh (s : SpaceStore) (crypto : Crypto) (spaceId did : String) :
    total (weigh crypto spaceId did) s.records =
      foldElements (SpaceRecord.element crypto) (s.authorRecords spaceId did) := by
  rw [foldElements_eq, total, authorRecords]
  induction s.records.entries with
  | nil => rfl
  | cons entry entries ih =>
    rw [List.map_cons, List.sum_cons, ih, List.map_cons, List.filter_cons]
    by_cases mine : entry.2.spaceId = spaceId ∧ entry.2.authorDid = did
    · simp [mine, weigh, SpaceRecord.element]
    · simp [mine, weigh]

/-- The set hash stored for a repo is that of `records`. A repo without one has none. -/
structure SpaceStore.SetHashIs (s : SpaceStore) (crypto : Crypto) (spaceId did : String)
    (records : List SpaceRecord) : Prop where
  hash : ∀ state, s.readRepoState spaceId did = some state →
    state.lthashState = (foldElements (SpaceRecord.element crypto) records).asBytes
  absent : s.readRepoState spaceId did = none → records = []

/-- After any calls, whatever they write and whichever of them fail: the set hash stored for
a repo is the fold of the elements of exactly its stored records, in any order, if elements
do not tell apart two written keys with the same path. -/
theorem setHash_run (crypto : Crypto) (backend : Writers.DatabaseBackend) (start : SpaceStore)
    (fresh : start.records = ∅ ∧ start.repoStates = ∅) (calls : List WriteCall)
    (agree : ElementsAgree crypto.element fun key =>
      ∃ call ∈ calls, ∃ op ∈ call.writes, op.key = key)
    (spaceId did : String) (records : List SpaceRecord)
    (all : records.Perm ((start.performAll crypto backend calls).authorRecords spaceId did)) :
    (start.performAll crypto backend calls).SetHashIs crypto spaceId did records := by
  have run (done : List WriteCall) (sub : done ⊆ calls) :
      (start.performAll crypto backend done).Hashed crypto
        (fun key => ∃ call ∈ calls, ∃ op ∈ call.writes, op.key = key) fun _ _ => True := by
    induction done using List.reverseRecOn with
    | nil => exact SpaceStore.hashed_fresh fresh.1 fresh.2
    | append_singleton done call ih =>
      rw [SpaceStore.performAll, List.foldl_append]
      exact (ih fun c mem => sub (by simp [mem])).perform agree fun op mem =>
        ⟨call, sub (by simp), op, mem, rfl⟩
  have hashed := run calls (List.Subset.refl calls)
  generalize start.performAll crypto backend calls = s at all hashed ⊢
  have stored := hashed.hash spaceId did trivial
  rw [SpaceStore.getOrCreateRepoState, s.total_weigh, ← foldElements_perm all] at stored
  refine ⟨fun state held => ?_, fun absent => ?_⟩
  · rw [held] at stored
    exact stored
  · have none : s.authorRecords spaceId did = [] := by
      refine List.filter_eq_nil_iff.mpr fun row mem => ?_
      obtain ⟨entry, held, rfl⟩ := List.mem_map.mp mem
      have known := hashed.known entry.1 entry.2 (AList.mem_lookup_iff.mpr held)
      rw [decide_eq_true_eq]
      rintro ⟨id, same⟩
      rw [id, same, absent] at known
      cases known
    rw [none] at all
    exact all.eq_nil

theorem elementsAgree_recordElement (expand : String → LtHashState) (K : String × String → Prop) :
    ElementsAgree (fun collection rkey cid => expand (recordElement collection rkey cid)) K := by
  intro a b _ _ path cid
  have text (collection rkey : String) :
      recordElement collection rkey cid = recordPath collection rkey ++ "/" ++ cid := by
    rw [recordElement, recordPath, String.intercalate_cons_cons, String.intercalate_cons_cons,
      String.intercalate_cons_cons, String.intercalate_singleton, String.intercalate_singleton]
    simp only [String.append_assoc]
  simp only [text, path]

def forumStore : SpaceStore where
  spaces := [⟨⟨"s1", "did:plc:s", "app.forum", "main", none⟩, [], none⟩]
  members := [⟨"s1", "did:plc:a", ⟨true, true, false⟩, false, "2026-01-01"⟩]

def forumMember : Did := ⟨"did:plc:a", by decide +kernel⟩

def slashCalls : List WriteCall :=
  let put (collection rkey record : String) : WriteCall :=
    putRecord forumMember "at://did:plc:s/space/app.forum/main" collection rkey
      record none ⟨"2222222222222", 0, "2222222222222", []⟩
  [put "a/b" "c" "x", put "a" "b/c" "y"]

def apartCrypto : Crypto where
  element collection _ _ := if collection = "a/b" then 1 else 0
  contentCid := some
  sha256 := id
  sign _ _ _ _ := []
  computeMac _ _ _ _ _ := []

/-- The hash keeps what the first key added, while the one stored row has the second key. -/
theorem setHash_slash :
    (forumStore.performAll apartCrypto .sqlite slashCalls).authorRecords "s1" "did:plc:a" =
      [⟨"s1", "did:plc:a", "a", "b/c", "y", "y"⟩] ∧
    ¬ (forumStore.performAll apartCrypto .sqlite slashCalls).SetHashIs apartCrypto "s1" "did:plc:a"
      [⟨"s1", "did:plc:a", "a", "b/c", "y", "y"⟩] := by
  refine ⟨by decide +kernel, fun same => ?_⟩
  have stored : ((forumStore.performAll apartCrypto .sqlite slashCalls).readRepoState "s1"
      "did:plc:a").map (·.lthashState.head?) = some (some 1) := by decide +kernel
  have expected : (foldElements (SpaceRecord.element apartCrypto)
      [⟨"s1", "did:plc:a", "a", "b/c", "y", "y"⟩]).asBytes.head? = some 0 := by decide +kernel
  obtain ⟨state, held, head⟩ := Option.map_eq_some_iff.mp stored
  rw [same.hash state held, expected] at head
  cases head

def joinedCrypto : Crypto where
  element collection rkey cid := fun _ => (recordElement collection rkey cid).length
  contentCid := some
  sha256 := id
  sign _ _ _ _ := []
  computeMac _ _ _ _ _ := []

theorem setHash_run_slash :
    (forumStore.performAll joinedCrypto .sqlite slashCalls).SetHashIs joinedCrypto "s1" "did:plc:a"
      [⟨"s1", "did:plc:a", "a", "b/c", "y", "y"⟩] := by
  have agree : ElementsAgree joinedCrypto.element fun key =>
      ∃ call ∈ slashCalls, ∃ op ∈ call.writes, op.key = key :=
    elementsAgree_recordElement (fun text _ => text.length) _
  have all : (forumStore.performAll joinedCrypto .sqlite slashCalls).authorRecords "s1" "did:plc:a"
      = [⟨"s1", "did:plc:a", "a", "b/c", "y", "y"⟩] := by decide +kernel
  refine setHash_run joinedCrypto .sqlite forumStore ⟨rfl, rfl⟩ slashCalls agree _ _ _ ?_
  rw [all]

end HappyView.Spaces
