import HappyView.Spaces.Members

/-!
# What resolving members grants

The access a DID gets is compared with the direct rows the traversal reached for it.
Own reads and writes are always granted by one of them. A read of the whole space need
not be: `MemberAccess.union` takes `readSelf` off as soon as one of two accesses lacks
it, and a row that grants no read at all lacks it too.
-/

namespace HappyView.Spaces

namespace Tables

def Links (t : Tables) (a b : String) : Prop :=
  ∃ row ∈ t.members, row.spaceId = a ∧ row.isDelegation ∧
    t.resolveDelegationTarget row = .ok (some b)

/-- A direct row of `root` or of a space it delegates to, through any number of others. -/
def Reaches (t : Tables) (root : String) (row : SpaceMember) : Prop :=
  row ∈ t.members ∧ row.isDelegation = false ∧ Relation.ReflTransGen t.Links root row.spaceId

/-- Two traversals went the same way, and what they collected is related by `R`. -/
inductive Agree {σ τ : Type} (R : σ → τ → Prop) :
    Except AppError (σ × List String) → Except AppError (τ × List String) → Prop where
  | ok {s : σ} {s' : τ} (visited : List String) (rel : R s s') :
      Agree R (.ok (s, visited)) (.ok (s', visited))
  | error (e : AppError) : Agree R (.error e) (.error e)

variable {t : Tables} {σ τ : Type} {R : σ → τ → Prop}

theorem Agree.foldlM {f : σ × List String → SpaceMember → Except AppError (σ × List String)}
    {g : τ × List String → SpaceMember → Except AppError (τ × List String)}
    {rows : List SpaceMember}
    (step : ∀ row ∈ rows, ∀ s s' visited, R s s' →
      Agree R (f (s, visited) row) (g (s', visited) row))
    {s : σ} {s' : τ} (visited : List String) (rel : R s s') :
    Agree R (rows.foldlM f (s, visited)) (rows.foldlM g (s', visited)) := by
  induction rows generalizing s s' visited with
  | nil => exact .ok visited rel
  | cons row rows ih =>
    rw [List.foldlM_cons, List.foldlM_cons]
    have first := step row (by simp) s s' visited rel
    generalize f (s, visited) row = left, g (s', visited) row = right at first ⊢
    cases first with
    | ok visited rel => exact ih (fun row h => step row (by simp [h])) visited rel
    | error e => exact .error e

theorem mem_listDirectMembers {spaceId : String} {row : SpaceMember} :
    row ∈ t.listDirectMembers spaceId ↔ row ∈ t.members ∧ row.spaceId = spaceId := by
  simp [listDirectMembers]

theorem visit_agree {add : σ → SpaceMember → σ} {add' : τ → SpaceMember → τ} {root : String}
    (step : ∀ s s' row, R s s' → t.Reaches root row → R (add s row) (add' s' row)) (fuel : Nat)
    {spaceId : String} (delegated : Relation.ReflTransGen t.Links root spaceId)
    {s : σ} {s' : τ} (visited : List String) (rel : R s s') :
    Agree R (t.visit add fuel spaceId (s, visited)) (t.visit add' fuel spaceId (s', visited)) := by
  induction fuel generalizing spaceId s s' visited with
  | zero => exact .ok visited rel
  | succ fuel ih =>
    simp only [visit]
    split
    · exact .ok visited rel
    · refine Agree.foldlM (fun row listed s s' visited rel => ?_) (spaceId :: visited) rel
      obtain ⟨mem, rfl⟩ := mem_listDirectMembers.mp listed
      dsimp only
      split
      · rename_i delegation
        cases target : t.resolveDelegationTarget row with
        | error e => exact .error e
        | ok target' =>
          cases target' with
          | none => exact .ok visited rel
          | some next =>
            exact ih (delegated.tail ⟨row, mem, rfl, delegation, target⟩) visited rel
      · rename_i direct
        exact .ok visited (step s s' row rel ⟨mem, by simpa using direct, delegated⟩)

/-! ## Rows and accesses -/

def rowsOf (did : String) (rows : List SpaceMember) : List SpaceMember :=
  rows.filter (·.did = did)

def combined (did : String) (rows : List SpaceMember) : Option MemberAccess :=
  if rowsOf did rows = [] then none
  else some
    { read := (rowsOf did rows).any (·.access.read)
      write := (rowsOf did rows).any (·.access.write)
      readSelf := (rowsOf did rows).all (·.access.readSelf) }

theorem rowsOf_concat (rows : List SpaceMember) (row : SpaceMember) :
    rowsOf row.did (rows ++ [row]) = rowsOf row.did rows ++ [row] := by
  simp [rowsOf]

theorem combined_concat_of_ne {did : String} {row : SpaceMember} (ne : row.did ≠ did)
    (rows : List SpaceMember) : combined did (rows ++ [row]) = combined did rows := by
  simp [combined, rowsOf, ne]

theorem combined_concat (rows : List SpaceMember) (row : SpaceMember) :
    combined row.did (rows ++ [row]) =
      some (((combined row.did rows).map (·.union row.access)).getD row.access) := by
  rw [combined, combined, rowsOf_concat]
  generalize rowsOf row.did rows = mine
  cases mine <;> simp [MemberAccess.union, Bool.or_assoc, Bool.and_assoc]

theorem lookup_mergeAccess {resolved : AList fun _ : String => MemberAccess}
    {rows : List SpaceMember}
    (h : ∀ did, resolved.lookup did = combined did rows) (row : SpaceMember) (did : String) :
    (mergeAccess resolved row).lookup did = combined did (rows ++ [row]) := by
  by_cases here : row.did = did
  · subst here
    rw [combined_concat, ← h]
    unfold mergeAccess
    cases resolved.lookup row.did <;> simp
  · rw [combined_concat_of_ne here, ← h]
    unfold mergeAccess
    split <;> simp [AList.lookup_insert_ne (Ne.symm here)]

theorem mem_sorted (resolved : AList fun _ : String => MemberAccess) (m : ResolvedMember) :
    m ∈ (resolved.entries.map fun entry => (⟨entry.1, entry.2⟩ : ResolvedMember)).insertionSort
      (fun a b => a.did ≤ b.did) ↔ resolved.lookup m.did = some m.access := by
  rw [(List.perm_insertionSort _ _).mem_iff, ← Option.mem_def, AList.mem_lookup_iff, List.mem_map]
  constructor
  · rintro ⟨entry, mem, rfl⟩
    exact mem
  · exact fun mem => ⟨_, mem, rfl⟩

theorem sorted_by_did (resolved : AList fun _ : String => MemberAccess) :
    ((resolved.entries.map fun entry => (⟨entry.1, entry.2⟩ : ResolvedMember)).insertionSort
      (fun a b => a.did ≤ b.did)).Pairwise fun a b => a.did < b.did := by
  generalize sorting : (resolved.entries.map fun entry =>
    (⟨entry.1, entry.2⟩ : ResolvedMember)) = members
  have distinct : members.Pairwise fun a b => a.did ≠ b.did := by
    rw [← sorting, List.pairwise_map]
    exact List.pairwise_map.mp resolved.nodupKeys
  have ordered := List.pairwise_insertionSort (fun a b : ResolvedMember => a.did ≤ b.did) members
  have apart : (members.insertionSort fun a b => a.did ≤ b.did).Pairwise
      fun a b => a.did ≠ b.did :=
    (List.perm_insertionSort _ members).symm.pairwise distinct fun h => Ne.symm h
  exact (ordered.and apart).imp fun h => lt_of_le_of_ne h.1 h.2

theorem resolveMembers_eq {root : String} {rows : List SpaceMember}
    (reached : t.reachedRows root = .ok rows) : ∃ members,
      t.resolveMembers root = .ok members ∧ (members.Pairwise fun a b => a.did < b.did) ∧
      ∀ m, m ∈ members ↔ combined m.did rows = some m.access := by
  have agree : Agree (fun resolved rows => ∀ did, resolved.lookup did = combined did rows)
      (t.visit mergeAccess maxDelegationDepth root (∅, []))
      (t.visit (fun rows row => rows ++ [row]) maxDelegationDepth root ([], [])) :=
    visit_agree (fun _ _ row h _ did => lookup_mergeAccess h row did) _ .refl [] fun did => rfl
  unfold reachedRows at reached
  unfold resolveMembers
  generalize t.visit mergeAccess maxDelegationDepth root (∅, []) = left,
    t.visit (fun rows row => rows ++ [row]) maxDelegationDepth root ([], []) = right
      at agree reached ⊢
  cases agree with
  | error e => cases reached
  | @ok resolved _ visited rel =>
    cases reached
    refine ⟨_, rfl, sorted_by_did resolved, fun m => ?_⟩
    rw [mem_sorted, rel]

theorem isMember_eq {root : String} {rows : List SpaceMember}
    (reached : t.reachedRows root = .ok rows)
    (did : String) : t.isMember root did = .ok (combined did rows) := by
  obtain ⟨members, done, -, mem⟩ := resolveMembers_eq reached
  rw [isMember, done]
  refine congrArg Except.ok ?_
  cases found : members.find? (·.did = did) with
  | none =>
    cases held : combined did rows with
    | none => rfl
    | some access =>
      have absent := List.find?_eq_none.mp found ⟨did, access⟩ ((mem _).mpr held)
      simp at absent
  | some m =>
    have same : m.did = did := by simpa using List.find?_some found
    rw [← same, (mem m).mp (List.mem_of_find?_eq_some found), Option.map_some]

theorem reaches_of_reachedRows {root : String} {rows : List SpaceMember}
    (reached : t.reachedRows root = .ok rows) : ∀ row ∈ rows, t.Reaches root row := by
  have agree : Agree (fun rows (_ : Unit) => ∀ row ∈ rows, t.Reaches root row)
      (t.visit (fun rows row => rows ++ [row]) maxDelegationDepth root ([], []))
      (t.visit (fun u _ => u) maxDelegationDepth root ((), [])) := by
    refine visit_agree (fun rows _ row h reaches => ?_) _ .refl [] (by simp)
    simpa [or_imp, forall_and] using ⟨h, reaches⟩
  unfold reachedRows at reached
  generalize t.visit (fun rows row => rows ++ [row]) maxDelegationDepth root ([], []) = left,
    t.visit (fun u _ => u) maxDelegationDepth root ((), []) = right at agree reached
  cases agree with
  | error e => cases reached
  | ok visited rel =>
    cases reached
    exact rel

theorem combined_flags {did : String} {rows : List SpaceMember} {access : MemberAccess}
    (h : combined did rows = some access) :
    (access.read = true ↔ ∃ row ∈ rows, row.did = did ∧ row.access.read) ∧
      (access.write = true ↔ ∃ row ∈ rows, row.did = did ∧ row.access.write) ∧
      (access.readSelf = true ↔ ∀ row ∈ rows, row.did = did → row.access.readSelf) := by
  unfold combined at h
  split at h
  · cases h
  · cases h
    simp only [rowsOf, List.any_filter, List.all_filter, List.any_eq_true, List.all_eq_true]
    grind

end Tables

theorem checkReadAccess_eq_ok {callerDid targetRepoDid : String} {access : MemberAccess} :
    checkReadAccess callerDid targetRepoDid access false = .ok () ↔
      access.read ∧ (access.readSelf → callerDid = targetRepoDid) := by
  unfold checkReadAccess MemberAccess.canRead MemberAccess.restrictedToOwnRecords
  cases access.read <;> cases access.readSelf <;> simp

/-- What `access` lets `did` do in a space is granted by rows reached for it. -/
structure Sound (rows : List SpaceMember) (did : String) (access : MemberAccess) : Prop where
  whole : ∀ other ≠ did, checkReadAccess did other access false = .ok () →
    ∃ row ∈ rows, row.did = did ∧ row.access.read ∧ row.access.readSelf = false
  own : checkReadAccess did did access false = .ok () →
    ∃ row ∈ rows, row.did = did ∧ row.access.read
  write : access.canWrite → ∃ row ∈ rows, row.did = did ∧ row.access.write

/-- Every row that lets `did` read confines it to its own repo, and some row of `did`,
which then grants no read at all, does not say so. -/
def Widened (rows : List SpaceMember) (did : String) : Prop :=
  (∃ row ∈ rows, row.did = did ∧ row.access.read) ∧
  (∀ row ∈ rows, row.did = did → row.access.read → row.access.readSelf) ∧
  ∃ row ∈ rows, row.did = did ∧ row.access.readSelf = false

theorem sound_iff {rows : List SpaceMember} {did : String} {access : MemberAccess}
    (h : Tables.combined did rows = some access) : Sound rows did access ↔ ¬ Widened rows did := by
  obtain ⟨read, write, readSelf⟩ := Tables.combined_flags h
  constructor
  · rintro sound ⟨reads, confined, row, mem, same, free⟩
    have other : did ++ "x" ≠ did := fun eq => by
      simpa using congrArg String.length eq
    have unconfined : access.readSelf ≠ true := fun closed => by
      simp [readSelf.mp closed row mem same] at free
    obtain ⟨grant, mem, same, grants, whole⟩ := sound.whole _ other
      (checkReadAccess_eq_ok.mpr ⟨read.mpr reads, fun closed => absurd closed unconfined⟩)
    simp [confined grant mem same grants] at whole
  · intro narrow
    refine ⟨fun other ne ok => ?_, fun ok => ?_, fun ok => write.mp ok⟩
    · obtain ⟨reads, confined⟩ := checkReadAccess_eq_ok.mp ok
      by_contra none
      refine narrow ⟨read.mp reads, fun row mem same grants => ?_, ?_⟩
      · by_contra whole
        exact none ⟨row, mem, same, grants, by simpa using whole⟩
      · by_contra all
        exact ne (confined (readSelf.mpr fun row mem same => by
          by_contra free
          exact all ⟨row, mem, same, by simpa using free⟩)).symm
    · exact read.mp (checkReadAccess_eq_ok.mp ok).1

/-- Whatever the tables and the order of their rows: the rows resolving the members of
`root` reaches are direct rows of it or of spaces it delegates to, and the access each
DID is given is granted by the rows reached for it, exactly when no DID's read access
is confined to its own repo in every row that gives it while another of its rows, which
gives no read access, leaves the confinement out. -/
theorem isMember_sound_iff (t : Tables) (root : String) (rows : List SpaceMember)
    (reached : t.reachedRows root = .ok rows) :
    (∀ row ∈ rows, t.Reaches root row) ∧
    ((∀ did access, t.isMember root did = .ok (some access) → Sound rows did access) ↔
      ¬ ∃ did, Widened rows did) := by
  refine ⟨Tables.reaches_of_reachedRows reached, ?_⟩
  constructor
  · rintro sound ⟨did, wide⟩
    obtain ⟨row, mem, same, -⟩ := wide.1
    obtain ⟨access, h⟩ : ∃ access, Tables.combined did rows = some access := by
      have : Tables.rowsOf did rows ≠ [] :=
        List.ne_nil_of_mem (List.mem_filter.mpr ⟨mem, by simpa using same⟩)
      simp [Tables.combined, this]
    exact (sound_iff h).mp (sound did access (by rw [Tables.isMember_eq reached, h])) wide
  · intro narrow did access h
    rw [Tables.isMember_eq reached] at h
    exact (sound_iff (Except.ok.inj h)).mpr fun wide => narrow ⟨did, wide⟩

def writerTables : Tables where
  spaces :=
    [⟨"s1", "did:plc:s", "app.forum", "a", none⟩, ⟨"s2", "did:plc:s", "app.forum", "b", none⟩]
  members :=
    [⟨"s1", "did:plc:me", ⟨true, false, true⟩, false, "2026-01-01"⟩,
      ⟨"s1", "s2", ⟨true, true, false⟩, true, "2026-01-02"⟩,
      ⟨"s2", "did:plc:me", ⟨false, true, false⟩, false, "2026-01-03"⟩]

/-- The member reads another repo, and no row reached grants that. -/
theorem writer_reads_whole_space :
    writerTables.isMember "s1" "did:plc:me" = .ok (some ⟨true, true, false⟩) ∧
    checkReadAccess "did:plc:me" "did:plc:other" ⟨true, true, false⟩ false = .ok () ∧
    (∀ row ∈ writerTables.members, row.did = "did:plc:me" →
      row.access.read → row.access.readSelf) := by
  decide +kernel

def readerTables : Tables where
  spaces := writerTables.spaces
  members :=
    [⟨"s1", "did:plc:me", ⟨true, false, true⟩, false, "2026-01-01"⟩,
      ⟨"s1", "s2", ⟨true, true, false⟩, true, "2026-01-02"⟩,
      ⟨"s2", "did:plc:me", ⟨true, true, false⟩, false, "2026-01-03"⟩]

theorem isMember_sound_reader : ∃ rows, readerTables.reachedRows "s1" = .ok rows ∧
    ∀ did access, readerTables.isMember "s1" did = .ok (some access) → Sound rows did access := by
  have reached : readerTables.reachedRows "s1" = .ok
      [⟨"s1", "did:plc:me", ⟨true, false, true⟩, false, "2026-01-01"⟩,
        ⟨"s2", "did:plc:me", ⟨true, true, false⟩, false, "2026-01-03"⟩] := by decide +kernel
  refine ⟨_, reached, (isMember_sound_iff _ _ _ reached).2.mpr ?_⟩
  rintro ⟨did, ⟨row, mem, same, -⟩, confined, -⟩
  have here : did = "did:plc:me" := by
    simp only [List.mem_cons, List.not_mem_nil, or_false] at mem
    rcases mem with rfl | rfl <;> exact same.symm
  exact absurd (confined ⟨"s2", "did:plc:me", ⟨true, true, false⟩, false, "2026-01-03"⟩
    (by simp) here.symm rfl) (by decide)

end HappyView.Spaces
