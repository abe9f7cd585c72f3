import HappyView.Foundation.Search
import HappyView.Spaces.MemberSoundness

/-!
# What resolving members leaves out

The members of a space should be the merge of the direct rows of all spaces that fewer
than `maxDelegationDepth` delegations lead to, in whatever order the rows come. The
traversal is `Search.search` over the targets of delegation rows. It visits a space once,
at the depth at which it first comes to it, so that a space first reached at the last
level is not followed any further even if the root delegates to it directly.
-/

namespace HappyView.Spaces

open HappyView.Foundation.Search

namespace Tables

section Spec

variable (t : Tables)

/-- `a` has a direct row that gives `did` the access. -/
def Direct (a did : String) (access : MemberAccess) : Prop :=
  ∃ row ∈ t.members, row.spaceId = a ∧ row.isDelegation = false ∧ row.did = did ∧
    row.access = access

/-- The accesses `did` is given by the direct rows of spaces near the root. -/
def Grants (root did : String) (access : MemberAccess) : Prop :=
  ∃ a, Near t.Links maxDelegationDepth root a ∧ t.Direct a did access

/-- Those of them that do not come from a space of `M`. -/
def GrantsOutside (M : String → Prop) (root did : String) (access : MemberAccess) : Prop :=
  ∃ a, Near t.Links maxDelegationDepth root a ∧ ¬ M a ∧ t.Direct a did access

def Resolves (root : String) : Prop :=
  ∀ row ∈ t.members, row.isDelegation → Near t.Links maxDelegationDepth root row.spaceId →
    ∃ target, t.resolveDelegationTarget row = .ok target

end Spec

/-- `access` is what the accesses in `G`, of which there is one, merge to. -/
structure Merge (G : MemberAccess → Prop) (access : MemberAccess) : Prop where
  some : ∃ a, G a
  read : access.read = true ↔ ∃ a, G a ∧ a.read
  write : access.write = true ↔ ∃ a, G a ∧ a.write
  readSelf : access.readSelf = true ↔ ∀ a, G a → a.readSelf

theorem Merge.congr {G H : MemberAccess → Prop} (same : ∀ a, G a ↔ H a) {access : MemberAccess} :
    Merge G access ↔ Merge H access := by
  have : G = H := funext fun a => propext (same a)
  rw [this]

theorem Merge.unique {G : MemberAccess → Prop} {a b : MemberAccess} (ha : Merge G a)
    (hb : Merge G b) : a = b := by
  have read : a.read = b.read := Bool.eq_iff_iff.mpr (ha.read.trans hb.read.symm)
  have write : a.write = b.write := Bool.eq_iff_iff.mpr (ha.write.trans hb.write.symm)
  have readSelf : a.readSelf = b.readSelf :=
    Bool.eq_iff_iff.mpr (ha.readSelf.trans hb.readSelf.symm)
  cases a
  cases b
  simp_all

theorem combined_eq_some {did : String} {rows : List SpaceMember} {access : MemberAccess} :
    combined did rows = some access ↔
      Merge (fun a => ∃ row ∈ rows, row.did = did ∧ row.access = a) access := by
  have merge {access : MemberAccess} (h : combined did rows = some access) :
      Merge (fun a => ∃ row ∈ rows, row.did = did ∧ row.access = a) access := by
    obtain ⟨read, write, readSelf⟩ := combined_flags h
    refine ⟨?_, by rw [read]; grind, by rw [write]; grind, by rw [readSelf]; grind⟩
    obtain ⟨row, mem⟩ : ∃ row, row ∈ rowsOf did rows :=
      List.exists_mem_of_ne_nil _ fun nil => by simp [combined, nil] at h
    obtain ⟨mem, same⟩ := List.mem_filter.mp mem
    exact ⟨row.access, row, mem, by simpa using same, rfl⟩
  refine ⟨merge, fun all => ?_⟩
  obtain ⟨a, row, mem, same, -⟩ := all.some
  have nonempty : rowsOf did rows ≠ [] :=
    List.ne_nil_of_mem (List.mem_filter.mpr ⟨mem, by simpa using same⟩)
  obtain ⟨found, h⟩ : ∃ found, combined did rows = some found := by
    simp [combined, nonempty]
  rw [h, (merge h).unique all]

/-! ## The traversal as a search -/

variable {t : Tables}

def target (t : Tables) (row : SpaceMember) : Option String :=
  if row.isDelegation then
    match t.resolveDelegationTarget row with
    | .ok target => target
    | .error _ => none
  else none

def targets (t : Tables) (spaceId : String) : List String :=
  (t.listDirectMembers spaceId).filterMap t.target

theorem target_eq_some {row : SpaceMember} {b : String} :
    t.target row = some b ↔ row.isDelegation ∧ t.resolveDelegationTarget row = .ok (some b) := by
  unfold target
  cases row.isDelegation
  · simp
  · cases t.resolveDelegationTarget row <;> simp

theorem links_iff {a b : String} : Step t.targets a b ↔ t.Links a b := by
  simp only [Step, targets, List.mem_filterMap, mem_listDirectMembers, target_eq_some, Links]
  grind

theorem step_targets : Step t.targets = t.Links :=
  funext fun _ => funext fun _ => propext links_iff

/-- `result` is what a traversal makes of `rows` when it goes from `visited` on to
`visited'`, with the direct rows among `own` besides those of the spaces it visits. -/
def Collects (t : Tables) (own rows : List SpaceMember) (visited visited' : List String)
    (result : Except AppError (List SpaceMember × List String)) : Prop :=
  visited ⊆ visited' ∧ ∃ rows', result = .ok (rows', visited') ∧ ∀ row, row ∈ rows' ↔
    row ∈ rows ∨ row.isDelegation = false ∧
      (row ∈ own ∨ row ∈ t.members ∧ row.spaceId ∈ visited' ∧ row.spaceId ∉ visited)

theorem Collects.refl (rows : List SpaceMember) (visited : List String) :
    t.Collects [] rows visited visited (.ok (rows, visited)) :=
  ⟨List.Subset.refl _, rows, rfl, by simp⟩

theorem Collects.enter {spaceId : String} {rows : List SpaceMember} {visited visited' : List String}
    {result : Except AppError (List SpaceMember × List String)} (new : spaceId ∉ visited)
    (h : t.Collects (t.listDirectMembers spaceId) rows (spaceId :: visited) visited' result) :
    t.Collects [] rows visited visited' result := by
  obtain ⟨sub, rows', done, mem⟩ := h
  have here : spaceId ∈ visited' := sub List.mem_cons_self
  refine ⟨List.Subset.trans (List.subset_cons_self _ _) sub, rows', done, fun row => ?_⟩
  rw [mem, mem_listDirectMembers, List.mem_cons]
  by_cases same : row.spaceId = spaceId
  · simp [same, here, new]
  · simp [same]

theorem Collects.foldlM
    {f : List SpaceMember × List String → SpaceMember →
      Except AppError (List SpaceMember × List String)}
    {g : List String → String → List String} {own : List SpaceMember}
    (follow : ∀ row ∈ own, row.isDelegation → ∀ rows visited,
      t.Collects [] rows visited ((t.target row).elim visited (g visited)) (f (rows, visited) row))
    (direct : ∀ row ∈ own, row.isDelegation = false → ∀ rows visited,
      f (rows, visited) row = .ok (rows ++ [row], visited))
    (rows : List SpaceMember) (visited : List String) :
    t.Collects own rows visited ((own.filterMap t.target).foldl g visited)
      (own.foldlM f (rows, visited)) := by
  induction own generalizing rows visited with
  | nil => exact .refl rows visited
  | cons row own ih =>
    have rest := ih (fun row mem => follow row (by simp [mem]))
      (fun row mem => direct row (by simp [mem]))
    rw [List.foldlM_cons]
    cases kind : row.isDelegation with
    | false =>
      have none : t.target row = none := by simp [target, kind]
      obtain ⟨sub, rows', done, mem⟩ := rest (rows ++ [row]) visited
      rw [direct row (by simp) kind, List.filterMap_cons_none none]
      refine ⟨sub, rows', done, fun r => ?_⟩
      rw [mem, List.mem_append, List.mem_singleton, List.mem_cons]
      by_cases same : r = row
      · simp [same, kind]
      · simp [same]
    | true =>
      obtain ⟨sub, rows₁, first, mem₁⟩ := follow row (by simp) kind rows visited
      have onward : ((row :: own).filterMap t.target).foldl g visited =
          (own.filterMap t.target).foldl g ((t.target row).elim visited (g visited)) := by
        cases h : t.target row <;> simp [h]
      obtain ⟨sub₂, rows₂, second, mem₂⟩ := rest rows₁ ((t.target row).elim visited (g visited))
      rw [first, onward]
      refine ⟨List.Subset.trans sub sub₂, rows₂, second, fun r => ?_⟩
      rw [mem₂, mem₁, List.mem_cons]
      cases direct : r.isDelegation with
      | true => simp
      | false =>
        have other : r ≠ row := fun same => by simp [same, kind] at direct
        by_cases mid : r.spaceId ∈ (t.target row).elim visited (g visited)
        · simp [other, mid, sub₂ mid, or_assoc, or_comm (a := r ∈ own)]
        · have new : r.spaceId ∉ visited := fun old => mid (sub old)
          simp [other, mid, new]

theorem visit_collects {root : String} (resolves : t.Resolves root) (fuel : Nat) {depth : Nat}
    {spaceId : String} (walk : Walk t.Links depth root spaceId)
    (levels : depth + fuel ≤ maxDelegationDepth) (rows : List SpaceMember)
    (visited : List String) :
    t.Collects [] rows visited (search t.targets fuel spaceId visited)
      (t.visit (fun rows row => rows ++ [row]) fuel spaceId (rows, visited)) := by
  induction fuel generalizing depth spaceId rows visited with
  | zero => exact .refl rows visited
  | succ fuel ih =>
    simp only [visit, search]
    split
    · exact .refl rows visited
    · rename_i new
      refine Collects.enter new (Collects.foldlM (fun row listed kind rows visited => ?_)
        (fun row listed kind rows visited => by simp [kind]) rows (spaceId :: visited))
      obtain ⟨mem, rfl⟩ := mem_listDirectMembers.mp listed
      obtain ⟨target, found⟩ := resolves row mem kind ⟨depth, by omega, walk⟩
      have same : t.target row = target := by simp [Tables.target, kind, found]
      rw [same]
      simp only [kind, if_true, found]
      cases target with
      | none => exact .refl rows visited
      | some b =>
        have onward : Walk t.Links (depth + 1) root b :=
          ⟨row.spaceId, walk, row, mem, rfl, kind, found⟩
        exact ih onward (by omega) rows visited

theorem reachedRows_eq {root : String} (resolves : t.Resolves root) :
    ∃ rows, t.reachedRows root = .ok rows ∧ ∀ row, row ∈ rows ↔
      row ∈ t.members ∧ row.isDelegation = false ∧
        row.spaceId ∈ search t.targets maxDelegationDepth root [] := by
  have start : Walk t.Links 0 root root := rfl
  obtain ⟨-, rows, done, mem⟩ := visit_collects resolves maxDelegationDepth start (by omega) [] []
  refine ⟨rows, by rw [reachedRows, done]; rfl, fun row => ?_⟩
  rw [mem]
  simp only [List.not_mem_nil, false_or, not_false_eq_true, and_true]
  exact and_left_comm

theorem combined_iff_grants {root : String} {rows : List SpaceMember}
    (mem : ∀ row, row ∈ rows ↔ row ∈ t.members ∧ row.isDelegation = false ∧
      row.spaceId ∈ search t.targets maxDelegationDepth root [])
    (covered : ∀ M, Missed t.Links maxDelegationDepth root M → ∀ did access,
      Merge (t.Grants root did) access ↔ Merge (t.GrantsOutside M root did) access)
    (did : String) (access : MemberAccess) :
    combined did rows = some access ↔ Merge (t.Grants root did) access := by
  have missed : Missed (Step t.targets) maxDelegationDepth root fun b =>
      Near (Step t.targets) maxDelegationDepth root b ∧
        b ∉ search t.targets maxDelegationDepth root [] := search_missed (by decide)
  rw [step_targets] at missed
  rw [covered _ missed, combined_eq_some]
  refine Merge.congr fun a => ⟨?_, ?_⟩
  · rintro ⟨row, reached, same, gives⟩
    obtain ⟨held, direct, visited⟩ := (mem row).mp reached
    have near := near_of_mem_search visited
    rw [step_targets] at near
    exact ⟨row.spaceId, near, fun miss => miss.2 visited, row, held, rfl, direct, same, gives⟩
  · rintro ⟨_, near, found, row, held, rfl, direct, same, gives⟩
    refine ⟨row, (mem row).mpr ⟨held, direct, ?_⟩, same, gives⟩
    by_contra absent
    exact found ⟨near, absent⟩

/-! ## The order of rows -/

/-- `t'` holds the rows of `t` in another order, which the rows' times give. -/
structure Reordered (t t' : Tables) : Prop where
  spaces : t'.spaces = t.spaces
  members : (t'.members.map fun row => { row with createdAt := "" }).Perm
    (t.members.map fun row => { row with createdAt := "" })

namespace Reordered

variable {t' : Tables}

theorem refl (t : Tables) : t.Reordered t := ⟨rfl, List.Perm.refl _⟩

theorem symm (h : t.Reordered t') : t'.Reordered t := ⟨h.spaces.symm, h.members.symm⟩

theorem row (h : t.Reordered t') {row : SpaceMember} (mem : row ∈ t.members) :
    ∃ time, { row with createdAt := time } ∈ t'.members := by
  have undated := h.members.mem_iff.mpr (List.mem_map.mpr ⟨row, mem, rfl⟩)
  obtain ⟨⟨spaceId, did, access, kind, time⟩, held, same⟩ := List.mem_map.mp undated
  refine ⟨time, ?_⟩
  simp only [SpaceMember.mk.injEq, and_true] at same
  obtain ⟨rfl, rfl, rfl, rfl⟩ := same
  exact held

theorem resolveDelegationTarget (h : t.Reordered t') (row : SpaceMember) (time : String) :
    t'.resolveDelegationTarget { row with createdAt := time } = t.resolveDelegationTarget row := by
  simp only [Tables.resolveDelegationTarget, getSpaceByAddress, getSpace, h.spaces]

theorem links (h : t.Reordered t') {a b : String} (link : t.Links a b) : t'.Links a b := by
  obtain ⟨row, mem, space, kind, found⟩ := link
  obtain ⟨time, held⟩ := h.row mem
  exact ⟨_, held, space, kind, (h.resolveDelegationTarget row time).trans found⟩

theorem links_eq (h : t.Reordered t') : t'.Links = t.Links :=
  funext fun _ => funext fun _ => propext ⟨h.symm.links, h.links⟩

theorem direct (h : t.Reordered t') {a did : String} {access : MemberAccess}
    (direct : t.Direct a did access) : t'.Direct a did access := by
  obtain ⟨row, mem, space, kind, same, gives⟩ := direct
  obtain ⟨time, held⟩ := h.row mem
  exact ⟨_, held, space, kind, same, gives⟩

theorem direct_eq (h : t.Reordered t') : t'.Direct = t.Direct :=
  funext fun _ => funext fun _ => funext fun _ => propext ⟨h.symm.direct, h.direct⟩

theorem grants_eq (h : t.Reordered t') (root did : String) :
    t'.Grants root did = t.Grants root did := by
  unfold Grants
  rw [h.links_eq, h.direct_eq]

theorem grantsOutside_eq (h : t.Reordered t') (M : String → Prop) (root did : String) :
    t'.GrantsOutside M root did = t.GrantsOutside M root did := by
  unfold GrantsOutside
  rw [h.links_eq, h.direct_eq]

theorem resolves (h : t.Reordered t') {root : String} (resolves : t.Resolves root) :
    t'.Resolves root := by
  intro row mem kind near
  obtain ⟨time, held⟩ := h.symm.row mem
  rw [h.links_eq] at near
  obtain ⟨target, found⟩ := resolves _ held kind near
  exact ⟨target, (h.symm.resolveDelegationTarget row time).symm.trans found⟩

end Reordered

end Tables

theorem members_eq {members members' : List ResolvedMember}
    (sorted : members.Pairwise fun a b => a.did < b.did)
    (sorted' : members'.Pairwise fun a b => a.did < b.did)
    (same : ∀ m, m ∈ members ↔ m ∈ members') : members = members' := by
  have : Std.Irrefl fun a b : ResolvedMember => a.did < b.did := ⟨fun a => lt_irrefl a.did⟩
  have : Std.Antisymm fun a b : ResolvedMember => a.did < b.did :=
    ⟨fun a b ab ba => absurd ab (lt_asymm ba)⟩
  exact sorted.eq_of_mem_iff sorted' same

/-- Whatever the delegations among spaces, and in whatever order the rows come: the members
of `root` are the merge of all direct rows of the spaces that fewer than
`maxDelegationDepth` delegations lead to, if the delegation rows of these spaces can be
looked up and no spaces near the root whose rows matter to that merge lie behind spaces
that a way round comes to at the last level. -/
theorem resolveMembers_complete (t : Tables) (root : String) (resolves : t.Resolves root)
    (covered : ∀ M, Missed t.Links Tables.maxDelegationDepth root M → ∀ did access,
      Tables.Merge (t.Grants root did) access ↔ Tables.Merge (t.GrantsOutside M root did) access) :
    ∃ members, (∀ did access, (⟨did, access⟩ : ResolvedMember) ∈ members ↔
        Tables.Merge (t.Grants root did) access) ∧
      ∀ t', t.Reordered t' → t'.resolveMembers root = .ok members := by
  have each (t' : Tables) (order : t.Reordered t') : ∃ members,
      t'.resolveMembers root = .ok members ∧ (members.Pairwise fun a b => a.did < b.did) ∧
      ∀ m, m ∈ members ↔ Tables.Merge (t.Grants root m.did) m.access := by
    obtain ⟨rows, reached, mem⟩ := Tables.reachedRows_eq (order.resolves resolves)
    obtain ⟨members, done, sorted, held⟩ := Tables.resolveMembers_eq reached
    refine ⟨members, done, sorted, fun m => (held m).trans ?_⟩
    rw [← order.grants_eq root m.did]
    refine Tables.combined_iff_grants mem (fun M missed did access => ?_) m.did m.access
    rw [order.links_eq] at missed
    rw [order.grants_eq, order.grantsOutside_eq]
    exact covered M missed did access
  obtain ⟨members, -, sorted, held⟩ := each t (.refl t)
  refine ⟨members, fun did access => held ⟨did, access⟩, fun t' order => ?_⟩
  obtain ⟨members', done, sorted', held'⟩ := each t' order
  rw [done, members_eq sorted' sorted fun m => (held' m).trans (held m).symm]

/-- A space that the root delegates to directly and, in older rows, through eight others.
It delegates to a space with one member. -/
def detourTables : Tables where
  spaces := ["s0", "s1", "s2", "s3", "s4", "s5", "s6", "s7", "s8", "s9", "s10"].map
    fun id => ⟨id, "did:plc:s", "app.forum", id, none⟩
  members :=
    [("s0", "s1"), ("s1", "s2"), ("s2", "s3"), ("s3", "s4"), ("s4", "s5"), ("s5", "s6"),
      ("s6", "s7"), ("s7", "s8"), ("s8", "s9"), ("s9", "s10")].map
        (fun link => ⟨link.1, link.2, ⟨true, false, false⟩, true, "2026-01-01"⟩) ++
    [⟨"s0", "s9", ⟨true, false, false⟩, true, "2026-01-02"⟩,
      ⟨"s10", "did:plc:me", ⟨true, false, false⟩, false, "2026-01-03"⟩]

def shortcutTables : Tables where
  spaces := detourTables.spaces
  members :=
    ⟨"s0", "s9", ⟨true, false, false⟩, true, "2025-12-31"⟩ ::
      detourTables.members.filter fun row => row.createdAt ≠ "2026-01-02"

/-- Two delegations lead from `s0` to the space with the member, and the member is there or
not as the order of the rows has it. -/
theorem resolveMembers_detour :
    Near detourTables.Links Tables.maxDelegationDepth "s0" "s10" ∧
    detourTables.Direct "s10" "did:plc:me" ⟨true, false, false⟩ ∧
    detourTables.resolveMembers "s0" = .ok [] ∧
    detourTables.Reordered shortcutTables ∧
    shortcutTables.resolveMembers "s0" = .ok [⟨"did:plc:me", ⟨true, false, false⟩⟩] := by
  refine ⟨⟨2, by decide, "s9", ⟨"s0", rfl, ?_⟩, ?_⟩, ?_, by decide +kernel,
    ⟨rfl, by decide +kernel⟩, by decide +kernel⟩
  · exact ⟨⟨"s0", "s9", ⟨true, false, false⟩, true, "2026-01-02"⟩, by decide +kernel, rfl, rfl,
      by decide +kernel⟩
  · exact ⟨⟨"s9", "s10", ⟨true, false, false⟩, true, "2026-01-01"⟩, by decide +kernel, rfl, rfl,
      by decide +kernel⟩
  · exact ⟨⟨"s10", "did:plc:me", ⟨true, false, false⟩, false, "2026-01-03"⟩, by decide +kernel,
      rfl, rfl, rfl, rfl⟩

def mutualTables : Tables where
  spaces := writerTables.spaces
  members :=
    [⟨"s1", "s2", ⟨true, false, false⟩, true, "2026-01-01"⟩,
      ⟨"s2", "s1", ⟨true, false, false⟩, true, "2026-01-02"⟩,
      ⟨"s1", "did:plc:me", ⟨true, false, true⟩, false, "2026-01-03"⟩,
      ⟨"s2", "did:plc:me", ⟨true, true, false⟩, false, "2026-01-04"⟩]

theorem resolveMembers_mutual : ∃ members, (∀ did access,
      (⟨did, access⟩ : ResolvedMember) ∈ members ↔
        Tables.Merge (mutualTables.Grants "s1" did) access) ∧
    ∀ t', mutualTables.Reordered t' → t'.resolveMembers "s1" = .ok members := by
  have found : ∀ row ∈ mutualTables.members, row.isDelegation →
      mutualTables.resolveDelegationTarget row = .ok (some "s1") ∨
        mutualTables.resolveDelegationTarget row = .ok (some "s2") := by decide +kernel
  refine resolveMembers_complete mutualTables "s1" (fun row mem kind near => ?_)
    fun M missed did access => ?_
  · rcases found row mem kind with h | h
    · exact ⟨_, h⟩
    · exact ⟨_, h⟩
  · have closed (a b : String) (link : mutualTables.Links a b) : b ∈ ["s1", "s2"] := by
      obtain ⟨row, mem, -, kind, target⟩ := link
      rcases found row mem kind with h | h <;> rw [h] at target <;> cases target <;> decide
    have none := missed.empty (by decide) closed (by decide)
    exact Tables.Merge.congr fun a => by simp [Tables.Grants, Tables.GrantsOutside, none]

end HappyView.Spaces
