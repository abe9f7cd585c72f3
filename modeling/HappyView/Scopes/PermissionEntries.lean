import HappyView.Scopes.Include

/-!
# Entries with parameters of the wrong shape

A parameter of a permission entry takes a list of strings, a string or a boolean. Reading an
entry has two stages: `lexPermission` turns each value into a `LexValue` and drops a list with
an item that is no string, and the readers of a resource ask for the value they expect and take
any other for an absent parameter. So a wrong value invalidates the entry only where the
parameter is required, where it has become the empty string, which no reader accepts, or where
its key alone is not allowed.
-/

namespace HappyView.Scopes

open HappyView.Foundation

inductive ParamKind where
  | list
  | scalar
  | bool
  deriving DecidableEq

def ParamKind.fits : ParamKind → Json → Bool
  | .list, .array items => items.all (·.asString.isSome)
  | .scalar, .string _ => true
  | .bool, .bool _ => true
  | _, _ => false

def knownParams : List (String × String × ParamKind) :=
  [("repo", "collection", .list), ("repo", "action", .list),
    ("rpc", "lxm", .list), ("rpc", "aud", .scalar), ("rpc", "inheritAud", .bool),
    ("space", "spaceType", .scalar), ("space", "authority", .scalar), ("space", "skey", .scalar),
    ("space", "collection", .list), ("space", "action", .list), ("space", "manage", .list)]

def becomesEmpty : Json → Bool
  | .null | .number _ | .object _ => true
  | .bool _ | .string _ | .array _ => false

def isMixedList : Json → Bool
  | .array items => items.any (·.asString.isNone)
  | _ => false

/-- Whether an entry for `resource` is refused for a wrong value of the parameter `key`. -/
def refuses (resource key : String) (value : Json) : Bool :=
  if (resource, key) ∈ [("repo", "collection"), ("rpc", "lxm"), ("space", "spaceType")] then true
  else if (resource, key) ∈ [("rpc", "aud"), ("space", "authority"), ("space", "skey")] then
    becomesEmpty value
  else if (resource, key) = ("rpc", "inheritAud") then !isMixedList value
  else false

/-! ## Names that are read -/

theorem not_valid_empty :
    isNsidOrWildcard "" = false ∧ isValidDid "" = false ∧ isValidRecordKey "" = false := by
  decide +kernel

theorem valid_exampleNames :
    (∀ nsid ∈ ["com.example.post", "com.example.forum", "com.example.getFeed"],
      isNsidOrWildcard nsid = true ∧ IncludeScope.authBasic.isParentAuthorityOf nsid = true) ∧
    ∀ aud ∈ ["did:web:x.com#svc", "*"],
      RpcPermission.fromParts ["com.example.getFeed"] (some aud) =
        some ⟨aud, ["com.example.getFeed"]⟩ := by
  decide +kernel

/-! ## The first stage -/

theorem mapM_asString_eq_none {items : List Json} :
    items.mapM Json.asString = none ↔ items.any (·.asString.isNone) = true := by
  induction items with
  | nil => simp
  | cons item items ih =>
    cases h : item.asString with
    | none => simp [List.mapM_cons, h]
    | some text =>
      cases rest : items.mapM Json.asString <;> simp_all [List.mapM_cons]

theorem lexValue_eq_none {value : Json} : lexValue value = none ↔ isMixedList value = true := by
  cases value <;> simp [lexValue, isMixedList, mapM_asString_eq_none]

theorem fits_list {value : Json} {values : List String} (h : lexValue value = some (.list values)) :
    ParamKind.list.fits value = true := by
  cases value with
  | array items =>
    have some' : items.mapM Json.asString ≠ none := by
      intro none'
      simp [lexValue, none'] at h
    rw [Ne, mapM_asString_eq_none] at some'
    simpa [ParamKind.fits, Option.isSome_iff_ne_none] using some'
  | _ => simp [lexValue] at h

theorem fits_bool {value : Json} {b : Bool} (h : lexValue value = some (.bool b)) :
    ParamKind.bool.fits value = true := by
  cases value <;> simp_all [lexValue, ParamKind.fits]

/-- Reading a key after the values have been converted, some of them to nothing, is converting
the key's value, as long as no key occurs twice. -/
theorem find_filterMap {α β : Type} (f : α → Option β) {key : String} {value : α}
    {fields : List (String × α)} (nodup : (fields.map Prod.fst).Nodup)
    (mem : (key, value) ∈ fields) :
    ((fields.filterMap fun field => (f field.2).map (field.1, ·)).find? (·.1 == key)).map (·.2) =
      f value := by
  induction fields with
  | nil => cases mem
  | cons field rest ih =>
    obtain ⟨name, first⟩ := field
    obtain ⟨new, nodup⟩ := List.nodup_cons.mp nodup
    obtain ⟨⟨⟩⟩ | mem := List.mem_cons.mp mem
    · cases converted : f value with
      | none =>
        -- dropped, and no later field has the name
        rw [List.filterMap_cons_none (by simp [converted]), List.find?_eq_none.mpr]
        · rfl
        · intro pair listed
          obtain ⟨other, listed, eq⟩ := List.mem_filterMap.mp listed
          obtain ⟨-, -, rfl⟩ := Option.map_eq_some_iff.mp eq
          simp only [beq_iff_eq]
          rintro rfl
          exact new (List.mem_map.mpr ⟨other, listed, rfl⟩)
      | some result => simp [converted]
    · have ne : name ≠ key := by
        rintro rfl
        exact new (List.mem_map.mpr ⟨_, mem, rfl⟩)
      cases converted : f first with
      | none => rw [List.filterMap_cons_none (by simp [converted]), ih nodup mem]
      | some result => simpa [List.filterMap_cons, converted, ne] using ih nodup mem

theorem lexPermission_spec {fields : List (String × Json)} {resource : String}
    (nodup : (fields.map Prod.fst).Nodup) (named : ("resource", .string resource) ∈ fields) :
    ∃ p, lexPermission (.object fields) = some p ∧ p.resource = resource ∧
      (∀ key value, (key, value) ∈ fields → key ≠ "resource" → key ≠ "type" →
        p.get key = lexValue value) ∧
      ∀ key ∈ p.keys, key ≠ "resource" ∧ key ≠ "type" ∧ key ∈ fields.map Prod.fst := by
  have found := find_filterMap some nodup named
  rw [show (fun field : String × Json => (some field.2).map (field.1, ·)) = some from rfl,
    List.filterMap_some] at found
  refine ⟨_, by simp only [lexPermission, Json.get, found]; rfl, rfl, ?_, ?_⟩
  · intro key value mem notResource notType
    refine find_filterMap lexValue (nodup.sublist (List.filter_sublist.map _)) ?_
    exact List.mem_filter.mpr ⟨mem, by simp [notResource, notType]⟩
  · intro key listed
    obtain ⟨pair, converted, rfl⟩ := List.mem_map.mp listed
    obtain ⟨field, filtered, eq⟩ := List.mem_filterMap.mp converted
    obtain ⟨-, -, rfl⟩ := Option.map_eq_some_iff.mp eq
    obtain ⟨mem, kept⟩ := List.mem_filter.mp filtered
    simp only [ne_eq, Bool.and_eq_true, decide_eq_true_eq] at kept
    exact ⟨kept.1, kept.2, List.mem_map.mpr ⟨field, mem, rfl⟩⟩

/-! ## The second stage -/

section Readers

variable {p : LexPermission} {key : String} {value : Json} (read : p.get key = lexValue value)

include read

theorem list_of_wrong (wrong : ParamKind.list.fits value = false) : p.list key = none := by
  unfold LexPermission.list
  rw [read]
  split
  next values h => rw [fits_list h] at wrong; cases wrong
  · rfl

theorem scalar_of_wrong (wrong : ParamKind.scalar.fits value = false) :
    p.scalar key = if becomesEmpty value then some "" else none := by
  unfold LexPermission.scalar
  rw [read]
  cases value with
  | string text => cases wrong
  | array items => cases h : items.mapM Json.asString <;> simp [lexValue, becomesEmpty, h]
  | _ => rfl

theorem bool_of_wrong (wrong : ParamKind.bool.fits value = false) : p.bool key = none := by
  unfold LexPermission.bool
  rw [read]
  split
  next b h => rw [fits_bool h] at wrong; cases wrong
  · rfl

end Readers

theorem isSome_get {p : LexPermission} {key : String} :
    (p.get key).isSome = true ↔ key ∈ p.keys := by
  simp [LexPermission.get, LexPermission.keys]

/-! ### Refusals -/

namespace IncludeScope

variable {p : LexPermission}

theorem expandRepo_of_collection (h : p.list "collection" = none) : expandRepo p = none := by
  unfold expandRepo
  split_ifs
  · rfl
  · rw [h]
    rfl

theorem expandRpc_of_lxm (inc : IncludeScope) (h : p.list "lxm" = none) :
    inc.expandRpc p = none := by
  unfold expandRpc
  dsimp only
  split_ifs
  · rfl
  · rfl
  · rw [h]
    rfl

theorem expandRpc_of_aud (inc : IncludeScope) (h : p.scalar "aud" = some "") :
    inc.expandRpc p = none := by
  unfold expandRpc
  simp [h]

theorem expandRpc_of_inheritAud (inc : IncludeScope) (h : p.bool "inheritAud" = none)
    (listed : "inheritAud" ∈ p.keys) : inc.expandRpc p = none := by
  have unknown : p.hasOnlyKeys ["lxm", "aud"] = false := by
    refine Bool.eq_false_iff.mpr fun all => ?_
    have known := List.all_eq_true.mp all _ listed
    simp at known
  unfold expandRpc
  simp [rpcAudience, h, unknown]

theorem expandSpace_of_spaceType
    (h : p.scalar "spaceType" = none ∨ p.scalar "spaceType" = some "") : expandSpace p = none := by
  unfold expandSpace
  split_ifs
  · rfl
  obtain h | h := h
  · rw [h]
    rfl
  · simp [h, SpacePermission.fromParts, not_valid_empty.1]

theorem expandSpace_of_authority (h : p.scalar "authority" = some "") : expandSpace p = none := by
  unfold expandSpace
  split_ifs
  · rfl
  cases p.scalar "spaceType" <;> simp [h, SpacePermission.fromParts, not_valid_empty.2.1]

theorem expandSpace_of_skey (h : p.scalar "skey" = some "") : expandSpace p = none := by
  unfold expandSpace
  split_ifs
  · rfl
  cases p.scalar "spaceType" <;> simp [h, SpacePermission.fromParts, not_valid_empty.2.2]

end IncludeScope

open IncludeScope in
theorem expandOne_of_refuses (inc : IncludeScope) {p : LexPermission} {resource key : String}
    {kind : ParamKind} {value : Json} (known : (resource, key, kind) ∈ knownParams)
    (wrong : kind.fits value = false) (refused : refuses resource key value = true)
    (named : p.resource = resource) (read : p.get key = lexValue value) :
    inc.expandOne p = none := by
  simp only [knownParams, List.mem_cons, Prod.mk.injEq, List.not_mem_nil, or_false] at known
  unfold expandOne
  rw [named]
  rcases known with ⟨rfl, rfl, rfl⟩ | ⟨rfl, rfl, rfl⟩ | ⟨rfl, rfl, rfl⟩ | ⟨rfl, rfl, rfl⟩ |
    ⟨rfl, rfl, rfl⟩ | ⟨rfl, rfl, rfl⟩ | ⟨rfl, rfl, rfl⟩ | ⟨rfl, rfl, rfl⟩ | ⟨rfl, rfl, rfl⟩ |
    ⟨rfl, rfl, rfl⟩ | ⟨rfl, rfl, rfl⟩ <;> simp [refuses] at refused ⊢
  · exact expandRepo_of_collection (list_of_wrong read wrong)
  · exact expandRpc_of_lxm inc (list_of_wrong read wrong)
  · exact expandRpc_of_aud inc (by simpa [refused] using scalar_of_wrong read wrong)
  · refine expandRpc_of_inheritAud inc (bool_of_wrong read wrong) (isSome_get.mp ?_)
    rw [read, Option.isSome_iff_ne_none, Ne, lexValue_eq_none, refused]
    simp
  · refine expandSpace_of_spaceType ?_
    rw [scalar_of_wrong read wrong]
    split_ifs
    · exact .inr rfl
    · exact .inl rfl
  · exact expandSpace_of_authority (by simpa [refused] using scalar_of_wrong read wrong)
  · exact expandSpace_of_skey (by simpa [refused] using scalar_of_wrong read wrong)

/-! ### Survivals -/

namespace IncludeScope

variable {p : LexPermission}

theorem expand_repo (named : p.resource = "repo")
    (known : p.hasOnlyKeys ["collection", "action"] = true)
    (collection : p.list "collection" = some ["com.example.post"])
    (action : p.list "action" = none) :
    authBasic.expand ⟨[p]⟩ = [.repo ⟨["com.example.post"], RepoAction.all⟩] := by
  obtain ⟨valid, parent⟩ := valid_exampleNames.1 "com.example.post" (by simp)
  simp [expand, expandOne, expandRepo, named, known, collection, action, RepoPermission.fromParts,
    valid, isAllowed, parent]

theorem expand_space (named : p.resource = "space")
    (known : p.hasOnlyKeys ["spaceType", "authority", "skey", "collection", "action", "manage"] =
      true)
    (spaceType : p.scalar "spaceType" = some "com.example.forum")
    (scalars : ∀ key ∈ ["authority", "skey"], p.scalar key = none)
    (lists : ∀ key ∈ ["collection", "action", "manage"], p.list key = none) :
    authBasic.expand ⟨[p]⟩ =
      [.space ⟨"com.example.forum", "self", "*", [], SpaceAction.byDefault, []⟩] := by
  obtain ⟨valid, parent⟩ := valid_exampleNames.1 "com.example.forum" (by simp)
  simp only [List.mem_cons, List.not_mem_nil, or_false, forall_eq_or_imp, forall_eq]
    at scalars lists
  simp [expand, expandOne, expandSpace, named, known, spaceType, scalars, lists,
    SpacePermission.fromParts, valid, SpacePermission.collectionsFrom,
    SpacePermission.enumeratedFrom, isAllowed, parent]

theorem expand_rpc {aud : String} {keys : List String} (named : p.resource = "rpc")
    (pinned : (p.scalar "aud").any (· ≠ "*") = false)
    (audience : authBasic.rpcAudience p = (some aud, keys)) (known : p.hasOnlyKeys keys = true)
    (lxm : p.list "lxm" = some ["com.example.getFeed"])
    (valid : RpcPermission.fromParts ["com.example.getFeed"] (some aud) =
      some ⟨aud, ["com.example.getFeed"]⟩) :
    authBasic.expand ⟨[p]⟩ = [.rpc ⟨aud, ["com.example.getFeed"]⟩] := by
  have parent := (valid_exampleNames.1 "com.example.getFeed" (by simp)).2
  have read : authBasic.expandRpc p = some ⟨aud, ["com.example.getFeed"]⟩ := by
    unfold expandRpc
    simp only [pinned, audience, known, lxm]
    exact valid
  simp [expand, expandOne, named, read, isAllowed, parent]

end IncludeScope

open IncludeScope

/-- Every entry for `resource` with this value of `key` is dropped. -/
def Dropped (resource key : String) (value : Json) : Prop :=
  ∀ (inc : IncludeScope) (fields : List (String × Json)), (fields.map Prod.fst).Nodup →
    ("resource", .string resource) ∈ fields → (key, value) ∈ fields →
      inc.expand ⟨(lexPermission (.object fields)).toList⟩ = []

section Survivors

variable {value : Json}

theorem get_eq_none {p : LexPermission} {key : String} (absent : key ∉ p.keys) :
    p.get key = none :=
  Option.not_isSome_iff_eq_none.mp (isSome_get.not.mpr absent)

theorem not_dropped {resource key : String} (others : List (String × Json))
    (nodup : ("resource" :: key :: others.map Prod.fst).Nodup)
    (noType : "type" ∉ key :: others.map Prod.fst)
    (survives : ∀ p : LexPermission, p.resource = resource →
      (∀ k v, (k, v) ∈ (key, value) :: others → p.get k = lexValue v) →
      (∀ k ∈ p.keys, k ∈ key :: others.map Prod.fst) → authBasic.expand ⟨[p]⟩ ≠ []) :
    ¬ Dropped resource key value := by
  intro dropped
  have once : ((("resource", Json.string resource) :: (key, value) :: others).map Prod.fst).Nodup :=
    nodup
  obtain ⟨p, converted, named, read, keys⟩ := lexPermission_spec once List.mem_cons_self
  have none' := dropped authBasic _ once List.mem_cons_self
    (List.mem_cons_of_mem _ List.mem_cons_self)
  rw [converted] at none'
  refine survives p named ?_ ?_ none'
  · intro k v mem
    have listed : k ∈ ((key, value) :: others).map Prod.fst := List.mem_map.mpr ⟨_, mem, rfl⟩
    refine read k v (List.mem_cons_of_mem _ mem) ?_ ?_
    · rintro rfl
      exact (List.nodup_cons.mp nodup).1 listed
    · rintro rfl
      exact noType listed
  · intro k listed
    obtain ⟨notResource, -, mem⟩ := keys k listed
    exact (List.mem_cons.mp mem).resolve_left notResource

theorem hasOnlyKeys_iff {p : LexPermission} {known : List String} :
    p.hasOnlyKeys known = true ↔ ∀ key ∈ p.keys, key ∈ known := by
  simp [LexPermission.hasOnlyKeys]

theorem not_dropped_action (wrong : ParamKind.list.fits value = false) :
    ¬ Dropped "repo" "action" value := by
  refine not_dropped [("collection", .array [.string "com.example.post"])] (by simp) (by simp) ?_
  intro p named read keys
  have collection : p.list "collection" = some ["com.example.post"] := by
    unfold LexPermission.list
    rw [read "collection" _ (List.mem_cons_of_mem _ List.mem_cons_self)]
    rfl
  have known : p.hasOnlyKeys ["collection", "action"] = true :=
    hasOnlyKeys_iff.mpr fun key listed => by simpa [or_comm] using keys key listed
  rw [expand_repo named known collection (list_of_wrong (read _ _ List.mem_cons_self) wrong)]
  simp

theorem not_dropped_space {key : String}
    (known : key ∈ ["authority", "skey", "collection", "action", "manage"])
    (noScalar : key ∈ ["authority", "skey"] → ∀ text, lexValue value ≠ some (.scalar text))
    (noList : key ∈ ["collection", "action", "manage"] →
      ∀ values, lexValue value ≠ some (.list values)) : ¬ Dropped "space" key value := by
  have apart : key ≠ "resource" ∧ key ≠ "spaceType" ∧ key ≠ "type" := by
    refine ⟨?_, ?_, ?_⟩ <;> rintro rfl <;> simp at known
  refine not_dropped [("spaceType", .string "com.example.forum")]
    (by simp [apart, Ne.symm apart.1]) (by simp [Ne.symm apart.2.2]) ?_
  intro p named read keys
  have here := read _ _ List.mem_cons_self
  have absent (other : String) (ne : other ≠ key) (ne' : other ≠ "spaceType") :
      p.get other = none :=
    get_eq_none fun listed => by simpa [ne, ne'] using keys other listed
  have spaceType : p.scalar "spaceType" = some "com.example.forum" := by
    unfold LexPermission.scalar
    rw [read "spaceType" _ (List.mem_cons_of_mem _ List.mem_cons_self)]
    rfl
  have scalars : ∀ other ∈ ["authority", "skey"], p.scalar other = none := by
    intro other mem
    unfold LexPermission.scalar
    by_cases same : other = key
    · subst same
      rw [here]
      split
      next text h => exact absurd h (noScalar mem text)
      · rfl
    · rw [absent other same (by rintro rfl; simp at mem)]
  have lists : ∀ other ∈ ["collection", "action", "manage"], p.list other = none := by
    intro other mem
    unfold LexPermission.list
    by_cases same : other = key
    · subst same
      rw [here]
      split
      next values h => exact absurd h (noList mem values)
      · rfl
    · rw [absent other same (by rintro rfl; simp at mem)]
  have only : p.hasOnlyKeys
      ["spaceType", "authority", "skey", "collection", "action", "manage"] = true := by
    refine hasOnlyKeys_iff.mpr fun other listed => ?_
    obtain rfl | other := List.mem_cons.mp (keys other listed)
    · exact List.mem_cons_of_mem _ known
    · exact List.mem_cons.mpr (.inl (List.mem_singleton.mp other))
  rw [expand_space named only spaceType scalars lists]
  simp

theorem not_dropped_aud (wrong : ParamKind.scalar.fits value = false)
    (kept : becomesEmpty value = false) : ¬ Dropped "rpc" "aud" value := by
  refine not_dropped [("lxm", .array [.string "com.example.getFeed"]), ("inheritAud", .bool true)]
    (by simp) (by simp) ?_
  intro p named read keys
  have aud : p.scalar "aud" = none := by
    rw [scalar_of_wrong (read _ _ List.mem_cons_self) wrong, kept]
    rfl
  have inherit' : p.bool "inheritAud" = some true := by
    unfold LexPermission.bool
    rw [read "inheritAud" (.bool true) (by simp)]
    rfl
  have lxm : p.list "lxm" = some ["com.example.getFeed"] := by
    unfold LexPermission.list
    rw [read "lxm" (.array [.string "com.example.getFeed"]) (by simp)]
    rfl
  have audience : authBasic.rpcAudience p =
      (some "did:web:x.com#svc", ["lxm", "aud", "inheritAud"]) := by
    simp [rpcAudience, inherit', aud, authBasic]
  rw [expand_rpc named (by simp [aud]) audience
    (hasOnlyKeys_iff.mpr fun key listed => by
      have mem := keys key listed
      simp only [List.map_cons, List.map_nil, List.mem_cons, List.not_mem_nil, or_false] at mem ⊢
      tauto) lxm (valid_exampleNames.2 _ (by simp))]
  simp

theorem not_dropped_inheritAud (mixed : isMixedList value = true) :
    ¬ Dropped "rpc" "inheritAud" value := by
  refine not_dropped [("lxm", .array [.string "com.example.getFeed"]), ("aud", .string "*")]
    (by simp) (by simp) ?_
  intro p named read keys
  have gone : p.get "inheritAud" = none := by
    rw [read _ _ List.mem_cons_self, lexValue_eq_none]
    exact mixed
  have aud : p.scalar "aud" = some "*" := by
    unfold LexPermission.scalar
    rw [read "aud" (.string "*") (by simp)]
    rfl
  have lxm : p.list "lxm" = some ["com.example.getFeed"] := by
    unfold LexPermission.list
    rw [read "lxm" (.array [.string "com.example.getFeed"]) (by simp)]
    rfl
  have audience : authBasic.rpcAudience p = (some "*", ["lxm", "aud"]) := by
    simp [rpcAudience, aud]
  rw [expand_rpc named (by simp [aud]) audience
    (hasOnlyKeys_iff.mpr fun key listed => by
      have mem := keys key listed
      have ne : key ≠ "inheritAud" := by
        rintro rfl
        exact absurd (isSome_get.mpr listed) (by simp [gone])
      simpa [ne] using mem) lxm (valid_exampleNames.2 _ (by simp))]
  simp

end Survivors

/-! ## Which wrong values invalidate an entry -/

theorem dropped_of_refuses {resource key : String} {kind : ParamKind} {value : Json}
    (known : (resource, key, kind) ∈ knownParams) (wrong : kind.fits value = false)
    (refused : refuses resource key value = true) : Dropped resource key value := by
  intro inc fields nodup named mem
  obtain ⟨p, converted, named, read, -⟩ := lexPermission_spec nodup named
  have reserved : key ≠ "resource" ∧ key ≠ "type" := by
    constructor <;> rintro rfl <;> simp [knownParams] at known
  have none' := expandOne_of_refuses inc known wrong refused named
    (read key value mem reserved.1 reserved.2)
  rw [converted]
  simp [expand, none']

/-- A value of the wrong shape for a known parameter invalidates every entry it stands in, for
every include scope, exactly when `refuses` says so. -/
theorem dropped_iff_refuses {resource key : String} {kind : ParamKind} {value : Json}
    (known : (resource, key, kind) ∈ knownParams) (wrong : kind.fits value = false) :
    Dropped resource key value ↔ refuses resource key value = true := by
  refine ⟨fun dropped => ?_, dropped_of_refuses known wrong⟩
  by_contra kept
  revert dropped
  simp only [knownParams, List.mem_cons, Prod.mk.injEq, List.not_mem_nil, or_false] at known
  have noList (wrong : ParamKind.list.fits value = false) (values : List String) :
      lexValue value ≠ some (.list values) := fun h => by simp [fits_list h] at wrong
  have noScalar (wrong : ParamKind.scalar.fits value = false) (kept : becomesEmpty value = false)
      (text : String) : lexValue value ≠ some (.scalar text) := by
    cases value <;> simp_all [ParamKind.fits, becomesEmpty, lexValue]
  rcases known with ⟨rfl, rfl, rfl⟩ | ⟨rfl, rfl, rfl⟩ | ⟨rfl, rfl, rfl⟩ | ⟨rfl, rfl, rfl⟩ |
    ⟨rfl, rfl, rfl⟩ | ⟨rfl, rfl, rfl⟩ | ⟨rfl, rfl, rfl⟩ | ⟨rfl, rfl, rfl⟩ | ⟨rfl, rfl, rfl⟩ |
    ⟨rfl, rfl, rfl⟩ | ⟨rfl, rfl, rfl⟩ <;> simp [refuses] at kept
  · exact not_dropped_action wrong
  · exact not_dropped_aud wrong kept
  · exact not_dropped_inheritAud kept
  · exact not_dropped_space (by simp) (fun _ => noScalar wrong kept) (by simp)
  · exact not_dropped_space (by simp) (fun _ => noScalar wrong kept) (by simp)
  · exact not_dropped_space (by simp) (by simp) (fun _ => noList wrong)
  · exact not_dropped_space (by simp) (by simp) (fun _ => noList wrong)
  · exact not_dropped_space (by simp) (by simp) (fun _ => noList wrong)

theorem dropped_iff_refuses_number :
    Dropped "rpc" "aud" (.number "1") ∧ ¬ Dropped "rpc" "aud" (.bool true) := by
  have known : ("rpc", "aud", ParamKind.scalar) ∈ knownParams := by decide
  refine ⟨(dropped_iff_refuses known rfl).mpr (by decide), fun dropped => ?_⟩
  exact absurd ((dropped_iff_refuses known rfl).mp dropped) (by decide)

/-- One action where a list belongs, and all three are granted. -/
theorem scalar_action_widens :
    ParamKind.list.fits (.string "create") = false ∧
      authBasic.expand ⟨(lexPermission (.object [("type", .string "permission"),
        ("resource", .string "repo"), ("collection", .array [.string "com.example.post"]),
        ("action", .string "create")])).toList⟩ =
      [.repo ⟨["com.example.post"], [.create, .update, .delete]⟩] := by
  decide +kernel

end HappyView.Scopes
