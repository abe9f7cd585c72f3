import HappyView.Foundation.Json
import HappyView.Scopes.Resources

/-!
# Permission sets

`include:<nsid>[?aud=<did>]` stands for the permissions that the lexicon `nsid` declares. Its
document is anybody's to publish, so an entry counts only when it is valid, and only for
names under the lexicon's own authority: those that begin like the lexicon's NSID up to and
including the last dot. What fails is dropped.
-/

namespace HappyView.Scopes

open HappyView.Foundation

inductive LexValue where
  | scalar (value : String)
  | list (values : List String)
  | bool (value : Bool)
  deriving DecidableEq

structure LexPermission where
  resource : String
  /-- Every key other than `type` and `resource`. -/
  params : List (String × LexValue)
  deriving DecidableEq

namespace LexPermission

def get (p : LexPermission) (key : String) : Option LexValue :=
  (p.params.find? (·.1 == key)).map (·.2)

def keys (p : LexPermission) : List String := p.params.map (·.1)

def list (p : LexPermission) (key : String) : Option (List String) :=
  match p.get key with
  | some (.list values) => some values
  | _ => none

def scalar (p : LexPermission) (key : String) : Option String :=
  match p.get key with
  | some (.scalar value) => some value
  | _ => none

def bool (p : LexPermission) (key : String) : Option Bool :=
  match p.get key with
  | some (.bool value) => some value
  | _ => none

def hasOnlyKeys (p : LexPermission) (known : List String) : Bool :=
  p.keys.all fun key => known.contains key

end LexPermission

structure LexPermissionSet where
  permissions : List LexPermission
  deriving DecidableEq

inductive IncludedPermission where
  | repo (permission : RepoPermission)
  | rpc (permission : RpcPermission)
  | space (permission : SpacePermission)
  deriving DecidableEq

/-! ## Documents -/

/-- A list with an item that is no string has no value here. -/
def lexValue : Json → Option LexValue
  | .array items => (items.mapM Json.asString).map .list
  | .bool value => some (.bool value)
  | .string value => some (.scalar value)
  -- Keeps the key, for the check of unknown keys.
  | .null | .number _ | .object _ => some (.scalar "")

def lexPermission : Json → Option LexPermission
  | .object fields => do
    let resource ← ← (Json.object fields).get "resource" |>.map Json.asString
    let params := fields.filter fun field => field.1 ≠ "resource" && field.1 ≠ "type"
    some ⟨resource, params.filterMap fun field => (lexValue field.2).map (field.1, ·)⟩
  | _ => none

def lexPermissionSet (raw : Json) : Option LexPermissionSet := do
  let defs ← raw.get "defs"
  let main ← defs.get "main"
  let permissions ← main.get "permissions"
  let entries ← permissions.asArray
  some ⟨entries.filterMap lexPermission⟩

/-! ## Include scopes -/

structure IncludeScope where
  nsid : String
  /-- The audience that `inheritAud` permissions adopt. -/
  aud : Option String
  isNsid_nsid : isNsid nsid = true
  isAbsoluteDidRef_aud : ∀ did ∈ aud, isAbsoluteDidRef did = true

namespace IncludeScope

def parse (urldecode : String → Option String) (scope : String) : Option IncludeScope := do
  let s ← ScopeSyntax.resource urldecode "include" ["nsid", "aud"] "nsid" scope
  let nsid ← ← s.singleOrPositional "nsid"
  let aud ← (s.getSingle "aud").ok
  if valid : isNsid nsid = true ∧ ∀ did ∈ aud, isAbsoluteDidRef did = true then
    some ⟨nsid, aud, valid.1, valid.2⟩
  else none

def groupPrefix (nsid : String) : Option (List Char) :=
  match nsid.toList.reverse.dropWhile (· != '.') with
  | [] => none
  | back => some back.reverse

/-- Whether `other` is under the authority group of the scope's NSID. Both are validated NSIDs
here, so comparing characters is comparing bytes. -/
def isParentAuthorityOf (inc : IncludeScope) (other : String) : Bool :=
  if other = "*" then false
  else match groupPrefix inc.nsid with
    | none => false
    | some group => group.length < other.toList.length && group.isPrefixOf other.toList

def expandRepo (p : LexPermission) : Option RepoPermission := do
  if !p.hasOnlyKeys ["collection", "action"] then none
  else
    let collection ← p.list "collection"
    RepoPermission.fromParts collection (p.list "action")

def expandSpace (p : LexPermission) : Option SpacePermission := do
  if !p.hasOnlyKeys ["spaceType", "authority", "skey", "collection", "action", "manage"] then none
  else
    let spaceType ← p.scalar "spaceType"
    SpacePermission.fromParts spaceType (p.scalar "authority") (p.scalar "skey")
      (p.list "collection") (p.list "action") (p.list "manage")

/-- The audience of an `rpc` permission and the keys it may have: `inheritAud` is a known key
only where it takes effect. -/
def rpcAudience (inc : IncludeScope) (p : LexPermission) : Option String × List String :=
  if (p.bool "inheritAud").getD false && (p.scalar "aud").isNone && inc.aud.isSome then
    (inc.aud, ["lxm", "aud", "inheritAud"])
  else (p.scalar "aud", ["lxm", "aud"])

def expandRpc (inc : IncludeScope) (p : LexPermission) : Option RpcPermission := do
  -- A set may not direct a caller's credentials at a service of its own choosing.
  if (p.scalar "aud").any (· ≠ "*") then none
  else
    let (aud, known) := inc.rpcAudience p
    if !p.hasOnlyKeys known then none
    else
      let lxm ← p.list "lxm"
      RpcPermission.fromParts lxm aud

def expandOne (inc : IncludeScope) (p : LexPermission) : Option IncludedPermission :=
  if p.resource = "repo" then (expandRepo p).map .repo
  else if p.resource = "space" then (expandSpace p).map .space
  else if p.resource = "rpc" then (inc.expandRpc p).map .rpc
  else none

/-- A set may only grant names under its own authority group; of a space, only the type
counts. -/
def isAllowed (inc : IncludeScope) : IncludedPermission → Bool
  | .repo p => p.collection.all inc.isParentAuthorityOf
  | .rpc p => p.lxm.all inc.isParentAuthorityOf
  | .space p => inc.isParentAuthorityOf p.spaceType

def expand (inc : IncludeScope) (set : LexPermissionSet) : List IncludedPermission :=
  (set.permissions.filterMap inc.expandOne).filter inc.isAllowed

/-! ## Containment -/

/-- `name` is a concrete NSID that begins like the scope's own up to its last dot. -/
def Governs (inc : IncludeScope) (name : String) : Prop :=
  isNsid name = true ∧ name ≠ "*" ∧
    ∃ group own rest, inc.nsid.toList = group ++ '.' :: own ∧ '.' ∉ own ∧
      name.toList = group ++ '.' :: rest

/-- What a permission set may yield, with the resource of the entry it comes from. -/
def Contains (inc : IncludeScope) (resource : String) : IncludedPermission → Prop
  | .repo p => resource = "repo" ∧ ∀ collection ∈ p.collection, inc.Governs collection
  | .rpc p => resource = "rpc" ∧ (∀ lxm ∈ p.lxm, inc.Governs lxm) ∧
      (p.aud = "*" ∨ inc.aud = some p.aud)
  | .space p => resource = "space" ∧ inc.Governs p.spaceType

theorem groupPrefix_eq_some {nsid : String} {chars : List Char}
    (h : groupPrefix nsid = some chars) :
    ∃ group own, chars = group ++ ['.'] ∧ nsid.toList = group ++ '.' :: own ∧ '.' ∉ own := by
  have split := List.takeWhile_append_dropWhile (p := (· != '.')) (l := nsid.toList.reverse)
  unfold groupPrefix at h
  split at h
  · cases h
  next back ne =>
    cases h
    cases found : nsid.toList.reverse.dropWhile (· != '.') with
    | nil => exact absurd found ne
    | cons c back =>
      have dot : c = '.' := by
        have stops := List.head_dropWhile_not (· != '.') (found ▸ List.cons_ne_nil c back)
        simpa [found] using stops
      subst dot
      refine ⟨back.reverse, (nsid.toList.reverse.takeWhile (· != '.')).reverse, by simp, ?_, ?_⟩
      · rw [found] at split
        have reversed := congrArg List.reverse split
        simpa using reversed.symm
      · intro mem
        have kept := List.mem_takeWhile_imp (List.mem_reverse.mp mem)
        simp at kept

theorem governs_of_isParentAuthorityOf {inc : IncludeScope} {name : String}
    (valid : isNsidOrWildcard name = true) (h : inc.isParentAuthorityOf name = true) :
    inc.Governs name := by
  unfold isParentAuthorityOf at h
  split_ifs at h with wildcard
  split at h
  · cases h
  next chars found =>
    obtain ⟨group, own, rfl, split, last⟩ := groupPrefix_eq_some found
    obtain ⟨-, starts⟩ := Bool.and_eq_true_iff.mp h
    obtain ⟨rest, begins⟩ := List.isPrefixOf_iff_prefix.mp starts
    refine ⟨?_, wildcard, group, own, rest, split, last, by simpa using begins.symm⟩
    simpa [isNsidOrWildcard, wildcard] using valid

/-! ### What each resource's reader accepts -/

theorem all_isNsidOrWildcard_of_repo {collection : List String} {action : Option (List String)}
    {p : RepoPermission} (h : RepoPermission.fromParts collection action = some p) :
    p.collection.all isNsidOrWildcard = true := by
  unfold RepoPermission.fromParts at h
  split_ifs at h with invalid
  have valid : collection.all isNsidOrWildcard = true := by grind
  split at h
  · cases h
    exact valid
  · split_ifs at h
    obtain ⟨actions, -, rfl⟩ := Option.map_eq_some_iff.mp h
    exact valid

theorem eq_of_rpc {lxm : List String} {aud : Option String} {p : RpcPermission}
    (h : RpcPermission.fromParts lxm aud = some p) :
    p.lxm.all isNsidOrWildcard = true ∧ aud = some p.aud := by
  unfold RpcPermission.fromParts at h
  split_ifs at h with invalid
  have valid : lxm.all isNsidOrWildcard = true := by grind
  split at h
  · cases h
  · split_ifs at h
    cases h
    exact ⟨valid, rfl⟩

theorem isNsidOrWildcard_of_space {spaceType : String} {authority skey : Option String}
    {collection action manage : Option (List String)} {p : SpacePermission}
    (h : SpacePermission.fromParts spaceType authority skey collection action manage = some p) :
    isNsidOrWildcard p.spaceType = true := by
  unfold SpacePermission.fromParts at h
  dsimp only at h
  split_ifs at h with invalid
  obtain ⟨collections, -, h⟩ := Option.bind_eq_some_iff.mp h
  obtain ⟨actions, -, h⟩ := Option.bind_eq_some_iff.mp h
  obtain ⟨ops, -, h⟩ := Option.bind_eq_some_iff.mp h
  cases h
  simpa using invalid

theorem rpcAudience_aud {inc : IncludeScope} {p : LexPermission} {aud : String}
    (pinned : (p.scalar "aud").any (· ≠ "*") = false)
    (h : (inc.rpcAudience p).1 = some aud) : aud = "*" ∨ inc.aud = some aud := by
  unfold rpcAudience at h
  split_ifs at h
  · exact .inr h
  · rw [show p.scalar "aud" = some aud from h] at pinned
    exact .inl (by simpa using pinned)

theorem expandRpc_eq_some {inc : IncludeScope} {entry : LexPermission} {p : RpcPermission}
    (h : inc.expandRpc entry = some p) :
    p.lxm.all isNsidOrWildcard = true ∧ (p.aud = "*" ∨ inc.aud = some p.aud) := by
  unfold expandRpc at h
  dsimp only at h
  split_ifs at h with pinned unknown
  obtain ⟨lxm, -, h⟩ := Option.bind_eq_some_iff.mp h
  obtain ⟨valid, aud⟩ := eq_of_rpc h
  exact ⟨valid, rpcAudience_aud (Bool.eq_false_iff.mpr pinned) aud⟩

theorem expandRepo_eq_some {entry : LexPermission} {p : RepoPermission}
    (h : expandRepo entry = some p) : p.collection.all isNsidOrWildcard = true := by
  unfold expandRepo at h
  split_ifs at h
  obtain ⟨collection, -, h⟩ := Option.bind_eq_some_iff.mp h
  exact all_isNsidOrWildcard_of_repo h

theorem expandSpace_eq_some {entry : LexPermission} {p : SpacePermission}
    (h : expandSpace entry = some p) : isNsidOrWildcard p.spaceType = true := by
  unfold expandSpace at h
  split_ifs at h
  obtain ⟨spaceType, -, h⟩ := Option.bind_eq_some_iff.mp h
  exact isNsidOrWildcard_of_space h

theorem governs_of_all {inc : IncludeScope} {names : List String}
    (valid : names.all isNsidOrWildcard = true)
    (allowed : names.all inc.isParentAuthorityOf = true) : ∀ name ∈ names, inc.Governs name := by
  intro name mem
  exact governs_of_isParentAuthorityOf (List.all_eq_true.mp valid name mem)
    (List.all_eq_true.mp allowed name mem)

theorem contains_of_expandOne {inc : IncludeScope} {entry : LexPermission}
    {permission : IncludedPermission} (found : inc.expandOne entry = some permission)
    (allowed : inc.isAllowed permission = true) : inc.Contains entry.resource permission := by
  unfold expandOne at found
  split_ifs at found with repo space rpc
  · obtain ⟨p, read, rfl⟩ := Option.map_eq_some_iff.mp found
    exact ⟨repo, governs_of_all (expandRepo_eq_some read) allowed⟩
  · obtain ⟨p, read, rfl⟩ := Option.map_eq_some_iff.mp found
    exact ⟨space, governs_of_isParentAuthorityOf (expandSpace_eq_some read) allowed⟩
  · obtain ⟨p, read, rfl⟩ := Option.map_eq_some_iff.mp found
    obtain ⟨valid, aud⟩ := expandRpc_eq_some read
    exact ⟨rpc, governs_of_all valid allowed, aud⟩

/-- Whatever the entries of a permission set are, an include scope yields nothing beyond the
authority of its own NSID. -/
theorem expand_contained (inc : IncludeScope) (set : LexPermissionSet)
    (permission : IncludedPermission) (yielded : permission ∈ inc.expand set) :
    ∃ entry ∈ set.permissions, inc.Contains entry.resource permission := by
  obtain ⟨found, allowed⟩ := List.mem_filter.mp yielded
  obtain ⟨entry, mem, found⟩ := List.mem_filterMap.mp found
  exact ⟨entry, mem, contains_of_expandOne found allowed⟩

/-- `include:com.example.authBasic?aud=did:web:x.com%23svc`. -/
def authBasic : IncludeScope where
  nsid := "com.example.authBasic"
  aud := some "did:web:x.com#svc"
  isNsid_nsid := by decide +kernel
  isAbsoluteDidRef_aud := by decide +kernel

theorem expand_contained_inherited :
    authBasic.expand ⟨[⟨"rpc", [("lxm", .list ["com.example.getFeed"]),
          ("inheritAud", .bool true)]⟩,
        ⟨"repo", [("collection", .list ["app.bsky.feed.post"])]⟩]⟩ =
      [.rpc ⟨"did:web:x.com#svc", ["com.example.getFeed"]⟩] ∧
    ∃ entry ∈ [(⟨"rpc", [("lxm", .list ["com.example.getFeed"]),
          ("inheritAud", .bool true)]⟩ : LexPermission),
        ⟨"repo", [("collection", .list ["app.bsky.feed.post"])]⟩],
      authBasic.Contains entry.resource
        (.rpc ⟨"did:web:x.com#svc", ["com.example.getFeed"]⟩) :=
  ⟨by decide +kernel, expand_contained authBasic _ _ (by decide +kernel)⟩

end IncludeScope

end HappyView.Scopes
