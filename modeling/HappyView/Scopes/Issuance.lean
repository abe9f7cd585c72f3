import HappyView.Scopes.Coverage

/-!
# Coverage and issuance

When a token is issued, two parameters that a space scope may leave out are filled in: an
authority of `self` becomes the granting user, and a scope with no collections takes the
collections that its space type declares.

A requested scope with no collections has no writes to compare, so its writes are covered by
anything, and issuance then gives it collections to write to.
-/

namespace HappyView.Scopes

open HappyView.Foundation

namespace SpacePermission

/-- The permission as it is issued to `userDid` for a space type that declares
`collections`. -/
def issue (userDid : String) (collections : List String) (p : SpacePermission) : SpacePermission :=
  (p.withResolvedAuthority userDid).withDefaultCollections collections

/-- Whether the selectors of `g` take in those of `p`. -/
def Selects (g p : SpacePermission) : Prop :=
  (g.spaceType = "*" ∨ g.spaceType = p.spaceType) ∧
    (g.authority = "*" ∨ g.authority = p.authority) ∧ (g.skey = "*" ∨ g.skey = p.skey)

/-- Whether `g` gets the declared collections, or has every collection. -/
def FollowsDeclared (g : SpacePermission) : Prop := g.collection = [] ∨ "*" ∈ g.collection

section

variable {userDid : String} {collections : List String} {p : SpacePermission}

@[simp] theorem spaceType_issue : (p.issue userDid collections).spaceType = p.spaceType := by
  unfold issue withDefaultCollections withResolvedAuthority
  split_ifs <;> rfl

@[simp] theorem skey_issue : (p.issue userDid collections).skey = p.skey := by
  unfold issue withDefaultCollections withResolvedAuthority
  split_ifs <;> rfl

@[simp] theorem action_issue : (p.issue userDid collections).action = p.action := by
  unfold issue withDefaultCollections withResolvedAuthority
  split_ifs <;> rfl

@[simp] theorem manage_issue : (p.issue userDid collections).manage = p.manage := by
  unfold issue withDefaultCollections withResolvedAuthority
  split_ifs <;> rfl

theorem authority_issue : (p.issue userDid collections).authority =
    if p.authority = "self" then userDid else p.authority := by
  unfold issue withDefaultCollections withResolvedAuthority
  split_ifs <;> simp_all

theorem collection_issue : (p.issue userDid collections).collection =
    if p.collection = [] then collections else p.collection := by
  unfold issue withDefaultCollections withResolvedAuthority
  split_ifs <;> simp_all

theorem permits_issue {target : SpaceTarget} (h : p.permits target = true) :
    (p.issue userDid collections).permits target = true := by
  cases target with
  | write action collection =>
    simp only [permits, collectionAllows, Bool.and_eq_true, action_issue, collection_issue] at h ⊢
    refine ⟨h.1, ?_⟩
    rw [if_neg (by rintro none; simp [none] at h)]
    exact h.2
  | read | readSelf | manage => simpa [permits] using h

theorem Selects.issue {g : SpacePermission} (h : g.Selects p) {spaceType authority skey : String}
    {target : SpaceTarget}
    (hit : (p.issue userDid collections).isMatch spaceType authority skey target = true)
    (permits : (g.issue userDid collections).permits target = true) :
    (g.issue userDid collections).isMatch spaceType authority skey target = true := by
  obtain ⟨type, auth, key⟩ := h
  rw [isMatch_iff] at hit ⊢
  simp only [spaceType_issue, authority_issue, skey_issue] at hit ⊢
  obtain ⟨type', auth', key', -⟩ := hit
  refine ⟨by grind, ?_, by grind, permits⟩
  rcases auth with every | same
  · left
    rw [if_neg (by rw [every]; decide)]
    exact every
  · rwa [same]

end

end SpacePermission

open SpacePermission

namespace ScopePermissions

variable {urldecode : String → Option String} {held : ScopePermissions}

def spacePermissions (urldecode : String → Option String) (held : ScopePermissions) :
    List SpacePermission :=
  held.scopes.filterMap (SpacePermission.parse urldecode)

def allowsIssued (urldecode : String → Option String) (held : ScopePermissions) (userDid : String)
    (collections : List String) (spaceType authority skey : String) (target : SpaceTarget) : Bool :=
  ((held.spacePermissions urldecode).map (·.issue userDid collections)).any
    (·.isMatch spaceType authority skey target)

theorem allowsIssued_iff {userDid : String} {collections : List String}
    {spaceType authority skey : String} {target : SpaceTarget} :
    held.allowsIssued urldecode userDid collections spaceType authority skey target = true ↔
      ∃ g ∈ held.spacePermissions urldecode,
        (g.issue userDid collections).isMatch spaceType authority skey target = true := by
  simp [allowsIssued]

theorem exists_selects {p : SpacePermission} {asked : SpaceTarget}
    (covers : held.allowsSpace urldecode p.spaceType p.authority p.skey asked = true) :
    ∃ g ∈ held.spacePermissions urldecode, g.Selects p ∧ g.permits asked = true := by
  obtain ⟨g, mem, hit⟩ := List.any_eq_true.mp covers
  obtain ⟨type, auth, key, permits⟩ := isMatch_iff.mp hit
  exact ⟨g, mem, ⟨type, auth, key⟩, permits⟩

theorem allowsIssued_of_covered {p : SpacePermission} {userDid : String}
    {collections : List String} {spaceType authority skey : String} {asked target : SpaceTarget}
    (covers : held.allowsSpace urldecode p.spaceType p.authority p.skey asked = true)
    (hit : (p.issue userDid collections).isMatch spaceType authority skey target = true)
    (implied : ∀ q : SpacePermission, q.permits asked = true → q.permits target = true) :
    held.allowsIssued urldecode userDid collections spaceType authority skey target = true := by
  obtain ⟨g, mem, selects, permits⟩ := exists_selects covers
  exact allowsIssued_iff.mpr ⟨g, mem, selects.issue hit (implied _ (permits_issue permits))⟩

/-- Each write of a permission with no collections is backed by a granted permission that
selects the same spaces and that issuance gives the declared collections too. -/
def Backed (urldecode : String → Option String) (held : ScopePermissions) (p : SpacePermission) :
    Prop :=
  p.collection = [] → ∀ kind : RecordWrite, kind.action ∈ p.action →
    ∃ g ∈ held.spacePermissions urldecode,
      g.Selects p ∧ kind.action ∈ g.action ∧ g.FollowsDeclared

theorem permits_of_issue {p : SpacePermission} {userDid : String} {collections : List String}
    {op : SpaceOperation} (h : (p.issue userDid collections).permits op.target = true) :
    p.permits op.target = true ∨
      p.collection = [] ∧ ∃ kind c, op = .write kind c ∧ kind.action ∈ p.action ∧
        (collections.any fun d => d == "*" || d == c) = true := by
  cases op with
  | write kind c =>
    simp only [SpaceOperation.target, permits, collectionAllows, Bool.and_eq_true, action_issue,
      collection_issue, List.contains_iff_mem] at h ⊢
    split at h
    · rename_i bare
      exact .inr ⟨bare, kind, c, rfl, h.1, h.2⟩
    · exact .inl h
  | read | readSelf | manage => left; simpa [SpaceOperation.target, permits] using h

theorem allowsIssued_of_backed {scope : String} {p : SpacePermission}
    (parsed : SpacePermission.parse urldecode scope = some p)
    (covered : held.coversScope urldecode scope = true) (backed : Backed urldecode held p)
    {userDid : String} {collections : List String} {spaceType authority skey : String}
    {op : SpaceOperation}
    (hit : (p.issue userDid collections).isMatch spaceType authority skey op.target = true) :
    held.allowsIssued urldecode userDid collections spaceType authority skey op.target = true := by
  rcases coversGrant_of_coversScope covered (g := .space p) parsed with mem | covers
  · -- The scope is held itself.
    exact allowsIssued_iff.mpr ⟨p, List.mem_filterMap.mpr ⟨scope, mem, parsed⟩, hit⟩
  · obtain ⟨-, -, -, permits⟩ := isMatch_iff.mp hit
    rcases permits_of_issue permits with before | ⟨bare, kind, c, rfl, act, declared⟩
    · obtain ⟨asked, answered, implied⟩ := exists_asked covers before
      exact allowsIssued_of_covered answered hit implied
    · obtain ⟨g, mem, selects, actG, follows⟩ := backed bare kind act
      refine allowsIssued_iff.mpr ⟨g, mem, selects.issue hit ?_⟩
      simp only [SpaceOperation.target, SpacePermission.permits, collectionAllows,
        Bool.and_eq_true, action_issue, collection_issue, List.contains_iff_mem]
      refine ⟨actG, ?_⟩
      rcases follows with none | every
      · rwa [if_pos none]
      · rw [if_neg (List.ne_nil_of_mem every)]
        exact List.any_eq_true.mpr ⟨"*", every, by simp⟩

/-! ## Without backing -/

theorem isValidDid_letters (n : Nat) :
    isValidDid ("did:web:" ++ String.ofList (List.replicate (n + 1) 'a') ++ "") = true := by
  have split : "did:web:" ++ String.ofList (List.replicate (n + 1) 'a') ++ "" =
      "did:" ++ String.ofList ("web".toList ++ ':' :: List.replicate (n + 1) 'a') := by
    rw [← String.toList_inj]
    simp
  have noColon : Text.stripEnd ":" (String.ofList (List.replicate (n + 1) 'a')) = none := by
    rw [Option.eq_none_iff_forall_ne_some]
    intro head ends
    have letters := congrArg String.toList (Text.stripEnd_eq_some ends)
    have mem : ':' ∈ List.replicate (n + 1) 'a' := by
      rw [← String.toList_ofList (l := List.replicate (n + 1) 'a'), letters]
      simp
    exact absurd (List.eq_of_mem_replicate mem) (by decide)
  rw [isValidDid, split, Text.strip_append]
  simp only []
  rw [Text.splitOnce_append (by simp) (by decide)]
  simp [noColon]

def mentioned (urldecode : String → Option String) (held : ScopePermissions)
    (p : SpacePermission) : List String :=
  ["*", "self", p.spaceType, p.authority, p.skey] ++
    (held.spacePermissions urldecode).flatMap fun g =>
      g.spaceType :: g.authority :: g.skey :: g.collection

/-- `value`, or another in the place of a wildcard. -/
def concretely (other value : String) : String := if value = "*" then other else value

theorem eq_of_concretely {other value found : String} (fresh : found ≠ other)
    (hit : found = "*" ∨ found = concretely other value) : found = "*" ∨ found = value := by
  unfold concretely at hit
  grind

theorem concretely_hit (other value : String) : value = "*" ∨ value = concretely other value := by
  unfold concretely
  grind

/-- A space, a user and a declared collection that nothing mentions: a permission of the
set that allows the write selects `p`, and has the collection by declaration. -/
theorem backed_of_stable {p : SpacePermission}
    (stable : ∀ userDid, isValidDid userDid = true → ∀ collections spaceType authority skey op,
      (p.issue userDid collections).isMatch spaceType authority skey (SpaceOperation.target op) =
        true →
      held.allowsIssued urldecode userDid collections spaceType authority skey op.target = true) :
    Backed urldecode held p := by
  intro bare kind act
  obtain ⟨n, freshDid⟩ := Text.exists_fresh "did:web:" "" (mentioned urldecode held p)
  have valid := isValidDid_letters n
  generalize "did:web:" ++ String.ofList (List.replicate (n + 1) 'a') ++ "" = did at freshDid valid
  obtain ⟨m, fresh⟩ := Text.exists_fresh "" "" (did :: mentioned urldecode held p)
  generalize "" ++ String.ofList (List.replicate (m + 1) 'a') ++ "" = name at fresh
  simp only [mentioned, List.cons_append, List.nil_append, List.mem_cons, List.mem_flatMap,
    not_or, not_exists, not_and] at freshDid fresh
  have hit : (p.issue did [name]).isMatch (concretely name p.spaceType)
      (concretely name (p.issue did [name]).authority) (concretely name p.skey)
      (SpaceOperation.write kind name).target = true := by
    refine isMatch_iff.mpr ⟨?_, concretely_hit _ _, ?_, ?_⟩
    · simpa using concretely_hit name p.spaceType
    · simpa using concretely_hit name p.skey
    · simpa [SpaceOperation.target, SpacePermission.permits, collectionAllows, collection_issue,
        bare] using act
  obtain ⟨g, mem, hitG⟩ := allowsIssued_iff.mp (stable did valid [name] _ _ _ _ hit)
  obtain ⟨type, auth, key, permits⟩ := isMatch_iff.mp hitG
  simp only [spaceType_issue, skey_issue, authority_issue, SpaceOperation.target,
    SpacePermission.permits, collectionAllows, action_issue, collection_issue, Bool.and_eq_true,
    List.contains_iff_mem, List.any_eq_true, Bool.or_eq_true, beq_iff_eq] at type auth key permits
  have unlikeDid := freshDid.2.2.2.2.2 g mem
  have unlike := fresh.2.2.2.2.2.2 g mem
  refine ⟨g, mem, ⟨eq_of_concretely (by grind) type, ?_, eq_of_concretely (by grind) key⟩,
    permits.1, ?_⟩
  · unfold concretely at auth
    grind
  · obtain ⟨c, listed, wide⟩ := permits.2
    unfold FollowsDeclared
    grind

/-! ## Stability -/

/-- Let the set cover a space scope. The scope's permission, as issued, allows nothing that
the set's permissions, as issued, do not, for every user and all declared collections,
exactly when its writes are backed. -/
theorem coverage_stable_iff {scope : String} {p : SpacePermission}
    (parsed : SpacePermission.parse urldecode scope = some p)
    (covered : held.coversScope urldecode scope = true) :
    (∀ userDid, isValidDid userDid = true → ∀ collections spaceType authority skey op,
      (p.issue userDid collections).isMatch spaceType authority skey (SpaceOperation.target op) =
        true →
      held.allowsIssued urldecode userDid collections spaceType authority skey op.target =
        true) ↔ Backed urldecode held p :=
  ⟨backed_of_stable, fun backed _ _ _ _ _ _ _ hit =>
    allowsIssued_of_backed parsed covered backed hit⟩

/-- A registration for all collections covers a bare request, also when it is issued. -/
theorem coverage_stable_iff_forum :
    (parse "atproto space:com.example.forum?collection=*").allowsIssued some "did:plc:alice"
      ["com.example.post"] "com.example.forum" "did:plc:alice" "main"
      (.write .create "com.example.post") = true := by
  have parsed : SpacePermission.parse some "space:com.example.forum" =
      some ⟨"com.example.forum", "self", "*", [], SpaceAction.byDefault, []⟩ := by decide +kernel
  have held : (parse "atproto space:com.example.forum?collection=*").spacePermissions some =
      [⟨"com.example.forum", "self", "*", ["*"], SpaceAction.byDefault, []⟩] := by decide +kernel
  have covered : (parse "atproto space:com.example.forum?collection=*").coversScope some
      "space:com.example.forum" = true := by decide +kernel
  refine (coverage_stable_iff parsed covered).mpr ?_ _ (by decide) _ _ _ _
    (.write .create "com.example.post") (by decide)
  intro _ kind act
  rw [held]
  exact ⟨_, List.mem_singleton_self _, by simp [Selects], act, .inr (by simp)⟩

/-- A client registered to read a forum covers a bare request for it, which is then issued
with writes to what the forum declares. -/
theorem bare_request_gains_writes :
    (parse "space:com.example.forum?action=read").coversScope some "space:com.example.forum" =
        true ∧
      (SpacePermission.parse some "space:com.example.forum").any (fun p =>
        (p.issue "did:plc:alice" ["com.example.post"]).isMatch "com.example.forum"
          "did:plc:alice" "main" (.write .create "com.example.post")) = true ∧
      (parse "space:com.example.forum?action=read").allowsIssued some "did:plc:alice"
        ["com.example.post"] "com.example.forum" "did:plc:alice" "main"
        (.write .create "com.example.post") = false := by
  decide +kernel

end ScopePermissions

end HappyView.Scopes
