import HappyView.Scopes.Permissions

/-!
# What a scope grants

A scope means one `Grant` at most: the permission of its resource, or a legacy
`transition:` scope. A set of scopes allows exactly the operations that the grant of one of
its scopes allows (`allows_iff`), which is what coverage is measured against.
-/

namespace HappyView.Scopes

open HappyView.Foundation

inductive RecordWrite where
  | create
  | update
  | delete
  deriving DecidableEq

def RecordWrite.action : RecordWrite → SpaceAction
  | .create => .create
  | .update => .update
  | .delete => .delete

inductive SpaceOperation where
  | read
  | readSelf
  | write (kind : RecordWrite) (collection : String)
  | manage (op : ManageOp)
  deriving DecidableEq

def SpaceOperation.target : SpaceOperation → SpaceTarget
  | .read => .read
  | .readSelf => .readSelf
  | .write kind collection => .write kind.action collection
  | .manage op => .manage op

inductive Operation where
  | repo (collection : String) (action : RepoAction)
  | rpc (lxm aud : String)
  | blob (mime : String)
  | identity (attr : String)
  | account (attr : String) (action : AccountAction)
  | space (spaceType authority skey : String) (op : SpaceOperation)
  deriving DecidableEq

inductive Grant where
  | repo (p : RepoPermission)
  | rpc (p : RpcPermission)
  | blob (p : BlobPermission)
  | identity (p : IdentityPermission)
  | account (p : AccountPermission)
  | space (p : SpacePermission)
  | transitionGeneric
  | transitionEmail
  | transitionChatBsky

namespace Grant

/-- What stands before the first `:` or `?` of a scope with this grant. -/
def resource : Grant → String
  | .repo _ => "repo"
  | .rpc _ => "rpc"
  | .blob _ => "blob"
  | .identity _ => "identity"
  | .account _ => "account"
  | .space _ => "space"
  | .transitionGeneric | .transitionEmail | .transitionChatBsky => "transition"

def allows : Grant → Operation → Bool
  | .repo p, .repo collection action => p.isMatch collection action
  | .rpc p, .rpc lxm aud => p.isMatch lxm aud
  | .blob p, .blob mime => p.isMatch mime
  | .identity p, .identity attr => p.isMatch attr
  | .account p, .account attr action => p.isMatch attr action
  | .space p, .space spaceType authority skey op => p.isMatch spaceType authority skey op.target
  | .transitionGeneric, .repo _ _ => true
  | .transitionGeneric, .rpc lxm _ => !Text.startsWith "chat.bsky." lxm
  | .transitionGeneric, .blob _ => true
  | .transitionEmail, .account attr action => attr = "email" && action = .read
  | .transitionChatBsky, .rpc lxm _ => Text.startsWith "chat.bsky." lxm
  | _, _ => false

variable (urldecode : String → Option String)

def Of (scope : String) : Grant → Prop
  | .repo p => RepoPermission.parse urldecode scope = some p
  | .rpc p => RpcPermission.parse urldecode scope = some p
  | .blob p => BlobPermission.parse urldecode scope = some p
  | .identity p => IdentityPermission.parse urldecode scope = some p
  | .account p => AccountPermission.parse urldecode scope = some p
  | .space p => SpacePermission.parse urldecode scope = some p
  | .transitionGeneric => scope = "transition:generic"
  | .transitionEmail => scope = "transition:email"
  | .transitionChatBsky => scope = "transition:chat.bsky"

variable {urldecode} {scope : String} {g g' : Grant}

theorem scopePrefix_of_bind {α : Type} {name field : String} {known : List String} {a : α}
    {f : ScopeSyntax → Option α}
    (h : (ScopeSyntax.resource urldecode name known field scope >>= f) = some a) :
    (ScopeSyntax.parse urldecode scope).scopePrefix = name := by
  obtain ⟨s, found, -⟩ := Option.bind_eq_some_iff.mp h
  unfold ScopeSyntax.resource at found
  grind

theorem Of.resource_eq (h : Of urldecode scope g) :
    (ScopeSyntax.parse urldecode scope).scopePrefix = g.resource := by
  cases g with
  | repo p => exact scopePrefix_of_bind h
  | rpc p => exact scopePrefix_of_bind h
  | blob p => exact scopePrefix_of_bind h
  | identity p => exact scopePrefix_of_bind h
  | account p => exact scopePrefix_of_bind h
  | space p => exact scopePrefix_of_bind h
  | transitionGeneric => cases h; rfl
  | transitionEmail => cases h; rfl
  | transitionChatBsky => cases h; rfl

theorem Of.unique (h : Of urldecode scope g) (h' : Of urldecode scope g') : g = g' := by
  have same : g.resource = g'.resource := h.resource_eq.symm.trans h'.resource_eq
  cases g <;> cases g' <;> simp_all [resource, Of]

theorem not_of_atproto : ¬ Of urldecode "atproto" g := by
  intro h
  have name : "atproto" = g.resource := h.resource_eq
  cases g <;> simp [resource] at name

end Grant

namespace ScopePermissions

variable (urldecode : String → Option String) (held : ScopePermissions)

def allows : Operation → Bool
  | .repo collection action => held.allowsRepo urldecode collection action
  | .rpc lxm aud => held.allowsRpc urldecode lxm aud
  | .blob mime => held.allowsBlob urldecode mime
  | .identity attr => held.allowsIdentity urldecode attr
  | .account attr action => held.allowsAccount urldecode attr action
  | .space spaceType authority skey op =>
    held.allowsSpace urldecode spaceType authority skey op.target

variable {urldecode} {held}

theorem any_parsed {α : Type} {parse : String → Option α} {check : α → Bool}
    {scopes : List String} :
    (scopes.filterMap parse).any check = true ↔
      ∃ scope ∈ scopes, ∃ p, parse scope = some p ∧ check p = true := by
  rw [List.any_eq_true]
  constructor
  · rintro ⟨p, mem, passes⟩
    obtain ⟨scope, found, parsed⟩ := List.mem_filterMap.mp mem
    exact ⟨scope, found, p, parsed, passes⟩
  · rintro ⟨scope, found, p, parsed, passes⟩
    exact ⟨p, List.mem_filterMap.mpr ⟨scope, found, parsed⟩, passes⟩

theorem has_iff {scope : String} : held.has scope = true ↔ scope ∈ held.scopes := by simp [has]

theorem allowsRpc_iff {lxm aud : String} : held.allowsRpc urldecode lxm aud = true ↔
    (held.hasTransitionGeneric = true ∧ Text.startsWith "chat.bsky." lxm = false) ∨
      (held.hasTransitionChatBsky = true ∧ Text.startsWith "chat.bsky." lxm = true) ∨
      ∃ scope ∈ held.scopes, ∃ p, RpcPermission.parse urldecode scope = some p ∧
        p.isMatch lxm aud = true := by
  rw [← any_parsed]
  unfold allowsRpc
  grind

theorem allowsAccount_iff {attr : String} {action : AccountAction} :
    held.allowsAccount urldecode attr action = true ↔
      (held.hasTransitionEmail = true ∧ attr = "email" ∧ action = .read) ∨
        ∃ scope ∈ held.scopes, ∃ p, AccountPermission.parse urldecode scope = some p ∧
          p.isMatch attr action = true := by
  rw [← any_parsed]
  unfold allowsAccount
  grind

theorem genericOr_iff {α : Type} {parse : String → Option α} {check : α → Bool} :
    (held.hasTransitionGeneric || (held.scopes.filterMap parse).any check) = true ↔
      held.hasTransitionGeneric = true ∨
        ∃ scope ∈ held.scopes, ∃ p, parse scope = some p ∧ check p = true := by
  rw [Bool.or_eq_true, any_parsed]

theorem exists_grant_of_allows {op : Operation} (h : held.allows urldecode op = true) :
    ∃ scope ∈ held.scopes, ∃ g, Grant.Of urldecode scope g ∧ g.allows op = true := by
  cases op with
  | repo collection action =>
    rcases genericOr_iff.mp h with generic | ⟨scope, mem, p, parsed, passes⟩
    · exact ⟨_, has_iff.mp generic, .transitionGeneric, rfl, rfl⟩
    · exact ⟨scope, mem, .repo p, parsed, passes⟩
  | rpc lxm aud =>
    rcases allowsRpc_iff.mp h with
      ⟨generic, other⟩ | ⟨chat, under⟩ | ⟨scope, mem, p, parsed, passes⟩
    · exact ⟨_, has_iff.mp generic, .transitionGeneric, rfl, by simpa [Grant.allows] using other⟩
    · exact ⟨_, has_iff.mp chat, .transitionChatBsky, rfl, under⟩
    · exact ⟨scope, mem, .rpc p, parsed, passes⟩
  | blob mime =>
    rcases genericOr_iff.mp h with generic | ⟨scope, mem, p, parsed, passes⟩
    · exact ⟨_, has_iff.mp generic, .transitionGeneric, rfl, rfl⟩
    · exact ⟨scope, mem, .blob p, parsed, passes⟩
  | identity attr =>
    obtain ⟨scope, mem, p, parsed, passes⟩ := any_parsed.mp h
    exact ⟨scope, mem, .identity p, parsed, passes⟩
  | account attr action =>
    rcases allowsAccount_iff.mp h with ⟨email, rfl, rfl⟩ | ⟨scope, mem, p, parsed, passes⟩
    · exact ⟨_, has_iff.mp email, .transitionEmail, rfl, rfl⟩
    · exact ⟨scope, mem, .account p, parsed, passes⟩
  | space spaceType authority skey op =>
    obtain ⟨scope, mem, p, parsed, passes⟩ := any_parsed.mp h
    exact ⟨scope, mem, .space p, parsed, passes⟩

theorem allows_of_grant {op : Operation} {scope : String} {g : Grant} (mem : scope ∈ held.scopes)
    (meaning : Grant.Of urldecode scope g) (allowed : g.allows op = true) :
    held.allows urldecode op = true := by
  cases op with
  | repo collection action =>
    refine genericOr_iff.mpr ?_
    cases g <;> simp only [Grant.allows, Bool.false_eq_true] at allowed
    · exact .inr ⟨scope, mem, _, meaning, allowed⟩
    · exact .inl (has_iff.mpr (meaning ▸ mem))
  | rpc lxm aud =>
    refine allowsRpc_iff.mpr ?_
    cases g <;> simp only [Grant.allows, Bool.false_eq_true] at allowed
    · exact .inr (.inr ⟨scope, mem, _, meaning, allowed⟩)
    · exact .inl ⟨has_iff.mpr (meaning ▸ mem), by simpa using allowed⟩
    · exact .inr (.inl ⟨has_iff.mpr (meaning ▸ mem), allowed⟩)
  | blob mime =>
    refine genericOr_iff.mpr ?_
    cases g <;> simp only [Grant.allows, Bool.false_eq_true] at allowed
    · exact .inr ⟨scope, mem, _, meaning, allowed⟩
    · exact .inl (has_iff.mpr (meaning ▸ mem))
  | identity attr =>
    cases g <;> simp only [Grant.allows, Bool.false_eq_true] at allowed
    exact any_parsed.mpr ⟨scope, mem, _, meaning, allowed⟩
  | account attr action =>
    refine allowsAccount_iff.mpr ?_
    cases g <;> simp only [Grant.allows, Bool.false_eq_true] at allowed
    · exact .inr ⟨scope, mem, _, meaning, allowed⟩
    · exact .inl ⟨has_iff.mpr (meaning ▸ mem), by simpa using allowed⟩
  | space spaceType authority skey op =>
    cases g <;> simp only [Grant.allows, Bool.false_eq_true] at allowed
    exact any_parsed.mpr ⟨scope, mem, _, meaning, allowed⟩

/-- A set of scopes allows what the grant of one of its scopes allows. -/
theorem allows_iff {op : Operation} : held.allows urldecode op = true ↔
    ∃ scope ∈ held.scopes, ∃ g, Grant.Of urldecode scope g ∧ g.allows op = true := by
  constructor
  · exact exists_grant_of_allows
  · rintro ⟨scope, mem, g, meaning, allowed⟩
    exact allows_of_grant mem meaning allowed

end ScopePermissions

end HappyView.Scopes
