import HappyView.Scopes.Resources

/-!
# Granted scope sets

`ScopePermissions` answers whether an operation is within a set of granted scopes, with
the legacy `transition:` scopes honoured beside the resource permissions, and whether the
set covers everything one more scope would grant.
-/

namespace HappyView.Scopes

open HappyView.Foundation

def isWhitespace (c : Char) : Bool :=
  let n := c.toNat
  (0x9 ≤ n && n ≤ 0xd) || n == 0x20 || n == 0x85 || n == 0xa0 || n == 0x1680 ||
    (0x2000 ≤ n && n ≤ 0x200a) || n == 0x2028 || n == 0x2029 || n == 0x202f || n == 0x205f ||
    n == 0x3000

def splitWhitespace (input : String) : List String :=
  ((input.toList.splitOnP isWhitespace).filter (!·.isEmpty)).map String.ofList

def parseScopeList (input : String) : List String :=
  (splitWhitespace input).foldl
    (fun out token => if out.contains token then out else out ++ [token]) []

structure ScopePermissions where
  scopes : List String

namespace ScopePermissions

def parse (scope : String) : ScopePermissions := ⟨parseScopeList scope⟩

def fromScopes (scopes : List String) : ScopePermissions := ⟨scopes⟩

def has (held : ScopePermissions) (scope : String) : Bool := held.scopes.contains scope

def hasTransitionGeneric (held : ScopePermissions) : Bool := held.has "transition:generic"

def hasTransitionEmail (held : ScopePermissions) : Bool := held.has "transition:email"

def hasTransitionChatBsky (held : ScopePermissions) : Bool := held.has "transition:chat.bsky"

variable (urldecode : String → Option String) (held : ScopePermissions)

def allowsRepo (collection : String) (action : RepoAction) : Bool :=
  held.hasTransitionGeneric ||
    (held.scopes.filterMap (RepoPermission.parse urldecode)).any (·.isMatch collection action)

def allowsRpc (lxm aud : String) : Bool :=
  if held.hasTransitionGeneric && !Text.startsWith "chat.bsky." lxm then true
  else if held.hasTransitionChatBsky && Text.startsWith "chat.bsky." lxm then true
  else (held.scopes.filterMap (RpcPermission.parse urldecode)).any (·.isMatch lxm aud)

def allowsBlob (mime : String) : Bool :=
  held.hasTransitionGeneric ||
    (held.scopes.filterMap (BlobPermission.parse urldecode)).any (·.isMatch mime)

/-- Grants are matched as held, so a `self` authority matches nothing. -/
def allowsSpace (spaceType authority skey : String) (target : SpaceTarget) : Bool :=
  (held.scopes.filterMap (SpacePermission.parse urldecode)).any
    (·.isMatch spaceType authority skey target)

/-- The same for grants that `userDid` holds. -/
def allowsSpaceForUser (userDid spaceType authority skey : String) (target : SpaceTarget) : Bool :=
  ((held.scopes.filterMap (SpacePermission.parse urldecode)).map
    (·.withResolvedAuthority userDid)).any (·.isMatch spaceType authority skey target)

def allowsIdentity (attr : String) : Bool :=
  (held.scopes.filterMap (IdentityPermission.parse urldecode)).any (·.isMatch attr)

/-- Whether a grant of the pattern `accept` stays within what is held. -/
def allowsAccept (accept : String) : Bool :=
  held.hasTransitionGeneric || (held.scopes.filterMap (BlobPermission.parse urldecode)).any
    fun p => p.accept.any fun pattern => acceptCovers pattern accept

def allowsAccount (attr : String) (action : AccountAction) : Bool :=
  if held.hasTransitionEmail && attr = "email" && action = .read then true
  else (held.scopes.filterMap (AccountPermission.parse urldecode)).any (·.isMatch attr action)

/-! ## Coverage -/

def coversRepo (p : RepoPermission) : Bool :=
  p.collection.all fun collection => p.action.all fun action =>
    held.allowsRepo urldecode collection action

def coversSpace (p : SpacePermission) : Bool :=
  let allows := held.allowsSpace urldecode p.spaceType p.authority p.skey
  let reads := p.action.all fun
    | .read => allows .read
    | .readSelf => allows .readSelf
    | _ => true
  let writes := p.action.all fun
    | .read | .readSelf => true
    | action => p.collection.all fun collection => allows (.write action collection)
  let manages := p.manage.all fun op => allows (.manage op)
  reads && writes && manages

/-- Whether the set contains everything `scope` would grant. -/
def coversScope (scope : String) : Bool :=
  if scope = "atproto" || held.has scope then true
  else match Text.splitOnce (fun c => c == ':' || c == '?') scope with
    | none => false
    | some ("repo", _) =>
      (RepoPermission.parse urldecode scope).any fun p => held.coversRepo urldecode p
    | some ("rpc", _) =>
      (RpcPermission.parse urldecode scope).any fun p =>
        p.lxm.all fun lxm => held.allowsRpc urldecode lxm p.aud
    | some ("blob", _) =>
      (BlobPermission.parse urldecode scope).any fun p =>
        p.accept.all fun accept => held.allowsAccept urldecode accept
    | some ("identity", _) =>
      (IdentityPermission.parse urldecode scope).any fun p => held.allowsIdentity urldecode p.attr
    | some ("space", _) =>
      (SpacePermission.parse urldecode scope).any fun p => held.coversSpace urldecode p
    | some ("account", _) =>
      (AccountPermission.parse urldecode scope).any fun p =>
        p.action.all fun action => held.allowsAccount urldecode p.attr action
    -- `transition:` and `include:` scopes are covered only by holding the identical one.
    | some _ => false

end ScopePermissions

end HappyView.Scopes
