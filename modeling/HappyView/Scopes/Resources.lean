import HappyView.Nsid
import HappyView.Scopes.Syntax
import Mathlib.Data.List.Sort
import Mathlib.Data.String.Basic

/-!
# Resource permissions

What a `repo`, `rpc`, `blob`, `identity`, `account` or `space` scope permits. Each type
parses from a scope string and answers whether an operation is within it.
-/

namespace HappyView.Scopes

open HappyView.Foundation

/-! ## Shared parser rules -/

namespace ScopeSyntax

def hasOnlyKnownKeys (s : ScopeSyntax) (known : List String) : Bool :=
  s.keys.all fun key => known.contains key

/-- A positional value and a named parameter for the same field cannot both be present. -/
def positionalConflicts (s : ScopeSyntax) (name : String) : Bool :=
  s.positional.isSome && (s.getMulti name).isSome

def multiOrPositional (s : ScopeSyntax) (name : String) : Option (List String) :=
  (s.getMulti name).or (s.positional.map fun value => [value])

/-- The outer `none` means that the parameter repeated. -/
def singleOrPositional (s : ScopeSyntax) (name : String) : Option (Option String) :=
  (s.getSingle name).ok.map fun value => value.or s.positional

/-- The checks that every resource starts with: the resource's name, its known keys, and
the field that may be given positionally. -/
def resource (urldecode : String → Option String) (name : String) (known : List String)
    (field scope : String) : Option ScopeSyntax :=
  let s := parse urldecode scope
  if s.scopePrefix ≠ name then none
  else if !s.hasOnlyKnownKeys known then none
  else if s.positionalConflicts field then none
  else some s

end ScopeSyntax

def isNsid (value : String) : Bool := (Nsid.validateNsid value).isOk

def isNsidOrWildcard (value : String) : Bool := value == "*" || isNsid value

/-! ## DID references -/

def isHostname (host : String) : Bool :=
  !host.isEmpty && (Text.split '.' host).all fun label =>
    !label.isEmpty && label.toList.all fun c => c.isAlphanum || c == '-'

def isSupportedDid (did : String) : Bool :=
  match Text.strip "did:plc:" did with
  | some id => id.utf8ByteSize == 24 &&
      id.toList.all fun c => c.isLower || ('2' ≤ c && c ≤ '7')
  | none =>
    match Text.strip "did:web:" did with
    | some host => isHostname host
    | none => false

def isAbsoluteDidRef (value : String) : Bool :=
  match Text.splitOnce (· == '#') value with
  | none => false
  | some (did, fragment) =>
    if fragment.isEmpty || fragment.toList.contains '#' then false else isSupportedDid did

/-! ## repo -/

inductive RepoAction where
  | create
  | update
  | delete
  deriving DecidableEq

namespace RepoAction

def asStr : RepoAction → String
  | .create => "create"
  | .update => "update"
  | .delete => "delete"

def parse : String → Option RepoAction
  | "create" => some .create
  | "update" => some .update
  | "delete" => some .delete
  | _ => none

def all : List RepoAction := [.create, .update, .delete]

end RepoAction

structure RepoPermission where
  collection : List String
  action : List RepoAction
  deriving DecidableEq

namespace RepoPermission

def fromParts (collection : List String) (action : Option (List String)) : Option RepoPermission :=
  if collection.isEmpty || !collection.all isNsidOrWildcard then none
  else match action with
    | none => some ⟨collection, RepoAction.all⟩
    | some values =>
      if values.isEmpty then none
      else (values.mapM RepoAction.parse).map fun action => ⟨collection, action⟩

def parse (urldecode : String → Option String) (scope : String) : Option RepoPermission := do
  let s ← ScopeSyntax.resource urldecode "repo" ["collection", "action"] "collection" scope
  let collection ← s.multiOrPositional "collection"
  fromParts collection (s.getMulti "action")

def isMatch (p : RepoPermission) (collection : String) (action : RepoAction) : Bool :=
  p.action.contains action && (p.collection.contains "*" || p.collection.contains collection)

end RepoPermission

/-! ## rpc -/

structure RpcPermission where
  aud : String
  lxm : List String
  deriving DecidableEq

namespace RpcPermission

def fromParts (lxm : List String) (aud : Option String) : Option RpcPermission :=
  if lxm.isEmpty || !lxm.all isNsidOrWildcard then none
  else match aud with
    | none => none
    | some aud =>
      if aud ≠ "*" && !isAbsoluteDidRef aud then none
      -- Either the method set or the audience must be pinned.
      else if aud = "*" && lxm.contains "*" then none
      else some ⟨aud, lxm⟩

def parse (urldecode : String → Option String) (scope : String) : Option RpcPermission := do
  let s ← ScopeSyntax.resource urldecode "rpc" ["lxm", "aud"] "lxm" scope
  let lxm ← s.multiOrPositional "lxm"
  let aud ← (s.getSingle "aud").ok
  fromParts lxm aud

def isMatch (p : RpcPermission) (lxm aud : String) : Bool :=
  (p.aud == "*" || p.aud == aud) && (p.lxm.contains "*" || p.lxm.contains lxm)

end RpcPermission

/-! ## blob -/

def isTypeSlashSubtype (value : String) : Bool :=
  match Text.splitOnce (· == '/') value with
  | none => false
  | some (type, subtype) =>
    !type.isEmpty && !subtype.isEmpty && !subtype.toList.contains '/' && !value.toList.contains ' '

def isMime (value : String) : Bool := isTypeSlashSubtype value && !value.toList.contains '*'

/-- `*/*`, `type/*` or a concrete MIME type. -/
def isAccept (value : String) : Bool :=
  if value = "*/*" then true
  else if !isTypeSlashSubtype value then false
  else !value.toList.contains '*' || (Text.stripEnd "/*" value).isSome

def acceptCovers (held wanted : String) : Bool :=
  if held = "*/*" then true
  else if wanted = "*/*" then false
  else match Text.stripEnd "*" held with
    | some head => Text.startsWith head wanted
    | none => held == wanted

def acceptMatches (accept mime : String) : Bool :=
  if accept = "*/*" then true
  else match Text.stripEnd "*" accept with
    | some head => Text.startsWith head mime
    | none => accept == mime

structure BlobPermission where
  accept : List String
  deriving DecidableEq

namespace BlobPermission

def parse (urldecode : String → Option String) (scope : String) : Option BlobPermission := do
  let s ← ScopeSyntax.resource urldecode "blob" ["accept"] "accept" scope
  let accept ← s.multiOrPositional "accept"
  if !accept.all isAccept then none else some ⟨accept⟩

def isMatch (p : BlobPermission) (mime : String) : Bool :=
  isMime mime && p.accept.any fun accept => acceptMatches accept mime

end BlobPermission

/-! ## identity -/

structure IdentityPermission where
  attr : String
  deriving DecidableEq

def identityAttributes : List String := ["handle", "*"]

namespace IdentityPermission

def parse (urldecode : String → Option String) (scope : String) : Option IdentityPermission := do
  let s ← ScopeSyntax.resource urldecode "identity" ["attr"] "attr" scope
  let attr ← ← s.singleOrPositional "attr"
  if !identityAttributes.contains attr then none else some ⟨attr⟩

def isMatch (p : IdentityPermission) (attr : String) : Bool := p.attr == "*" || p.attr == attr

end IdentityPermission

/-! ## account -/

inductive AccountAction where
  | read
  | manage
  deriving DecidableEq

def AccountAction.parse : String → Option AccountAction
  | "read" => some .read
  | "manage" => some .manage
  | _ => none

def accountAttributes : List String := ["email", "repo", "status"]

structure AccountPermission where
  attr : String
  action : List AccountAction
  deriving DecidableEq

namespace AccountPermission

def parse (urldecode : String → Option String) (scope : String) : Option AccountPermission := do
  let s ← ScopeSyntax.resource urldecode "account" ["attr", "action"] "attr" scope
  let attr ← ← s.singleOrPositional "attr"
  if !accountAttributes.contains attr then none
  else match s.getMulti "action" with
    | none => some ⟨attr, [.read]⟩
    | some values =>
      if values.isEmpty then none
      else (values.mapM AccountAction.parse).map fun action => ⟨attr, action⟩

/-- `manage` subsumes `read`. -/
def isMatch (p : AccountPermission) (attr : String) (action : AccountAction) : Bool :=
  p.attr == attr && (p.action.contains .manage || p.action.contains action)

end AccountPermission

/-! ## space -/

/-- What a grant permits on the records of the spaces it selects. -/
inductive SpaceAction where
  | readSelf
  | read
  | create
  | update
  | delete
  deriving DecidableEq

namespace SpaceAction

def asStr : SpaceAction → String
  | .readSelf => "read_self"
  | .read => "read"
  | .create => "create"
  | .update => "update"
  | .delete => "delete"

def parse : String → Option SpaceAction
  | "read_self" => some .readSelf
  | "read" => some .read
  | "create" => some .create
  | "update" => some .update
  | "delete" => some .delete
  | _ => none

def all : List SpaceAction := [.readSelf, .read, .create, .update, .delete]

/-- `DEFAULT`, which leaves out `read_self` because `read` implies it. -/
def byDefault : List SpaceAction := [.read, .create, .update, .delete]

end SpaceAction

inductive ManageOp where
  | create
  | update
  | delete
  deriving DecidableEq

namespace ManageOp

def asStr : ManageOp → String
  | .create => "create"
  | .update => "update"
  | .delete => "delete"

def parse : String → Option ManageOp
  | "create" => some .create
  | "update" => some .update
  | "delete" => some .delete
  | _ => none

def all : List ManageOp := [.create, .update, .delete]

end ManageOp

inductive SpaceTarget where
  | read
  | readSelf
  | write (action : SpaceAction) (collection : String)
  | manage (op : ManageOp)
  deriving DecidableEq

/-- `did:<method>:<id>`, for any method. -/
def isValidDid (value : String) : Bool :=
  match Text.strip "did:" value with
  | none => false
  | some rest =>
    match Text.splitOnce (· == ':') rest with
    | none => false
    | some (method, id) =>
      if method.isEmpty || !method.toList.all Char.isLower then false
      else if id.isEmpty || (Text.stripEnd ":" id).isSome then false
      else id.toList.all fun c => c.isAlphanum || ['.', '-', '_', ':', '%'].contains c

def isValidRecordKey (value : String) : Bool :=
  if value.isEmpty || value.utf8ByteSize > 512 || value == "." || value == ".." then false
  else value.toList.all fun c => c.isAlphanum || ['.', '-', '_', ':', '~'].contains c

structure SpacePermission where
  spaceType : String
  /-- A DID, `self` (the granting user) or `*`. -/
  authority : String
  skey : String
  /-- Empty means that there is nothing to write. -/
  collection : List String
  action : List SpaceAction
  manage : List ManageOp
  deriving DecidableEq

namespace SpacePermission

/-- `*` absorbs the rest; other collections are sorted, without duplicates. -/
def normalizeCollections (values : List String) : List String :=
  if values.contains "*" then ["*"] else (values.insertionSort (· ≤ ·)).dedup

def collectionsFrom : Option (List String) → Option (List String)
  | none => some []
  | some values =>
    if values.isEmpty || !values.all isNsidOrWildcard then none
    else some (normalizeCollections values)

/-- The values of an enumerated parameter, in the order of `all`. -/
def enumeratedFrom {α : Type} [DecidableEq α] (all absent : List α) (parse : String → Option α) :
    Option (List String) → Option (List α)
  | none => some absent
  | some values =>
    if values.isEmpty then none
    else (values.mapM parse).map fun parsed => all.filter fun a => parsed.contains a

def fromParts (spaceType : String) (authority skey : Option String)
    (collection action manage : Option (List String)) : Option SpacePermission := do
  let authority := authority.getD "self"
  let skey := skey.getD "*"
  if !isNsidOrWildcard spaceType then none
  else if authority ≠ "self" && authority ≠ "*" && !isValidDid authority then none
  else if skey ≠ "*" && !isValidRecordKey skey then none
  else
    let collection ← collectionsFrom collection
    let action ← enumeratedFrom SpaceAction.all SpaceAction.byDefault SpaceAction.parse action
    let manage ← enumeratedFrom ManageOp.all [] ManageOp.parse manage
    some ⟨spaceType, authority, skey, collection, action, manage⟩

def parse (urldecode : String → Option String) (scope : String) : Option SpacePermission := do
  let s ← ScopeSyntax.resource urldecode "space"
    ["authority", "skey", "collection", "action", "manage"] "type" scope
  let spaceType ← s.positional
  let authority ← (s.getSingle "authority").ok
  let skey ← (s.getSingle "skey").ok
  fromParts spaceType authority skey (s.getMulti "collection") (s.getMulti "action")
    (s.getMulti "manage")

def collectionAllows (p : SpacePermission) (collection : String) : Bool :=
  p.collection.any fun c => c == "*" || c == collection

/-- What `matches` asks of a grant that selects the space. -/
def permits (p : SpacePermission) : SpaceTarget → Bool
  | .manage op => p.manage.contains op
  -- Reads do not depend on the collection, and `read` implies `read_self`.
  | .read => p.action.contains .read
  | .readSelf => p.action.contains .read || p.action.contains .readSelf
  | .write action collection => p.action.contains action && p.collectionAllows collection

def isMatch (p : SpacePermission) (spaceType authority skey : String) (target : SpaceTarget) :
    Bool :=
  if p.spaceType ≠ "*" && p.spaceType ≠ spaceType then false
  else if p.authority ≠ "*" && p.authority ≠ authority then false
  else if p.skey ≠ "*" && p.skey ≠ skey then false
  else p.permits target

/-- An authority of `self` stands for the user who granted. -/
def withResolvedAuthority (p : SpacePermission) (userDid : String) : SpacePermission :=
  if p.authority = "self" then { p with authority := userDid } else p

/-- A grant with no collections takes those that its space type declares. -/
def withDefaultCollections (p : SpacePermission) (collections : List String) : SpacePermission :=
  if !p.collection.isEmpty || collections.isEmpty then p
  else { p with collection := collections }

theorem isMatch_iff {p : SpacePermission} {spaceType authority skey : String}
    {target : SpaceTarget} : p.isMatch spaceType authority skey target = true ↔
      (p.spaceType = "*" ∨ p.spaceType = spaceType) ∧
      (p.authority = "*" ∨ p.authority = authority) ∧
        (p.skey = "*" ∨ p.skey = skey) ∧ p.permits target = true := by
  unfold isMatch
  grind

end SpacePermission

end HappyView.Scopes
