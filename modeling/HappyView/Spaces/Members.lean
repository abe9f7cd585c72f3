import HappyView.Spaces.Uri
import Mathlib.Data.List.AList
import Mathlib.Data.List.Sort
import Mathlib.Data.String.Basic
import Mathlib.Logic.Relation

/-!
# Members of a space

A member row grants a DID access, or delegates to the members of another space. The
traversal follows delegations up to a depth, visits each space once and merges every
direct row it comes by into the access of the row's DID.

`visit` is the traversal with the merge as a parameter.
-/

namespace HappyView.Spaces

open HappyView.Foundation

structure MemberAccess where
  read : Bool
  write : Bool
  /-- Reads are confined to the member's own repo. -/
  readSelf : Bool
  deriving DecidableEq

namespace MemberAccess

def canRead (a : MemberAccess) : Bool := a.read

def canWrite (a : MemberAccess) : Bool := a.write

def restrictedToOwnRecords (a : MemberAccess) : Bool := a.readSelf

def union (a b : MemberAccess) : MemberAccess where
  read := a.read || b.read
  write := a.write || b.write
  readSelf := a.readSelf && b.readSelf

end MemberAccess

/-- Whether the caller may read a repo of the space. -/
def checkReadAccess (callerDid targetRepoDid : String) (access : MemberAccess)
    (hasSpaceCredential : Bool) : Except AppError Unit :=
  if hasSpaceCredential then .ok ()
  else if !access.canRead then .error (.forbidden "you do not have read access to this space")
  else if access.restrictedToOwnRecords && callerDid ≠ targetRepoDid then
    .error (.forbidden "read_self access only permits reading your own repo")
  else .ok ()

/-! ## Tables -/

structure Space where
  id : String
  did : String
  typeNsid : String
  skey : String
  /-- Why the row's `app_access` or `config` does not parse, if it does not. -/
  invalid : Option String
  deriving DecidableEq

structure SpaceMember where
  spaceId : String
  did : String
  access : MemberAccess
  isDelegation : Bool
  createdAt : String
  deriving DecidableEq

structure Tables where
  spaces : List Space
  members : List SpaceMember

structure ResolvedMember where
  did : String
  access : MemberAccess
  deriving DecidableEq

def parseSpaceRow (space : Space) : Except AppError Space :=
  match space.invalid with
  | some reason => .error (.internal reason)
  | none => .ok space

namespace Tables

variable (t : Tables)

def getSpace (id : String) : Except AppError (Option Space) :=
  (t.spaces.find? (·.id = id)).mapM parseSpaceRow

def getSpaceByAddress (did typeNsid skey : String) : Except AppError (Option Space) :=
  (t.spaces.find? fun s => s.did = did && s.typeNsid = typeNsid && s.skey = skey).mapM parseSpaceRow

/-- Oldest first; rows of one time come in the order of the table. -/
def listDirectMembers (spaceId : String) : List SpaceMember :=
  (t.members.filter (·.spaceId = spaceId)).insertionSort fun a b => a.createdAt ≤ b.createdAt

/-- The space a delegation row stands for: it holds a space URI or a space's id. -/
def resolveDelegationTarget (member : SpaceMember) : Except AppError (Option String) := do
  if (Text.strip "at://" member.did).isSome || (Text.strip "ats://" member.did).isSome then
    let uri ← SpaceUri.parse member.did
    return (← t.getSpaceByAddress uri.did uri.typeNsid uri.skey).map Space.id
  else
    return (← t.getSpace member.did).map Space.id

/-! ## The traversal -/

def maxDelegationDepth : Nat := 10

/-- `resolve_members_recursive` with `fuel` levels left: every direct row is given to
`add`. The spaces already visited are threaded through the whole traversal. -/
def visit {σ : Type} (add : σ → SpaceMember → σ) :
    Nat → String → σ × List String → Except AppError (σ × List String)
  | 0, _, state => .ok state
  | fuel + 1, spaceId, (acc, visited) =>
    if spaceId ∈ visited then .ok (acc, visited)
    else
      (t.listDirectMembers spaceId).foldlM
        (fun state member =>
          if member.isDelegation then do
            match ← t.resolveDelegationTarget member with
            | some target => visit add fuel target state
            | none => .ok state
          else .ok (add state.1 member, state.2))
        (acc, spaceId :: visited)

def mergeAccess (resolved : AList fun _ : String => MemberAccess) (member : SpaceMember) :
    AList fun _ : String => MemberAccess :=
  match resolved.lookup member.did with
  | some access => resolved.insert member.did (access.union member.access)
  | none => resolved.insert member.did member.access

def resolveMembers (spaceId : String) : Except AppError (List ResolvedMember) := do
  let (resolved, _) ← t.visit mergeAccess maxDelegationDepth spaceId (∅, [])
  return (resolved.entries.map fun entry => ⟨entry.1, entry.2⟩).insertionSort
    fun a b => a.did ≤ b.did

def isMember (spaceId did : String) : Except AppError (Option MemberAccess) := do
  return ((← t.resolveMembers spaceId).find? (·.did = did)).map ResolvedMember.access

def reachedRows (spaceId : String) : Except AppError (List SpaceMember) := do
  return (← t.visit (fun rows row => rows ++ [row]) maxDelegationDepth spaceId ([], [])).1

end Tables

end HappyView.Spaces
