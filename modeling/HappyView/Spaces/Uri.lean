import HappyView.Error
import HappyView.Foundation.Text

/-!
# Space URIs

`at://<space-did>/space/<type>/<skey>`, optionally followed by the user, collection
and record key of a record in the space. Legacy `ats://` URIs lack the `space` segment
and are rewritten first.
-/

namespace HappyView.Spaces

open HappyView.Foundation

structure SpaceUri where
  did : String
  typeNsid : String
  skey : String
  userDid : Option String
  collection : Option String
  rkey : Option String
  deriving DecidableEq

namespace SpaceUri

/-- The text after the scheme, with the `space` segment of a legacy URI put back. -/
def normalize (uri : String) : Except AppError String :=
  match Text.strip "ats://" uri with
  | some rest =>
    match Text.split '/' rest with
    | did :: typeNsid :: skey :: more =>
      .ok (did ++ "/space/" ++ "/".intercalate (typeNsid :: skey :: more))
    | _ => .error (.badRequest "ats:// URI requires at least did/type/skey")
  | none =>
    match Text.strip "at://" uri with
    | some rest => .ok rest
    | none => .error (.badRequest "SpaceUri must start with at://")

def ofParts : List String → Except AppError SpaceUri
  | did :: second :: typeNsid :: skey :: rest =>
    if second ≠ "space" then
      .error (.badRequest "SpaceUri must have 'space' as the second path segment")
    else if did.isEmpty || typeNsid.isEmpty || skey.isEmpty then
      .error (.badRequest "SpaceUri components must not be empty")
    else match rest with
      | [userDid, collection, rkey] =>
        if userDid.isEmpty || collection.isEmpty || rkey.isEmpty then
          .error (.badRequest "SpaceUri record components must not be empty")
        else .ok ⟨did, typeNsid, skey, some userDid, some collection, some rkey⟩
      | [] => .ok ⟨did, typeNsid, skey, none, none, none⟩
      | _ => .error (.badRequest
          "SpaceUri must have 4 components (space) or 7 components (record)")
  | _ => .error (.badRequest "SpaceUri requires at least did/space/type_nsid/skey")

def parse (uri : String) : Except AppError SpaceUri := do
  ofParts (Text.split '/' (← normalize uri))

end SpaceUri

end HappyView.Spaces
