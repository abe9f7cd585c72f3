import HappyView.Error
import HappyView.Foundation.Text

/-!
# Signed tokens of a space

Delegation tokens and space credentials are JWTs that are opened in the same way. Base64,
JSON and signatures come from outside the repository: they are the fields of
`JwtPrimitives`.
-/

namespace HappyView.Spaces

open HappyView.Foundation

structure JwtHeader where
  alg : Option String
  typ : Option String
  kid : Option String
  deriving DecidableEq

inductive SpaceVerifyingKey (Key : Type) where
  | p256 (key : Key)
  | k256 (key : Key)

def SpaceVerifyingKey.alg {Key : Type} : SpaceVerifyingKey Key → String
  | .p256 _ => "ES256"
  | .k256 _ => "ES256K"

structure JwtPrimitives (Bytes Key : Type) where
  decode : String → Option Bytes
  parseHeader : Bytes → Option JwtHeader
  verify : SpaceVerifyingKey Key → String → Bytes → Bool

/-- What a kind of token is called in errors, whose key signs it, and its `typ`. -/
structure JwtKind where
  name : String
  key : String
  typ : String

section

variable {Bytes Key Claims : Type} (P : JwtPrimitives Bytes Key) (kind : JwtKind)
  (parse : Bytes → Option Claims)

def openParts (key : SpaceVerifyingKey Key) (header64 payload64 signature64 : String) :
    Except AppError Claims := do
  let headerBytes ← require (.auth ("invalid " ++ kind.name ++ " header encoding"))
    (P.decode header64)
  let header ← require (.auth ("invalid " ++ kind.name ++ " header")) (P.parseHeader headerBytes)
  ensure (.auth (kind.name ++ " alg must be " ++ key.alg ++ " for " ++ kind.key))
    (header.alg = some key.alg)
  ensure (.auth (kind.name ++ " typ must be " ++ kind.typ)) (header.typ = some kind.typ)
  let signature ← require (.auth ("invalid " ++ kind.name ++ " signature encoding"))
    (P.decode signature64)
  ensure (.auth (kind.name ++ " signature verification failed"))
    (P.verify key (header64 ++ "." ++ payload64) signature)
  let payloadBytes ← require (.auth ("invalid " ++ kind.name ++ " payload encoding"))
    (P.decode payload64)
  require (.auth ("invalid " ++ kind.name ++ " payload")) (parse payloadBytes)

def openJwt (key : SpaceVerifyingKey Key) (token : String) : Except AppError Claims :=
  match Text.split '.' token with
  | [header64, payload64, signature64] => openParts P kind parse key header64 payload64 signature64
  | _ => .error (.auth ("invalid " ++ kind.name ++ " format"))

end

end HappyView.Spaces
