import Mathlib.Data.List.Forall2

/-!
# Application errors

The variants of `AppError` that the modelled functions return, with their messages,
and the two shapes of check that return one.
-/

namespace HappyView

inductive AppError where
  | auth (message : String)
  | badRequest (message : String)
  | conflict (message : String)
  | forbidden (message : String)
  | internal (message : String)
  | notFound (message : String)
  | xrpcError (status : Nat) (code message : String)
  deriving DecidableEq

def AppError.display : AppError → String
  | .auth message => "auth error: " ++ message
  | .badRequest message => "bad request: " ++ message
  | .conflict message => "conflict: " ++ message
  | .forbidden message => "forbidden: " ++ message
  | .internal message => "internal error: " ++ message
  | .notFound message => "not found: " ++ message
  | .xrpcError _ code message => code ++ ": " ++ message

/-- `ok_or_else`: a value that has to be there, or the error that it is not. -/
def require {α : Type} (error : AppError) : Option α → Except AppError α
  | some a => .ok a
  | none => .error error

def ensure (error : AppError) (check : Bool) : Except AppError Unit :=
  if check then .ok () else .error error

@[simp] theorem require_eq_ok {α : Type} {error : AppError} {value : Option α} {a : α} :
    require error value = .ok a ↔ value = some a := by
  cases value <;> simp [require]

@[simp] theorem ensure_eq_ok {error : AppError} {check : Bool} {u : Unit} :
    ensure error check = .ok u ↔ check = true := by
  cases check <;> simp [ensure]

/-- A sequence of checks passes when each of them does. -/
theorem bind_eq_ok {ε α β : Type} {first : Except ε α} {next : α → Except ε β} {b : β} :
    (first >>= next) = .ok b ↔ ∃ a, first = .ok a ∧ next a = .ok b := by
  cases first <;> simp [bind, Except.bind]

theorem mapM_eq_ok {ε α β : Type} {f : α → Except ε β} {as : List α} {bs : List β} :
    as.mapM f = .ok bs ↔ List.Forall₂ (fun a b => f a = .ok b) as bs := by
  induction as generalizing bs with
  | nil => cases bs <;> simp [pure, Except.pure]
  | cons a as ih =>
    simp only [List.mapM_cons, bind_eq_ok, ih, List.forall₂_cons_left_iff]
    constructor
    · rintro ⟨b, first, rest, others, built⟩
      cases built
      exact ⟨b, rest, first, others, rfl⟩
    · rintro ⟨b, rest, first, others, rfl⟩
      exact ⟨b, first, rest, others, rfl⟩

theorem mapError_eq_ok {ε ε' α : Type} {f : ε → ε'} {result : Except ε α} {a : α} :
    result.mapError f = .ok a ↔ result = .ok a := by
  cases result <;> simp [Except.mapError]

end HappyView
