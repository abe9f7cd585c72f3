/-!
# Lexers

A lexer reads a text from the front: its rule takes the first character and what follows, and
gives the tokens of one step and the rest of the text, or an error. `lex` repeats the rule and
gives the tokens found, with the error that stopped it if one did.
-/

namespace HappyView.Foundation

structure Lexer (τ : Type) where
  next : Char → List Char → Except String (List τ × List Char)

namespace Lexer

variable {τ : Type}

def lexFrom (L : Lexer τ) : Nat → List Char → List τ × Option String
  | _, [] => ([], none)
  | 0, _ :: _ => ([], some "out of steps")
  | fuel + 1, c :: rest =>
    match L.next c rest with
    | .error e => ([], some e)
    | .ok (tokens, rest') =>
      let (later, error) := L.lexFrom fuel rest'
      (tokens ++ later, error)

def lex (L : Lexer τ) (text : List Char) : List τ × Option String := L.lexFrom text.length text

/-- `L` takes every step that `M` can take. -/
def Extends (L M : Lexer τ) : Prop :=
  ∀ c rest step, M.next c rest = .ok step → L.next c rest = .ok step

theorem Extends.lexFrom {L M : Lexer τ} (h : L.Extends M) (fuel : Nat) {text : List Char}
    {tokens : List τ} (read : M.lexFrom fuel text = (tokens, none)) :
    L.lexFrom fuel text = (tokens, none) := by
  induction fuel generalizing text tokens with
  | zero =>
    cases text with
    | nil => exact read
    | cons c rest => simp [Lexer.lexFrom] at read
  | succ fuel ih =>
    cases text with
    | nil => exact read
    | cons c rest =>
      simp only [Lexer.lexFrom] at read ⊢
      cases step : M.next c rest with
      | error e => simp [step] at read
      | ok found =>
        obtain ⟨first, rest'⟩ := found
        simp only [step, Prod.mk.injEq] at read
        obtain ⟨rfl, done⟩ := read
        have later : L.lexFrom fuel rest' = ((M.lexFrom fuel rest').1, none) := by
          apply ih
          rw [← done]
        simp only [h c rest _ step, later]

theorem Extends.lex {L M : Lexer τ} (h : L.Extends M) {text : List Char} {tokens : List τ}
    (read : M.lex text = (tokens, none)) : L.lex text = (tokens, none) :=
  h.lexFrom text.length read

end Lexer

end HappyView.Foundation
