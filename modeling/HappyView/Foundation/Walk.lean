import Mathlib.Data.Fintype.Pigeonhole
import Mathlib.Data.Set.Finite.Basic
import Mathlib.Logic.Relation

/-!
# Following a partial function

A walk goes from a place to the next one that a partial function gives, and ends where it
gives none. A walk that sees finitely many places ends exactly when it comes to no place
that leads back to itself (`ends_iff`).
-/

namespace HappyView.Foundation.Walk

variable {α : Type*} (next : α → Option α)

def Leads (a b : α) : Prop := next a = some b

/-- Where a walk is after `n` steps, if it has not ended before. -/
def follow : Nat → α → Option α
  | 0, a => some a
  | n + 1, a => (next a).bind (follow n)

variable {next} {a b c : α} {m n : Nat}

theorem follow_add : follow next (m + n) a = (follow next m a).bind (follow next n) := by
  induction m generalizing a with
  | zero => simp [follow]
  | succ m ih =>
    rw [Nat.add_right_comm, follow, follow]
    cases next a with
    | none => rfl
    | some b => exact ih

theorem reaches_of_follow (h : follow next n a = some b) :
    Relation.ReflTransGen (Leads next) a b := by
  induction n generalizing a with
  | zero =>
    obtain rfl : a = b := by simpa [follow] using h
    exact .refl
  | succ n ih =>
    obtain ⟨c, step, rest⟩ := Option.bind_eq_some_iff.mp h
    exact .head step (ih rest)

theorem exists_follow (h : Relation.ReflTransGen (Leads next) a b) :
    ∃ n, follow next n a = some b := by
  induction h using Relation.ReflTransGen.head_induction_on with
  | refl => exact ⟨0, rfl⟩
  | head step _ ih =>
    obtain ⟨n, rest⟩ := ih
    exact ⟨n + 1, by rw [follow, step, Option.bind_some, rest]⟩

theorem follow_cycle (cycle : follow next (n + 1) b = some b) (k : Nat) :
    follow next (k * (n + 1)) b = some b := by
  induction k with
  | zero => simp [follow]
  | succ k ih => rw [Nat.succ_mul, follow_add, ih, Option.bind_some, cycle]

theorem follow_eq_none_of_le (ended : follow next m a = none) (le : m ≤ n) :
    follow next n a = none := by
  obtain ⟨k, rfl⟩ := Nat.exists_eq_add_of_le le
  rw [follow_add, ended, Option.bind_none]

theorem ends_iff (finite : {b | ∃ n, follow next n a = some b}.Finite) :
    (∃ n, follow next n a = none) ↔
      ∀ b, Relation.ReflTransGen (Leads next) a b → ¬ Relation.TransGen (Leads next) b b := by
  constructor
  · rintro ⟨n, ended⟩ b reached back
    obtain ⟨m, there⟩ := exists_follow reached
    obtain ⟨d, step, rest⟩ := Relation.TransGen.head'_iff.mp back
    obtain ⟨k, again⟩ := exists_follow rest
    have cycle : follow next (k + 1) b = some b := by rw [follow, step, Option.bind_some, again]
    have later : follow next (m + n * (k + 1)) a = some b := by
      rw [follow_add, there, Option.bind_some, follow_cycle cycle]
    have past : n ≤ m + n * (k + 1) := by
      have : n * 1 ≤ n * (k + 1) := Nat.mul_le_mul_left n (by omega)
      omega
    rw [follow_eq_none_of_le ended past] at later
    cases later
  · intro acyclic
    by_contra endless
    simp only [not_exists, Option.ne_none_iff_exists'] at endless
    choose place there using endless
    have : Finite {b | ∃ n, follow next n a = some b} := finite
    -- Two of the walk's places are the same.
    obtain ⟨i, j, differ, same⟩ := Finite.exists_ne_map_eq_of_infinite
      fun n => (⟨place n, n, there n⟩ : {b | ∃ n, follow next n a = some b})
    have equal : place i = place j := congrArg Subtype.val same
    wlog less : i < j generalizing i j
    · exact this j i differ.symm same.symm equal.symm (by omega)
    obtain ⟨k, rfl⟩ := Nat.exists_eq_add_of_lt less
    have back : follow next (k + 1) (place i) = some (place i) := by
      have whole := there (i + k + 1)
      rw [← equal, Nat.add_assoc, follow_add, there i, Option.bind_some] at whole
      exact whole
    obtain ⟨d, step, rest⟩ := Option.bind_eq_some_iff.mp back
    exact acyclic (place i) (reaches_of_follow (there i))
      (Relation.TransGen.head' step (reaches_of_follow rest))

end HappyView.Foundation.Walk
