import Mathlib.Data.List.Induction

/-!
# Machines

A machine takes one action at a time; an action that is not enabled in a state has
no next state. Every interleaving of concurrent parties is one list of actions, so a
property of all interleavings is a property of all runs.
-/

namespace HappyView.Foundation

structure Machine (σ α : Type*) where
  start : σ
  step : σ → α → Option σ

namespace Machine

variable {σ α : Type*} (M : Machine σ α)

/-- The state after `actions` from `s`, if each was enabled in its turn. -/
def runFrom (s : σ) (actions : List α) : Option σ := actions.foldlM M.step s

def run (actions : List α) : Option σ := M.runFrom M.start actions

variable {M}

@[simp] theorem runFrom_nil (s : σ) : M.runFrom s [] = some s := rfl

theorem runFrom_cons {s t : σ} {a : α} {actions : List α} :
    M.runFrom s (a :: actions) = some t ↔
      ∃ u, M.step s a = some u ∧ M.runFrom u actions = some t := by
  simp [runFrom, List.foldlM_cons, Option.bind_eq_some_iff]

theorem runFrom_append {s t : σ} {as bs : List α} :
    M.runFrom s (as ++ bs) = some t ↔ ∃ u, M.runFrom s as = some u ∧ M.runFrom u bs = some t := by
  simp [runFrom, List.foldlM_append, Option.bind_eq_some_iff]

theorem run_concat {t : σ} {actions : List α} {a : α} :
    M.run (actions ++ [a]) = some t ↔ ∃ s, M.run actions = some s ∧ M.step s a = some t := by
  rw [run, runFrom_append]
  simp [run, runFrom_cons]

/-- What holds at the start and is kept by every step holds after every run. The
property may speak of the actions taken so far. -/
theorem induct {P : List α → σ → Prop} (start : P [] M.start)
    (step : ∀ actions s a t, P actions s → M.step s a = some t → P (actions ++ [a]) t)
    {actions : List α} {s : σ} (run : M.run actions = some s) : P actions s := by
  induction actions using List.reverseRecOn generalizing s with
  | nil =>
    cases run
    exact start
  | append_singleton actions a ih =>
    obtain ⟨u, hu, hs⟩ := run_concat.mp run
    exact step actions u a s (ih hu) hs

/-! ## Runs whose steps meet a condition -/

/-- Every step of `actions` from `s` meets `ok`, in the state it is taken in. -/
def AlongFrom (M : Machine σ α) (ok : σ → α → Prop) : σ → List α → Prop
  | _, [] => True
  | s, a :: actions => ok s a ∧ ∀ t, M.step s a = some t → AlongFrom M ok t actions

def Along (M : Machine σ α) (ok : σ → α → Prop) (actions : List α) : Prop :=
  M.AlongFrom ok M.start actions

variable {ok : σ → α → Prop}

instance decidableAlongFrom [∀ s a, Decidable (ok s a)] :
    ∀ (s : σ) (actions : List α), Decidable (M.AlongFrom ok s actions)
  | _, [] => inferInstanceAs (Decidable True)
  | s, a :: actions =>
    have : Decidable (∀ t, M.step s a = some t → M.AlongFrom ok t actions) :=
      match M.step s a with
      | none => .isTrue (by simp)
      | some t => @decidable_of_iff _ (M.AlongFrom ok t actions) (by simp)
          (decidableAlongFrom t actions)
    inferInstanceAs (Decidable (_ ∧ _))

instance [∀ s a, Decidable (ok s a)] (actions : List α) : Decidable (M.Along ok actions) :=
  decidableAlongFrom M.start actions

theorem alongFrom_of_forall {actions : List α} (all : ∀ a ∈ actions, ∀ s, ok s a) (s : σ) :
    M.AlongFrom ok s actions := by
  induction actions generalizing s with
  | nil => trivial
  | cons a actions ih =>
    obtain ⟨first, rest⟩ := List.forall_mem_cons.mp all
    exact ⟨first s, fun t _ => ih rest t⟩

theorem alongFrom_append {s : σ} {as bs : List α} (along : M.AlongFrom ok s (as ++ bs)) :
    M.AlongFrom ok s as := by
  induction as generalizing s with
  | nil => trivial
  | cons a as ih => exact ⟨along.1, fun t step => ih (along.2 t step)⟩

theorem induct_alongFrom {P : σ → Prop}
    (step : ∀ s a t, P s → ok s a → M.step s a = some t → P t) {actions : List α} {s t : σ}
    (start : P s) (along : M.AlongFrom ok s actions) (run : M.runFrom s actions = some t) :
    P t := by
  induction actions generalizing s with
  | nil =>
    cases run
    exact start
  | cons a actions ih =>
    obtain ⟨u, first, rest⟩ := runFrom_cons.mp run
    exact ih (step s a u start along.1 first) (along.2 u first) rest

theorem induct_along {P : σ → Prop} (start : P M.start)
    (step : ∀ s a t, P s → ok s a → M.step s a = some t → P t)
    {actions : List α} {s : σ} (along : M.Along ok actions) (run : M.run actions = some s) : P s :=
  induct_alongFrom step start along run

end Machine

end HappyView.Foundation
