import HappyView.Foundation.FiniteMap

/-!
# Maps that collect grants

A value grants some things, and two values for one key are merged into one that grants what
either does. So a key is granted a thing exactly if some value that went into the map for it
grants it (`granted_mergeInto`).
-/

namespace HappyView.Foundation

variable {K V P : Type*} [DecidableEq K]

def mergeInto (merge : V → V → V) (m : AList fun _ : K => V) (key : K) (value : V) :
    AList fun _ : K => V :=
  match m.lookup key with
  | some held => m.insert key (merge held value)
  | none => m.insert key value

/-- The map holds a value for the key that grants `thing`. -/
def Granted (grants : V → P → Prop) (m : AList fun _ : K => V) (key : K) (thing : P) : Prop :=
  ∃ value, m.lookup key = some value ∧ grants value thing

variable {merge : V → V → V} {grants : V → P → Prop} {m : AList fun _ : K => V} {key other : K}
  {value : V} {thing : P}

theorem not_granted_empty : ¬ Granted grants (∅ : AList fun _ : K => V) key thing := by
  rintro ⟨value, held, -⟩
  simp at held

theorem granted_mergeInto
    (union : ∀ a b thing, grants (merge a b) thing ↔ grants a thing ∨ grants b thing) :
    Granted grants (mergeInto merge m key value) other thing ↔
      Granted grants m other thing ∨ other = key ∧ grants value thing := by
  unfold mergeInto Granted
  by_cases here : other = key
  · subst here
    split
    · rename_i held found
      simp [found, union]
    · rename_i missing
      simp [missing]
  · split <;> simp [AList.lookup_insert_ne here, here]

theorem granted_foldl_mergeInto
    (union : ∀ a b thing, grants (merge a b) thing ↔ grants a thing ∨ grants b thing)
    {X : Type*} (xs : List X) (key : X → K) :
    Granted grants (xs.foldl (fun m x => mergeInto merge m (key x) value) m) other thing ↔
      Granted grants m other thing ∨ (∃ x ∈ xs, other = key x) ∧ grants value thing := by
  induction xs generalizing m with
  | nil => simp
  | cons x xs ih =>
    rw [List.foldl_cons, ih, granted_mergeInto union, List.exists_mem_cons_iff, or_and_right,
      or_assoc]

end HappyView.Foundation
