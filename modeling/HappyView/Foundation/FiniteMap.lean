import Mathlib.Algebra.BigOperators.Group.List.Basic
import Mathlib.Algebra.Group.Basic
import Mathlib.Data.List.AList
import Mathlib.Tactic.Abel

/-!
# Finite maps

What a map holds after one key is written or erased, and the sum of a weight over its
entries. The weights are added in a commutative group, so the total does not depend on the
order of the entries.
-/

namespace HappyView.Foundation

/-! ## Lookups -/

section Lookup

variable {α β : Type*} [DecidableEq α] {m : AList fun _ : α => β} {key other : α} {value found : β}

theorem lookup_insert_cases (h : (m.insert key value).lookup other = some found) :
    other = key ∧ found = value ∨ m.lookup other = some found := by
  by_cases here : other = key
  · subst here
    rw [AList.lookup_insert] at h
    exact .inl ⟨rfl, (Option.some.inj h).symm⟩
  · rw [AList.lookup_insert_ne here] at h
    exact .inr h

theorem lookup_erase_some (h : (m.erase key).lookup other = some found) :
    other ≠ key ∧ m.lookup other = some found := by
  by_cases here : other = key
  · subst here
    rw [AList.lookup_erase] at h
    cases h
  · rw [AList.lookup_erase_ne here] at h
    exact ⟨here, h⟩

end Lookup

/-! ## Changing all values -/

section Map

variable {α β : Type*}

def mapValues (f : α → β → β) (m : AList fun _ : α => β) : AList fun _ : α => β :=
  ⟨m.entries.map (.map id f), m.nodupKeys.map₂ f⟩

@[simp] theorem lookup_mapValues [DecidableEq α] (f : α → β → β) (m : AList fun _ : α => β)
    (key : α) : (mapValues f m).lookup key = (m.lookup key).map (f key) :=
  List.dlookup_map₂ key

theorem mapValues_eq_self [DecidableEq α] {f : α → β → β} {m : AList fun _ : α => β}
    (same : ∀ key value, m.lookup key = some value → f key value = value) : mapValues f m = m := by
  refine AList.ext ?_
  calc m.entries.map (.map id f)
    _ = m.entries.map id := List.map_congr_left fun entry mem => by
      rw [Sigma.map, same entry.1 entry.2 (AList.mem_lookup_iff.mpr mem)]
      rfl
    _ = m.entries := List.map_id _

end Map

/-! ## Totals -/

variable {α β G : Type*} [AddCommGroup G]

def total (weigh : α → β → G) (m : AList fun _ : α => β) : G :=
  (m.entries.map fun entry => weigh entry.1 entry.2).sum

@[simp] theorem total_empty {weigh : α → β → G} : total weigh ∅ = 0 := by
  simp [total]

variable [DecidableEq α]

def share (weigh : α → β → G) (m : AList fun _ : α => β) (key : α) : G :=
  (m.lookup key).elim 0 (weigh key)

variable {weigh : α → β → G} {m : AList fun _ : α => β}

theorem total_erase (key : α) : total weigh (m.erase key) = total weigh m - share weigh m key := by
  suffices h : ∀ entries : List (Sigma fun _ : α => β), entries.NodupKeys →
      ((entries.kerase key).map fun entry => weigh entry.1 entry.2).sum =
        (entries.map fun entry => weigh entry.1 entry.2).sum -
          (entries.dlookup key).elim 0 (weigh key) from h m.entries m.nodupKeys
  intro entries nodup
  induction entries with
  | nil => simp
  | cons entry entries ih =>
    obtain ⟨k, v⟩ := entry
    obtain ⟨new, nodup⟩ := List.nodupKeys_cons.mp nodup
    by_cases same : key = k
    · subst same
      simp [List.kerase_cons_eq]
    · rw [List.kerase_cons_ne same, List.dlookup_cons_ne _ _ same]
      simp only [List.map_cons, List.sum_cons, ih nodup]
      abel

theorem total_insert (key : α) (value : β) :
    total weigh (m.insert key value) = total weigh m - share weigh m key + weigh key value := by
  rw [← total_erase, total, AList.entries_insert]
  simp only [List.map_cons, List.sum_cons]
  exact add_comm _ _

end HappyView.Foundation
