import Mathlib.Data.List.Basic

/-!
# An index derived from the rows

A table holds a body for each row id, and an index lists the keys that `derive` reads off the
bodies. A writer brings the index up to date for the rows it wrote, from the bodies it wrote:
`sync` drops what the index says of those rows and adds the keys of the given bodies.
-/

namespace HappyView.Foundation

variable {ι β κ : Type*} {derive : β → List κ} {written : List (ι × β)} {index : List (ι × κ)}
  {id : ι} {body : β}

/-- What the index lists for the row `id` are the keys of `body`. -/
def Indexed (derive : β → List κ) (index : List (ι × κ)) (id : ι) (body : β) : Prop :=
  ∀ key, (id, key) ∈ index ↔ key ∈ derive body

def entriesOf (derive : β → List κ) (written : List (ι × β)) : List (ι × κ) :=
  written.flatMap fun row => (derive row.2).map (row.1, ·)

theorem mem_entriesOf {key : κ} :
    (id, key) ∈ entriesOf derive written ↔ ∃ body, (id, body) ∈ written ∧ key ∈ derive body := by
  simp [entriesOf]

theorem indexed_filter (keep : ι → Bool) (kept : keep id = true) :
    Indexed derive (index.filter fun entry => keep entry.1) id body ↔
      Indexed derive index id body := by
  simp [Indexed, List.mem_filter, kept]

variable [DecidableEq ι] [DecidableEq κ]

def sync (derive : β → List κ) (written : List (ι × β)) (index : List (ι × κ)) : List (ι × κ) :=
  entriesOf derive written ∪ index.filter fun entry => entry.1 ∉ written.map Prod.fst

theorem mem_sync {key : κ} :
    (id, key) ∈ sync derive written index ↔
      (∃ body, (id, body) ∈ written ∧ key ∈ derive body) ∨
        (id, key) ∈ index ∧ id ∉ written.map Prod.fst := by
  rw [sync, List.mem_union_iff, mem_entriesOf, List.mem_filter, decide_eq_true_iff]

theorem indexed_sync (mem : (id, body) ∈ written)
    (one : ∀ other, (id, other) ∈ written → derive other = derive body) :
    Indexed derive (sync derive written index) id body := by
  intro key
  have listed : id ∈ written.map Prod.fst := List.mem_map.mpr ⟨_, mem, rfl⟩
  rw [mem_sync]
  constructor
  · rintro (⟨other, mem, read⟩ | ⟨-, absent⟩)
    · rwa [one other mem] at read
    · exact absurd listed absent
  · intro read
    exact .inl ⟨body, mem, read⟩

theorem indexed_sync_of_not_mem (absent : id ∉ written.map Prod.fst) :
    Indexed derive (sync derive written index) id body ↔ Indexed derive index id body := by
  have same (key : κ) : (id, key) ∈ sync derive written index ↔ (id, key) ∈ index := by
    rw [mem_sync]
    constructor
    · rintro (⟨body, mem, -⟩ | ⟨mem, -⟩)
      · exact absurd (List.mem_map.mpr ⟨_, mem, rfl⟩) absent
      · exact mem
    · exact fun mem => .inr ⟨mem, absent⟩
  simp only [Indexed, same]

end HappyView.Foundation
