import Mathlib.Data.List.AList
import Mathlib.Logic.Function.Basic

/-!
# Following a log of updates

A source keeps a finite map and a log of the batches of updates that led to it. A follower
reads the log from a place, keeps the last update of each key, and writes those one by one
into a view of its own, while the log grows and other followers write to the same view.

`Mirrors view log n` says that the view is right about every key that was not updated since
place `n`. It survives new batches, and every write of the value that a key had at a place
from `n` on. A follower that has read up to place `t` and still has updates to write leaves
the view in `CatchesUp`, which is `Mirrors view log t` once nothing is left.
-/

namespace HappyView.Foundation.KeyedLog

/-! ## Keys that are not updated -/

section Settled

variable {κ ν : Type*} {log : List (List (κ × Option ν))} {n t : Nat} {k : κ}

def Settled (log : List (List (κ × Option ν))) (n : Nat) (k : κ) : Prop :=
  ∀ batch ∈ log.drop n, ∀ u ∈ batch, u.1 ≠ k

theorem Settled.mono (le : n ≤ t) (settled : Settled log n k) : Settled log t k := by
  intro batch mem
  obtain ⟨d, rfl⟩ := Nat.exists_eq_add_of_le le
  rw [← List.drop_drop] at mem
  exact settled batch (List.mem_of_mem_drop mem)

theorem settled_append {new : List (List (κ × Option ν))} (le : n ≤ log.length) :
    Settled (log ++ new) n k ↔
      Settled log n k ∧ ∀ batch ∈ new, ∀ u ∈ batch, u.1 ≠ k := by
  unfold Settled
  rw [List.drop_append_of_le_length le]
  exact List.forall_mem_append

theorem settled_length : Settled log log.length k := by simp [Settled]

end Settled

variable {κ ν ι : Type*} [DecidableEq κ]

/-! ## The last item of each key -/

def lastPer (key : ι → κ) : List ι → List ι
  | [] => []
  | item :: later =>
    if later.all (key · ≠ key item) then item :: lastPer key later else lastPer key later

theorem lastPer_subset (key : ι → κ) (items : List ι) : lastPer key items ⊆ items := by
  fun_induction lastPer key items with
  | case1 => simp
  | case2 item later last ih => exact List.cons_subset_cons _ ih
  | case3 item later last ih => exact List.subset_cons_of_subset _ ih

theorem lastPer_map {α : Type*} (f : α → ι) (key : ι → κ) (items : List α) :
    lastPer key (items.map f) = (lastPer (fun item => key (f item)) items).map f := by
  induction items with
  | nil => rfl
  | cons item later ih =>
    simp only [List.map_cons, lastPer, List.all_map, ih, apply_ite (List.map f)]
    rfl

theorem exists_lastPer {key : ι → κ} {items : List ι} {item : ι} (mem : item ∈ items) :
    ∃ last ∈ lastPer key items, key last = key item := by
  fun_induction lastPer key items generalizing item with
  | case1 => simp at mem
  | case2 first later last ih =>
    rcases List.mem_cons.mp mem with rfl | mem
    · exact ⟨item, by simp, rfl⟩
    · obtain ⟨found, here, same⟩ := ih mem
      exact ⟨found, by simp [here], same⟩
  | case3 first later last ih =>
    rcases List.mem_cons.mp mem with rfl | mem
    · -- A later item has the key of the first.
      obtain ⟨other, mem, same⟩ : ∃ other ∈ later, key other = key item := by simpa using last
      obtain ⟨found, here, same'⟩ := ih mem
      exact ⟨found, here, same'.trans same⟩
    · exact ih mem

/-! ## Updates -/

def apply (m : AList fun _ : κ => ν) (u : κ × Option ν) : AList fun _ : κ => ν :=
  u.2.elim (m.erase u.1) (m.insert u.1)

def replay (m : AList fun _ : κ => ν) (updates : List (κ × Option ν)) : AList fun _ : κ => ν :=
  updates.foldl apply m

theorem lookup_apply (m : AList fun _ : κ => ν) (u : κ × Option ν) (k : κ) :
    (apply m u).lookup k = Function.update (fun k => m.lookup k) u.1 u.2 k := by
  obtain ⟨key, value⟩ := u
  by_cases here : k = key
  · subst here
    cases value <;> simp [apply]
  · cases value <;> simp [apply, here]

theorem lookup_replay_of_ne {m : AList fun _ : κ => ν} {updates : List (κ × Option ν)} {k : κ}
    (other : ∀ u ∈ updates, u.1 ≠ k) : (replay m updates).lookup k = m.lookup k := by
  induction updates generalizing m with
  | nil => rfl
  | cons u updates ih =>
    obtain ⟨first, other⟩ := List.forall_mem_cons.mp other
    calc (replay (apply m u) updates).lookup k
      _ = (apply m u).lookup k := ih other
      _ = m.lookup k := by rw [lookup_apply, Function.update_of_ne first.symm]

theorem lookup_replay_of_lastPer {m : AList fun _ : κ => ν} {updates : List (κ × Option ν)}
    {u : κ × Option ν} (last : u ∈ lastPer Prod.fst updates) :
    (replay m updates).lookup u.1 = u.2 := by
  induction updates generalizing m with
  | nil => simp [lastPer] at last
  | cons first later ih =>
    unfold lastPer at last
    split at last
    · rename_i none
      rcases List.mem_cons.mp last with rfl | last
      · have other : ∀ v ∈ later, v.1 ≠ u.1 := by simpa using none
        calc (replay (apply m u) later).lookup u.1
          _ = (apply m u).lookup u.1 := lookup_replay_of_ne other
          _ = u.2 := by rw [lookup_apply, Function.update_self]
      · exact ih last
    · exact ih last

/-! ## A view of the log -/

variable {log : List (List (κ × Option ν))} {view : κ → Option ν} {n t : Nat} {k : κ}

def current (log : List (List (κ × Option ν))) : AList fun _ : κ => ν := replay ∅ log.flatten

/-- The view is right about every key that was not updated since place `n`. -/
def Mirrors (view : κ → Option ν) (log : List (List (κ × Option ν))) (n : Nat) : Prop :=
  ∀ k, Settled log n k → view k = (current log).lookup k

/-- As `Mirrors`, but for the keys of the updates that are still to be written. -/
def CatchesUp (view : κ → Option ν) (log : List (List (κ × Option ν))) (t : Nat)
    (pending : List (κ × Option ν)) : Prop :=
  ∀ k, Settled log t k → (∀ u ∈ pending, u.1 ≠ k) → view k = (current log).lookup k

theorem current_append (log new : List (List (κ × Option ν))) :
    current (log ++ new) = replay (current log) new.flatten := by
  simp [current, replay]

theorem lookup_current_append {new : List (List (κ × Option ν))}
    (other : ∀ batch ∈ new, ∀ u ∈ batch, u.1 ≠ k) :
    (current (log ++ new)).lookup k = (current log).lookup k := by
  rw [current_append]
  refine lookup_replay_of_ne fun u mem => ?_
  obtain ⟨batch, mem, here⟩ := List.mem_flatten.mp mem
  exact other batch mem u here

theorem Settled.lookup_take (settled : Settled log n k) :
    (current (log.take n)).lookup k = (current log).lookup k := by
  nth_rewrite 2 [← List.take_append_drop n log]
  exact (lookup_current_append settled).symm

theorem mirrors_length : Mirrors view log log.length ↔ ∀ k, view k = (current log).lookup k :=
  ⟨fun mirrors k => mirrors k settled_length, fun same k _ => same k⟩

theorem Mirrors.mono (le : n ≤ t) (mirrors : Mirrors view log t) : Mirrors view log n :=
  fun k settled => mirrors k (settled.mono le)

theorem Mirrors.append {new : List (List (κ × Option ν))} (le : n ≤ log.length)
    (mirrors : Mirrors view log n) : Mirrors view (log ++ new) n := by
  intro k settled
  obtain ⟨settled, other⟩ := (settled_append le).mp settled
  rw [lookup_current_append other]
  exact mirrors k settled

theorem CatchesUp.append {new : List (List (κ × Option ν))} {pending : List (κ × Option ν)}
    (le : t ≤ log.length) (catches : CatchesUp view log t pending) :
    CatchesUp view (log ++ new) t pending := by
  intro k settled left
  obtain ⟨settled, other⟩ := (settled_append le).mp settled
  rw [lookup_current_append other]
  exact catches k settled left

theorem catchesUp_nil : CatchesUp view log t [] ↔ Mirrors view log t := by
  simp [CatchesUp, Mirrors]

theorem Mirrors.catchesUp {pending : List (κ × Option ν)} (mirrors : Mirrors view log n)
    (covers : ∀ batch ∈ (log.take t).drop n, ∀ u ∈ batch, ∃ v ∈ pending, v.1 = u.1) :
    CatchesUp view log t pending := by
  intro k settled left
  refine mirrors k fun batch mem u here same => ?_
  have whole : log.drop n ⊆ (log.take t).drop n ++ log.drop t := by
    nth_rewrite 1 [← List.take_append_drop t log]
    rw [List.drop_append]
    exact List.append_subset.mpr ⟨List.subset_append_left _ _,
      fun _ mem => List.mem_append_right _ (List.mem_of_mem_drop mem)⟩
  rcases List.mem_append.mp (whole mem) with read | later
  · obtain ⟨v, mem, key⟩ := covers batch read u here
    exact left v mem (key.trans same)
  · exact settled batch later u here same

theorem Mirrors.write {u : κ × Option ν} (le : n ≤ t) (mirrors : Mirrors view log n)
    (value : (current (log.take t)).lookup u.1 = u.2) :
    Mirrors (Function.update view u.1 u.2) log n := by
  intro k settled
  by_cases here : k = u.1
  · subst here
    rw [Function.update_self, ← value, (settled.mono le).lookup_take]
  · rw [Function.update_of_ne here]
    exact mirrors k settled

theorem CatchesUp.write {u : κ × Option ν} {pending : List (κ × Option ν)}
    (catches : CatchesUp view log t (u :: pending))
    (value : (current (log.take t)).lookup u.1 = u.2) :
    CatchesUp (Function.update view u.1 u.2) log t pending := by
  intro k settled left
  by_cases here : k = u.1
  · subst here
    rw [Function.update_self, ← value, settled.lookup_take]
  · rw [Function.update_of_ne here]
    refine catches k settled (List.forall_mem_cons.mpr ⟨?_, left⟩)
    exact fun same => here same.symm

end HappyView.Foundation.KeyedLog
