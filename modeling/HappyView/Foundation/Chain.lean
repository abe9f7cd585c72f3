import HappyView.Foundation.Paging
import Mathlib.Data.List.Induction
import Mathlib.Data.List.MinMax

/-!
# Chained logs

Every entry of a log has a key and names the key of the entry before it, and keys grow
(`Linked`). A reader that is told of an entry sees from the key it names whether it missed
one.

An entry also has an owner. A table that holds for each owner only its last entry
(`latest`) still answers what came after a key: cutting the table there and cutting the log
there agree (`after_latest`).
-/

namespace HappyView.Foundation.Chain

section Linked

variable {α K : Type*} (key : α → K)

/-- The key of the last entry, `start` if there is none. -/
def lastKey (start : Option K) (log : List α) : Option K := (log.getLast?.map key).or start

variable {key} {start : Option K} {log front back : List α} {a : α}

@[simp] theorem lastKey_nil : lastKey key start [] = start := rfl

@[simp] theorem lastKey_concat : lastKey key start (log ++ [a]) = some (key a) := by
  simp [lastKey]

theorem lastKey_cons : lastKey key start (a :: log) = lastKey key (some (key a)) log := by
  rcases List.eq_nil_or_concat' log with rfl | ⟨log, b, rfl⟩
  · rfl
  · rw [← List.cons_append, lastKey_concat, lastKey_concat]

theorem lastKey_append :
    lastKey key start (front ++ back) = lastKey key (lastKey key start front) back := by
  induction front generalizing start with
  | nil => rfl
  | cons a front ih => rw [List.cons_append, lastKey_cons, lastKey_cons, ih]

theorem exists_of_lastKey {k : K} (h : lastKey key none log = some k) : ∃ a ∈ log, key a = k := by
  rcases List.eq_nil_or_concat' log with rfl | ⟨log, a, rfl⟩
  · cases h
  · rw [lastKey_concat] at h
    exact ⟨a, by simp, Option.some.inj h⟩

variable [LinearOrder K] {prev : α → Option K}

variable (key prev) in
def Linked : Option K → List α → Prop
  | _, [] => True
  | start, a :: rest => prev a = start ∧ (∀ p ∈ start, p < key a) ∧ Linked (some (key a)) rest

theorem linked_append : Linked key prev start (front ++ back) ↔
    Linked key prev start front ∧ Linked key prev (lastKey key start front) back := by
  induction front generalizing start with
  | nil => simp [Linked]
  | cons a front ih => simp [Linked, ih, lastKey_cons, and_assoc]

theorem linked_singleton :
    Linked key prev start [a] ↔ prev a = start ∧ ∀ p ∈ start, p < key a := by
  simp [Linked]

theorem Linked.prev_eq (linked : Linked key prev start (front ++ a :: back)) :
    prev a = lastKey key start front :=
  (linked_append.mp linked).2.1

theorem Linked.start_lt (linked : Linked key prev start log) (mem : a ∈ log) :
    ∀ p ∈ start, p < key a := by
  induction log generalizing start with
  | nil => simp at mem
  | cons b log ih =>
    obtain ⟨-, above, rest⟩ := linked
    rcases List.mem_cons.mp mem with rfl | mem
    · exact above
    · intro p hp
      exact lt_trans (above p hp) (ih rest mem (key b) rfl)

theorem Linked.ascending (linked : Linked key prev start log) : Paging.Ascending key log := by
  induction log generalizing start with
  | nil => exact .nil
  | cons a log ih =>
    obtain ⟨-, -, rest⟩ := linked
    exact .cons (fun b mem => rest.start_lt mem (key a) rfl) (ih rest)

end Linked

section Latest

variable {α R : Type*} [DecidableEq R] (owner : α → R)

/-- The entries with `a` in the place of its owner's. -/
def replace (kept : List α) (a : α) : List α := kept.filter (owner · ≠ owner a) ++ [a]

def latest (log : List α) : List α := log.foldl (replace owner) []

variable {owner} {log more : List α} {a : α}

theorem latest_concat : latest owner (log ++ [a]) = replace owner (latest owner log) a := by
  simp [latest]

theorem latest_sublist : (latest owner log).Sublist log := by
  induction log using List.reverseRecOn with
  | nil => exact .slnil
  | append_singleton log a ih =>
    rw [latest_concat, replace]
    exact (List.filter_sublist.trans ih).append_right [a]

theorem mem_owner_latest {r : R} : r ∈ (latest owner log).map owner ↔ r ∈ log.map owner := by
  induction log using List.reverseRecOn with
  | nil => rfl
  | append_singleton log a ih =>
    by_cases same : r = owner a
    · simp [latest_concat, replace, same]
    · have other : r ∈ ((latest owner log).filter (owner · ≠ owner a)).map owner ↔
          r ∈ (latest owner log).map owner := by
        simp only [List.mem_map, List.mem_filter, decide_eq_true_eq]
        constructor
        · rintro ⟨b, ⟨mem, -⟩, rfl⟩
          exact ⟨b, mem, rfl⟩
        · rintro ⟨b, mem, rfl⟩
          exact ⟨b, ⟨mem, same⟩, rfl⟩
      rw [latest_concat, replace, List.map_append, List.mem_append, other, ih]
      simp [same]

section Table

variable {β : Type*} {f : α → β} {of : β → R}

theorem map_replace (agree : ∀ a, of (f a) = owner a) (kept : List α) :
    (replace owner kept a).map f = replace of (kept.map f) (f a) := by
  simp [replace, List.filter_map, Function.comp_def, agree]

theorem map_latest_append (agree : ∀ a, of (f a) = owner a) :
    (latest owner (log ++ more)).map f =
      more.foldl (fun kept a => replace of kept (f a)) ((latest owner log).map f) := by
  induction more generalizing log with
  | nil => simp
  | cons a more ih =>
    rw [List.append_cons, ih, latest_concat, map_replace agree, List.foldl_cons]

end Table

variable {K : Type*} [LinearOrder K] {key : α → K} {cursor : Option K}

theorem ascending_latest (asc : Paging.Ascending key log) :
    Paging.Ascending key (latest owner log) :=
  asc.sublist latest_sublist

theorem after_replace {kept : List α} (past : ∀ c ∈ cursor, c < key a) :
    Paging.after key cursor (replace owner kept a) =
      replace owner (Paging.after key cursor kept) a := by
  have past : cursor.all (· < key a) = true := by
    cases cursor <;> simp_all
  simp [Paging.after, replace, List.filter_append, past, List.filter_filter, Bool.and_comm]

theorem after_latest (asc : Paging.Ascending key log) :
    Paging.after key cursor (latest owner log) = latest owner (Paging.after key cursor log) := by
  induction log using List.reverseRecOn with
  | nil => rfl
  | append_singleton log a ih =>
    obtain ⟨before, -, last⟩ := List.pairwise_append.mp asc
    by_cases past : ∀ c ∈ cursor, c < key a
    · have cut : Paging.after key cursor (log ++ [a]) = Paging.after key cursor log ++ [a] := by
        have : cursor.all (· < key a) = true := by
          cases cursor <;> simp_all
        simp [Paging.after, this]
      rw [latest_concat, after_replace past, cut, latest_concat, ih before]
    · -- Nothing is past the cursor, since the last entry is not.
      have none : Paging.after key cursor (log ++ [a]) = [] := by
        refine List.eq_nil_iff_forall_not_mem.mpr fun b mem => past fun c hc => ?_
        obtain ⟨mem, above⟩ := Paging.mem_after.mp mem
        rcases List.mem_append.mp mem with mem | mem
        · exact lt_trans (above c hc) (last b mem a (by simp))
        · rw [List.mem_singleton.mp mem] at above
          exact above c hc
      have sub : (Paging.after key cursor (latest owner (log ++ [a]))).Sublist
          (Paging.after key cursor (log ++ [a])) := latest_sublist.filter _
      rw [none] at sub ⊢
      exact List.sublist_nil.mp sub

theorem max_latest (asc : Paging.Ascending key log) :
    ((latest owner log).map key).max? = lastKey key none log := by
  rcases List.eq_nil_or_concat' log with rfl | ⟨log, a, rfl⟩
  · rfl
  · obtain ⟨-, -, last⟩ := List.pairwise_append.mp asc
    rw [lastKey_concat, List.max?_eq_some_iff]
    refine ⟨by simp [latest_concat, replace], ?_⟩
    intro k hk
    obtain ⟨b, mem, rfl⟩ := List.mem_map.mp hk
    rcases List.mem_append.mp (latest_sublist.subset mem) with mem | mem
    · exact (last b mem a (by simp)).le
    · rw [List.mem_singleton.mp mem]

end Latest

end HappyView.Foundation.Chain
