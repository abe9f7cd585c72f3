import HappyView.Foundation.FiniteMap

/-!
# Caches that drop the least recently used key

The entries are in the order of their last use, the latest first. A cache never holds more
entries than its capacity, and whatever it holds was put into it (`Lru.All`).
-/

namespace HappyView.Foundation

structure Lru (K V : Type*) where
  capacity : Nat
  entries : AList fun _ : K => V
  fits : entries.entries.length ≤ capacity

namespace Lru

variable {K V : Type*}

def empty (capacity : Nat) : Lru K V := ⟨capacity, ∅, Nat.zero_le _⟩

variable [DecidableEq K]

def peek (cache : Lru K V) (key : K) : Option V := cache.entries.lookup key

def put (cache : Lru K V) (key : K) (value : V) : Lru K V where
  capacity := cache.capacity
  entries :=
    { entries := (cache.entries.insert key value).entries.take cache.capacity
      nodupKeys := (cache.entries.insert key value).nodupKeys.sublist (List.take_sublist _ _) }
  fits := List.length_take_le _ _

def get (cache : Lru K V) (key : K) : Option V × Lru K V :=
  match cache.peek key with
  | some value => (some value, cache.put key value)
  | none => (none, cache)

@[simp] theorem get_fst (cache : Lru K V) (key : K) : (cache.get key).1 = cache.peek key := by
  unfold get
  cases cache.peek key <;> rfl

def All (holds : K → V → Prop) (cache : Lru K V) : Prop :=
  ∀ key value, cache.peek key = some value → holds key value

variable {holds holds' : K → V → Prop} {cache : Lru K V} {key : K} {value : V}

theorem all_empty {capacity : Nat} : All holds (empty capacity) := by
  intro key value found
  simp [empty, peek] at found

theorem All.mono (all : cache.All holds)
    (weaker : ∀ key value, holds key value → holds' key value) : cache.All holds' :=
  fun key value found => weaker key value (all key value found)

theorem All.put (all : cache.All holds) (new : holds key value) :
    (cache.put key value).All holds := by
  intro other found held
  have kept : (cache.entries.insert key value).lookup other = some found :=
    AList.mem_lookup_iff.mpr (List.mem_of_mem_take (AList.mem_lookup_iff.mp held))
  rcases lookup_insert_cases kept with ⟨rfl, rfl⟩ | old
  · exact new
  · exact all other found old

theorem All.get (all : cache.All holds) : (cache.get key).2.All holds := by
  unfold Lru.get
  split
  · rename_i found
    exact all.put (all key _ found)
  · exact all

end Lru

end HappyView.Foundation
