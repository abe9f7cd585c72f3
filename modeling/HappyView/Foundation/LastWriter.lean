import Mathlib.Order.MinMax
import Mathlib.Data.List.Induction
import Mathlib.Data.List.Nodup
import Mathlib.Data.List.Perm.Basic

/-!
# Last writer wins, one slot

A slot holds at most one value with its revision, and the newest revision at which a
value was deleted from it. Writes and deletes carry revisions and arrive in any order.
A write is refused at or below the tombstone and below the row, and a write of the
value already held changes nothing, its revision included.

That last rule is what decides convergence (`converges_iff`).
-/

namespace HappyView.Foundation.LastWriter

/-- A write of `change`, or a delete when it is `none`. -/
structure Event (C R : Type*) where
  rev : R
  change : Option C
  deriving DecidableEq

structure Slot (C R : Type*) where
  row : Option (C × R) := none
  tombstone : Option R := none
  deriving DecidableEq

variable {C R : Type*} [LinearOrder R]

namespace Slot

def bury (s : Slot C R) (rev : R) : Slot C R :=
  { s with tombstone := some (s.tombstone.elim rev (max · rev)) }

def write [DecidableEq C] (s : Slot C R) (value : C) (rev : R) : Slot C R :=
  if s.tombstone.any (rev ≤ ·) then s
  else match s.row with
    | none => { s with row := some (value, rev) }
    | some (held, stored) =>
      if held ≠ value ∧ stored ≤ rev then { s with row := some (value, rev) } else s

def delete (s : Slot C R) (rev : R) : Slot C R :=
  match s.row with
  | none => s.bury rev
  | some (_, stored) => if stored ≤ rev then { s with row := none }.bury rev else s

def apply [DecidableEq C] (s : Slot C R) (e : Event C R) : Slot C R :=
  match e.change with
  | some value => s.write value e.rev
  | none => s.delete e.rev

def value (s : Slot C R) : Option C := s.row.map Prod.fst

end Slot

variable {s : Slot C R} {e top other same : Event C R} {events : List (Event C R)} {c : C}

/-! ## The state an event leaves -/

/-- The slot is as `e` leaves it: its value at its revision, or nothing and a tombstone
at its revision or a newer one. -/
def Slot.At (s : Slot C R) (e : Event C R) : Prop :=
  match e.change with
  | some value => s.row = some (value, e.rev)
  | none => s.row = none ∧ ∃ t ∈ s.tombstone, e.rev ≤ t

theorem Slot.At.value_eq (h : s.At e) : s.value = e.change := by
  unfold Slot.At at h
  split at h
  · simp_all [Slot.value]
  · simp_all [Slot.value]

theorem Slot.bury_mem (s : Slot C R) (rev : R) : ∃ t ∈ (s.bury rev).tombstone, rev ≤ t := by
  cases h : s.tombstone <;> simp [Slot.bury, h]

theorem Slot.bury_mono {rev t : R} (h : t ∈ s.tombstone) (new : R) (le : rev ≤ t) :
    ∃ t ∈ (s.bury new).tombstone, rev ≤ t :=
  ⟨max t new, by simp_all [Slot.bury], le.trans (le_max_left t new)⟩

theorem Slot.bury_tombstone (s : Slot C R) (rev : R) :
    ∀ t ∈ (s.bury rev).tombstone, t ∈ s.tombstone ∨ rev = t := by
  cases held : s.tombstone with
  | none => simp [Slot.bury, held]
  | some stored => rcases max_choice stored rev with old | new <;> simp_all [Slot.bury]

variable [DecidableEq C]

theorem Slot.At.apply (h : s.At e) (older : other.rev < e.rev) : (s.apply other).At e := by
  obtain ⟨rev, change⟩ := e
  obtain ⟨rev', change'⟩ := other
  cases change with
  | some value =>
    have row : s.row = some (value, rev) := h
    have unchanged : s.apply ⟨rev', change'⟩ = s := by
      cases change' <;> simp_all [Slot.apply, Slot.write, Slot.delete]
    rwa [unchanged]
  | none =>
    obtain ⟨row, t, ht, le⟩ := h
    cases change' with
    | some value =>
      have blocked : s.tombstone.any (rev' ≤ ·) := by
        simpa [Option.any_eq_true] using ⟨t, ht, (older.le.trans le)⟩
      simp only [Slot.apply, Slot.write, blocked, if_true]
      exact ⟨row, t, ht, le⟩
    | none =>
      simp only [Slot.apply, Slot.delete, row]
      exact ⟨row, Slot.bury_mono ht rev' le⟩

theorem Slot.at_apply (row : ∀ held ∈ s.row, held.2 ≤ e.rev ∧ some held.1 ≠ e.change)
    (tombstone : e.change ≠ none → ∀ t ∈ s.tombstone, t < e.rev) : (s.apply e).At e := by
  obtain ⟨rev, change⟩ := e
  cases change with
  | some value =>
    have admitted : s.tombstone.any (rev ≤ ·) = false := by
      simpa [Option.any_eq_false] using tombstone
    cases held : s.row with
    | none => simp [Slot.apply, Slot.write, admitted, held, Slot.At]
    | some stored =>
      have ⟨older, differs⟩ := row stored held
      have takes : stored.1 ≠ value ∧ stored.2 ≤ rev := ⟨fun same => differs (by rw [same]), older⟩
      simp [Slot.apply, Slot.write, admitted, held, Slot.At, takes]
  | none =>
    cases held : s.row with
    | none => simpa [Slot.apply, Slot.delete, held, Slot.At] using ⟨held, s.bury_mem rev⟩
    | some stored =>
      have older : stored.2 ≤ rev := (row stored held).1
      simp only [Slot.apply, Slot.delete, held, older, if_true, Slot.At]
      exact ⟨rfl, Slot.bury_mem _ rev⟩

theorem Slot.apply_eq_self {held : C × R} (row : s.row = some held)
    (same : e.change = some held.1) :
    s.apply e = s := by
  simp [Slot.apply, Slot.write, same, row]

/-! ## Replays -/

def replay (order : List (Event C R)) : Slot C R := order.foldl Slot.apply {}

theorem replay_concat (order : List (Event C R)) (e : Event C R) :
    replay (order ++ [e]) = (replay order).apply e := by
  simp [replay]

structure Slot.From (s : Slot C R) (order : List (Event C R)) : Prop where
  row : ∀ held ∈ s.row, ∃ e ∈ order, e.rev = held.2 ∧ e.change = some held.1
  tombstone : ∀ t ∈ s.tombstone, ∃ e ∈ order, e.rev = t

theorem Slot.apply_row (s : Slot C R) (e : Event C R) :
    ∀ held ∈ (s.apply e).row, held ∈ s.row ∨ e.rev = held.2 ∧ e.change = some held.1 := by
  unfold Slot.apply Slot.write Slot.delete Slot.bury
  grind

theorem Slot.apply_tombstone (s : Slot C R) (e : Event C R) :
    ∀ t ∈ (s.apply e).tombstone, t ∈ s.tombstone ∨ e.rev = t := by
  have buried := s.bury_tombstone e.rev
  have emptied := Slot.bury_tombstone (⟨none, s.tombstone⟩ : Slot C R) e.rev
  unfold Slot.apply Slot.write Slot.delete
  grind

theorem Slot.From.apply {order : List (Event C R)} (h : s.From order) (e : Event C R) :
    (s.apply e).From (order ++ [e]) where
  row held hr := by
    rcases s.apply_row e held hr with old | new
    · obtain ⟨o, ho, source⟩ := h.row held old
      exact ⟨o, by simp [ho], source⟩
    · exact ⟨e, by simp, new⟩
  tombstone t ht := by
    rcases s.apply_tombstone e t ht with old | new
    · obtain ⟨o, ho, source⟩ := h.tombstone t old
      exact ⟨o, by simp [ho], source⟩
    · exact ⟨e, by simp, new⟩

theorem replay_from (order : List (Event C R)) : (replay order).From order := by
  induction order using List.reverseRecOn with
  | nil => exact ⟨by simp [replay], by simp [replay]⟩
  | append_singleton order e ih =>
    rw [replay_concat]
    exact ih.apply e

theorem Slot.At.foldl {order : List (Event C R)} (h : s.At e)
    (later : ∀ other ∈ order, other.rev < e.rev ∨ e.change ≠ none ∧ other.change = e.change) :
    (order.foldl Slot.apply s).At e := by
  induction order generalizing s with
  | nil => exact h
  | cons other order ih =>
    refine ih ?_ fun o ho => later o (by simp [ho])
    rcases later other (by simp) with older | ⟨writes, same⟩
    · exact h.apply older
    · obtain ⟨value, written⟩ := Option.ne_none_iff_exists'.mp writes
      have row : s.row = some (value, e.rev) := by simpa [Slot.At, written] using h
      rwa [Slot.apply_eq_self row (same.trans written)]

/-- An event that comes after older ones of other values only, and before older ones and
repetitions of its own value only, has the last word. -/
theorem value_of_pivot {front back : List (Event C R)}
    (before : ∀ o ∈ front, o.rev < e.rev ∧ (e.change ≠ none → o.change ≠ e.change))
    (after : ∀ o ∈ back, o.rev < e.rev ∨ e.change ≠ none ∧ o.change = e.change) :
    (replay (front ++ e :: back)).value = e.change := by
  have sources := replay_from front
  have takes : ((replay front).apply e).At e := by
    refine Slot.at_apply (fun held hr => ?_) fun writes t ht => ?_
    · obtain ⟨o, ho, rev, change⟩ := sources.row held hr
      have ⟨older, differs⟩ := before o ho
      refine ⟨rev ▸ older.le, fun same => ?_⟩
      exact differs (by simp [← same]) (change.trans same)
    · obtain ⟨o, ho, rfl⟩ := sources.tombstone t ht
      exact (before o ho).1
  simpa [replay] using (takes.foldl after).value_eq

/-! ## Convergence -/

/-- `top` writes a value that an earlier event wrote too, and an event that does not
lies between the two. -/
def Interrupted (events : List (Event C R)) (top : Event C R) : Prop :=
  ∃ same ∈ events, ∃ other ∈ events, top.change ≠ none ∧ same.change = top.change ∧
    other.change ≠ top.change ∧ same.rev < other.rev

instance (events : List (Event C R)) (top : Event C R) : Decidable (Interrupted events top) :=
  inferInstanceAs (Decidable (∃ same ∈ events, ∃ other ∈ events, _ ∧ _))

theorem value_eq_of_not_interrupted {order : List (Event C R)}
    (distinct : (order.map Event.rev).Nodup)
    (mem : top ∈ order) (newest : ∀ e ∈ order, e.rev ≤ top.rev) (free : ¬ Interrupted order top) :
    (replay order).value = top.change := by
  have older : ∀ e ∈ order, e ≠ top → e.rev < top.rev := fun e he ne =>
    (newest e he).lt_of_ne fun same => ne (List.inj_on_of_nodup_map distinct he mem same)
  by_cases deletes : top.change = none
  · obtain ⟨front, back, rfl⟩ := List.append_of_mem mem
    have fresh : top ∉ front ∧ top ∉ back := by
      have := List.Nodup.of_map _ distinct
      grind
    exact value_of_pivot
      (fun o ho => ⟨older o (by simp [ho]) fun same => fresh.1 (same ▸ ho),
        fun writes => absurd deletes writes⟩)
      (fun o ho => .inl (older o (by simp [ho]) fun same => fresh.2 (same ▸ ho)))
  · -- The first write of the value takes the slot, as every other event is older.
    obtain ⟨first, hfirst⟩ := Option.isSome_iff_exists.mp
      (List.find?_isSome (p := fun o => o.change = top.change).mpr ⟨top, mem, by simp⟩)
    obtain ⟨found, front, back, rfl, earlier⟩ := List.find?_eq_some_iff_append.mp hfirst
    simp only [decide_eq_true_eq, Bool.not_eq_eq_eq_not, Bool.not_true, decide_eq_false_iff_not]
      at found earlier
    have above : ∀ o ∈ front ++ first :: back, o.change ≠ top.change → o.rev < first.rev := by
      intro o ho differs
      have here : first ∈ front ++ first :: back := by simp
      refine lt_of_le_of_ne (not_lt.mp fun between => ?_) fun same => ?_
      · exact free ⟨first, here, o, ho, deletes, found, differs, between⟩
      · exact differs (List.inj_on_of_nodup_map distinct ho here same ▸ found)
    rw [← found]
    refine value_of_pivot (fun o ho => ?_) fun o ho => ?_
    · exact ⟨above o (by simp [ho]) (earlier o ho), fun _ => found ▸ earlier o ho⟩
    · by_cases same : o.change = top.change
      · exact .inr ⟨found ▸ deletes, same.trans found.symm⟩
      · exact .inl (above o (by simp [ho]) same)

omit [DecidableEq C] in
theorem exists_newest (order : List (Event C R)) (ne : order ≠ []) :
    ∃ e ∈ order, ∀ o ∈ order, o.rev ≤ e.rev := by
  induction order with
  | nil => exact absurd rfl ne
  | cons e order ih =>
    by_cases last : order = []
    · exact ⟨e, by simp, by simp [last]⟩
    · obtain ⟨m, hm, newest⟩ := ih last
      rcases le_total e.rev m.rev with le | le
      · exact ⟨m, by simp [hm], by simpa [le] using newest⟩
      · exact ⟨e, by simp, by simpa using fun o ho => (newest o ho).trans le⟩

theorem replay_same {rest : List (Event C R)} {value : C} (first : e.change = some value)
    (all : ∀ o ∈ rest, o.change = some value) :
    replay (e :: rest) = ⟨some (value, e.rev), none⟩ := by
  have start : Slot.apply {} e = ⟨some (value, e.rev), none⟩ := by
    simp [Slot.apply, Slot.write, first]
  rw [replay, List.foldl_cons, start]
  clear start first
  induction rest with
  | nil => rfl
  | cons o rest ih =>
    rw [List.foldl_cons, Slot.apply_eq_self rfl (all o (by simp))]
    exact ih fun o ho => all o (by simp [ho])

/-- After repeated writes of one value, an event newer than the first of them takes the
slot, however old it is beside the others. -/
theorem value_of_interruption {later older : List (Event C R)} {value : C}
    (first : same.change = some value) (repeats : ∀ o ∈ later, o.change = some value)
    (differs : other.change ≠ some value) (between : same.rev < other.rev)
    (below : ∀ o ∈ older, o.rev < other.rev) :
    (replay (same :: later ++ other :: older)).value = other.change := by
  have takes : ((replay (same :: later)).apply other).At other := by
    rw [replay_same first repeats]
    refine Slot.at_apply (fun held hr => ?_) (by simp)
    obtain rfl := Option.some.inj hr
    exact ⟨between.le, differs.symm⟩
  simpa only [replay, List.foldl_append, List.foldl_cons] using
    (takes.foldl fun o ho => .inl (below o ho)).value_eq

/-- The order that loses an interrupted value: the earlier write of it, all its later
writes, which do not move the revision, and only then the newest interruption. -/
theorem exists_order_of_interrupted (distinct : (events.map Event.rev).Nodup)
    (h : Interrupted events top) :
    ∃ order, order.Perm events ∧ (replay order).value ≠ top.change := by
  obtain ⟨same, hs, some_other, ho, writes, repeated, some_differs, some_between⟩ := h
  obtain ⟨value, written⟩ := Option.ne_none_iff_exists'.mp writes
  rw [written] at repeated some_differs ⊢
  have interrupts : some_other ∈ events.filter (·.change ≠ some value) :=
    List.mem_filter.mpr ⟨ho, by simpa using some_differs⟩
  obtain ⟨other, mem, newest⟩ := exists_newest _ (List.ne_nil_of_mem interrupts)
  have between : same.rev < other.rev := some_between.trans_le (newest _ interrupts)
  obtain ⟨mem, differs⟩ := List.mem_filter.mp mem
  have differs : other.change ≠ some value := by simpa using differs
  let rest := events.erase same
  let later := rest.filter fun o => other.rev < o.rev
  let older := rest.filter fun o => !decide (other.rev < o.rev)
  have inRest : other ∈ rest := (List.mem_erase_of_ne fun eq => between.ne (by rw [eq])).mpr mem
  have inOlder : other ∈ older := List.mem_filter.mpr ⟨inRest, by simp⟩
  have perm : (same :: later ++ other :: older.erase other).Perm events :=
    calc same :: later ++ other :: older.erase other
      _ |>.Perm (same :: later ++ older) := (List.perm_cons_erase inOlder).symm.append_left _
      _ |>.Perm (same :: rest) := (List.filter_append_perm _ rest).cons same
      _ |>.Perm events := (List.perm_cons_erase hs).symm
  have repeats : ∀ o ∈ later, o.change = some value := by
    intro o ho
    obtain ⟨ho, past⟩ := List.mem_filter.mp ho
    by_contra differs
    have le := newest o (List.mem_filter.mpr ⟨List.mem_of_mem_erase ho, by simpa using differs⟩)
    exact absurd le (not_le.mpr (by simpa using past))
  have below : ∀ o ∈ older.erase other, o.rev < other.rev := by
    intro o ho
    have revs := (perm.map Event.rev).nodup_iff.mpr distinct
    rw [List.map_append] at revs
    have le := (List.mem_filter.mp (List.mem_of_mem_erase ho)).2
    refine lt_of_le_of_ne (by simpa using le) fun eq => ?_
    exact (List.nodup_cons.mp (List.nodup_append.mp revs).2.1).1 (List.mem_map.mpr ⟨o, ho, eq⟩)
  exact ⟨_, perm, by rwa [value_of_interruption repeated repeats differs between below]⟩

/-- Every order of a set of events with distinct revisions ends with the newest event,
exactly when nothing interrupts that event's value. -/
theorem converges_iff (distinct : (events.map Event.rev).Nodup) (mem : top ∈ events)
    (newest : ∀ e ∈ events, e.rev ≤ top.rev) :
    (∀ order, order.Perm events → (replay order).value = top.change) ↔
      ¬ Interrupted events top := by
  constructor
  · intro all h
    obtain ⟨order, perm, lost⟩ := exists_order_of_interrupted distinct h
    exact lost (all order perm)
  · intro free order perm
    refine value_eq_of_not_interrupted ((perm.map Event.rev).nodup_iff.mpr distinct)
      (perm.mem_iff.mpr mem) (fun e he => newest e (perm.mem_iff.mp he)) fun h => free ?_
    obtain ⟨same, hs, other, ho, rest⟩ := h
    exact ⟨same, perm.mem_iff.mp hs, other, perm.mem_iff.mp ho, rest⟩

end HappyView.Foundation.LastWriter
