import Mathlib.Data.List.Basic
import Mathlib.Data.Option.Basic

/-!
# Purges applied late

A cell holds at most one row. A write replaces it, unless the row has the content that is
written; a delete and a purge empty it, but a purge leaves exempt rows alone. `live` is the
cell after all of this in order. `sweep` applies the writes and deletes first and then each
purge as of its own time, to rows older than that.

If rows written before a purge are older than it and rows written after it are not, then
the two differ only where a purged row was written again with the content it had
(`live_eq_sweep_iff`): the write leaves the old row, which the late purge then takes.
-/

namespace HappyView.Foundation.LatePurge

inductive Act (X T : Type*) where
  | write (row : X)
  | delete
  | purge (time : T)

def Act.isPurge {X T : Type*} : Act X T → Bool
  | .purge _ => true
  | _ => false

structure Rows (X C T : Type*) where
  content : X → C
  exempt : X → Bool
  older : X → T → Bool

variable {X C T : Type*} [DecidableEq C] (R : Rows X C T)

namespace Rows

def put (h : Option X) (row : X) : Option X :=
  match h with
  | some held =>
    if R.content held = R.content row ∧ R.exempt held = false then some held else some row
  | none => some row

def liveStep (h : Option X) : Act X T → Option X
  | .write row => R.put h row
  | .delete => none
  | .purge _ => h.filter R.exempt

def live (h : Option X) (acts : List (Act X T)) : Option X := acts.foldl R.liveStep h

def unpurgedStep (h : Option X) : Act X T → Option X
  | .write row => R.put h row
  | .delete => none
  | .purge _ => h

def unpurged (h : Option X) (acts : List (Act X T)) : Option X := acts.foldl R.unpurgedStep h

def purgeAsOf (h : Option X) (time : T) : Option X :=
  h.filter fun row => R.exempt row || !R.older row time

end Rows

def times (acts : List (Act X T)) : List T :=
  acts.filterMap fun
    | .purge time => some time
    | _ => none

namespace Rows

theorem live_filter (h : Option X) (acts : List (Act X T)) :
    R.live h (acts.filter (!·.isPurge)) = R.unpurged h acts := by
  rw [live, List.foldl_filter, unpurged]
  congr 1
  funext h act
  cases act <;> rfl

def sweep (h : Option X) (acts : List (Act X T)) : Option X :=
  (times acts).foldl R.purgeAsOf (R.unpurged h acts)

def contentStep (c : Option C) : Act X T → Option C
  | .write row => some (R.content row)
  | .delete => none
  | .purge _ => c

def lastContent (h : Option X) (acts : List (Act X T)) : Option C :=
  acts.foldl R.contentStep ((h.filter (!R.exempt ·)).map R.content)

/-- Since the last purge there was something, and only writes of the content that the row
had before it. -/
def Restored (h : Option X) (acts : List (Act X T)) : Prop :=
  ∃ before time after c, acts = before ++ .purge time :: after ∧
    R.lastContent h before = some c ∧ after ≠ [] ∧
      ∀ act ∈ after, ∃ row, act = .write row ∧ R.content row = c

/-- A row written before a purge is older than it, a row written after it is not. -/
def InOrder : Act X T → Act X T → Prop
  | .write row, .purge time => R.older row time = true
  | .purge time, .write row => R.older row time = false
  | _, _ => True

structure Ordered (h : Option X) (acts : List (Act X T)) : Prop where
  written : ∀ row, .write row ∈ acts → R.exempt row = false
  first : ∀ row ∈ h, R.exempt row = false → ∀ time, .purge time ∈ acts → R.older row time = true
  acts : acts.Pairwise R.InOrder

variable {R} {h : Option X} {acts before after : List (Act X T)} {row : X} {time : T}

/-! ## Runs -/

theorem put_kept {held : X} (same : R.content held = R.content row)
    (here : R.exempt held = false) : R.put (some held) row = some held :=
  if_pos ⟨same, here⟩

theorem put_replaced {held : X} (new : R.content held = R.content row → R.exempt held = true) :
    R.put (some held) row = some row := by
  refine if_neg fun kept => ?_
  rw [new kept.1] at kept
  cases kept.2

theorem put_cases (R : Rows X C T) (h : Option X) (row : X) :
    R.put h row = h ∨ R.put h row = some row := by
  unfold put
  split
  · split
    · exact .inl rfl
    · exact .inr rfl
  · exact .inr rfl

theorem mem_unpurged (left : row ∈ R.unpurged h acts) : row ∈ h ∨ .write row ∈ acts := by
  induction acts generalizing h with
  | nil => exact .inl left
  | cons act acts ih =>
    rcases ih left with first | written
    · cases act with
      | write new =>
        rcases R.put_cases h new with same | replaced
        · exact .inl (same ▸ first)
        · right
          have first : row ∈ R.put h new := first
          rw [replaced, Option.mem_some_iff] at first
          simp [first]
      | delete => cases first
      | purge time => exact .inl first
    · exact .inr (List.mem_cons_of_mem _ written)

theorem put_filter_exempt (new : R.exempt row = false) :
    (R.put h row).filter R.exempt = none := by
  unfold put
  split
  · split
    · rename_i kept
      simp [Option.filter_some, kept.2]
    · simp [Option.filter_some, new]
  · simp [Option.filter_some, new]

theorem live_filter_exempt {h h' : Option X}
    (written : ∀ row, .write row ∈ acts → R.exempt row = false)
    (same : h.filter R.exempt = h'.filter R.exempt) :
    (R.live h acts).filter R.exempt = (R.unpurged h' acts).filter R.exempt := by
  induction acts generalizing h h' with
  | nil => exact same
  | cons act acts ih =>
    refine ih (fun row mem => written row (List.mem_cons_of_mem _ mem)) ?_
    cases act with
    | write row =>
      have new := written row List.mem_cons_self
      simp only [liveStep, unpurgedStep, put_filter_exempt new]
    | delete => rfl
    | purge time =>
      simp only [liveStep, unpurgedStep]
      rw [← same]
      cases h with
      | none => rfl
      | some held => cases e : R.exempt held <;> simp [Option.filter_some, e]

theorem live_eq_unpurged (none : ∀ time, .purge time ∉ acts) :
    R.live h acts = R.unpurged h acts := by
  induction acts generalizing h with
  | nil => rfl
  | cons act acts ih =>
    have rest := ih (h := R.liveStep h act) fun time mem => none time (List.mem_cons_of_mem _ mem)
    cases act with
    | write row => exact rest
    | delete => exact rest
    | purge time => exact absurd List.mem_cons_self (none time)

theorem lastContent_eq (written : ∀ row, .write row ∈ acts → R.exempt row = false) :
    R.lastContent h acts = ((R.unpurged h acts).filter (!R.exempt ·)).map R.content := by
  unfold lastContent
  induction acts generalizing h with
  | nil => rfl
  | cons act acts ih =>
    refine Eq.trans ?_ (ih fun row mem => written row (List.mem_cons_of_mem _ mem))
    refine congrArg (acts.foldl R.contentStep) ?_
    cases act with
    | write row =>
      have new := written row List.mem_cons_self
      simp only [contentStep, unpurgedStep, put]
      split
      · split
        · rename_i kept
          simp [Option.filter_some, kept]
        · simp [Option.filter_some, new]
      · simp [Option.filter_some, new]
    | delete => rfl
    | purge time => rfl

/-! ## After the last purge -/

theorem unpurged_same {held : X} (here : R.exempt held = false)
    (same : ∀ act ∈ acts, ∃ row, act = .write row ∧ R.content row = R.content held) :
    R.unpurged (some held) acts = some held := by
  induction acts with
  | nil => rfl
  | cons act acts ih =>
    obtain ⟨row, rfl, eq⟩ := same act List.mem_cons_self
    refine Eq.trans ?_ (ih fun act mem => same act (List.mem_cons_of_mem _ mem))
    exact congrArg (acts.foldl R.unpurgedStep) (put_kept eq.symm here)

theorem unpurged_forgets {c : C} (none : ∀ time, .purge time ∉ acts) :
    (∀ act ∈ acts, ∃ row, act = .write row ∧ R.content row = c) ∨
      ∀ h h' : Option X, (∀ held ∈ h, R.content held = c ∧ R.exempt held = false) →
        (∀ held ∈ h', R.content held = c ∧ R.exempt held = false) →
          (∀ row, .write row ∈ acts → R.exempt row = false) →
            R.unpurged h acts = R.unpurged h' acts := by
  induction acts with
  | nil => exact .inl nofun
  | cons act acts ih =>
    have ih := ih fun time mem => none time (List.mem_cons_of_mem _ mem)
    cases act with
    | purge time => exact absurd List.mem_cons_self (none time)
    | delete => exact .inr fun h h' _ _ _ => rfl
    | write row =>
      by_cases same : R.content row = c
      · have like (h : Option X) (like : ∀ held ∈ h, R.content held = c ∧ R.exempt held = false)
            (new : R.exempt row = false) :
            ∀ held ∈ R.put h row, R.content held = c ∧ R.exempt held = false := by
          rcases R.put_cases h row with kept | replaced
          · rwa [kept]
          · rw [replaced]
            simpa using ⟨same, new⟩
        rcases ih with all | forgets
        · left
          intro act mem
          rcases List.mem_cons.mp mem with rfl | mem
          · exact ⟨row, rfl, same⟩
          · exact all act mem
        · right
          intro h h' hLike hLike' written
          have new := written row List.mem_cons_self
          exact forgets _ _ (like h hLike new) (like h' hLike' new) fun row mem =>
            written row (List.mem_cons_of_mem _ mem)
      · right
        have replaced (h : Option X)
            (like : ∀ held ∈ h, R.content held = c ∧ R.exempt held = false) :
            R.put h row = some row := by
          cases h with
          | none => rfl
          | some held =>
            exact put_replaced fun eq => absurd (eq.symm.trans (like held rfl).1) same
        intro h h' hLike hLike' _
        refine congrArg (acts.foldl R.unpurgedStep) ?_
        simp only [unpurgedStep, replaced h hLike, replaced h' hLike']

/-! ## Late purges -/

omit [DecidableEq C] in
theorem foldl_purgeAsOf_none (late : List T) : late.foldl R.purgeAsOf none = none := by
  induction late with
  | nil => rfl
  | cons time late ih => exact ih

omit [DecidableEq C] in
theorem foldl_purgeAsOf_some {late : List T}
    (stays : ∀ time ∈ late, R.exempt row = true ∨ R.older row time = false) :
    late.foldl R.purgeAsOf (some row) = some row := by
  induction late with
  | nil => rfl
  | cons time late ih =>
    have kept : R.purgeAsOf (some row) time = some row := by
      rcases stays time List.mem_cons_self with exempt | young
      · simp [purgeAsOf, Option.filter_some, exempt]
      · simp [purgeAsOf, Option.filter_some, young]
    refine Eq.trans (congrArg (late.foldl R.purgeAsOf) kept) ?_
    exact ih fun time mem => stays time (List.mem_cons_of_mem _ mem)

omit [DecidableEq C] in
theorem foldl_purgeAsOf_gone {late : List T} (mem : time ∈ late) (here : R.exempt row = false)
    (old : R.older row time = true) : late.foldl R.purgeAsOf (some row) = none := by
  induction late with
  | nil => cases mem
  | cons first late ih =>
    by_cases taken : R.older row first = true
    · refine Eq.trans (congrArg (late.foldl R.purgeAsOf) ?_) (foldl_purgeAsOf_none late)
      simp [purgeAsOf, Option.filter_some, here, taken]
    · have mem : time ∈ late := by
        rcases List.mem_cons.mp mem with rfl | mem
        · exact absurd old taken
        · exact mem
      refine Eq.trans (congrArg (late.foldl R.purgeAsOf) ?_) (ih mem)
      simp [purgeAsOf, Option.filter_some, here, taken]

omit [DecidableEq C] in
theorem mem_times : time ∈ times acts ↔ .purge time ∈ acts := by
  unfold times
  rw [List.mem_filterMap]
  constructor
  · rintro ⟨act, mem, eq⟩
    cases act with
    | purge other => exact Option.some.inj eq ▸ mem
    | _ => cases eq
  · exact fun mem => ⟨_, mem, rfl⟩

theorem sweep_eq_unpurged
    (stays : ∀ row ∈ R.unpurged h acts, R.exempt row = true ∨
      ∀ time, .purge time ∈ acts → R.older row time = false) :
    R.sweep h acts = R.unpurged h acts := by
  unfold sweep
  cases left : R.unpurged h acts with
  | none => exact foldl_purgeAsOf_none _
  | some row =>
    refine foldl_purgeAsOf_some fun time mem => ?_
    exact (stays row left).imp_right fun young => young time (mem_times.mp mem)

/-! ## The last purge -/

omit [DecidableEq C] in
theorem last_purge (acts : List (Act X T)) :
    (∀ time, .purge time ∉ acts) ∨
      ∃ before time after, acts = before ++ .purge time :: after ∧
        ∀ later, .purge later ∉ after := by
  induction acts with
  | nil => exact .inl nofun
  | cons act acts ih =>
    rcases ih with none | ⟨before, time, after, rfl, last⟩
    · cases act with
      | purge time => exact .inr ⟨[], time, acts, rfl, none⟩
      | _ => exact .inl (by simpa using none)
    · exact .inr ⟨act :: before, time, after, rfl, last⟩

theorem unpurged_split :
    R.unpurged h (before ++ .purge time :: after) = R.unpurged (R.unpurged h before) after :=
  List.foldl_append

theorem live_split (written : ∀ row, .write row ∈ before → R.exempt row = false)
    (last : ∀ later, .purge later ∉ after) :
    R.live h (before ++ .purge time :: after) =
      R.unpurged ((R.unpurged h before).filter R.exempt) after := by
  rw [← live_filter_exempt written rfl, ← live_eq_unpurged last]
  exact List.foldl_append

theorem Ordered.old (ordered : R.Ordered h (before ++ .purge time :: after))
    (left : row ∈ R.unpurged h before) (here : R.exempt row = false) :
    R.older row time = true := by
  rcases mem_unpurged left with first | written
  · exact ordered.first row first here time (by simp)
  · have pairs := (List.pairwise_append.mp ordered.acts).2.2
    exact pairs _ written _ List.mem_cons_self

omit [DecidableEq C] in
theorem Ordered.young (ordered : R.Ordered h (before ++ .purge time :: after))
    (last : ∀ later, .purge later ∉ after) (written : .write row ∈ after) {other : T}
    (purge : .purge other ∈ before ++ .purge time :: after) : R.older row other = false := by
  obtain ⟨-, latter, pairs⟩ := List.pairwise_append.mp ordered.acts
  rcases List.mem_append.mp purge with earlier | later
  · exact pairs _ earlier _ (List.mem_cons_of_mem _ written)
  · rcases List.mem_cons.mp later with eq | later
    · obtain rfl := Act.purge.inj eq
      exact (List.pairwise_cons.mp latter).1 _ written
    · exact absurd later (last other)

theorem Ordered.sweep_eq (ordered : R.Ordered h (before ++ .purge time :: after))
    (last : ∀ later, .purge later ∉ after) (start : Option X)
    (exempt : ∀ row ∈ start, R.exempt row = true)
    (same : R.unpurged (R.unpurged h before) after = R.unpurged start after) :
    R.sweep h (before ++ .purge time :: after) = R.unpurged start after := by
  rw [sweep_eq_unpurged, unpurged_split, same]
  intro row mem
  rw [unpurged_split, same] at mem
  rcases mem_unpurged mem with first | written
  · exact .inl (exempt row first)
  · exact .inr fun _ purge => ordered.young last written purge

theorem Ordered.not_restored (ordered : R.Ordered h acts)
    (same : R.live h acts = R.sweep h acts) : ¬ R.Restored h acts := by
  rintro ⟨before, time, after, c, rfl, last, some_, all⟩
  have written (row : X) (mem : .write row ∈ before) : R.exempt row = false :=
    ordered.written row (List.mem_append_left _ mem)
  rw [lastContent_eq written] at last
  obtain ⟨held, left, rfl⟩ := Option.map_eq_some_iff.mp last
  obtain ⟨left, here⟩ := Option.filter_eq_some_iff.mp left
  have here : R.exempt held = false := by simpa using here
  have only : ∀ later, .purge later ∉ after := by
    intro later mem
    obtain ⟨row, eq, -⟩ := all _ mem
    cases eq
  obtain ⟨first, rest, rfl⟩ := List.exists_cons_of_ne_nil some_
  obtain ⟨row, rfl, eq⟩ := all _ List.mem_cons_self
  -- In order the row is there again; the late purge takes the old one.
  have gone : R.sweep h (before ++ .purge time :: .write row :: rest) = none := by
    rw [sweep, unpurged_split, left, unpurged_same here all]
    exact foldl_purgeAsOf_gone (mem_times.mpr (by simp)) here (ordered.old left here)
  have new : R.exempt row = false := ordered.written row (by simp)
  have back : R.live h (before ++ .purge time :: .write row :: rest) = some row := by
    rw [live_split written only, left]
    simp only [Option.filter_some, here]
    exact unpurged_same new fun act mem => eq ▸ all act (List.mem_cons_of_mem _ mem)
  rw [back, gone] at same
  cases same

theorem Ordered.live_eq_sweep (ordered : R.Ordered h acts) (not : ¬ R.Restored h acts) :
    R.live h acts = R.sweep h acts := by
  rcases last_purge acts with none | ⟨before, time, after, rfl, last⟩
  · rw [live_eq_unpurged none, sweep_eq_unpurged fun row _ => .inr fun time mem =>
      absurd mem (none time)]
  have written (row : X) (mem : .write row ∈ before) : R.exempt row = false :=
    ordered.written row (List.mem_append_left _ mem)
  have new (row : X) (mem : .write row ∈ after) : R.exempt row = false :=
    ordered.written row (List.mem_append_right _ (List.mem_cons_of_mem _ mem))
  rw [live_split written last]
  cases left : R.unpurged h before with
  | none => exact (ordered.sweep_eq last none nofun (by rw [left])).symm
  | some held =>
    cases here : R.exempt held with
    | true =>
      have kept : (some held).filter R.exempt = some held := by simp [Option.filter_some, here]
      rw [kept]
      exact (ordered.sweep_eq last (some held) (by simpa using here) (by rw [left])).symm
    | false =>
      have empty : (some held).filter R.exempt = none := by simp [Option.filter_some, here]
      rw [empty]
      rcases unpurged_forgets (c := R.content held) last with all | forgets
      · by_cases nothing : after = []
        · subst nothing
          rw [sweep, unpurged_split, left]
          exact (foldl_purgeAsOf_gone (mem_times.mpr (by simp)) here (ordered.old left here)).symm
        · refine absurd ⟨before, time, after, R.content held, rfl, ?_, nothing, all⟩ not
          simp [lastContent_eq written, left, Option.filter_some, here]
      · have same : R.unpurged (some held) after = R.unpurged none after :=
          forgets (some held) none (by simpa using here) nofun new
        exact (ordered.sweep_eq last none nofun (by rw [left, same])).symm

theorem Ordered.live_eq_sweep_iff (ordered : R.Ordered h acts) :
    R.live h acts = R.sweep h acts ↔ ¬ R.Restored h acts :=
  ⟨ordered.not_restored, ordered.live_eq_sweep⟩

end Rows

end HappyView.Foundation.LatePurge
