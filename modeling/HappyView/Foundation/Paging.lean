import Mathlib.Data.List.Basic
import Mathlib.Data.List.Sort
import Mathlib.Order.Lattice

/-!
# Reading an ordered log in pages

Rows have keys in a linear order, and a cursor is a key that a reader has got to. When the rows
stand in strictly ascending order, a cursor cuts them in two (`upTo_append_after`): a reader that
always has what is up to its cursor, and takes from what is after it, gets each row once, as long
as new rows come after every cursor.
-/

namespace HappyView.Foundation.Paging

variable {α K : Type*} [LinearOrder K] (key : α → K)

def Ascending (rows : List α) : Prop := rows.Pairwise fun a b => key a < key b

def after (cursor : Option K) (rows : List α) : List α :=
  rows.filter fun row => cursor.all (· < key row)

def upTo (cursor : Option K) (rows : List α) : List α :=
  rows.filter fun row => !cursor.all (· < key row)

variable {key} {rows : List α} {cursor : Option K}

@[simp] theorem upTo_none : upTo key none rows = [] := by simp [upTo]

theorem mem_after {row : α} :
    row ∈ after key cursor rows ↔ row ∈ rows ∧ ∀ c ∈ cursor, c < key row := by
  cases cursor <;> simp [after]

theorem upTo_append_after (asc : Ascending key rows) :
    upTo key cursor rows ++ after key cursor rows = rows := by
  induction rows with
  | nil => rfl
  | cons row rows ih =>
    obtain ⟨first, asc⟩ := List.pairwise_cons.mp asc
    by_cases past : cursor.all (· < key row) = true
    · -- Every later row is past the cursor as well.
      have later : ∀ r ∈ rows, cursor.all (· < key r) = true := by
        intro r hr
        cases cursor with
        | none => rfl
        | some c =>
          simp only [Option.all_some, decide_eq_true_eq] at past ⊢
          exact lt_trans past (first r hr)
      have none : rows.filter (fun r => !cursor.all (· < key r)) = [] := by
        simpa using later
      have all : rows.filter (fun r => cursor.all (· < key r)) = rows := by
        simpa using later
      simp [upTo, after, past, none, all]
    · have := ih asc
      simp only [upTo, after] at this
      simp [upTo, after, past, this]

theorem upTo_append {new : List α} (past : ∀ row ∈ new, ∀ c ∈ cursor, c < key row) :
    upTo key cursor (rows ++ new) = upTo key cursor rows := by
  have none : new.filter (fun row => !cursor.all (· < key row)) = [] := by
    cases cursor with
    | none => simp
    | some c => simpa using past
  simp [upTo, none]

theorem upTo_of_le {c : K} (le : ∀ row ∈ rows, key row ≤ c) : upTo key (some c) rows = rows := by
  simpa [upTo] using le

theorem key_le_last {front : List α} {last : α} (asc : Ascending key (front ++ [last])) :
    ∀ row ∈ front ++ [last], key row ≤ key last := by
  obtain ⟨-, -, across⟩ := List.pairwise_append.mp asc
  intro row mem
  rcases List.mem_append.mp mem with before | same
  · exact le_of_lt (across row before last (by simp))
  · rw [List.mem_singleton.mp same]

theorem upTo_cut {front rest : List α} {last : α} (asc : Ascending key (front ++ last :: rest)) :
    upTo key (some (key last)) (front ++ last :: rest) = front ++ [last] := by
  rw [List.append_cons] at asc ⊢
  obtain ⟨upToLast, -, across⟩ := List.pairwise_append.mp asc
  have past : ∀ row ∈ rest, key last < key row := fun row => across last (by simp) row
  rw [upTo_append (by simpa using past)]
  exact upTo_of_le (key_le_last upToLast)

theorem after_key {front rest : List α} {last : α} (asc : Ascending key (front ++ last :: rest)) :
    after key (some (key last)) (front ++ last :: rest) = rest := by
  have whole : upTo key (some (key last)) (front ++ last :: rest) ++ _ = _ := upTo_append_after asc
  nth_rewrite 3 [List.append_cons] at whole
  rw [upTo_cut asc] at whole
  exact List.append_cancel_left whole

theorem upTo_last {page rest : List α} {last : α} (asc : Ascending key rows)
    (cut : after key cursor rows = page ++ last :: rest) :
    upTo key (some (key last)) rows = upTo key cursor rows ++ (page ++ [last]) := by
  have whole : upTo key cursor rows ++ after key cursor rows = rows := upTo_append_after asc
  have split : rows = (upTo key cursor rows ++ page) ++ last :: rest := by
    rw [cut] at whole
    simpa using whole.symm
  generalize upTo key cursor rows = front at split ⊢
  subst split
  simpa using upTo_cut asc

theorem exists_page {limit : Nat} (pos : 0 < limit) (longer : limit < rows.length) :
    ∃ front last rest, rows = front ++ last :: rest ∧ rows.take limit = front ++ [last] ∧
      limit = front.length + 1 ∧ rest ≠ [] := by
  obtain ⟨front, last, page⟩ : ∃ front last, rows.take limit = front ++ [last] := by
    refine (List.eq_nil_or_concat' _).resolve_left fun empty => ?_
    have := congrArg List.length empty
    simp only [List.length_take, List.length_nil] at this
    omega
  have size : limit = front.length + 1 := by
    have := congrArg List.length page
    simp at this
    omega
  refine ⟨front, last, rows.drop limit, ?_, page, size, by simpa using longer⟩
  rw [List.append_cons, ← page, List.take_append_drop]

/-! ## Rows in no order -/

variable (key) in
def sort (rows : List α) : List α := rows.insertionSort fun a b => key a ≤ key b

theorem ascending_sort (unique : rows.Pairwise fun a b => key a ≠ key b) :
    Ascending key (sort key rows) := by
  have ordered : (sort key rows).Pairwise fun a b => key a ≤ key b :=
    List.pairwise_insertionSort _ _
  have distinct : (sort key rows).Pairwise fun a b => key a ≠ key b :=
    (List.perm_insertionSort _ _).symm.pairwise unique fun differ => differ.symm
  exact (ordered.and distinct).imp fun both => lt_of_le_of_ne both.1 both.2

theorem sort_after (unique : rows.Pairwise fun a b => key a ≠ key b) :
    sort key (after key cursor rows) = after key cursor (sort key rows) := by
  have left : Ascending key (sort key (after key cursor rows)) :=
    ascending_sort (unique.sublist List.filter_sublist)
  have right : Ascending key (after key cursor (sort key rows)) :=
    (ascending_sort unique).sublist List.filter_sublist
  have same : (sort key (after key cursor rows)).Perm (after key cursor (sort key rows)) :=
    (List.perm_insertionSort _ _).trans ((List.perm_insertionSort _ _).symm.filter _)
  refine same.eq_of_pairwise (fun a b _ _ before behind => ?_) left right
  exact absurd before behind.not_gt

/-! ## Page after page -/

def page (limit : Nat) (rest : List α) : List α × Option α :=
  (rest.take limit, if limit < rest.length then (rest.take limit).getLast? else none)

variable (key) in
/-- Up to `fuel` pages of `limit` rows, each from the last row of the one before it, until one
has nothing behind it. -/
def readAll (limit : Nat) (rows : List α) : Nat → Option K → Option (List α)
  | 0, _ => none
  | fuel + 1, cursor =>
    match page limit (after key cursor rows) with
    | (found, none) => some found
    | (found, some last) => (readAll limit rows fuel (some (key last))).map (found ++ ·)

theorem exists_readAll (asc : Ascending key rows) {limit : Nat} (pos : 0 < limit)
    (cursor : Option K) :
    ∃ fuel, readAll key limit rows fuel cursor = some (after key cursor rows) := by
  induction left : (after key cursor rows).length using Nat.strong_induction_on
    generalizing cursor with
  | _ n ih =>
    by_cases longer : limit < (after key cursor rows).length
    · obtain ⟨front, last, rest, whole, first, -, -⟩ := exists_page pos longer
      have behind : after key (some (key last)) rows = rest := by
        have cut : upTo key cursor rows ++ after key cursor rows = rows := upTo_append_after asc
        rw [whole, ← List.append_assoc] at cut
        rw [← cut] at asc ⊢
        exact after_key asc
      have shorter : (after key (some (key last)) rows).length < n := by
        rw [behind, ← left, whole]
        simp
        omega
      obtain ⟨fuel, read⟩ := ih _ shorter _ rfl
      refine ⟨fuel + 1, ?_⟩
      simp only [readAll, page, if_pos longer, first, List.getLast?_concat, read, Option.map_some,
        behind]
      rw [whole, List.append_assoc, List.singleton_append]
    · refine ⟨1, ?_⟩
      simp only [readAll, page, if_neg longer]
      rw [List.take_of_length_le (by omega)]

end HappyView.Foundation.Paging
