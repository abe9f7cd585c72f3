import HappyView.Foundation.Paging
import HappyView.Foundation.Text
import Mathlib.Data.List.Sort
import Mathlib.Data.Prod.Lex
import Mathlib.Data.String.Basic

/-!
# The record oplog

Every committed write appends its operations to the author's oplog, numbered within the
write and all under the write's revision. `list_ops` returns them in the order of
`(rev, idx)`, one page at a time, with a cursor while there is more.

The rows are those of one author in one space.
-/

namespace HappyView.Spaces

open HappyView.Foundation

inductive OplogAction where
  | create
  | update
  | delete
  deriving DecidableEq

structure AppliedOp where
  action : OplogAction
  collection : String
  rkey : String
  newCid : Option String
  oldCid : Option String
  deriving DecidableEq

structure OplogEntry where
  rev : String
  idx : Int
  op : AppliedOp
  deriving DecidableEq

def writeEntries (rev : String) (ops : List AppliedOp) : List OplogEntry :=
  ops.zipIdx.map fun (op, idx) => ⟨rev, idx, op⟩

/-! ## Cursors -/

def i32Max : Int := 2147483647

def encodeCursor (rev : String) (idx : Int) : String := rev ++ ":" ++ toString idx

def parseI32 (s : String) : Option Int :=
  let number (digits : List Char) : Option Nat :=
    if digits.isEmpty || !digits.all Char.isDigit then none else some (Nat.ofDigitChars 10 digits 0)
  match s.toList with
  | '-' :: digits => (number digits).bind fun n => if n ≤ 2147483648 then some (-n) else none
  | '+' :: digits => (number digits).bind fun n => if n ≤ 2147483647 then some n else none
  | digits => (number digits).bind fun n => if n ≤ 2147483647 then some n else none

def rsplitColon (s : String) : Option (String × String) :=
  (Text.splitOnce (· == ':') (String.ofList s.toList.reverse)).map fun (back, front) =>
    (String.ofList front.toList.reverse, String.ofList back.toList.reverse)

/-- A revision by itself stands for its end. -/
def parseCursor (cursor : String) : String × Int :=
  match rsplitColon cursor with
  | some (rev, idx) =>
    match parseI32 idx with
    | some idx => (rev, idx)
    | none => (cursor, i32Max)
  | none => (cursor, i32Max)

/-! ## Pages -/

/-- The page, and the cursor of its last row if the query found one row more. -/
def paginate (rows : List OplogEntry) (limit : Nat) : List OplogEntry × Option String :=
  let page := rows.take limit
  let next := if limit < rows.length then
      page.getLast?.map fun entry => encodeCursor entry.rev entry.idx
    else none
  (page, next)

/-- `rev > ? OR (rev = ? AND idx > ?)`. -/
def OplogEntry.isAfter (entry : OplogEntry) (rev : String) (idx : Int) : Bool :=
  rev < entry.rev || (entry.rev == rev && idx < entry.idx)

/-- `ORDER BY rev, idx`. -/
def OplogEntry.key (entry : OplogEntry) : String ×ₗ Int := toLex (entry.rev, entry.idx)

def selectOps (rows : List OplogEntry) (cursor : Option (String × Int)) : List OplogEntry :=
  rows.filter fun entry : OplogEntry => cursor.all fun (rev, idx) => entry.isAfter rev idx

/-- One row more than the page is fetched to see whether there is another page. -/
def listOps (rows : List OplogEntry) (cursor : Option String) (limit : Nat) :
    List OplogEntry × Option String :=
  let selected := selectOps rows (cursor.map parseCursor)
  let sorted := selected.insertionSort fun a b : OplogEntry => a.key ≤ b.key
  paginate (sorted.take (limit + 1)) limit

/-! ## Cursors read back -/

theorem toString_toList (n : Nat) : (toString (n : Int)).toList = Nat.toDigits 10 n := by
  show (Nat.repr n).toList = _
  rw [Nat.repr_eq_ofList_toDigits, String.toList_ofList]

theorem isDigit_of_mem_toDigits {n : Nat} {c : Char} (h : c ∈ Nat.toDigits 10 n) :
    c.isDigit = true :=
  Nat.isDigit_of_mem_toDigits (by omega) (by omega) h

theorem isDigit_of_mem_toString {n : Nat} {c : Char} (h : c ∈ (toString (n : Int)).toList) :
    c.isDigit = true := by
  rw [toString_toList] at h
  exact isDigit_of_mem_toDigits h

theorem number_toDigits (n : Nat) :
    (if (Nat.toDigits 10 n).isEmpty || !(Nat.toDigits 10 n).all Char.isDigit then none
      else some (Nat.ofDigitChars 10 (Nat.toDigits 10 n) 0)) = some n := by
  have digits : ∀ c ∈ Nat.toDigits 10 n, c.isDigit = true := fun c => isDigit_of_mem_toDigits
  rw [if_neg (by simpa [Nat.toDigits_ne_nil] using digits), Nat.ofDigitChars_ten_toDigits]

theorem parseI32_toString {n : Nat} (h : n ≤ 2147483647) :
    parseI32 (toString (n : Int)) = some (n : Int) := by
  have digits : ∀ c ∈ Nat.toDigits 10 n, c.isDigit = true := fun c => isDigit_of_mem_toDigits
  unfold parseI32
  rw [toString_toList]
  split
  · rename_i rest same
    exact absurd (digits '-' (by simp [same])) (by decide)
  · rename_i rest same
    exact absurd (digits '+' (by simp [same])) (by decide)
  · simp only [number_toDigits, Option.bind_some, if_pos h]

theorem rsplitColon_append {rev idx : String} (h : ':' ∉ idx.toList) :
    rsplitColon (rev ++ ":" ++ idx) = some (rev, idx) := by
  have reversed : (rev ++ ":" ++ idx).toList.reverse =
      idx.toList.reverse ++ ':' :: rev.toList.reverse := by simp
  rw [rsplitColon, reversed, Text.splitOnce_append _ (by simp)]
  · simp
  · intro c mem
    have : c ≠ ':' := by
      rintro rfl
      exact h (by simpa using mem)
    simpa using this

theorem rsplitColon_eq_none {s : String} (h : ':' ∉ s.toList) : rsplitColon s = none := by
  rw [rsplitColon, Text.splitOnce_eq_none, Option.map_none]
  intro c mem
  have : c ≠ ':' := by
    rintro rfl
    exact h (by simpa using mem)
  simpa using this

theorem parseCursor_encodeCursor (rev : String) {n : Nat} (h : n ≤ 2147483647) :
    parseCursor (encodeCursor rev n) = (rev, (n : Int)) := by
  have noColon : ':' ∉ (toString (n : Int)).toList := fun mem =>
    absurd (isDigit_of_mem_toString mem) (by decide)
  simp only [parseCursor, encodeCursor, rsplitColon_append noColon, parseI32_toString h]

theorem parseCursor_rev {rev : String} (h : ':' ∉ rev.toList) :
    parseCursor rev = (rev, i32Max) := by
  simp [parseCursor, rsplitColon_eq_none h]

/-! ## Pages of an ordered log -/

theorem isAfter_iff {entry : OplogEntry} {rev : String} {idx : Int} :
    entry.isAfter rev idx = true ↔ toLex (rev, idx) < entry.key := by
  rw [OplogEntry.key, Prod.Lex.toLex_lt_toLex]
  simp only [OplogEntry.isAfter, Bool.or_eq_true, Bool.and_eq_true, decide_eq_true_eq, beq_iff_eq]
  have sides : entry.rev = rev ↔ rev = entry.rev := eq_comm
  rw [sides]

theorem selectOps_eq (rows : List OplogEntry) (cursor : Option (String × Int)) :
    selectOps rows cursor = Paging.after OplogEntry.key (cursor.map toLex) rows := by
  refine List.filter_congr fun entry _ => ?_
  cases cursor with
  | none => rfl
  | some c =>
    rw [Bool.eq_iff_iff, Option.map_some, Option.all_some, Option.all_some, decide_eq_true_eq]
    exact isAfter_iff

theorem listOps_eq {rows : List OplogEntry} (asc : Paging.Ascending OplogEntry.key rows)
    (cursor : Option String) (limit : Nat) :
    listOps rows cursor limit = paginate
      ((Paging.after OplogEntry.key (cursor.map (toLex ∘ parseCursor)) rows).take (limit + 1))
      limit := by
  have sorted : (Paging.after OplogEntry.key (cursor.map (toLex ∘ parseCursor)) rows).Pairwise
      fun a b => a.key ≤ b.key :=
    (asc.imp le_of_lt).sublist List.filter_sublist
  rw [listOps, selectOps_eq, Option.map_map, sorted.insertionSort_eq]

end HappyView.Spaces
