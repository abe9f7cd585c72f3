import HappyView.Spaces.Oplog
import HappyView.Spaces.Writers

/-!
# Reading an oplog page by page

`list_ops` over the whole table: the rows of one author in one space, after the cursor, in the
order of `(rev, idx)`.

How texts are compared is the database's choice. All that is used of it is that the comparison is
a linear order and that texts that compare equal are equal.
-/

namespace HappyView.Spaces.OplogPages

open HappyView.Foundation Writers

structure OplogRow where
  id : String
  spaceId : String
  authorDid : String
  rev : String
  idx : Int32
  action : String
  collection : String
  rkey : String
  cid : Option String
  prev : Option String
  createdAt : String
  deriving DecidableEq

/-- The table, with the constraint of its schema on the actions. -/
structure Table where
  rows : List OplogRow
  checked : ∀ row ∈ rows, row.action ∈ ["create", "update", "delete"]

/-- An entry as it is returned. Its value is left out here. -/
structure OplogEntry where
  id : String
  spaceId : String
  authorDid : String
  rev : String
  idx : Int32
  action : OplogAction
  collection : String
  rkey : String
  cid : Option String
  prev : Option String
  createdAt : String
  deriving DecidableEq

def parseAction (s : String) : Option OplogAction :=
  if s = "create" then some .create
  else if s = "update" then some .update
  else if s = "delete" then some .delete
  else none

def OplogRow.toEntry (row : OplogRow) : Except AppError OplogEntry := do
  let action ← require (.internal ("invalid oplog action: " ++ row.action)) (parseAction row.action)
  return ⟨row.id, row.spaceId, row.authorDid, row.rev, row.idx, action, row.collection, row.rkey,
    row.cid, row.prev, row.createdAt⟩

/-- The page, and the cursor of its last row if there are more rows than the limit. -/
def paginate {α : Type} (rows : List α) (limit : Int64) (key : α → String × Int32) :
    List α × Option String :=
  let hasMore : Bool := limit.toInt < rows.length
  let page := rows.take (max limit.toInt 0).toNat
  let next := if hasMore then
      page.getLast?.map fun r => encodeCursor (key r).1 (key r).2.toInt
    else none
  (page, next)

/-- The `LIMIT` clause. A negative one is no limit to SQLite and an error to Postgres. -/
def limited {α : Type} (backend : DatabaseBackend) (bound : Int64) (rows : List α) :
    Except AppError (List α) :=
  if 0 ≤ bound.toInt then .ok (rows.take bound.toInt.toNat)
  else match backend with
    | .sqlite => .ok rows
    | .postgres => .error (.internal
      "failed to list oplog entries: error returned from database: LIMIT must not be negative")

section

variable {K : Type} [LinearOrder K] (collate : String → K)

/-- `rev > ? OR (rev = ? AND idx > ?)`. -/
def OplogRow.isAfter (row : OplogRow) (rev : String) (idx : Int) : Bool :=
  collate rev < collate row.rev || (row.rev == rev && idx < row.idx.toInt)

/-- `ORDER BY rev, idx`. -/
def OplogRow.key (row : OplogRow) : K ×ₗ Int := toLex (collate row.rev, row.idx.toInt)

def listOps (backend : DatabaseBackend) (table : Table) (spaceId authorDid : String)
    (cursor : Option String) (limit : Int64) :
    Except AppError (List OplogEntry × Option String) := do
  let selected := table.rows.filter fun row =>
    row.spaceId == spaceId && row.authorDid == authorDid &&
      (cursor.map parseCursor).all fun (rev, idx) => row.isAfter collate rev idx
  let sorted := selected.insertionSort fun a b => a.key collate ≤ b.key collate
  -- One row more than the page shows whether another page exists.
  let rows ← limited backend (limit + 1) sorted
  let (rows, next) := paginate rows limit fun row => (row.rev, row.idx)
  let entries ← rows.mapM OplogRow.toEntry
  return (entries, next)

/-- Following the cursors for up to `fuel` pages; `none` when there is a cursor even then. -/
def followOps (backend : DatabaseBackend) (table : Table) (spaceId authorDid : String)
    (limit : Int64) : Nat → Option String → Option (Except AppError (List OplogEntry))
  | 0, _ => none
  | fuel + 1, cursor =>
    match listOps collate backend table spaceId authorDid cursor limit with
    | .error e => some (.error e)
    | .ok (entries, none) => some (.ok entries)
    | .ok (entries, some next) =>
      (followOps backend table spaceId authorDid limit fuel (some next)).map
        (·.map (entries ++ ·))

end

/-! ## Cursors -/

theorem toList_toString_neg (n : Nat) :
    (toString (-((n + 1 : Nat) : Int))).toList = '-' :: Nat.toDigits 10 (n + 1) := by
  show ("-" ++ Nat.repr (n + 1)).toList = _
  simp [Nat.repr_eq_ofList_toDigits]

theorem parseI32_toString_toInt (idx : Int32) : parseI32 (toString idx.toInt) = some idx.toInt := by
  have low := Int32.le_toInt idx
  have high := Int32.toInt_lt idx
  rcases Int.eq_nat_or_neg idx.toInt with ⟨n, value | value⟩
  · rw [value]
    exact parseI32_toString (by omega)
  · rcases n with _ | n
    · rw [value]
      rfl
    · have text : (toString idx.toInt).toList = '-' :: Nat.toDigits 10 (n + 1) := by
        rw [value]
        exact toList_toString_neg n
      rw [parseI32, text]
      simp only [number_toDigits, Option.bind_some]
      rw [if_pos (by omega), value]

theorem parseCursor_encodeCursor_toInt (rev : String) (idx : Int32) :
    parseCursor (encodeCursor rev idx.toInt) = (rev, idx.toInt) := by
  have noColon : ':' ∉ (toString idx.toInt).toList := by
    rcases Int.eq_nat_or_neg idx.toInt with ⟨n, value | value⟩
    · rw [value]
      exact fun mem => absurd (isDigit_of_mem_toString mem) (by decide)
    · rcases n with _ | n
      · rw [value]
        decide
      · rw [value, toList_toString_neg]
        intro mem
        rcases List.mem_cons.mp mem with colon | digit
        · exact absurd colon (by decide)
        · exact absurd (isDigit_of_mem_toDigits digit) (by decide)
  simp only [parseCursor, encodeCursor, rsplitColon_append noColon, parseI32_toString_toInt]

/-! ## Pages -/

section

variable {K : Type} [LinearOrder K] {collate : String → K} {backend : DatabaseBackend}
  {table : Table} {spaceId authorDid : String} {limit : Int64}

def Table.ops (table : Table) (spaceId authorDid : String) : List OplogRow :=
  table.rows.filter fun row => row.spaceId == spaceId && row.authorDid == authorDid

def Unique (rows : List OplogRow) : Prop :=
  rows.Pairwise fun a b => (a.rev, a.idx) ≠ (b.rev, b.idx)

omit [LinearOrder K] in
theorem pairwise_key_ne (injective : Function.Injective collate) {rows : List OplogRow}
    (unique : Unique rows) : rows.Pairwise fun a b => a.key collate ≠ b.key collate := by
  refine unique.imp fun {a b} differ same => differ ?_
  obtain ⟨revs, idxs⟩ := Prod.ext_iff.mp (toLex_inj.mp same)
  exact Prod.ext (injective revs) (Int32.toInt_inj.mp idxs)

theorem isAfter_iff (injective : Function.Injective collate) {row : OplogRow} {rev : String}
    {idx : Int} :
    row.isAfter collate rev idx = true ↔ toLex (collate rev, idx) < row.key collate := by
  rw [OplogRow.key, Prod.Lex.toLex_lt_toLex]
  simp only [OplogRow.isAfter, Bool.or_eq_true, Bool.and_eq_true, decide_eq_true_eq, beq_iff_eq]
  rw [injective.eq_iff, eq_comm]

variable (collate) in
def position (cursor : String) : K ×ₗ Int :=
  toLex (collate (parseCursor cursor).1, (parseCursor cursor).2)

variable (collate) in
def toCome (table : Table) (spaceId authorDid : String) (cursor : Option String) :
    List OplogRow :=
  Paging.after (OplogRow.key collate) (cursor.map (position collate))
    (Paging.sort (OplogRow.key collate) (table.ops spaceId authorDid))

theorem sorted_selected (injective : Function.Injective collate)
    (unique : Unique (table.ops spaceId authorDid)) (cursor : Option String) :
    (table.rows.filter fun row => row.spaceId == spaceId && row.authorDid == authorDid &&
      (cursor.map parseCursor).all fun (rev, idx) => row.isAfter collate rev idx).insertionSort
        (fun a b => a.key collate ≤ b.key collate) =
      toCome collate table spaceId authorDid cursor := by
  rw [toCome, ← Paging.sort_after (pairwise_key_ne injective unique), Paging.sort, Paging.after,
    Table.ops, List.filter_filter]
  congr 2
  funext row
  rw [Bool.and_comm]
  cases cursor with
  | none => rfl
  | some c =>
    congr 1
    rw [Bool.eq_iff_iff, Option.map_some, Option.map_some, Option.all_some, Option.all_some,
      decide_eq_true_eq]
    exact isAfter_iff injective

theorem exists_toEntry {row : OplogRow} (mem : row ∈ table.rows) :
    ∃ entry, row.toEntry = .ok entry := by
  have action := table.checked row mem
  simp only [List.mem_cons, List.not_mem_nil, or_false] at action
  rcases action with same | same | same
  all_goals
    rw [OplogRow.toEntry, same]
    exact ⟨_, rfl⟩

theorem mapM_toEntry {f : OplogRow → OplogEntry} {rows : List OplogRow}
    (all : ∀ row ∈ rows, row.toEntry = .ok (f row)) :
    rows.mapM OplogRow.toEntry = .ok (rows.map f) := by
  induction rows with
  | nil => rfl
  | cons row rows ih =>
    rw [List.mapM_cons, all row (by simp), ih fun r mem => all r (by simp [mem])]
    rfl

theorem toEntry_eq_ok {row : OplogRow} {entry : OplogEntry} (read : row.toEntry = .ok entry) :
    entry.rev = row.rev ∧ entry.idx = row.idx := by
  obtain ⟨action, -, built⟩ := bind_eq_ok.mp read
  cases built
  exact ⟨rfl, rfl⟩

theorem mem_toCome (injective : Function.Injective collate) {cursor : Option String}
    {row : OplogRow} :
    row ∈ toCome collate table spaceId authorDid cursor ↔ row ∈ table.ops spaceId authorDid ∧
      ((cursor.map parseCursor).all fun (rev, idx) => row.isAfter collate rev idx) = true := by
  rw [toCome, Paging.mem_after, Paging.sort, (List.perm_insertionSort _ _).mem_iff]
  refine and_congr_right fun _ => ?_
  cases cursor with
  | none => simp
  | some c =>
    rw [Option.map_some, Option.map_some, Option.all_some, isAfter_iff injective]
    simp [position]

theorem mem_of_mem_toCome {cursor : Option String} {row : OplogRow}
    (mem : row ∈ toCome collate table spaceId authorDid cursor) : row ∈ table.rows := by
  have found := (Paging.mem_after.mp mem).1
  exact (List.mem_filter.mp ((List.perm_insertionSort _ _).mem_iff.mp found)).1

theorem listOps_eq (injective : Function.Injective collate)
    (unique : Unique (table.ops spaceId authorDid)) (positive : 1 ≤ limit.toInt)
    (room : limit.toInt < 2 ^ 63 - 1) {f : OplogRow → OplogEntry}
    (all : ∀ row ∈ table.rows, row.toEntry = .ok (f row)) (cursor : Option String) :
    listOps collate backend table spaceId authorDid cursor limit =
      let (page, last) := Paging.page limit.toInt.toNat
        (toCome collate table spaceId authorDid cursor)
      .ok (page.map f, last.map fun row => encodeCursor row.rev row.idx.toInt) := by
  have more : (limit + 1).toInt = limit.toInt + 1 := by
    rw [Int64.toInt_add]
    exact Int.bmod_eq_of_le (by simp; omega) (by simp; omega)
  have known : ∀ row ∈ toCome collate table spaceId authorDid cursor,
      row.toEntry = .ok (f row) := fun row mem => all row (mem_of_mem_toCome mem)
  simp only [listOps, sorted_selected injective unique, limited, more]
  generalize toCome collate table spaceId authorDid cursor = rest at known
  obtain ⟨n, size⟩ : ∃ n : Nat, limit.toInt = n := ⟨limit.toInt.toNat, by omega⟩
  have bound : ((n : Int) + 1).toNat = n + 1 := by omega
  have kept : (max (n : Int) 0).toNat = n := by omega
  rw [size, if_pos (by omega), bound]
  have cut : (rest.take (n + 1)).take n = rest.take n := by
    rw [List.take_take, Nat.min_eq_left (by omega)]
  have longer : ((n : Int) < (rest.take (n + 1)).length) ↔ n < rest.length := by
    rw [List.length_take]
    omega
  simp only [bind, Except.bind, paginate, Paging.page, size, kept, Int.toNat_natCast, cut, longer,
    mapM_toEntry fun row mem => known row (List.mem_of_mem_take mem), pure, Except.pure,
    decide_eq_true_eq]
  split <;> rfl

theorem followOps_eq (injective : Function.Injective collate)
    (unique : Unique (table.ops spaceId authorDid)) (positive : 1 ≤ limit.toInt)
    (room : limit.toInt < 2 ^ 63 - 1) {f : OplogRow → OplogEntry}
    (all : ∀ row ∈ table.rows, row.toEntry = .ok (f row)) {fuel : Nat} {cursor : Option String}
    {rows : List OplogRow}
    (read : Paging.readAll (OplogRow.key collate) limit.toInt.toNat
      (Paging.sort (OplogRow.key collate) (table.ops spaceId authorDid)) fuel
      (cursor.map (position collate)) = some rows) :
    followOps collate backend table spaceId authorDid limit fuel cursor =
      some (.ok (rows.map f)) := by
  induction fuel generalizing cursor rows with
  | zero => cases read
  | succ fuel ih =>
    rw [followOps, listOps_eq injective unique positive room all]
    rw [Paging.readAll, ← toCome] at read
    split at read
    · rename_i found ended
      cases read
      rw [ended]
      rfl
    · rename_i found last more
      obtain ⟨later, rest, rfl⟩ := Option.map_eq_some_iff.mp read
      have at_last : some (last.key collate) =
          (some (encodeCursor last.rev last.idx.toInt)).map (position collate) := by
        rw [Option.map_some, position, parseCursor_encodeCursor_toInt]
        rfl
      rw [at_last] at rest
      rw [more]
      simp only [Option.map_some, ih rest, Except.map, List.map_append]

end

/-- Following the cursors of `list_ops` from any start on, with any limit of at least one, ends
with the operations after the start, each once, in the order of `(rev, idx)`. And the cursor of
every row is read back. -/
theorem oplog_pages_complete {K : Type} [LinearOrder K] (collate : String → K)
    (injective : Function.Injective collate) (backend : DatabaseBackend) (table : Table)
    (spaceId authorDid : String) (unique : Unique (table.ops spaceId authorDid))
    (start : Option String) (limit : Int64) (positive : 1 ≤ limit.toInt)
    (room : limit.toInt < 2 ^ 63 - 1) :
    (∃ fuel entries,
      followOps collate backend table spaceId authorDid limit fuel start = some (.ok entries) ∧
      (entries.Pairwise fun a b =>
        toLex (collate a.rev, a.idx.toInt) < toLex (collate b.rev, b.idx.toInt)) ∧
      ∀ entry, entry ∈ entries ↔ ∃ row ∈ table.ops spaceId authorDid, row.toEntry = .ok entry ∧
        (start.map parseCursor).all fun (rev, idx) => row.isAfter collate rev idx) ∧
    ∀ rev (idx : Int32), parseCursor (encodeCursor rev idx.toInt) = (rev, idx.toInt) := by
  refine ⟨?_, parseCursor_encodeCursor_toInt⟩
  have : Nonempty OplogEntry := ⟨"", "", "", "", 0, .create, "", "", none, none, ""⟩
  choose! f all using fun row (mem : row ∈ table.rows) => exists_toEntry mem
  have ascending := Paging.ascending_sort (pairwise_key_ne injective unique)
  have atLeast : 0 < limit.toInt.toNat := by omega
  obtain ⟨fuel, read⟩ := Paging.exists_readAll ascending atLeast (start.map (position collate))
  refine ⟨fuel, _, followOps_eq injective unique positive room all read, ?_, ?_⟩
  · have inOrder : (toCome collate table spaceId authorDid start).Pairwise
        fun a b => a.key collate < b.key collate := ascending.sublist List.filter_sublist
    rw [List.pairwise_map]
    refine inOrder.imp_of_mem fun {a b} memA memB less => ?_
    obtain ⟨revA, idxA⟩ := toEntry_eq_ok (all a (mem_of_mem_toCome memA))
    obtain ⟨revB, idxB⟩ := toEntry_eq_ok (all b (mem_of_mem_toCome memB))
    rwa [revA, idxA, revB, idxB]
  · intro entry
    rw [List.mem_map]
    constructor
    · rintro ⟨row, mem, rfl⟩
      obtain ⟨own, later⟩ := (mem_toCome injective).mp mem
      exact ⟨row, own, all row (mem_of_mem_toCome mem), later⟩
    · rintro ⟨row, own, read, later⟩
      have mem : row ∈ toCome collate table spaceId authorDid start :=
        (mem_toCome injective).mpr ⟨own, later⟩
      exact ⟨row, mem, Except.ok.inj ((all row (mem_of_mem_toCome mem)).symm.trans read)⟩

def twoWrites : Table where
  rows := [⟨"4", "s", "did:plc:a", "r2", 1, "delete", "app.note", "b", none, some "c2", "t"⟩,
    ⟨"1", "s", "did:plc:a", "r1", 0, "create", "app.note", "a", some "c1", none, "t"⟩,
    ⟨"2", "s", "did:plc:a", "r1", 1, "create", "app.note", "b", some "c2", none, "t"⟩,
    ⟨"3", "s", "did:plc:a", "r2", 0, "update", "app.note", "a", some "c3", some "c1", "t"⟩]
  checked := by simp

/-- From the first revision's first operation on, one at a time. -/
theorem oplog_pages_complete_twoWrites :
    Unique (twoWrites.ops "s" "did:plc:a") ∧ ∃ fuel entries,
      followOps id .sqlite twoWrites "s" "did:plc:a" 1 fuel (some "r1:0") = some (.ok entries) ∧
      entries.Pairwise fun a b => toLex (a.rev, a.idx.toInt) < toLex (b.rev, b.idx.toInt) := by
  have unique : Unique (twoWrites.ops "s" "did:plc:a") := by
    simp [Unique, Table.ops, twoWrites]
  obtain ⟨⟨fuel, entries, followed, inOrder, -⟩, -⟩ :=
    oplog_pages_complete id Function.injective_id .sqlite twoWrites "s" "did:plc:a" unique
      (some "r1:0") 1 (by decide) (by decide)
  exact ⟨unique, fuel, entries, followed, inOrder⟩

end HappyView.Spaces.OplogPages
