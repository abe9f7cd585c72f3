import HappyView.Error
import HappyView.Foundation.Bytes
import HappyView.Foundation.Framing

/-!
# Blocks of an archived segment

A block holds its events in columns: the number of events, nine columns of fixed width, and then
the texts and payloads, column by column, whose lengths some of those columns give.
-/

namespace HappyView.Backfill.Segment

open HappyView.Foundation HappyView.Foundation.Bytes

/-- `64 << 20`. -/
def maxDecodedBlock : Nat := 67108864

def maxBlockEvents : Nat := 262144

structure Row where
  seq : UInt64
  witnessedAt : Int64
  indexedAt : Int64
  kind : UInt8
  collection : String
  did : String
  rkey : String
  rev : String
  payload : List UInt8
  deriving DecidableEq

abbrev Reader := StateT (List UInt8) (Except String)

def take (n : Nat) : Reader (List UInt8) := Framing.take "block is shorter than its columns" n

/-- The numbers of a column, of `width` bytes each. -/
def words (width : Nat) : Nat → List UInt8 → List Nat
  | 0, _ => []
  | n + 1, bytes => ofLittle (bytes.take width) :: words width n (bytes.drop width)

def column (width n : Nat) : Reader (List Nat) := do
  return words width n (← take (width * n))

def text (length : Nat) : Reader String := do
  match fromUtf8 (← take length) with
  | some text => return text
  | none => throw "identifier is not UTF-8"

structure Columns where
  count : Nat
  seqs : List Nat
  witnessed : List Nat
  indexed : List Nat
  kinds : List Nat
  collectionLens : List Nat
  didLens : List Nat
  rkeyLens : List Nat
  revLens : List Nat
  payloadLens : List Nat
  collections : List String
  dids : List String
  rkeys : List String
  revs : List String
  payloads : List (List UInt8)

def readColumnsOf (n : Nat) : Reader Columns := do
  let seqs ← column 8 n
  let witnessed ← column 8 n
  let indexed ← column 8 n
  let kinds ← column 1 n
  let collectionLens ← column 1 n
  let didLens ← column 2 n
  let rkeyLens ← column 1 n
  let revLens ← column 1 n
  let payloadLens ← column 4 n
  let collections ← Framing.each text collectionLens
  let dids ← Framing.each text didLens
  let rkeys ← Framing.each text rkeyLens
  let revs ← Framing.each text revLens
  let payloads ← Framing.each take payloadLens
  return ⟨n, seqs, witnessed, indexed, kinds, collectionLens, didLens, rkeyLens, revLens,
    payloadLens, collections, dids, rkeys, revs, payloads⟩

def readColumns : Reader Columns := do
  let n := ofLittle (← take 4)
  if n > maxBlockEvents then throw ("block claims " ++ toString n ++ " events")
  else readColumnsOf n

def Columns.row (columns : Columns) (i : Nat) : Row where
  seq := .ofNat (columns.seqs.getD i 0)
  witnessedAt := (UInt64.ofNat (columns.witnessed.getD i 0)).toInt64
  indexedAt := (UInt64.ofNat (columns.indexed.getD i 0)).toInt64
  kind := .ofNat (columns.kinds.getD i 0)
  collection := columns.collections.getD i ""
  did := columns.dids.getD i ""
  rkey := columns.rkeys.getD i ""
  rev := columns.revs.getD i ""
  payload := columns.payloads.getD i []

def Columns.rows (columns : Columns) : List Row := (List.range columns.count).map columns.row

/-- A stream decoder of zstd: an error if there is no frame, or the bytes it gives and the error
it ends with, if any. -/
structure Zstd where
  decoder : List UInt8 → Except String (List UInt8 × Option String)

def readCapped (zstd : Zstd) (frame : List UInt8) (cap : Nat) : Except String (List UInt8) :=
  match zstd.decoder frame with
  | .error e => .error ("block is not a zstd frame: " ++ e)
  | .ok (bytes, failure) =>
    if cap + 1 ≤ bytes.length then .ok (bytes.take (cap + 1))
    else match failure with
      | some e => .error ("block does not decompress: " ++ e)
      | none => .ok bytes

def decompressCapped (zstd : Zstd) (frame : List UInt8) : Except String (List UInt8) := do
  let block ← readCapped zstd frame maxDecodedBlock
  if block.length > maxDecodedBlock then
    throw ("block decompresses to more than " ++ toString maxDecodedBlock ++ " bytes")
  return block

def decodeBlock (zstd : Zstd) (frame : List UInt8) : Except String (List Row) := do
  let block ← decompressCapped zstd frame
  let (columns, rest) ← readColumns block
  if rest.length ≠ 0 then throw (toString rest.length ++ " trailing bytes after the block")
  return columns.rows

/-! ## The layout -/

def layout (rows : List Row) : List UInt8 :=
  little 4 rows.length ++
    rows.flatMap (fun row => little 8 row.seq.toNat) ++
    rows.flatMap (fun row => little 8 row.witnessedAt.toUInt64.toNat) ++
    rows.flatMap (fun row => little 8 row.indexedAt.toUInt64.toNat) ++
    rows.flatMap (fun row => little 1 row.kind.toNat) ++
    rows.flatMap (fun row => little 1 (utf8 row.collection).length) ++
    rows.flatMap (fun row => little 2 (utf8 row.did).length) ++
    rows.flatMap (fun row => little 1 (utf8 row.rkey).length) ++
    rows.flatMap (fun row => little 1 (utf8 row.rev).length) ++
    rows.flatMap (fun row => little 4 row.payload.length) ++
    rows.flatMap (fun row => utf8 row.collection) ++
    rows.flatMap (fun row => utf8 row.did) ++
    rows.flatMap (fun row => utf8 row.rkey) ++
    rows.flatMap (fun row => utf8 row.rev) ++
    rows.flatMap fun row => row.payload

structure Row.Fits (row : Row) : Prop where
  collection : (utf8 row.collection).length < 2 ^ 8
  did : (utf8 row.did).length < 2 ^ 16
  rkey : (utf8 row.rkey).length < 2 ^ 8
  rev : (utf8 row.rev).length < 2 ^ 8
  payload : row.payload.length < 2 ^ 32

/-! ## Columns -/

theorem exact_take (n : Nat) :
    Framing.Exact (take n) id fun bytes => bytes.length = n := Framing.exact_take _ n

theorem words_flatMap {width : Nat} {ns : List Nat} (small : ∀ n ∈ ns, n < 256 ^ width) :
    words width ns.length (ns.flatMap (little width)) = ns := by
  induction ns with
  | nil => rfl
  | cons n ns ih =>
    obtain ⟨first, others⟩ := List.forall_mem_cons.mp small
    rw [List.flatMap_cons, List.length_cons, words, List.take_left' (length_little _ _),
      List.drop_left' (length_little _ _), ofLittle_little first, ih others]

theorem flatMap_words {width n : Nat} {bytes : List UInt8} (length : bytes.length = width * n) :
    (words width n bytes).flatMap (little width) = bytes := by
  induction n generalizing bytes with
  | zero =>
    rw [Nat.mul_zero, List.length_eq_zero_iff] at length
    rw [length]
    rfl
  | succ n ih =>
    have front : (bytes.take width).length = width := by
      rw [List.length_take, length, Nat.mul_succ]
      omega
    have rest : (bytes.drop width).length = width * n := by
      rw [List.length_drop, length, Nat.mul_succ]
      omega
    have first := little_ofLittle (bytes.take width)
    rw [front] at first
    rw [words, List.flatMap_cons, first, ih rest, List.take_append_drop]

theorem length_words (width n : Nat) (bytes : List UInt8) : (words width n bytes).length = n := by
  induction n generalizing bytes with
  | zero => rfl
  | succ n ih => rw [words, List.length_cons, ih]

theorem words_lt {width n : Nat} {bytes : List UInt8} :
    ∀ x ∈ words width n bytes, x < 256 ^ width := by
  induction n generalizing bytes with
  | zero => simp [words]
  | succ n ih =>
    refine List.forall_mem_cons.mpr ⟨?_, ih⟩
    have bound := ofLittle_lt (bytes.take width)
    refine bound.trans_le (Nat.pow_le_pow_right (by omega) ?_)
    rw [List.length_take]
    omega

theorem exact_column (width n : Nat) :
    Framing.Exact (column width n) (fun ns => ns.flatMap (little width))
      fun ns => ns.length = n ∧ ∀ x ∈ ns, x < 256 ^ width := by
  refine (exact_take (width * n)).map (fun bytes length => ?_) fun ns fits => ?_
  · exact ⟨⟨length_words .., words_lt⟩, flatMap_words length⟩
  · obtain ⟨rfl, small⟩ := fits
    refine ⟨?_, words_flatMap small⟩
    show (ns.flatMap (little width)).length = width * ns.length
    simp [List.length_flatMap, Nat.mul_comm]

theorem exact_text (length : Nat) :
    Framing.Exact (text length) utf8 fun s => (utf8 s).length = length ∧ True where
  reads s rest fits := by
    refine Framing.bind_eq_ok.mpr ⟨utf8 s, rest, (exact_take length).reads _ _ fits.1, ?_⟩
    rw [fromUtf8_utf8]
    rfl
  writes input s rest read := by
    obtain ⟨bytes, mid, taken, decoded⟩ := Framing.bind_eq_ok.mp read
    obtain ⟨fits, rfl⟩ := (exact_take length).writes _ _ _ taken
    cases found : fromUtf8 bytes with
    | none =>
      rw [found] at decoded
      cases decoded
    | some t =>
      rw [found] at decoded
      cases decoded
      rw [fromUtf8_eq_some] at found
      subst found
      exact ⟨⟨fits, trivial⟩, rfl⟩

theorem exact_texts (lengths : List Nat) :
    Framing.Exact (Framing.each text lengths) (fun texts => texts.flatMap utf8)
      fun texts => texts.map (fun s => (utf8 s).length) = lengths ∧ ∀ s ∈ texts, True :=
  Framing.exact_each exact_text lengths

theorem exact_payloads (lengths : List Nat) :
    Framing.Exact (Framing.each take lengths) (fun payloads => payloads.flatMap id)
      fun payloads => payloads.map List.length = lengths ∧ ∀ s ∈ payloads, True :=
  Framing.exact_each (fun length =>
    ⟨fun bytes rest fits => (exact_take length).reads bytes rest fits.1,
      fun input bytes rest read =>
      ((exact_take length).writes input bytes rest read).imp_left fun fits => ⟨fits, trivial⟩⟩)
    lengths

namespace Columns

def layout (columns : Columns) : List UInt8 :=
  little 4 columns.count ++ (columns.seqs.flatMap (little 8) ++
    (columns.witnessed.flatMap (little 8) ++ (columns.indexed.flatMap (little 8) ++
    (columns.kinds.flatMap (little 1) ++ (columns.collectionLens.flatMap (little 1) ++
    (columns.didLens.flatMap (little 2) ++ (columns.rkeyLens.flatMap (little 1) ++
    (columns.revLens.flatMap (little 1) ++ (columns.payloadLens.flatMap (little 4) ++
    (columns.collections.flatMap utf8 ++ (columns.dids.flatMap utf8 ++
    (columns.rkeys.flatMap utf8 ++ (columns.revs.flatMap utf8 ++
    columns.payloads.flatMap id)))))))))))))

structure Fits (columns : Columns) : Prop where
  count : columns.count ≤ maxBlockEvents
  seqs : columns.seqs.length = columns.count ∧ ∀ x ∈ columns.seqs, x < 256 ^ 8
  witnessed : columns.witnessed.length = columns.count ∧ ∀ x ∈ columns.witnessed, x < 256 ^ 8
  indexed : columns.indexed.length = columns.count ∧ ∀ x ∈ columns.indexed, x < 256 ^ 8
  kinds : columns.kinds.length = columns.count ∧ ∀ x ∈ columns.kinds, x < 256 ^ 1
  collectionLens : columns.collectionLens.length = columns.count ∧
    ∀ x ∈ columns.collectionLens, x < 256 ^ 1
  didLens : columns.didLens.length = columns.count ∧ ∀ x ∈ columns.didLens, x < 256 ^ 2
  rkeyLens : columns.rkeyLens.length = columns.count ∧ ∀ x ∈ columns.rkeyLens, x < 256 ^ 1
  revLens : columns.revLens.length = columns.count ∧ ∀ x ∈ columns.revLens, x < 256 ^ 1
  payloadLens : columns.payloadLens.length = columns.count ∧ ∀ x ∈ columns.payloadLens, x < 256 ^ 4
  collections : columns.collections.map (fun s => (utf8 s).length) = columns.collectionLens
  dids : columns.dids.map (fun s => (utf8 s).length) = columns.didLens
  rkeys : columns.rkeys.map (fun s => (utf8 s).length) = columns.rkeyLens
  revs : columns.revs.map (fun s => (utf8 s).length) = columns.revLens
  payloads : columns.payloads.map List.length = columns.payloadLens

end Columns

theorem readColumns_layout {columns : Columns} (fits : columns.Fits) (rest : List UInt8) :
    readColumns (columns.layout ++ rest) = .ok (columns, rest) := by
  have count : columns.count < 256 ^ 4 := fits.count.trans_lt (by decide)
  simp only [Columns.layout, List.append_assoc]
  refine Framing.bind_eq_ok.mpr ⟨little 4 columns.count, _,
    (exact_take 4).reads _ _ (length_little _ _), ?_⟩
  rw [ofLittle_little count]
  simp only [if_neg (Nat.not_lt.mpr fits.count)]
  refine Framing.bind_eq_ok.mpr ⟨_, _, (exact_column 8 _).reads _ _ fits.seqs, ?_⟩
  refine Framing.bind_eq_ok.mpr ⟨_, _, (exact_column 8 _).reads _ _ fits.witnessed, ?_⟩
  refine Framing.bind_eq_ok.mpr ⟨_, _, (exact_column 8 _).reads _ _ fits.indexed, ?_⟩
  refine Framing.bind_eq_ok.mpr ⟨_, _, (exact_column 1 _).reads _ _ fits.kinds, ?_⟩
  refine Framing.bind_eq_ok.mpr ⟨_, _, (exact_column 1 _).reads _ _ fits.collectionLens, ?_⟩
  refine Framing.bind_eq_ok.mpr ⟨_, _, (exact_column 2 _).reads _ _ fits.didLens, ?_⟩
  refine Framing.bind_eq_ok.mpr ⟨_, _, (exact_column 1 _).reads _ _ fits.rkeyLens, ?_⟩
  refine Framing.bind_eq_ok.mpr ⟨_, _, (exact_column 1 _).reads _ _ fits.revLens, ?_⟩
  refine Framing.bind_eq_ok.mpr ⟨_, _, (exact_column 4 _).reads _ _ fits.payloadLens, ?_⟩
  have any {α : Type} {l : List α} : ∀ a ∈ l, True := fun _ _ => trivial
  refine Framing.bind_eq_ok.mpr ⟨_, _, (exact_texts _).reads _ _ ⟨fits.collections, any⟩, ?_⟩
  refine Framing.bind_eq_ok.mpr ⟨_, _, (exact_texts _).reads _ _ ⟨fits.dids, any⟩, ?_⟩
  refine Framing.bind_eq_ok.mpr ⟨_, _, (exact_texts _).reads _ _ ⟨fits.rkeys, any⟩, ?_⟩
  refine Framing.bind_eq_ok.mpr ⟨_, _, (exact_texts _).reads _ _ ⟨fits.revs, any⟩, ?_⟩
  refine Framing.bind_eq_ok.mpr ⟨_, _, (exact_payloads _).reads _ _ ⟨fits.payloads, any⟩, ?_⟩
  rfl

theorem layout_of_readColumns {block rest : List UInt8} {columns : Columns}
    (read : readColumns block = .ok (columns, rest)) :
    columns.Fits ∧ block = columns.layout ++ rest := by
  obtain ⟨bytes, mid, taken, counted⟩ := Framing.bind_eq_ok.mp read
  obtain ⟨four, rfl⟩ := (exact_take 4).writes _ _ _ taken
  have back := little_ofLittle bytes
  rw [four] at back
  by_cases many : ofLittle bytes > maxBlockEvents
  · rw [if_pos many] at counted
    cases counted
  · rw [if_neg many] at counted
    obtain ⟨seqs, _, h, r1⟩ := Framing.bind_eq_ok.mp counted
    obtain ⟨fitsSeqs, rfl⟩ := (exact_column 8 _).writes _ _ _ h
    obtain ⟨witnessed, _, h, r2⟩ := Framing.bind_eq_ok.mp r1
    obtain ⟨fitsWitnessed, rfl⟩ := (exact_column 8 _).writes _ _ _ h
    obtain ⟨indexed, _, h, r3⟩ := Framing.bind_eq_ok.mp r2
    obtain ⟨fitsIndexed, rfl⟩ := (exact_column 8 _).writes _ _ _ h
    obtain ⟨kinds, _, h, r4⟩ := Framing.bind_eq_ok.mp r3
    obtain ⟨fitsKinds, rfl⟩ := (exact_column 1 _).writes _ _ _ h
    obtain ⟨collectionLens, _, h, r5⟩ := Framing.bind_eq_ok.mp r4
    obtain ⟨fitsCollectionLens, rfl⟩ := (exact_column 1 _).writes _ _ _ h
    obtain ⟨didLens, _, h, r6⟩ := Framing.bind_eq_ok.mp r5
    obtain ⟨fitsDidLens, rfl⟩ := (exact_column 2 _).writes _ _ _ h
    obtain ⟨rkeyLens, _, h, r7⟩ := Framing.bind_eq_ok.mp r6
    obtain ⟨fitsRkeyLens, rfl⟩ := (exact_column 1 _).writes _ _ _ h
    obtain ⟨revLens, _, h, r8⟩ := Framing.bind_eq_ok.mp r7
    obtain ⟨fitsRevLens, rfl⟩ := (exact_column 1 _).writes _ _ _ h
    obtain ⟨payloadLens, _, h, r9⟩ := Framing.bind_eq_ok.mp r8
    obtain ⟨fitsPayloadLens, rfl⟩ := (exact_column 4 _).writes _ _ _ h
    obtain ⟨collections, _, h, r10⟩ := Framing.bind_eq_ok.mp r9
    obtain ⟨⟨fitsCollections, -⟩, rfl⟩ := (exact_texts _).writes _ _ _ h
    obtain ⟨dids, _, h, r11⟩ := Framing.bind_eq_ok.mp r10
    obtain ⟨⟨fitsDids, -⟩, rfl⟩ := (exact_texts _).writes _ _ _ h
    obtain ⟨rkeys, _, h, r12⟩ := Framing.bind_eq_ok.mp r11
    obtain ⟨⟨fitsRkeys, -⟩, rfl⟩ := (exact_texts _).writes _ _ _ h
    obtain ⟨revs, _, h, r13⟩ := Framing.bind_eq_ok.mp r12
    obtain ⟨⟨fitsRevs, -⟩, rfl⟩ := (exact_texts _).writes _ _ _ h
    obtain ⟨payloads, _, h, r14⟩ := Framing.bind_eq_ok.mp r13
    obtain ⟨⟨fitsPayloads, -⟩, rfl⟩ := (exact_payloads _).writes _ _ _ h
    cases r14
    refine ⟨⟨Nat.not_lt.mp many, fitsSeqs, fitsWitnessed, fitsIndexed, fitsKinds,
      fitsCollectionLens, fitsDidLens, fitsRkeyLens, fitsRevLens, fitsPayloadLens,
      fitsCollections, fitsDids, fitsRkeys, fitsRevs, fitsPayloads⟩, ?_⟩
    simp only [Columns.layout, back, List.append_assoc]
    rfl

/-! ## Rows and columns -/

def columnsOf (rows : List Row) : Columns where
  count := rows.length
  seqs := rows.map (·.seq.toNat)
  witnessed := rows.map (·.witnessedAt.toUInt64.toNat)
  indexed := rows.map (·.indexedAt.toUInt64.toNat)
  kinds := rows.map (·.kind.toNat)
  collectionLens := rows.map fun row => (utf8 row.collection).length
  didLens := rows.map fun row => (utf8 row.did).length
  rkeyLens := rows.map fun row => (utf8 row.rkey).length
  revLens := rows.map fun row => (utf8 row.rev).length
  payloadLens := rows.map (·.payload.length)
  collections := rows.map (·.collection)
  dids := rows.map (·.did)
  rkeys := rows.map (·.rkey)
  revs := rows.map (·.rev)
  payloads := rows.map (·.payload)

theorem layout_columnsOf (rows : List Row) : (columnsOf rows).layout = layout rows := by
  simp only [Columns.layout, columnsOf, layout, List.flatMap_map, List.append_assoc, id]

theorem rows_columnsOf (rows : List Row) : (columnsOf rows).rows = rows := by
  refine List.ext_getElem (by simp [Columns.rows, columnsOf]) fun i _ inside => ?_
  simp [Columns.rows, Columns.row, columnsOf, inside]

theorem forall_mem_column {rows : List Row} {f : Row → Nat} {bound : Nat}
    (all : ∀ row ∈ rows, f row < bound) :
    (rows.map f).length = rows.length ∧ ∀ x ∈ rows.map f, x < bound :=
  ⟨List.length_map _, List.forall_mem_map.mpr all⟩

theorem fits_columnsOf {rows : List Row} (few : rows.length ≤ maxBlockEvents)
    (fits : ∀ row ∈ rows, row.Fits) : (columnsOf rows).Fits where
  count := few
  seqs := forall_mem_column fun row _ => row.seq.toNat_lt
  witnessed := forall_mem_column fun row _ => row.witnessedAt.toUInt64.toNat_lt
  indexed := forall_mem_column fun row _ => row.indexedAt.toUInt64.toNat_lt
  kinds := forall_mem_column fun row _ => row.kind.toNat_lt
  collectionLens := forall_mem_column fun row mem => (fits row mem).collection
  didLens := forall_mem_column fun row mem => (fits row mem).did
  rkeyLens := forall_mem_column fun row mem => (fits row mem).rkey
  revLens := forall_mem_column fun row mem => (fits row mem).rev
  payloadLens := forall_mem_column fun row mem => (fits row mem).payload
  collections := List.map_map
  dids := List.map_map
  rkeys := List.map_map
  revs := List.map_map
  payloads := List.map_map

theorem map_range_getD {α β : Type} {xs : List α} {n : Nat} (length : xs.length = n) (d : α)
    (f : α → β) : (List.range n).map (fun i => f (xs.getD i d)) = xs.map f := by
  refine List.ext_getElem (by simp [length]) fun i _ inside => ?_
  rw [List.length_map] at inside
  simp [inside]

theorem map_eq_self {xs : List Nat} {f : Nat → Nat} {bound : Nat} (small : ∀ x ∈ xs, x < bound)
    (same : ∀ x < bound, f x = x) : xs.map f = xs :=
  (List.map_congr_left fun x mem => same x (small x mem)).trans (List.map_id' xs)

theorem columnsOf_rows {columns : Columns} (fits : columns.Fits) :
    columnsOf columns.rows = columns := by
  have word : ∀ x < 256 ^ 8, (UInt64.ofNat x).toNat = x := fun x small => by
    rw [UInt64.toNat_ofNat']
    omega
  have signed : ∀ x < 256 ^ 8, (UInt64.ofNat x).toInt64.toUInt64.toNat = x := fun x small => by
    rw [UInt64.toUInt64_toInt64, word x small]
  have byte : ∀ x < 256 ^ 1, (UInt8.ofNat x).toNat = x := fun x small => by
    rw [UInt8.toNat_ofNat']
    omega
  have lengths {α : Type} {xs : List α} {f : α → Nat} {ns : List Nat} (same : xs.map f = ns)
      (counted : ns.length = columns.count) : xs.length = columns.count := by
    rw [← counted, ← same, List.length_map]
  have collections := lengths fits.collections fits.collectionLens.1
  have dids := lengths fits.dids fits.didLens.1
  have rkeys := lengths fits.rkeys fits.rkeyLens.1
  have revs := lengths fits.revs fits.revLens.1
  have payloads := lengths fits.payloads fits.payloadLens.1
  cases columns
  simp only [columnsOf, Columns.rows, List.map_map, Function.comp_def, Columns.row,
    List.length_map, List.length_range, Columns.mk.injEq]
  refine ⟨trivial, ?_, ?_, ?_, ?_, ?_, ?_, ?_, ?_, ?_, ?_, ?_, ?_, ?_, ?_⟩
  · exact (map_range_getD fits.seqs.1 0 _).trans (map_eq_self fits.seqs.2 word)
  · exact (map_range_getD fits.witnessed.1 0 _).trans (map_eq_self fits.witnessed.2 signed)
  · exact (map_range_getD fits.indexed.1 0 _).trans (map_eq_self fits.indexed.2 signed)
  · exact (map_range_getD fits.kinds.1 0 _).trans (map_eq_self fits.kinds.2 byte)
  · exact (map_range_getD collections "" _).trans fits.collections
  · exact (map_range_getD dids "" _).trans fits.dids
  · exact (map_range_getD rkeys "" _).trans fits.rkeys
  · exact (map_range_getD revs "" _).trans fits.revs
  · exact (map_range_getD payloads [] _).trans fits.payloads
  · exact (map_range_getD collections "" id).trans (List.map_id _)
  · exact (map_range_getD dids "" id).trans (List.map_id _)
  · exact (map_range_getD rkeys "" id).trans (List.map_id _)
  · exact (map_range_getD revs "" id).trans (List.map_id _)
  · exact (map_range_getD payloads [] id).trans (List.map_id _)

/-! ## Blocks -/

section

variable {zstd : Zstd} {frame block : List UInt8} {rows : List Row}

theorem decompressCapped_eq_ok :
    decompressCapped zstd frame = .ok block ↔
      zstd.decoder frame = .ok (block, none) ∧ block.length ≤ maxDecodedBlock := by
  unfold decompressCapped readCapped
  cases zstd.decoder frame with
  | error e => simp [bind, Except.bind]
  | ok stream =>
    obtain ⟨bytes, failure⟩ := stream
    by_cases long : maxDecodedBlock + 1 ≤ bytes.length
    · -- One byte past the cap was read.
      have longer : (bytes.take (maxDecodedBlock + 1)).length > maxDecodedBlock := by
        rw [List.length_take]
        omega
      simp only [if_pos long, bind, Except.bind, if_pos longer]
      refine iff_of_false nofun ?_
      rintro ⟨same, short⟩
      cases same
      omega
    · have short : ¬ bytes.length > maxDecodedBlock := by omega
      cases failure with
      | some e =>
        simp only [if_neg long, bind, Except.bind]
        exact iff_of_false nofun fun ⟨same, _⟩ => nomatch same
      | none =>
        simp only [if_neg long, bind, Except.bind, if_neg short, pure, Except.pure]
        grind

theorem decodeBlock_eq_ok :
    decodeBlock zstd frame = .ok rows ↔
      decompressCapped zstd frame = .ok (layout rows) ∧ rows.length ≤ maxBlockEvents ∧
        ∀ row ∈ rows, row.Fits := by
  constructor
  · intro decoded
    obtain ⟨block, opened, decoded⟩ := bind_eq_ok.mp decoded
    obtain ⟨⟨columns, rest⟩, read, decoded⟩ := bind_eq_ok.mp decoded
    by_cases trailing : rest.length ≠ 0
    · simp only [if_pos trailing] at decoded
      cases decoded
    · simp only [if_neg trailing] at decoded
      cases decoded
      rw [not_not, List.length_eq_zero_iff] at trailing
      obtain ⟨fits, whole⟩ := layout_of_readColumns read
      rw [trailing, List.append_nil, ← columnsOf_rows fits, layout_columnsOf] at whole
      rw [← columnsOf_rows fits] at fits
      refine ⟨whole ▸ opened, fits.count, fun row mem => ?_⟩
      exact ⟨fits.collectionLens.2 _ (List.mem_map_of_mem mem),
        fits.didLens.2 _ (List.mem_map_of_mem mem), fits.rkeyLens.2 _ (List.mem_map_of_mem mem),
        fits.revLens.2 _ (List.mem_map_of_mem mem), fits.payloadLens.2 _ (List.mem_map_of_mem mem)⟩
  · rintro ⟨opened, few, fits⟩
    have read := readColumns_layout (fits_columnsOf few fits) []
    rw [List.append_nil, layout_columnsOf] at read
    refine bind_eq_ok.mpr ⟨_, opened, bind_eq_ok.mpr ⟨_, read, ?_⟩⟩
    exact congrArg Except.ok (rows_columnsOf rows)

end

/-- The layout of at most `maxBlockEvents` rows whose fields fit, if it is not too long, is read
back as those rows from any frame that holds it. And a frame from which rows are read holds the
layout of those rows and nothing else. -/
theorem block_codec (zstd : Zstd) (frame : List UInt8) (rows : List Row) :
    (rows.length ≤ maxBlockEvents → (∀ row ∈ rows, row.Fits) →
      (layout rows).length ≤ maxDecodedBlock → zstd.decoder frame = .ok (layout rows, none) →
      decodeBlock zstd frame = .ok rows) ∧
    (decodeBlock zstd frame = .ok rows → zstd.decoder frame = .ok (layout rows, none)) := by
  rw [decodeBlock_eq_ok, decompressCapped_eq_ok]
  exact ⟨fun few fits short holds => ⟨⟨holds, short⟩, few, fits⟩, fun read => read.1.1⟩

/-- What zstd does with a short frame of one raw block. -/
def stored : Zstd where
  decoder
    | 0x28 :: 0xb5 :: 0x2f :: 0xfd :: 0x20 :: _ :: _ :: _ :: 0 :: raw => .ok (raw, none)
    | _ => .error "Unknown frame descriptor"

def aRow : Row := ⟨7, -1, 3, 1, "a.b", "did:x", "k", "", [1, 2]⟩

theorem block_codec_aRow : decodeBlock stored
    ([0x28, 0xb5, 0x2f, 0xfd, 0x20, 49, 0x89, 1, 0] ++ layout [aRow]) = .ok [aRow] :=
  (block_codec stored _ [aRow]).1 (by decide)
    (by rintro _ (_ | ⟨_, ⟨⟩⟩); constructor <;> decide) (by decide) rfl

end HappyView.Backfill.Segment
