import HappyView.Foundation.Cbor
import HappyView.Spaces.Car

/-!
# The blocks of a CAR file

The header, the commit and the index of a CAR file are maps that `serialize_repo` writes in the
order it builds them. DAG-CBOR wants the keys of a map with the shorter ones first. The commit
without a signature is written that way; the header and the signed commit never are, and the
index is sorted by its paths alone, so it is only when no path is longer than one that comes
after it (`car_block_canonical_iff`).
-/

namespace HappyView.Spaces

open HappyView.Foundation
open HappyView.Foundation.Bytes (utf8)
open HappyView.Foundation.Cbor (Value Fits FitsItems FitsPairs Canonical CanonicalItems
  CanonicalPairs encode canonical rank)

namespace Cbor

mutual

def toValue : Cbor → Value
  | .integer n => .unsigned n
  | .bytes data => .bytes data
  | .text s => .text s
  | .array items => .array (toItems items)
  | .map pairs => .map (toPairs pairs)
  | .tag number value => .tag number (toValue value)

def toItems : List Cbor → List Value
  | [] => []
  | item :: items => toValue item :: toItems items

def toPairs : List (Cbor × Cbor) → List (Value × Value)
  | [] => []
  | (key, value) :: pairs => (toValue key, toValue value) :: toPairs pairs

end

theorem toPairs_map {α : Type} (path : α → String) (link : α → Cbor) (entries : List α) :
    toPairs (entries.map fun entry => (.text (path entry), link entry)) =
      entries.map fun entry => (Value.text (path entry), (link entry).toValue) := by
  induction entries with
  | nil => rfl
  | cons entry entries ih => rw [List.map_cons, List.map_cons, toPairs, toValue, ih]

end Cbor

/-- `ciborium` writes CBOR, for everything that has one. -/
def Codec.WritesCbor (codec : Codec) : Prop :=
  ∀ value : Cbor, Fits value.toValue → codec.encodeCbor value = .ok (encode value.toValue)

/-- The bytes are canonical DAG-CBOR: the maps they hold are in order, and whoever reads them
and writes what was read in order gets the same bytes and the same cid. -/
def Codec.IsCanonical (codec : Codec) (bytes : List UInt8) : Prop :=
  ∃ value, Fits value ∧ encode value = bytes ∧ Canonical value ∧
    ∀ read, Fits read → encode read = bytes → encode (canonical read) = bytes ∧
      codec.makeCid Codec.dagCborCode (encode (canonical read)) =
        codec.makeCid Codec.dagCborCode bytes

theorem Codec.isCanonical_iff (codec : Codec) {value : Value} (fits : Fits value) :
    codec.IsCanonical (encode value) ↔ Canonical value := by
  constructor
  · rintro ⟨other, fitsOther, same, ordered, -⟩
    rwa [Cbor.encode_inj fitsOther fits same] at ordered
  · intro ordered
    refine ⟨value, fits, rfl, ordered, fun read fitsRead same => ?_⟩
    have again := Cbor.reencode_eq_self ordered fits fitsRead same
    exact ⟨again, by rw [again]⟩

inductive CarBlock where
  | header
  | commit
  | index
  deriving DecidableEq

namespace Car

variable (codec : Codec)

def blockCbor (car : Car) : CarBlock → Cbor
  | .index => indexCbor car.entries
  | .commit => commitCbor car.commit
  | .header => headerCbor
      (codec.makeCid Codec.dagCborCode (encode (commitCbor car.commit).toValue))
      (codec.makeCid Codec.dagCborCode (encode (indexCbor car.entries).toValue))

def block (car : Car) (block : CarBlock) : List UInt8 := encode (car.blockCbor codec block).toValue

def fileOf (blocks : CarBlock → List UInt8) (records : List UInt8) : List UInt8 :=
  Varint.encode (blocks .header).length ++ blocks .header ++
    writeCarBlock (codec.makeCid Codec.dagCborCode (blocks .commit)) (blocks .commit) ++
    writeCarBlock (codec.makeCid Codec.dagCborCode (blocks .index)) (blocks .index) ++ records

variable {codec}

theorem bytes_eq {car : Car} (writes : codec.WritesCbor)
    (fits : ∀ block, Fits (car.blockCbor codec block).toValue) :
    car.bytes codec = .ok (fileOf codec (car.block codec)
      (car.entries.flatMap fun entry => writeCarBlock entry.cid entry.block)) := by
  have index := writes _ (fits .index)
  have commit := writes _ (fits .commit)
  have header := writes _ (fits .header)
  simp only [blockCbor] at index commit header
  simp only [bytes, index, commit, header, bind, Except.bind, pure, Except.pure, fileOf, block,
    blockCbor]

/-! ## Which blocks are in order -/

@[simp] theorem rank_text (s : String) : rank (.text s) = toLex ((utf8 s).length, s) := rfl

/-- `version` comes before `roots`. -/
theorem not_canonical_header (commitCid indexCid : List UInt8) :
    ¬ Canonical (headerCbor commitCid indexCid).toValue := by
  intro ordered
  have first : rank (.text "version") < rank (.text "roots") :=
    List.rel_of_pairwise_cons ordered.1 (List.mem_singleton_self _)
  exact absurd first (by decide)

/-- `ver` and `hash` come before `ikm`. -/
theorem canonical_commit_iff (commit : CarCommit) :
    Canonical (commitCbor commit).toValue ↔ ∃ plain, commit = .mac plain := by
  cases commit with
  | signed commit =>
    refine iff_of_false (fun ordered => ?_) (by simp)
    have first : rank (.text "ver") < rank (.text "ikm") :=
      List.rel_of_pairwise_cons ordered.1 (List.mem_cons_of_mem _ List.mem_cons_self)
    exact absurd first (by decide)
  | mac commit =>
    refine iff_of_true ⟨?_, by simp [Cbor.toPairs, Cbor.toValue, CanonicalPairs, Canonical]⟩
      ⟨commit, rfl⟩
    have keys : (["rev", "ver", "data", "repo", "space"].map fun key => rank (.text key)).Pairwise
        (· < ·) := by decide
    exact List.pairwise_map.mp keys

theorem canonical_index_iff {entries : List CarEntry}
    (sorted : (entries.map (·.path)).Pairwise (· < ·)) :
    Canonical (indexCbor entries).toValue ↔
      ∀ a ∈ entries, ∀ b ∈ entries, a.path < b.path →
        (utf8 a.path).length ≤ (utf8 b.path).length := by
  have links : CanonicalPairs (entries.map fun entry =>
      (Value.text entry.path, (cidLink entry.cid).toValue)) := by
    clear sorted
    induction entries with
    | nil => trivial
    | cons entry entries ih => exact ⟨trivial, trivial, ih⟩
  rw [indexCbor, Cbor.toValue, Cbor.toPairs_map, Canonical, and_iff_left links, List.pairwise_map]
  rw [List.pairwise_map] at sorted
  constructor
  · intro ordered
    -- Both orders at once, for any two entries in either order.
    have both : entries.Pairwise fun a b =>
        (a.path < b.path → (utf8 a.path).length ≤ (utf8 b.path).length) ∧
          (b.path < a.path → (utf8 b.path).length ≤ (utf8 a.path).length) := by
      refine (sorted.and ordered).imp fun {a b} ⟨before, less⟩ => ?_
      rw [rank_text, rank_text, Prod.Lex.toLex_lt_toLex] at less
      exact ⟨fun _ => by omega, fun after => absurd after before.not_gt⟩
    have : Std.Symm fun a b : CarEntry =>
        (a.path < b.path → (utf8 a.path).length ≤ (utf8 b.path).length) ∧
          (b.path < a.path → (utf8 b.path).length ≤ (utf8 a.path).length) := ⟨fun _ _ => And.symm⟩
    have all := both.forall_of_forall fun a _ => ⟨fun _ => le_rfl, fun _ => le_rfl⟩
    exact fun a memA b memB => (all memA memB).1
  · intro shorter
    refine sorted.imp_of_mem fun {a b} memA memB before => ?_
    rw [rank_text, rank_text, Prod.Lex.toLex_lt_toLex]
    rcases (shorter a memA b memB before).lt_or_eq with less | same
    · exact .inl less
    · exact .inr ⟨same, before⟩

/-! ## Sizes -/

variable (codec) in
/-- What a machine's sizes promise. -/
structure Sizes (commit : CarCommit) (rows : List (Σ _ : String, SpaceRecord)) : Prop where
  digest : ∀ bytes, (codec.sha256 bytes).length = 32
  fields : Fits (commitCbor commit).toValue
  few : rows.length < 2 ^ 64
  paths : ∀ row ∈ rows, (utf8 (row.2.collection ++ "/" ++ row.2.rkey)).length < 2 ^ 64

theorem fits_cidLink (digest : ∀ bytes, (codec.sha256 bytes).length = 32) (data : List UInt8) :
    Fits (cidLink (codec.makeCid Codec.dagCborCode data)).toValue := by
  have length : (codec.makeCid Codec.dagCborCode data).length = 36 := by
    simp [Codec.makeCid, digest, Codec.dagCborCode, Codec.sha2256, Varint.encode_small]
  refine ⟨by decide, ?_⟩
  show (0x00 :: codec.makeCid Codec.dagCborCode data).length < 2 ^ 64
  rw [List.length_cons, length]
  decide

theorem mapM_entry {rows : List (Σ _ : String, SpaceRecord)} {found : List CarEntry}
    (indexed : rows.mapM (fun row => entry codec row.1 row.2) = .ok found) :
    found.map (·.path) = rows.map (fun row => row.2.collection ++ "/" ++ row.2.rkey) ∧
      ∀ entry ∈ found, ∃ data, entry.cid = codec.makeCid Codec.dagCborCode data := by
  have each := mapM_eq_ok.mp indexed
  clear indexed
  induction each with
  | nil => simp
  | cons one _ ih =>
    obtain ⟨data, -, built⟩ := bind_eq_ok.mp one
    cases built
    exact ⟨by rw [List.map_cons, List.map_cons, ih.1], List.forall_mem_cons.mpr ⟨⟨data, rfl⟩, ih.2⟩⟩

theorem ofRecords_eq_ok {commit : CarCommit} {rows : List (Σ _ : String, SpaceRecord)} {car : Car}
    (made : ofRecords codec commit rows = .ok car) :
    car.commit = commit ∧ (car.entries.map (·.path)).Pairwise (· ≤ ·) ∧
      (car.entries.map (·.path)).Perm
        (rows.map fun row => row.2.collection ++ "/" ++ row.2.rkey) ∧
      ∀ entry ∈ car.entries, ∃ data, entry.cid = codec.makeCid Codec.dagCborCode data := by
  obtain ⟨found, indexed, built⟩ := bind_eq_ok.mp made
  cases built
  obtain ⟨paths, cids⟩ := mapM_entry indexed
  have perm := List.perm_insertionSort (fun a b : CarEntry => a.path ≤ b.path) found
  refine ⟨rfl, ?_, ?_, fun entry mem => cids entry (perm.mem_iff.mp mem)⟩
  · rw [List.pairwise_map]
    exact List.pairwise_insertionSort _ _
  · rw [← paths]
    exact perm.map _

theorem fits_index {entries : List CarEntry}
    (digest : ∀ bytes, (codec.sha256 bytes).length = 32) (few : entries.length < 2 ^ 64)
    (short : ∀ entry ∈ entries, (utf8 entry.path).length < 2 ^ 64)
    (cids : ∀ entry ∈ entries, ∃ data, entry.cid = codec.makeCid Codec.dagCborCode data) :
    Fits (indexCbor entries).toValue := by
  rw [indexCbor, Cbor.toValue, Cbor.toPairs_map, Fits, List.length_map]
  refine ⟨few, ?_⟩
  clear few
  induction entries with
  | nil => trivial
  | cons entry entries ih =>
    obtain ⟨data, cid⟩ := cids entry (by simp)
    refine ⟨short entry (by simp), ?_, ih (fun e mem => short e (by simp [mem]))
      fun e mem => cids e (by simp [mem])⟩
    rw [cid]
    exact fits_cidLink digest data

theorem fits_blockCbor {commit : CarCommit} {rows : List (Σ _ : String, SpaceRecord)} {car : Car}
    (sizes : Sizes codec commit rows) (made : ofRecords codec commit rows = .ok car)
    (block : CarBlock) : Fits (car.blockCbor codec block).toValue := by
  obtain ⟨rfl, -, paths, cids⟩ := ofRecords_eq_ok made
  cases block with
  | header =>
    simp only [blockCbor, headerCbor, Cbor.toValue, Cbor.toPairs, Cbor.toItems, Fits, FitsPairs,
      FitsItems]
    exact ⟨by simp, by decide, by decide, by decide, ⟨by simp, fits_cidLink sizes.digest _,
      fits_cidLink sizes.digest _, trivial⟩, trivial⟩
  | commit => exact sizes.fields
  | index =>
    have few : car.entries.length < 2 ^ 64 := by
      have same := paths.length_eq
      rw [List.length_map, List.length_map] at same
      exact same ▸ sizes.few
    have short : ∀ entry ∈ car.entries, (utf8 entry.path).length < 2 ^ 64 := by
      intro entry mem
      obtain ⟨row, isRow, same⟩ := List.mem_map.mp (paths.mem_iff.mp (List.mem_map_of_mem mem))
      exact same ▸ sizes.paths row isRow
    exact fits_index sizes.digest few short cids

end Car

def CanonicalWhen (commit : CarCommit) (rows : List (Σ _ : String, SpaceRecord)) :
    CarBlock → Prop
  | .header => False
  | .commit => ∃ plain, commit = .mac plain
  | .index => ∀ a ∈ rows, ∀ b ∈ rows,
      a.2.collection ++ "/" ++ a.2.rkey < b.2.collection ++ "/" ++ b.2.rkey →
        (utf8 (a.2.collection ++ "/" ++ a.2.rkey)).length ≤
          (utf8 (b.2.collection ++ "/" ++ b.2.rkey)).length

theorem Car.isCanonical_block_iff {codec : Codec} {commit : CarCommit}
    {rows : List (Σ _ : String, SpaceRecord)} {car : Car} (sizes : Car.Sizes codec commit rows)
    (distinct : (rows.map fun row => row.2.collection ++ "/" ++ row.2.rkey).Nodup)
    (built : Car.ofRecords codec commit rows = .ok car) (block : CarBlock) :
    codec.IsCanonical (car.block codec block) ↔ CanonicalWhen commit rows block := by
  obtain ⟨rfl, sorted, paths, -⟩ := Car.ofRecords_eq_ok built
  rw [Car.block, codec.isCanonical_iff (Car.fits_blockCbor sizes built block)]
  cases block with
  | header => exact iff_of_false (Car.not_canonical_header _ _) id
  | commit => exact Car.canonical_commit_iff _
  | index =>
    have ascending : (car.entries.map (·.path)).Pairwise (· < ·) :=
      (sorted.and (paths.nodup_iff.mpr distinct)).imp fun both => lt_of_le_of_ne both.1 both.2
    have known (P : String → Prop) : (∀ entry ∈ car.entries, P entry.path) ↔
        ∀ row ∈ rows, P (row.2.collection ++ "/" ++ row.2.rkey) := by
      constructor
      · intro all row mem
        have found := paths.mem_iff.mpr (List.mem_map_of_mem mem)
        obtain ⟨entry, isEntry, same⟩ := List.mem_map.mp found
        exact same ▸ all entry isEntry
      · intro all entry mem
        have found := paths.mem_iff.mp (List.mem_map_of_mem mem)
        obtain ⟨row, isRow, same⟩ := List.mem_map.mp found
        exact same ▸ all row isRow
    refine (Car.canonical_index_iff ascending).trans ?_
    refine (known fun a => ∀ b ∈ car.entries, a < b.path →
      (utf8 a).length ≤ (utf8 b.path).length).trans ?_
    refine forall₂_congr fun row _ => ?_
    exact known fun b => row.2.collection ++ "/" ++ row.2.rkey < b →
      (utf8 (row.2.collection ++ "/" ++ row.2.rkey)).length ≤ (utf8 b).length

theorem exists_blocks {codec : Codec} (writes : codec.WritesCbor) {commit : CarCommit}
    {rows : List (Σ _ : String, SpaceRecord)} (sizes : Car.Sizes codec commit rows)
    {file : List UInt8} (made : serializeRepo codec commit rows = .ok file) :
    ∃ car records, Car.ofRecords codec commit rows = .ok car ∧
      file = Car.fileOf codec (car.block codec) records := by
  obtain ⟨car, built, written⟩ := bind_eq_ok.mp made
  rw [Car.bytes_eq writes (Car.fits_blockCbor sizes built)] at written
  exact ⟨car, _, built, (Except.ok.inj written).symm⟩

/-- The header of a file is never canonical DAG-CBOR, its commit exactly when it is one without a
signature, and its index exactly when no path that comes before another one is longer. -/
theorem car_block_canonical_iff (codec : Codec) (writes : codec.WritesCbor) (commit : CarCommit)
    (rows : List (Σ _ : String, SpaceRecord)) (sizes : Car.Sizes codec commit rows)
    (distinct : (rows.map fun row => row.2.collection ++ "/" ++ row.2.rkey).Nodup)
    (file : List UInt8) (made : serializeRepo codec commit rows = .ok file) :
    ∃ blocks records, file = Car.fileOf codec blocks records ∧
      ∀ block, codec.IsCanonical (blocks block) ↔ CanonicalWhen commit rows block := by
  obtain ⟨car, records, built, whole⟩ := exists_blocks writes sizes made
  exact ⟨car.block codec, records, whole, Car.isCanonical_block_iff sizes distinct built⟩

def plainCodec : Codec where
  expand _ := 0
  recordToDagCbor record := if record = "\x7b\x7d" then some [0xa0] else none
  encodeCbor value := .ok (encode value.toValue)
  cidText _ := ""
  sha256 _ := List.replicate 32 0
  sign _ _ _ _ := []
  computeMac _ _ _ _ _ := []

def plainCommit : MacCommit := ⟨1, "did:plc:a", "at://did:plc:a/space", "r1", List.replicate 32 0⟩

def numbered (rkey : String) : Σ _ : String, SpaceRecord :=
  ⟨"at://" ++ rkey, ⟨"s", "did:plc:a", "app.note", rkey, "\x7b\x7d", "c"⟩⟩

def plainRows : List (Σ _ : String, SpaceRecord) := [numbered "9", numbered "10"]

theorem sizes_plain : Car.Sizes plainCodec (.mac plainCommit) plainRows where
  digest _ := List.length_replicate
  fields := by
    simp only [Car.commitCbor, Cbor.toValue, Cbor.toPairs, Fits, FitsPairs]
    exact ⟨by decide, by decide, by decide, by decide, by decide, by decide, by decide, by decide,
      by decide, by decide, by decide, trivial⟩
  few := by decide
  paths := by
    intro row mem
    simp only [plainRows, List.mem_cons, List.not_mem_nil, or_false] at mem
    rcases mem with rfl | rfl <;> decide

theorem exists_plain_file :
    ∃ file, serializeRepo plainCodec (.mac plainCommit) plainRows = .ok file := ⟨_, rfl⟩

/-- A file with an unsigned commit and two records: its commit is canonical. -/
theorem car_block_canonical_iff_plain :
    ∃ file blocks records,
      serializeRepo plainCodec (.mac plainCommit) plainRows = .ok file ∧
      file = Car.fileOf plainCodec blocks records ∧ plainCodec.IsCanonical (blocks .commit) := by
  obtain ⟨file, made⟩ := exists_plain_file
  obtain ⟨blocks, records, whole, canonical⟩ := car_block_canonical_iff plainCodec (fun _ _ => rfl)
    (.mac plainCommit) plainRows sizes_plain (by decide) file made
  exact ⟨file, blocks, records, made, whole, (canonical .commit).mpr ⟨plainCommit, rfl⟩⟩

/-- Neither the header nor the index of that file is canonical: `version` comes before `roots`,
and `app.note/10` before `app.note/9`. -/
theorem header_and_index_out_of_order :
    ∃ file blocks records,
      serializeRepo plainCodec (.mac plainCommit) plainRows = .ok file ∧
      file = Car.fileOf plainCodec blocks records ∧ ¬ plainCodec.IsCanonical (blocks .header) ∧
      ¬ plainCodec.IsCanonical (blocks .index) := by
  obtain ⟨file, made⟩ := exists_plain_file
  obtain ⟨car, records, built, whole⟩ := exists_blocks (fun _ _ => rfl) sizes_plain made
  have canonical := Car.isCanonical_block_iff sizes_plain (by decide) built
  refine ⟨file, _, records, made, whole, mt (canonical .header).mp id, mt (canonical .index).mp ?_⟩
  intro shorter
  exact absurd (shorter (numbered "10") (by simp [plainRows]) (numbered "9") (by simp [plainRows])
    (by decide)) (by decide)

end HappyView.Spaces
