import HappyView.Foundation.Varint
import HappyView.Spaces.Repo
import Mathlib.Data.List.Sort
import Mathlib.Order.Defs.LinearOrder

/-!
# Repos as CAR files

`serialize_repo` writes a commit, an index from paths to cids and one block for each record.
It does not use the stored cids: each record is encoded again and addressed by the hash of
its block.
-/

namespace HappyView.Spaces

open HappyView.Foundation

inductive Cbor where
  | integer (n : Nat)
  | bytes (bytes : List UInt8)
  | text (text : String)
  | array (items : List Cbor)
  | map (pairs : List (Cbor × Cbor))
  | tag (number : Nat) (value : Cbor)

/-- The functions that repos use as they are given. -/
structure Codec where
  /-- The lanes that BLAKE3 expands a text to. -/
  expand : String → LtHashState
  recordToDagCbor : String → Option (List UInt8)
  encodeCbor : Cbor → Except AppError (List UInt8)
  cidText : List UInt8 → String
  sha256 : List UInt8 → List UInt8
  sign : String → String → String → List UInt8 → List UInt8
  computeMac : String → String → String → List UInt8 → List UInt8 → List UInt8

namespace Codec

def sha2256 : Nat := 0x12

def dagCborCode : Nat := 0x71

variable (codec : Codec)

def makeCid (code : Nat) (block : List UInt8) : List UInt8 :=
  Varint.encode 1 ++ Varint.encode code ++ Varint.encode sha2256 ++ Varint.encode 32 ++
    codec.sha256 block

def computeRecordCid (record : String) : Option String :=
  (codec.recordToDagCbor record).map fun block => codec.cidText (codec.makeCid dagCborCode block)

def crypto : Crypto where
  element collection rkey cid := codec.expand (recordElement collection rkey cid)
  contentCid := codec.computeRecordCid
  sha256 := codec.sha256
  sign := codec.sign
  computeMac := codec.computeMac

end Codec

structure SignedCommit where
  ver : Nat
  hash : List UInt8
  ikm : List UInt8
  mac : List UInt8
  sig : List UInt8
  rev : String
  deriving DecidableEq

/-- A commit that carries nothing to authenticate it at rest. -/
structure MacCommit where
  ver : Nat
  repo : String
  space : String
  rev : String
  data : List UInt8
  deriving DecidableEq

inductive CarCommit where
  | signed (commit : SignedCommit)
  | mac (commit : MacCommit)
  deriving DecidableEq

def CarCommit.hash : CarCommit → List UInt8
  | .signed commit => commit.hash
  | .mac commit => commit.data

def CarCommit.rev : CarCommit → String
  | .signed commit => commit.rev
  | .mac commit => commit.rev

structure CarEntry where
  path : String
  cid : List UInt8
  block : List UInt8
  deriving DecidableEq

structure Car where
  commit : CarCommit
  entries : List CarEntry
  deriving DecidableEq

namespace Car

variable (codec : Codec)

def entry (uri : String) (row : SpaceRecord) : Except AppError CarEntry := do
  let block ← require (.internal ("record " ++ uri ++ " cannot be encoded as DAG-CBOR"))
    (codec.recordToDagCbor row.record)
  return ⟨row.collection ++ "/" ++ row.rkey, codec.makeCid Codec.dagCborCode block, block⟩

def ofRecords (commit : CarCommit) (rows : List (Σ _ : String, SpaceRecord)) :
    Except AppError Car := do
  let indexed ← rows.mapM fun row => entry codec row.1 row.2
  return ⟨commit, indexed.insertionSort fun a b => a.path ≤ b.path⟩

/-! ## The file -/

def cidLink (cid : List UInt8) : Cbor := .tag 42 (.bytes (0x00 :: cid))

def indexCbor (entries : List CarEntry) : Cbor :=
  .map (entries.map fun entry => (.text entry.path, cidLink entry.cid))

def commitCbor : CarCommit → Cbor
  | .signed commit => .map
      [(.text "ver", .integer commit.ver), (.text "hash", .bytes commit.hash),
        (.text "ikm", .bytes commit.ikm), (.text "mac", .bytes commit.mac),
        (.text "rev", .text commit.rev)]
  | .mac commit => .map
      [(.text "rev", .text commit.rev), (.text "ver", .integer commit.ver),
        (.text "data", .bytes commit.data), (.text "repo", .text commit.repo),
        (.text "space", .text commit.space)]

def headerCbor (commitCid indexCid : List UInt8) : Cbor :=
  .map
    [(.text "version", .integer 1),
      (.text "roots", .array [cidLink commitCid, cidLink indexCid])]

def writeCarBlock (cid block : List UInt8) : List UInt8 :=
  Varint.encode (cid.length + block.length) ++ cid ++ block

def bytes (car : Car) : Except AppError (List UInt8) := do
  let indexBlock ← codec.encodeCbor (indexCbor car.entries)
  let indexCid := codec.makeCid Codec.dagCborCode indexBlock
  let commitBlock ← codec.encodeCbor (commitCbor car.commit)
  let commitCid := codec.makeCid Codec.dagCborCode commitBlock
  let headerBlock ← codec.encodeCbor (headerCbor commitCid indexCid)
  return Varint.encode headerBlock.length ++ headerBlock ++ writeCarBlock commitCid commitBlock ++
    writeCarBlock indexCid indexBlock ++
    car.entries.flatMap fun entry => writeCarBlock entry.cid entry.block

end Car

def serializeRepo (codec : Codec) (commit : CarCommit) (rows : List (Σ _ : String, SpaceRecord)) :
    Except AppError (List UInt8) := do
  let car ← Car.ofRecords codec commit rows
  car.bytes codec

/-! ## What the file says of the records -/

section

variable {codec : Codec}

def Car.digest (codec : Codec) (car : Car) : List UInt8 :=
  codec.sha256 (foldElements
    (fun entry : CarEntry => codec.expand (entry.path ++ "/" ++ codec.cidText entry.cid))
    car.entries).asBytes

theorem Car.entry_element {uri : String} {row : SpaceRecord} {found : CarEntry}
    (cid : codec.computeRecordCid row.record = some row.cid)
    (h : Car.entry codec uri row = .ok found) :
    codec.expand (found.path ++ "/" ++ codec.cidText found.cid) =
      codec.crypto.element row.collection row.rkey row.cid := by
  obtain ⟨block, encoded, ⟨⟩⟩ := bind_eq_ok.mp h
  rw [require_eq_ok] at encoded
  rw [Codec.computeRecordCid, encoded, Option.map_some, Option.some_inj] at cid
  have text : recordElement row.collection row.rkey row.cid =
      row.collection ++ "/" ++ row.rkey ++ "/" ++ row.cid := by
    simp only [recordElement, String.intercalate_cons_cons, String.intercalate_singleton,
      String.append_assoc]
  simp only [Codec.crypto, text, cid]

theorem Car.entries_elements {rows : List (Σ _ : String, SpaceRecord)} {found : List CarEntry}
    (cids : ∀ row ∈ rows, codec.computeRecordCid row.2.record = some row.2.cid)
    (h : rows.mapM (fun row => Car.entry codec row.1 row.2) = .ok found) :
    found.map (fun entry => codec.expand (entry.path ++ "/" ++ codec.cidText entry.cid)) =
      rows.map fun row =>
        codec.crypto.element row.2.collection row.2.rkey row.2.cid := by
  induction rows generalizing found with
  | nil =>
    cases h
    rfl
  | cons row rows ih =>
    rw [List.mapM_cons] at h
    obtain ⟨first, one, h⟩ := bind_eq_ok.mp h
    obtain ⟨rest, more, ⟨⟩⟩ := bind_eq_ok.mp h
    rw [List.map_cons, List.map_cons, Car.entry_element (cids row (by simp)) one,
      ih (fun row mem => cids row (by simp [mem])) more]

theorem Car.digest_ofRecords {commit : CarCommit} {rows : List (Σ _ : String, SpaceRecord)}
    {car : Car} (cids : ∀ row ∈ rows, codec.computeRecordCid row.2.record = some row.2.cid)
    (h : Car.ofRecords codec commit rows = .ok car) :
    car.commit = commit ∧ car.digest codec = codec.sha256 (foldElements
      (fun row : Σ _ : String, SpaceRecord =>
        codec.crypto.element row.2.collection row.2.rkey row.2.cid) rows).asBytes := by
  obtain ⟨found, indexed, ⟨⟩⟩ := bind_eq_ok.mp h
  refine ⟨rfl, ?_⟩
  rw [Car.digest, foldElements_perm (List.perm_insertionSort _ found), foldElements_eq,
    foldElements_eq, Car.entries_elements cids indexed]

end

end HappyView.Spaces
