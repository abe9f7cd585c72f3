import HappyView.Error
import HappyView.Foundation.Ipld
import HappyView.Foundation.Varint

/-!
# STAR archives

A header with the metadata and then key/value pairs, each behind a control byte, up to the end
byte. Every metadata, key and value is behind its length. The reader takes the pairs one at a
time.

The DAG-CBOR codec is given.
-/

namespace HappyView.Star

open HappyView.Foundation
open HappyView.Foundation.Framing

inductive StarError where
  | invalidMagic
  | unexpectedEnd
  | nonCanonicalVarint
  | varintTooLong
  | tooLong (what : String) (length limit : Nat)
  | invalidMeta (message : String)
  | nonCanonicalMeta
  | invalidControlByte (byte : UInt8)
  | trailingBytes
  deriving DecidableEq

/-- No allocation is longer than `isize::MAX` bytes. -/
def IsSlice (bytes : List UInt8) : Prop := bytes.length < 2 ^ 63

instance (bytes : List UInt8) : Decidable (IsSlice bytes) := inferInstanceAs (Decidable (_ < _))

/-- `serde_ipld_dagcbor`. Decoding gives back what was encoded. -/
structure DagCbor where
  toVec : Ipld → Except String (List UInt8)
  fromSlice : List UInt8 → Except String Ipld
  isSlice_toVec : ∀ {value bytes}, toVec value = .ok bytes → IsSlice bytes
  fromSlice_toVec : ∀ {value bytes}, value.Sorted → toVec value = .ok bytes →
    fromSlice bytes = .ok value

structure Limits where
  maxMeta : Nat
  maxKey : Nat
  maxValue : Nat
  deriving DecidableEq

def u64Max : Nat := 2 ^ 64 - 1

def Limits.default : Limits := ⟨u64Max, u64Max, u64Max⟩

structure Pair where
  key : List UInt8
  value : List UInt8
  deriving DecidableEq

abbrev Meta := List (String × Ipld)

def magic : List UInt8 := [0x2a, 0x6c, 0x01, 0x00]

def controlPair : UInt8 := 0x01

def controlEnd : UInt8 := 0x00

def maxVarintBytes : Nat := 9

/-! ## Writing -/

def frame (bytes : List UInt8) : List UInt8 := Varint.encode bytes.length ++ bytes

def hasType (metadata : Meta) : Bool :=
  match metadata.lookup "$type" with
  | some (.string _) => true
  | _ => false

variable (codec : DagCbor)

def encodeMeta (metadata : Meta) : Except StarError (List UInt8) :=
  (codec.toVec (.map metadata)).mapError .invalidMeta

def encodeHeader (metadata : Meta) : Except StarError (List UInt8) := do
  if !hasType metadata then throw (.invalidMeta "missing a string $type")
  let encoded ← encodeMeta codec metadata
  return magic ++ frame encoded

def encodePair (pair : Pair) : List UInt8 := controlPair :: (frame pair.key ++ frame pair.value)

def writeStar (metadata : Meta) (pairs : List Pair) : Except StarError (List UInt8) := do
  let header ← encodeHeader codec metadata
  return header ++ pairs.flatMap encodePair ++ [controlEnd]

/-! ## Reading -/

abbrev ReadM := StateT (List UInt8) (Except StarError)

def faults : Varint.Faults StarError := ⟨.unexpectedEnd, .nonCanonicalVarint, .varintTooLong⟩

def readByte : ReadM UInt8 := Varint.readByte faults

def readVarint : ReadM Nat := Varint.read faults maxVarintBytes

def readFrame (what : String) (limit : Nat) : ReadM (List UInt8) := do
  let length ← readVarint
  if limit < length then throw (.tooLong what length limit) else take .unexpectedEnd length

def parseMeta (bytes : List UInt8) : Except StarError Meta := do
  match ← (codec.fromSlice bytes).mapError .invalidMeta with
  | .map metadata =>
    if !hasType metadata then throw (.invalidMeta "missing a string $type")
    let reencoded ← encodeMeta codec metadata
    if reencoded ≠ bytes then throw .nonCanonicalMeta
    return metadata
  | _ => throw (.invalidMeta "not a map")

structure StarReader where
  input : List UInt8
  limits : Limits
  metadata : Meta
  done : Bool

def StarReader.openArchive (limits : Limits) (input : List UInt8) :
    Except StarError StarReader := do
  let (found, input) ← take StarError.unexpectedEnd 4 input
  if found ≠ magic then throw .invalidMagic
  let (metaBytes, input) ← readFrame "metadata" limits.maxMeta input
  let metadata ← parseMeta codec metaBytes
  return ⟨input, limits, metadata, false⟩

def StarReader.nextPair (reader : StarReader) : Except StarError (Option Pair × StarReader) :=
  if reader.done then .ok (none, reader)
  else do
    let (control, input) ← readByte reader.input
    if control = controlEnd then
      if input ≠ [] then throw .trailingBytes
      return (none, { reader with input := input, done := true })
    else if control = controlPair then
      let (key, input) ← readFrame "key" reader.limits.maxKey input
      let (value, input) ← readFrame "value" reader.limits.maxValue input
      return (some ⟨key, value⟩, { reader with input := input })
    else throw (.invalidControlByte control)

/-! ## One pair -/

section Pairs

variable {reader reader' : StarReader} {pair : Pair}

theorem readByte_eq_ok {input rest : List UInt8} {byte : UInt8} :
    readByte input = .ok (byte, rest) ↔ input = byte :: rest := by
  cases input <;> simp [readByte, Varint.readByte]

theorem exact_readVarint : Exact readVarint Varint.encode fun length => length < 2 ^ 63 :=
  Varint.exact_read faults 8

theorem exact_readFrame (what : String) (limit : Nat) :
    Exact (readFrame what limit) frame fun bytes => IsSlice bytes ∧ bytes.length ≤ limit := by
  have body (length : Nat) (_ : length < 2 ^ 63) :
      Exact (if limit < length then throw (.tooLong what length limit)
        else take StarError.unexpectedEnd length) id fun bytes : List UInt8 =>
          bytes.length = length ∧ bytes.length ≤ limit := by
    refine (exact_take _ length).unless (fun good bytes same => ?_) fun bad bytes same => ?_ <;>
      omega
  exact exact_readVarint.bind body

def Limits.Admit (limits : Limits) (pair : Pair) : Prop :=
  (IsSlice pair.key ∧ pair.key.length ≤ limits.maxKey) ∧
    IsSlice pair.value ∧ pair.value.length ≤ limits.maxValue

inductive StarReader.Step (reader : StarReader) : Option Pair → StarReader → Prop where
  | ended (done : reader.done = true) : Step reader none reader
  | ends (open_ : reader.done = false) (input : reader.input = [controlEnd]) :
      Step reader none { reader with input := [], done := true }
  | pair {pair : Pair} {rest : List UInt8} (open_ : reader.done = false)
      (input : reader.input = encodePair pair ++ rest) (fits : reader.limits.Admit pair) :
      Step reader (some pair) { reader with input := rest }

theorem StarReader.nextPair_eq_ok {found : Option Pair} :
    reader.nextPair = .ok (found, reader') ↔ reader.Step found reader' := by
  constructor
  · intro h
    unfold nextPair at h
    split at h
    · rename_i done
      cases h
      exact .ended done
    · rename_i open_
      rw [Bool.not_eq_true] at open_
      obtain ⟨⟨control, input⟩, read, h⟩ := bind_eq_ok.mp h
      have first := readByte_eq_ok.mp read
      dsimp only at h
      split at h
      · rename_i ends
        split at h
        · cases h
        · rename_i empty
          cases h
          rw [not_not.mp empty, ends] at first
          rw [not_not.mp empty]
          exact .ends open_ first
      · split at h
        · rename_i control_
          obtain ⟨⟨key, mid⟩, readKey, h⟩ := bind_eq_ok.mp h
          obtain ⟨⟨value, rest⟩, readValue, h⟩ := bind_eq_ok.mp h
          cases h
          obtain ⟨fitsKey, rfl⟩ := (exact_readFrame _ _).writes _ _ _ readKey
          obtain ⟨fitsValue, rfl⟩ := (exact_readFrame _ _).writes _ _ _ readValue
          refine .pair open_ ?_ ⟨fitsKey, fitsValue⟩
          rw [first, control_, encodePair, List.cons_append, List.append_assoc]
        · cases h
  · intro step
    cases step with
    | ended done => rw [nextPair, if_pos done]
    | ends open_ input =>
      rw [nextPair, if_neg (by simp [open_]), input]
      rfl
    | @pair pair rest open_ input fits =>
      have readKey := (exact_readFrame "key" reader.limits.maxKey).reads pair.key
        (frame pair.value ++ rest) fits.1
      have readValue := (exact_readFrame "value" reader.limits.maxValue).reads pair.value rest
        fits.2
      rw [nextPair, if_neg (by simp [open_]), input, encodePair, List.cons_append,
        List.append_assoc]
      refine bind_eq_ok.mpr ⟨_, readByte_eq_ok.mpr rfl, ?_⟩
      dsimp only
      rw [if_neg (by decide), if_pos rfl]
      exact bind_eq_ok.mpr ⟨_, readKey, bind_eq_ok.mpr ⟨_, readValue, rfl⟩⟩

theorem StarReader.nextPair_shortens
    (h : reader.nextPair = .ok (some pair, reader')) :
    reader'.input.length < reader.input.length := by
  cases nextPair_eq_ok.mp h with
  | pair open_ input fits =>
    simp only [input, encodePair, List.length_append, List.length_cons]
    omega

end Pairs

/-! ## Archives -/

def StarReader.pairs (reader : StarReader) : Except StarError (List Pair) :=
  match next : reader.nextPair with
  | .error e => .error e
  | .ok (none, _) => .ok []
  | .ok (some pair, reader') =>
    have := nextPair_shortens next
    match reader'.pairs with
    | .error e => .error e
    | .ok pairs => .ok (pair :: pairs)
termination_by reader.input.length

def readStar (limits : Limits) (input : List UInt8) : Except StarError (Meta × List Pair) := do
  let reader ← StarReader.openArchive codec limits input
  return (reader.metadata, ← reader.pairs)

section Archives

variable {codec : DagCbor} {reader : StarReader}

theorem StarReader.pairs_of_end {reader' : StarReader}
    (next : reader.nextPair = .ok (none, reader')) : reader.pairs = .ok [] := by
  rw [pairs]
  split <;> simp_all

theorem StarReader.pairs_of_pair {reader' : StarReader} {pair : Pair} {pairs : List Pair}
    (next : reader.nextPair = .ok (some pair, reader')) (rest : reader'.pairs = .ok pairs) :
    reader.pairs = .ok (pair :: pairs) := by
  rw [StarReader.pairs]
  split <;> simp_all

theorem StarReader.pairs_eq_ok (open_ : reader.done = false) {found : List Pair} :
    reader.pairs = .ok found ↔
      (∀ pair ∈ found, reader.limits.Admit pair) ∧
        reader.input = found.flatMap encodePair ++ [controlEnd] := by
  constructor
  · intro h
    fun_induction StarReader.pairs reader generalizing found with
    | case1 => cases h
    | case2 reader reader' next =>
      cases h
      cases nextPair_eq_ok.mp next with
      | ended done => simp [done] at open_
      | ends _ input => exact ⟨by simp, by simpa using input⟩
    | case3 => cases h
    | case4 reader pair reader' next shorter pairs rest ih =>
      cases h
      cases nextPair_eq_ok.mp next with
      | pair _ input fits =>
        obtain ⟨restFits, restInput⟩ := ih open_ rest
        refine ⟨List.forall_mem_cons.mpr ⟨fits, restFits⟩, ?_⟩
        dsimp only at restInput
        rw [input, restInput, List.flatMap_cons, List.append_assoc]
  · rintro ⟨fits, input⟩
    induction found generalizing reader with
    | nil => exact pairs_of_end (nextPair_eq_ok.mpr (.ends open_ input))
    | cons pair pairs ih =>
      obtain ⟨first, others⟩ := List.forall_mem_cons.mp fits
      rw [List.flatMap_cons, List.append_assoc] at input
      exact pairs_of_pair (nextPair_eq_ok.mpr (.pair open_ input first)) (ih open_ others rfl)

theorem parseMeta_eq_ok {bytes : List UInt8} {metadata : Meta} :
    parseMeta codec bytes = .ok metadata ↔
      codec.fromSlice bytes = .ok (.map metadata) ∧ hasType metadata = true ∧
        encodeMeta codec metadata = .ok bytes := by
  constructor
  · intro h
    obtain ⟨value, decoded, h⟩ := bind_eq_ok.mp h
    rw [mapError_eq_ok] at decoded
    split at h
    · rename_i found
      split at h
      · cases h
      · rename_i typed
        obtain ⟨reencoded, encoded, h⟩ := bind_eq_ok.mp h
        dsimp only at h
        split at h
        · cases h
        · rename_i same
          cases h
          rw [not_not.mp same] at encoded
          exact ⟨decoded, by simpa using typed, encoded⟩
    · cases h
  · rintro ⟨decoded, typed, encoded⟩
    refine bind_eq_ok.mpr ⟨.map metadata, mapError_eq_ok.mpr decoded, ?_⟩
    simp only [typed]
    refine bind_eq_ok.mpr ⟨bytes, encoded, ?_⟩
    rw [if_neg (not_not.mpr rfl)]
    rfl

theorem StarReader.openArchive_eq_ok {limits : Limits} {input : List UInt8} :
    StarReader.openArchive codec limits input = .ok reader ↔
      ∃ bytes, parseMeta codec bytes = .ok reader.metadata ∧
        (IsSlice bytes ∧ bytes.length ≤ limits.maxMeta) ∧
        input = magic ++ (frame bytes ++ reader.input) ∧
        reader.limits = limits ∧ reader.done = false := by
  constructor
  · intro h
    obtain ⟨⟨found, mid⟩, readMagic, h⟩ := bind_eq_ok.mp h
    dsimp only at h
    split at h
    · cases h
    · rename_i same
      obtain ⟨⟨bytes, rest⟩, readMeta, h⟩ := bind_eq_ok.mp h
      obtain ⟨metadata, parsed, h⟩ := bind_eq_ok.mp h
      cases h
      obtain ⟨-, rfl⟩ := (exact_take _ 4).writes _ _ _ readMagic
      obtain ⟨fits, rfl⟩ := (exact_readFrame _ _).writes _ _ _ readMeta
      exact ⟨bytes, parsed, fits, by rw [not_not.mp same, id], rfl, rfl⟩
  · rintro ⟨bytes, parsed, fits, rfl, rfl, open_⟩
    have readMeta := (exact_readFrame "metadata" reader.limits.maxMeta).reads bytes
      reader.input fits
    refine bind_eq_ok.mpr ⟨(magic, frame bytes ++ reader.input), ?_, ?_⟩
    · exact (exact_take _ 4).reads magic _ rfl
    · dsimp only
      rw [if_neg (not_not.mpr rfl)]
      refine bind_eq_ok.mpr ⟨_, readMeta, bind_eq_ok.mpr ⟨_, parsed, ?_⟩⟩
      rw [← open_]
      rfl

theorem writeStar_eq_ok {metadata : Meta} {pairs : List Pair} {output : List UInt8} :
    writeStar codec metadata pairs = .ok output ↔
      hasType metadata = true ∧ ∃ bytes, encodeMeta codec metadata = .ok bytes ∧
        output = magic ++ (frame bytes ++ (pairs.flatMap encodePair ++ [controlEnd])) := by
  constructor
  · intro h
    obtain ⟨header, encoded, h⟩ := bind_eq_ok.mp h
    cases h
    unfold encodeHeader at encoded
    split at encoded
    · cases encoded
    · rename_i typed
      obtain ⟨bytes, own, encoded⟩ := bind_eq_ok.mp encoded
      cases encoded
      exact ⟨by simpa using typed, bytes, own, by simp only [List.append_assoc]⟩
  · rintro ⟨typed, bytes, own, rfl⟩
    refine bind_eq_ok.mpr ⟨magic ++ frame bytes, ?_, by simp only [List.append_assoc]; rfl⟩
    simp only [encodeHeader, typed]
    exact bind_eq_ok.mpr ⟨bytes, own, rfl⟩

theorem readStar_of_writeStar {limits : Limits} {metadata : Meta} {pairs : List Pair}
    {output : List UInt8} (sorted : (Ipld.map metadata).Sorted)
    (room : ∀ bytes, encodeMeta codec metadata = .ok bytes → bytes.length ≤ limits.maxMeta)
    (fits : ∀ pair ∈ pairs, limits.Admit pair)
    (h : writeStar codec metadata pairs = .ok output) :
    readStar codec limits output = .ok (metadata, pairs) := by
  obtain ⟨typed, bytes, own, rfl⟩ := writeStar_eq_ok.mp h
  have encoded := mapError_eq_ok.mp own
  have parsed := parseMeta_eq_ok.mpr ⟨codec.fromSlice_toVec sorted encoded, typed, own⟩
  let reader : StarReader := ⟨pairs.flatMap encodePair ++ [controlEnd], limits, metadata, false⟩
  have opened : StarReader.openArchive codec limits
      (magic ++ (frame bytes ++ reader.input)) = .ok reader :=
    StarReader.openArchive_eq_ok.mpr
      ⟨bytes, parsed, ⟨codec.isSlice_toVec encoded, room bytes own⟩, rfl, rfl, rfl⟩
  refine bind_eq_ok.mpr ⟨reader, opened, bind_eq_ok.mpr ⟨pairs, ?_, rfl⟩⟩
  exact (StarReader.pairs_eq_ok rfl).mpr ⟨fits, rfl⟩

theorem writeStar_of_readStar {limits : Limits} {metadata : Meta} {pairs : List Pair}
    {input : List UInt8} (h : readStar codec limits input = .ok (metadata, pairs)) :
    writeStar codec metadata pairs = .ok input := by
  obtain ⟨reader, opened, h⟩ := bind_eq_ok.mp h
  obtain ⟨found, yields, ⟨⟩⟩ := bind_eq_ok.mp h
  obtain ⟨bytes, parsed, -, rfl, rfl, open_⟩ := StarReader.openArchive_eq_ok.mp opened
  obtain ⟨-, typed, own⟩ := parseMeta_eq_ok.mp parsed
  obtain ⟨-, rest⟩ := (StarReader.pairs_eq_ok open_).mp yields
  exact writeStar_eq_ok.mpr ⟨typed, bytes, own, by rw [rest]⟩

end Archives

/-- What is written, of byte strings that can exist, is read back; and what is read to the
end, whatever the limits, is what writing its metadata and pairs gives. -/
theorem star_roundtrip (codec : DagCbor) :
    (∀ metadata pairs output, (Ipld.map metadata).Sorted →
      (∀ pair ∈ pairs, IsSlice pair.key ∧ IsSlice pair.value) →
      writeStar codec metadata pairs = .ok output →
      readStar codec .default output = .ok (metadata, pairs)) ∧
    ∀ limits input metadata pairs,
      readStar codec limits input = .ok (metadata, pairs) →
      writeStar codec metadata pairs = .ok input := by
  have short {bytes : List UInt8} (slice : IsSlice bytes) : bytes.length ≤ u64Max := by
    unfold IsSlice at slice
    unfold u64Max
    omega
  refine ⟨fun metadata pairs output sorted slices wrote => ?_,
    fun limits input metadata pairs => writeStar_of_readStar⟩
  refine readStar_of_writeStar sorted (fun bytes own => ?_) (fun pair mem => ?_) wrote
  · exact short (codec.isSlice_toVec (mapError_eq_ok.mp own))
  · obtain ⟨key, value⟩ := slices pair mem
    exact ⟨⟨key, short key⟩, value, short value⟩

/-- The DAG-CBOR of `$type: notes` in a map. -/
def notesCbor : List UInt8 :=
  [0xa1, 0x65, 0x24, 0x74, 0x79, 0x70, 0x65, 0x65, 0x6e, 0x6f, 0x74, 0x65, 0x73]

def oneValueCodec : DagCbor where
  toVec
    | .map [("$type", .string "notes")] => .ok notesCbor
    | _ => .error "unsupported"
  fromSlice bytes := if bytes = notesCbor then .ok (.map [("$type", .string "notes")])
    else .error "unsupported"
  isSlice_toVec h := by
    split at h <;> cases h
    decide
  fromSlice_toVec _ h := by
    split at h <;> cases h
    rfl

theorem star_roundtrip_notes :
    writeStar oneValueCodec [("$type", .string "notes")] [⟨[7], [8, 9]⟩] =
      .ok ([0x2a, 0x6c, 1, 0, 13] ++ notesCbor ++ [1, 1, 7, 2, 8, 9, 0]) ∧
    readStar oneValueCodec .default ([0x2a, 0x6c, 1, 0, 13] ++ notesCbor ++ [1, 1, 7, 2, 8, 9, 0]) =
      .ok ([("$type", .string "notes")], [⟨[7], [8, 9]⟩]) := by
  have wrote : writeStar oneValueCodec [("$type", .string "notes")] [⟨[7], [8, 9]⟩] =
      .ok ([0x2a, 0x6c, 1, 0, 13] ++ notesCbor ++ [1, 1, 7, 2, 8, 9, 0]) := by decide +kernel
  have sorted : (Ipld.map [("$type", .string "notes")]).Sorted := by
    simp [Ipld.Sorted, Ipld.SortedEntries]
  exact ⟨wrote, (star_roundtrip oneValueCodec).1 _ _ _ sorted (by decide) wrote⟩

end HappyView.Star
