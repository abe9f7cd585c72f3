import HappyView.Foundation.Bytes
import Mathlib.Data.List.Sort
import Mathlib.Data.Prod.Lex
import Mathlib.Data.String.Basic

/-!
# CBOR

Values and their bytes. Every item begins with a head: its major type and a number, which is
written in the shortest form. No encoding is the beginning of another one
(`encode_append_inj`), so bytes stand for one value at most.

In the canonical order the keys of a map stand with the shorter ones first, and those of one
length bytewise. `canonical` puts every map into that order.
-/

namespace HappyView.Foundation.Cbor

open Bytes

inductive Value where
  | unsigned (n : Nat)
  /-- The number `-1 - n`. -/
  | negative (n : Nat)
  | bytes (bytes : List UInt8)
  | text (text : String)
  | array (items : List Value)
  | map (pairs : List (Value × Value))
  | tag (number : Nat) (value : Value)
  | bool (value : Bool)
  | null
  /-- The two, four or eight bytes of a floating-point number. -/
  | float (bytes : List UInt8)

/-! ## Heads -/

def width (n : Nat) : Nat :=
  if n < 24 then 0 else if n < 256 then 1 else if n < 65536 then 2 else if n < 4294967296 then 4
  else 8

def info (n : Nat) : Nat :=
  if n < 24 then n else if n < 256 then 24 else if n < 65536 then 25 else if n < 4294967296 then 26
  else 27

def head (major n : Nat) : List UInt8 := .ofNat (32 * major + info n) :: big (width n) n

theorem info_lt (n : Nat) : info n < 28 := by
  unfold info
  grind

theorem lt_width {n : Nat} (small : n < 2 ^ 64) : 24 ≤ n → n < 256 ^ width n := by
  unfold width
  grind

theorem head_append_inj {major major' n n' : Nat} {rest rest' : List UInt8} (hm : major < 8)
    (hm' : major' < 8) (hn : n < 2 ^ 64) (hn' : n' < 2 ^ 64)
    (same : head major n ++ rest = head major' n' ++ rest') :
    major = major' ∧ n = n' ∧ rest = rest' := by
  simp only [head, List.cons_append, List.cons.injEq] at same
  obtain ⟨first, same⟩ := same
  have byte := congrArg UInt8.toNat first
  rw [UInt8.toNat_ofNat', UInt8.toNat_ofNat'] at byte
  have := info_lt n
  have := info_lt n'
  have infos : info n = info n' := by omega
  have widths : width n = width n' := by
    unfold info at infos
    unfold width
    grind
  rw [widths] at same
  obtain ⟨bytes, rests⟩ := List.append_inj same (by simp)
  refine ⟨by omega, ?_, rests⟩
  by_cases direct : n < 24
  · unfold info at infos
    grind
  · have direct' : ¬ n' < 24 := by
      unfold info at infos
      grind
    refine big_inj ?_ (lt_width hn' (by omega)) bytes
    rw [← widths]
    exact lt_width hn (by omega)

/-! ## Encoding -/

mutual

def encode : Value → List UInt8
  | .unsigned n => head 0 n
  | .negative n => head 1 n
  | .bytes bytes => head 2 bytes.length ++ bytes
  | .text text => head 3 (utf8 text).length ++ utf8 text
  | .array items => head 4 items.length ++ encodeItems items
  | .map pairs => head 5 pairs.length ++ encodePairs pairs
  | .tag number value => head 6 number ++ encode value
  | .bool value => head 7 (if value then 21 else 20)
  | .null => head 7 22
  | .float bytes => .ofNat (32 * 7 + 24 + bytes.length.log2) :: bytes

def encodeItems : List Value → List UInt8
  | [] => []
  | item :: items => encode item ++ encodeItems items

def encodePairs : List (Value × Value) → List UInt8
  | [] => []
  | (key, value) :: pairs => encode key ++ encode value ++ encodePairs pairs

end

mutual

/-- The numbers and lengths in a value fit their heads. -/
def Fits : Value → Prop
  | .unsigned n | .negative n => n < 2 ^ 64
  | .bytes bytes => bytes.length < 2 ^ 64
  | .text text => (utf8 text).length < 2 ^ 64
  | .array items => items.length < 2 ^ 64 ∧ FitsItems items
  | .map pairs => pairs.length < 2 ^ 64 ∧ FitsPairs pairs
  | .tag number value => number < 2 ^ 64 ∧ Fits value
  | .bool _ | .null => True
  | .float bytes => bytes.length = 2 ∨ bytes.length = 4 ∨ bytes.length = 8

def FitsItems : List Value → Prop
  | [] => True
  | item :: items => Fits item ∧ FitsItems items

def FitsPairs : List (Value × Value) → Prop
  | [] => True
  | (key, value) :: pairs => Fits key ∧ Fits value ∧ FitsPairs pairs

end

def kind : Value → Nat
  | .unsigned _ => 0
  | .negative _ => 1
  | .bytes _ => 2
  | .text _ => 3
  | .array _ => 4
  | .map _ => 5
  | .tag _ _ => 6
  | .bool _ => 7
  | .null => 8
  | .float _ => 9

def kindOf (byte : UInt8) : Nat :=
  if byte.toNat / 32 < 7 then byte.toNat / 32
  else if byte.toNat % 32 < 22 then 7
  else if byte.toNat % 32 = 22 then 8
  else 9

theorem kindOf_ofNat {byte : Nat} (small : byte < 256) :
    kindOf (.ofNat byte) = if byte / 32 < 7 then byte / 32 else if byte % 32 < 22 then 7
      else if byte % 32 = 22 then 8 else 9 := by
  rw [kindOf, UInt8.toNat_ofNat', Nat.mod_eq_of_lt small]

theorem kindOf_head {major : Nat} (n : Nat) (rest : List UInt8) (hm : major < 7) :
    ∃ byte tail, head major n ++ rest = byte :: tail ∧ kindOf byte = major := by
  refine ⟨_, _, rfl, ?_⟩
  have := info_lt n
  rw [kindOf_ofNat (by omega), if_pos (by omega)]
  omega

theorem kindOf_encode {value : Value} (fits : Fits value) (rest : List UInt8) :
    ∃ byte tail, encode value ++ rest = byte :: tail ∧ kindOf byte = kind value := by
  cases value with
  | unsigned n => exact kindOf_head n rest (by omega)
  | negative n => exact kindOf_head n rest (by omega)
  | bytes bytes =>
    rw [encode, List.append_assoc]
    exact kindOf_head _ _ (by omega)
  | text text =>
    rw [encode, List.append_assoc]
    exact kindOf_head _ _ (by omega)
  | array items =>
    rw [encode, List.append_assoc]
    exact kindOf_head _ _ (by omega)
  | map pairs =>
    rw [encode, List.append_assoc]
    exact kindOf_head _ _ (by omega)
  | tag number value =>
    rw [encode, List.append_assoc]
    exact kindOf_head _ _ (by omega)
  | bool value =>
    refine ⟨_, _, rfl, ?_⟩
    cases value <;> decide
  | null => exact ⟨_, _, rfl, by decide⟩
  | float bytes =>
    refine ⟨_, _, rfl, ?_⟩
    change kindOf _ = 9
    rcases fits with size | size | size <;> rw [size] <;> decide

mutual

theorem encode_append_inj : ∀ {v w : Value} {rest rest' : List UInt8}, Fits v → Fits w →
    encode v ++ rest = encode w ++ rest' → v = w ∧ rest = rest' := by
  intro v w rest rest' fitsV fitsW same
  have kinds : kind v = kind w := by
    obtain ⟨byte, tail, front, isV⟩ := kindOf_encode fitsV rest
    obtain ⟨byte', tail', front', isW⟩ := kindOf_encode fitsW rest'
    rw [front, front'] at same
    rw [← isV, ← isW, (List.cons.inj same).1]
  cases v with
  | unsigned n =>
    cases w <;> cases kinds
    obtain ⟨-, rfl, rests⟩ := head_append_inj (by omega) (by omega) fitsV fitsW same
    exact ⟨rfl, rests⟩
  | negative n =>
    cases w <;> cases kinds
    obtain ⟨-, rfl, rests⟩ := head_append_inj (by omega) (by omega) fitsV fitsW same
    exact ⟨rfl, rests⟩
  | bytes bytes =>
    cases w <;> cases kinds
    simp only [encode, List.append_assoc] at same
    obtain ⟨-, lengths, same⟩ := head_append_inj (by omega) (by omega) fitsV fitsW same
    obtain ⟨rfl, rests⟩ := List.append_inj same lengths
    exact ⟨rfl, rests⟩
  | text text =>
    cases w <;> cases kinds
    simp only [encode, List.append_assoc] at same
    obtain ⟨-, lengths, same⟩ := head_append_inj (by omega) (by omega) fitsV fitsW same
    obtain ⟨texts, rests⟩ := List.append_inj same lengths
    exact ⟨by rw [utf8_injective texts], rests⟩
  | array items =>
    cases w <;> cases kinds
    simp only [encode, List.append_assoc] at same
    obtain ⟨-, lengths, same⟩ := head_append_inj (by omega) (by omega) fitsV.1 fitsW.1 same
    obtain ⟨rfl, rests⟩ := encodeItems_append_inj fitsV.2 fitsW.2 lengths same
    exact ⟨rfl, rests⟩
  | map pairs =>
    cases w <;> cases kinds
    simp only [encode, List.append_assoc] at same
    obtain ⟨-, lengths, same⟩ := head_append_inj (by omega) (by omega) fitsV.1 fitsW.1 same
    obtain ⟨rfl, rests⟩ := encodePairs_append_inj fitsV.2 fitsW.2 lengths same
    exact ⟨rfl, rests⟩
  | tag number value =>
    cases w <;> cases kinds
    simp only [encode, List.append_assoc] at same
    obtain ⟨-, rfl, tails⟩ := head_append_inj (by omega) (by omega) fitsV.1 fitsW.1 same
    obtain ⟨rfl, rests⟩ := encode_append_inj fitsV.2 fitsW.2 tails
    exact ⟨rfl, rests⟩
  | bool value =>
    cases w <;> cases kinds
    rename_i value'
    obtain ⟨-, values, rests⟩ := head_append_inj (by omega) (by omega) (by grind) (by grind) same
    exact ⟨by grind, rests⟩
  | null =>
    cases w <;> cases kinds
    obtain ⟨-, -, rests⟩ := head_append_inj (by omega) (by omega) (by omega) (by omega) same
    exact ⟨rfl, rests⟩
  | float bytes =>
    cases w <;> cases kinds
    rename_i bytes'
    simp only [encode, List.cons_append, List.cons.injEq] at same
    have lengths : bytes.length = bytes'.length := by
      have first := same.1
      rcases fitsV with size | size | size <;> rcases fitsW with size' | size' | size' <;>
        rw [size, size'] at first ⊢ <;> revert first <;> decide
    obtain ⟨rfl, rests⟩ := List.append_inj same.2 lengths
    exact ⟨rfl, rests⟩

theorem encodeItems_append_inj : ∀ {vs ws : List Value} {rest rest' : List UInt8}, FitsItems vs →
    FitsItems ws → vs.length = ws.length → encodeItems vs ++ rest = encodeItems ws ++ rest' →
    vs = ws ∧ rest = rest'
  | [], [], _, _, _, _, _, same => ⟨rfl, same⟩
  | v :: vs, w :: ws, _, _, fitsV, fitsW, lengths, same => by
    simp only [encodeItems, List.append_assoc] at same
    obtain ⟨rfl, tails⟩ := encode_append_inj fitsV.1 fitsW.1 same
    obtain ⟨rfl, rests⟩ := encodeItems_append_inj fitsV.2 fitsW.2 (Nat.succ.inj lengths) tails
    exact ⟨rfl, rests⟩

theorem encodePairs_append_inj : ∀ {vs ws : List (Value × Value)} {rest rest' : List UInt8},
    FitsPairs vs → FitsPairs ws → vs.length = ws.length →
    encodePairs vs ++ rest = encodePairs ws ++ rest' → vs = ws ∧ rest = rest'
  | [], [], _, _, _, _, _, same => ⟨rfl, same⟩
  | (k, v) :: vs, (l, w) :: ws, _, _, fitsV, fitsW, lengths, same => by
    simp only [encodePairs, List.append_assoc] at same
    obtain ⟨rfl, values⟩ := encode_append_inj fitsV.1 fitsW.1 same
    obtain ⟨rfl, tails⟩ := encode_append_inj fitsV.2.1 fitsW.2.1 values
    obtain ⟨rfl, rests⟩ := encodePairs_append_inj fitsV.2.2 fitsW.2.2 (Nat.succ.inj lengths) tails
    exact ⟨rfl, rests⟩

end

theorem encode_inj {v w : Value} (fitsV : Fits v) (fitsW : Fits w) (same : encode v = encode w) :
    v = w := by
  have appended : encode v ++ [] = encode w ++ [] := by rw [same]
  exact (encode_append_inj fitsV fitsW appended).1

/-! ## The canonical order of keys -/

def rank : Value → Nat ×ₗ String
  | .text text => toLex ((utf8 text).length, text)
  | _ => toLex (0, "")

mutual

def Canonical : Value → Prop
  | .array items => CanonicalItems items
  | .map pairs => (pairs.Pairwise fun a b => rank a.1 < rank b.1) ∧ CanonicalPairs pairs
  | .tag _ value => Canonical value
  | .unsigned _ | .negative _ | .bytes _ | .text _ | .bool _ | .null | .float _ => True

def CanonicalItems : List Value → Prop
  | [] => True
  | item :: items => Canonical item ∧ CanonicalItems items

def CanonicalPairs : List (Value × Value) → Prop
  | [] => True
  | (key, value) :: pairs => Canonical key ∧ Canonical value ∧ CanonicalPairs pairs

end

mutual

/-- The value with the keys of every map in order. -/
def canonical : Value → Value
  | .array items => .array (canonicalItems items)
  | .map pairs => .map ((canonicalPairs pairs).insertionSort fun a b => rank a.1 ≤ rank b.1)
  | .tag number value => .tag number (canonical value)
  | .unsigned n => .unsigned n
  | .negative n => .negative n
  | .bytes bytes => .bytes bytes
  | .text text => .text text
  | .bool value => .bool value
  | .null => .null
  | .float bytes => .float bytes

def canonicalItems : List Value → List Value
  | [] => []
  | item :: items => canonical item :: canonicalItems items

def canonicalPairs : List (Value × Value) → List (Value × Value)
  | [] => []
  | (key, value) :: pairs => (canonical key, canonical value) :: canonicalPairs pairs

end

mutual

theorem canonical_eq_self : ∀ {v : Value}, Canonical v → canonical v = v := by
  intro v ordered
  cases v with
  | array items => rw [canonical, canonicalItems_eq_self ordered]
  | map pairs =>
    rw [canonical, canonicalPairs_eq_self ordered.2,
      (ordered.1.imp le_of_lt).insertionSort_eq]
  | tag number value => rw [canonical, canonical_eq_self (v := value) ordered]
  | unsigned | negative | bytes | text | bool | null | float => rfl

theorem canonicalItems_eq_self : ∀ {items : List Value}, CanonicalItems items →
    canonicalItems items = items
  | [], _ => rfl
  | _ :: _, ordered => by
    rw [canonicalItems, canonical_eq_self ordered.1, canonicalItems_eq_self ordered.2]

theorem canonicalPairs_eq_self : ∀ {pairs : List (Value × Value)}, CanonicalPairs pairs →
    canonicalPairs pairs = pairs
  | [], _ => rfl
  | (_, _) :: _, ordered => by
    rw [canonicalPairs, canonical_eq_self ordered.1, canonical_eq_self ordered.2.1,
      canonicalPairs_eq_self ordered.2.2]

end

theorem reencode_eq_self {v w : Value} (ordered : Canonical v) (fitsV : Fits v) (fitsW : Fits w)
    (read : encode w = encode v) : encode (canonical w) = encode v := by
  rw [encode_inj fitsW fitsV read, canonical_eq_self ordered]

end HappyView.Foundation.Cbor
