import HappyView.Foundation.Calendar
import HappyView.Foundation.Digits
import Mathlib.Data.String.Basic

/-!
# Timestamps

Times are stored and compared as the texts that `to_rfc3339` of chrono writes. The crate is a
parameter, `Chrono`: the texts of instants in the years 0 to 9999 are ordered as the instants, any
other year is written with a sign and comes before them all, and these years can be represented.
`chrono` has these laws, with the texts that the crate documents.
-/

namespace HappyView.Timestamp

open HappyView.Foundation

structure Instant where
  secs : Int
  nanos : Nat
  nanos_lt : nanos < 10 ^ 9

theorem Instant.zero_nanos_lt : 0 < 10 ^ 9 := by decide

def Instant.count (t : Instant) : Int := t.secs * 10 ^ 9 + t.nanos

def numeral (width n : Nat) : List Char := (Digits.digits 10 width n).map Nat.digitChar

def render : List (List Char × Nat) → List Nat → List Char
  | (lead, width) :: fields, n :: ns => lead ++ (numeral width n ++ render fields ns)
  | _, _ => []

def yearText (year : Int) : List Char :=
  if 0 ≤ year ∧ year ≤ 9999 then numeral 4 year.toNat
  else (if year < 0 then '-' else '+') :: (Nat.toDigits 10 year.natAbs).leftpad 4 '0'

def groups : List Nat → List Char
  | [] => []
  | g :: gs => if (g :: gs).all (· = 0) then [] else numeral 3 g ++ groups gs

def fraction (nanos : Nat) : List Char :=
  if nanos = 0 then []
  else '.' :: groups [nanos / 10 ^ 6, nanos / 10 ^ 3 % 10 ^ 3, nanos % 10 ^ 3]

def dayNumber (secs : Int) : Int := secs / 86400 + 719528

def secondOfDay (secs : Int) : Nat := (secs % 86400).toNat

def dateTimeFields : List (List Char × Nat) :=
  [(['-'], 2), (['-'], 2), (['T'], 2), ([':'], 2), ([':'], 2)]

def dateTimeValues (secs : Int) : List Nat :=
  let date := Calendar.dateOf (dayNumber secs)
  let second := secondOfDay secs
  [date.month, date.day, second / 3600, second / 60 % 60, second % 60]

def rfc3339Chars (t : Instant) : List Char :=
  yearText (Calendar.dateOf (dayNumber t.secs)).year ++
    (render dateTimeFields (dateTimeValues t.secs) ++ (fraction t.nanos ++ "+00:00".toList))

def rfc3339 (t : Instant) : String := String.ofList (rfc3339Chars t)

def fromTimestamp (secs : Int) : Option Instant :=
  let year := (Calendar.dateOf (dayNumber secs)).year
  if -262143 ≤ year ∧ year ≤ 262142 then some ⟨secs, 0, Instant.zero_nanos_lt⟩ else none

/-- What is used of the crate. -/
structure Chrono where
  rfc3339 : Instant → String
  fromTimestamp : Int → Option Instant

def chrono : Chrono := ⟨rfc3339, fromTimestamp⟩

example : rfc3339 ⟨1700000000, 123456000, by decide⟩ = "2023-11-14T22:13:20.123456+00:00" := by
  decide +kernel

example : rfc3339 ⟨253402300800, 0, by decide⟩ = "+10000-01-01T00:00:00+00:00" := by
  decide +kernel

/-! ## Numerals -/

theorem digitChar_lt {a b : Nat} (ha : a < 10) (hb : b < 10) :
    Nat.digitChar a < Nat.digitChar b ↔ a < b := by
  have all : ∀ a b : Fin 10, Nat.digitChar a < Nat.digitChar b ↔ a < b := by decide
  exact all ⟨a, ha⟩ ⟨b, hb⟩

@[simp] theorem length_numeral (width n : Nat) : (numeral width n).length = width := by
  simp [numeral]

theorem numeral_lt {width m n : Nat} (hm : m < 10 ^ width) (hn : n < 10 ^ width) :
    numeral width m < numeral width n ↔ m < n := by
  have digit {n d : Nat} : d ∈ Digits.digits 10 width n → d < 10 :=
    Digits.lt_of_mem_digits (by omega)
  rw [numeral, numeral, Digits.map_lt (fun _ _ => digitChar_lt) (fun _ => digit) (fun _ => digit),
    Digits.digits_lt hm hn]

theorem numeral_inj {width m n : Nat} (hm : m < 10 ^ width) (hn : n < 10 ^ width) :
    numeral width m = numeral width n ↔ m = n := by
  constructor
  · intro same
    have notBelow := mt (numeral_lt hm hn).mpr (by simp [same])
    have notAbove := mt (numeral_lt hn hm).mpr (by simp [same])
    omega
  · rintro rfl
    rfl

theorem numeral_append_lt {width m n : Nat} {as bs : List Char} (hm : m < 10 ^ width)
    (hn : n < 10 ^ width) :
    numeral width m ++ as < numeral width n ++ bs ↔ m < n ∨ m = n ∧ as < bs := by
  rw [Digits.append_lt (by simp), numeral_lt hm hn, numeral_inj hm hn]

def Fits (fields : List (List Char × Nat)) (ns : List Nat) : Prop :=
  List.Forall₂ (fun field n => n < 10 ^ field.2) fields ns

theorem render_append_lt {fields : List (List Char × Nat)} {ms ns : List Nat} {as bs : List Char}
    (hm : Fits fields ms) (hn : Fits fields ns) :
    render fields ms ++ as < render fields ns ++ bs ↔ ms < ns ∨ ms = ns ∧ as < bs := by
  induction hm generalizing ns with
  | nil =>
    cases hn
    simp [render]
  | cons first rest ih =>
    cases hn with
    | cons first' rest' =>
      simp only [render, List.append_assoc]
      rw [Digits.append_lt rfl, numeral_append_lt first first', ih rest', List.cons_lt_cons_iff]
      simp only [lt_self_iff_false, false_or, true_and, List.cons.injEq]
      tauto

theorem signs_lt_of_mem_numeral {width n : Nat} {c : Char} (h : c ∈ numeral width n) :
    '+' < c ∧ '-' < c := by
  have all : ∀ d : Fin 10, '+' < Nat.digitChar d ∧ '-' < Nat.digitChar d := by decide
  obtain ⟨d, mem, rfl⟩ := List.mem_map.mp h
  exact all ⟨d, Digits.lt_of_mem_digits (by omega) mem⟩

theorem sign_lt_numeral {width n : Nat} {sign : Char} {as bs : List Char}
    (h : sign = '+' ∨ sign = '-') : sign :: as < numeral (width + 1) n ++ bs := by
  obtain ⟨c, cs, split⟩ := List.exists_cons_of_length_eq_add_one (length_numeral (width + 1) n)
  have mem : c ∈ numeral (width + 1) n := by simp [split]
  rw [split, List.cons_append, List.cons_lt_cons_iff]
  rcases h with rfl | rfl
  · exact .inl (signs_lt_of_mem_numeral mem).1
  · exact .inl (signs_lt_of_mem_numeral mem).2

/-! ## Fractions -/

theorem not_lt_zeros {gs hs : List Nat} (length : gs.length = hs.length)
    (zero : hs.all (· = 0) = true) : ¬ gs < hs := by
  induction gs generalizing hs with
  | nil => simp [List.length_eq_zero_iff.mp length.symm]
  | cons g gs ih =>
    obtain ⟨h, hs, rfl⟩ := List.exists_cons_of_length_eq_add_one length.symm
    simp only [List.all_cons, Bool.and_eq_true, decide_eq_true_eq] at zero
    have rest := ih (Nat.succ.inj length) zero.2
    rw [List.cons_lt_cons_iff, zero.1]
    simp [rest]

theorem groups_append_lt {gs hs : List Nat} {zone : List Char} (length : gs.length = hs.length)
    (hg : ∀ g ∈ gs, g < 10 ^ 3) (hh : ∀ h ∈ hs, h < 10 ^ 3) (lt : gs < hs) :
    groups gs ++ '+' :: zone < groups hs ++ '+' :: zone := by
  induction gs generalizing hs with
  | nil => simp [List.length_eq_zero_iff.mp length.symm] at lt
  | cons g gs ih =>
    obtain ⟨h, hs, rfl⟩ := List.exists_cons_of_length_eq_add_one length.symm
    rw [groups, groups, if_neg fun zero => not_lt_zeros length zero lt, List.append_assoc]
    split
    · exact sign_lt_numeral (.inl rfl)
    · rw [List.append_assoc, numeral_append_lt (hg g (by simp)) (hh h (by simp))]
      rcases List.cons_lt_cons_iff.mp lt with less | ⟨same, less⟩
      · exact .inl less
      · exact .inr ⟨same, ih (by simpa using length) (fun g mem => hg g (by simp [mem]))
          (fun h mem => hh h (by simp [mem])) less⟩

theorem fraction_append_lt {m n : Nat} {zone : List Char} (hn : n < 10 ^ 9) (lt : m < n) :
    fraction m ++ '+' :: zone < fraction n ++ '+' :: zone := by
  rw [fraction, fraction, if_neg (by omega : n ≠ 0)]
  split
  · exact List.cons_lt_cons_iff.mpr (.inl (by decide))
  · rw [List.cons_append, List.cons_append, List.cons_lt_cons_iff]
    refine .inr ⟨rfl, groups_append_lt rfl ?_ ?_ ?_⟩
    · simp
      omega
    · simp
      omega
    · simp only [List.cons_lt_cons_iff]
      omega

/-! ## Order -/

def FourDigit (secs : Int) : Prop := -62167219200 ≤ secs ∧ secs ≤ 253402300799

instance (secs : Int) : Decidable (FourDigit secs) := inferInstanceAs (Decidable (_ ∧ _))

structure Chrono.Laws (C : Chrono) : Prop where
  eq_of_fromTimestamp : ∀ {secs t}, C.fromTimestamp secs = some t →
    t = ⟨secs, 0, Instant.zero_nanos_lt⟩
  represented : ∀ {secs}, FourDigit secs → (C.fromTimestamp secs).isSome
  rfc3339_lt : ∀ {a b : Instant}, FourDigit a.secs → FourDigit b.secs →
    (C.rfc3339 a < C.rfc3339 b ↔ a.count < b.count)
  signed_lt : ∀ {a b : Instant}, (C.fromTimestamp a.secs).isSome → ¬ FourDigit a.secs →
    FourDigit b.secs → C.rfc3339 a < C.rfc3339 b

theorem fourDigit_iff {secs : Int} : FourDigit secs ↔
    0 ≤ (Calendar.dateOf (dayNumber secs)).year ∧
      (Calendar.dateOf (dayNumber secs)).year ≤ 9999 := by
  rw [Calendar.year_dateOf_nonneg, Calendar.year_dateOf_le, FourDigit, dayNumber]
  omega

theorem fits_dateTimeValues (secs : Int) : Fits dateTimeFields (dateTimeValues secs) := by
  have month := Calendar.monthOf_lt (Calendar.cycleDay (dayNumber secs))
  have day := Calendar.dayOf_lt (Calendar.cycleDay (dayNumber secs))
  have second : secondOfDay secs < 86400 := by
    unfold secondOfDay
    omega
  simp only [Fits, dateTimeFields, dateTimeValues, List.forall₂_cons, List.Forall₂.nil, and_true,
    Calendar.dateOf]
  omega

theorem values_lt {a b : Int} (h : a < b) :
    (Calendar.dateOf (dayNumber a)).year < (Calendar.dateOf (dayNumber b)).year ∨
      (Calendar.dateOf (dayNumber a)).year = (Calendar.dateOf (dayNumber b)).year ∧
        dateTimeValues a < dateTimeValues b := by
  have same : dayNumber a = dayNumber b → secondOfDay a < secondOfDay b := by
    unfold dayNumber secondOfDay
    omega
  have mono : dayNumber a ≤ dayNumber b := by
    unfold dayNumber
    omega
  simp only [dateTimeValues, List.cons_lt_cons_iff]
  rcases Int.lt_or_eq_of_le mono with day | day
  · rcases Calendar.dateOf_before day with year | ⟨year, rest⟩
    · exact .inl year
    · refine .inr ⟨year, ?_⟩
      tauto
  · rw [day]
    have := same day
    refine .inr ⟨rfl, ?_⟩
    simp only [lt_self_iff_false, false_or, true_and]
    omega

theorem rfc3339_lt_of_count_lt {a b : Instant} (ha : FourDigit a.secs) (hb : FourDigit b.secs)
    (h : a.count < b.count) : rfc3339 a < rfc3339 b := by
  have fa := fourDigit_iff.mp ha
  have fb := fourDigit_iff.mp hb
  rw [String.lt_iff_toList_lt, rfc3339, rfc3339, String.toList_ofList, String.toList_ofList,
    rfc3339Chars, rfc3339Chars, yearText, yearText, if_pos fa, if_pos fb,
    numeral_append_lt (by omega) (by omega),
    render_append_lt (fits_dateTimeValues a.secs) (fits_dateTimeValues b.secs)]
  have na := a.nanos_lt
  have nb := b.nanos_lt
  unfold Instant.count at h
  rcases Int.lt_or_eq_of_le (by omega : a.secs ≤ b.secs) with secs | secs
  · rcases values_lt secs with year | ⟨year, values⟩
    · left
      omega
    · exact .inr ⟨by rw [year], .inl values⟩
  · rw [secs]
    exact .inr ⟨rfl, .inr ⟨rfl, fraction_append_lt nb (by omega)⟩⟩

theorem rfc3339_lt {a b : Instant} (ha : FourDigit a.secs) (hb : FourDigit b.secs) :
    rfc3339 a < rfc3339 b ↔ a.count < b.count := by
  refine ⟨fun lt => ?_, rfc3339_lt_of_count_lt ha hb⟩
  rcases Int.lt_trichotomy a.count b.count with below | same | above
  · exact below
  · have na := a.nanos_lt
    have nb := b.nanos_lt
    obtain ⟨s, n, hs⟩ := a
    obtain ⟨s', n', hs'⟩ := b
    unfold Instant.count at same
    simp only at same na nb
    obtain rfl : s = s' := by omega
    obtain rfl : n = n' := by omega
    exact absurd lt (lt_irrefl _)
  · exact absurd (lt.trans (rfc3339_lt_of_count_lt hb ha above)) (lt_irrefl _)

theorem rfc3339_lt_of_signed {a b : Instant} (ha : ¬ FourDigit a.secs) (hb : FourDigit b.secs) :
    rfc3339 a < rfc3339 b := by
  rw [String.lt_iff_toList_lt, rfc3339, rfc3339, String.toList_ofList, String.toList_ofList,
    rfc3339Chars, rfc3339Chars, yearText, yearText, if_neg (mt fourDigit_iff.mpr ha),
    if_pos (fourDigit_iff.mp hb), List.cons_append]
  refine sign_lt_numeral ?_
  split
  · exact .inr rfl
  · exact .inl rfl

theorem chrono_laws : chrono.Laws where
  eq_of_fromTimestamp h := (Option.some.inj (Option.ite_none_right_eq_some.mp h).2).symm
  represented h := by
    have year := fourDigit_iff.mp h
    exact Option.isSome_iff_exists.mpr ⟨_, if_pos (by omega)⟩
  rfc3339_lt := rfc3339_lt
  signed_lt _ := rfc3339_lt_of_signed

end HappyView.Timestamp
