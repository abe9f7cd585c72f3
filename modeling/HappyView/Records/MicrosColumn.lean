import HappyView.Foundation.Bytes
import HappyView.Timestamp

/-!
# The compact timestamp column

The record tables hold a time as microseconds since the epoch. `parse_micros` reads the texts
that timestamps have been written as, byte by byte, and `render_micros` writes one form of them.
-/

namespace HappyView.Records.MicrosColumn

open HappyView.Foundation HappyView.Foundation.Bytes HappyView.Timestamp

/-- `0000-01-01T00:00:00Z`. -/
def minMicros : Int := -62167219200000000

/-- `9999-12-31T23:59:59.999999Z`. -/
def maxMicros : Int := 253402300799999999

def isDigit (b : UInt8) : Bool := byte '0' ≤ b && b ≤ byte '9'

def digits (bytes : List UInt8) : Option Nat :=
  if bytes = [] then none
  else bytes.foldlM (fun n b => if isDigit b then some (n * 10 + (b.toNat - 48)) else none) 0

def readFraction (rest : List UInt8) : Option (Nat × List UInt8) :=
  match rest with
  | dot :: fraction =>
    if dot = byte '.' then do
      let kept := (fraction.takeWhile isDigit).take 9
      let n ← digits kept
      return (n * 10 ^ (9 - kept.length), fraction.dropWhile isDigit)
    else some (0, rest)
  | [] => some (0, [])

/-- The hours and minutes of an offset: `HH`, `HHMM` or `HH:MM`. -/
def readZone : List UInt8 → Option (Nat × Nat)
  | [h1, h2] => do return (← digits [h1, h2], 0)
  | [h1, h2, m1, m2] => do return (← digits [h1, h2], ← digits [m1, m2])
  | [h1, h2, colon, m1, m2] =>
    if colon = byte ':' then do return (← digits [h1, h2], ← digits [m1, m2]) else none
  | _ => none

def readOffset (rest : List UInt8) : Option Int :=
  match rest with
  | [] => some 0
  | sign :: zone =>
    if zone = [] ∧ (sign = byte 'Z' ∨ sign = byte 'z') then some 0
    else if sign = byte '+' ∨ sign = byte '-' then do
      let (h, m) ← readZone zone
      if h > 23 ∨ m > 59 then none
      else if sign = byte '-' then some (-(h * 3600 + m * 60 : Nat))
      else some (h * 3600 + m * 60 : Nat)
    else none

/-- `NaiveDate::from_ymd_opt`, as the days since the epoch. -/
def fromYmdOpt (year month day : Nat) : Option Int :=
  let date : Calendar.Date := ⟨year, month, day⟩
  if date.Valid then some (date.number - 719528) else none

structure Parts where
  year : List UInt8
  month : List UInt8
  day : List UInt8
  sep : UInt8
  hour : List UInt8
  minute : List UInt8
  second : List UInt8
  rest : List UInt8

def cut : List UInt8 → Option Parts
  | y1 :: y2 :: y3 :: y4 :: b4 :: mo1 :: mo2 :: b7 :: d1 :: d2 :: b10 :: h1 :: h2 :: b13 ::
      mi1 :: mi2 :: b16 :: s1 :: s2 :: rest =>
    if b4 ≠ byte '-' ∨ b7 ≠ byte '-' ∨ ¬ (b10 = byte 'T' ∨ b10 = byte 't' ∨ b10 = byte ' ') ∨
        b13 ≠ byte ':' ∨ b16 ≠ byte ':' then none
    else some ⟨[y1, y2, y3, y4], [mo1, mo2], [d1, d2], b10, [h1, h2], [mi1, mi2], [s1, s2], rest⟩
  | _ => none

def Parts.micros (parts : Parts) : Option Int := do
  let year ← digits parts.year
  let month ← digits parts.month
  let day ← digits parts.day
  let hour ← digits parts.hour
  let minute ← digits parts.minute
  let second ← digits parts.second
  if hour > 23 ∨ minute > 59 ∨ second > 60 then none
  else do
    let days ← fromYmdOpt year month day
    let (nanos, rest) ← readFraction parts.rest
    let offset ← readOffset rest
    let seconds := days * 86400 + hour * 3600 + minute * 60 + second - offset
    let us : Int := seconds * 1000000 + ((nanos + 500) / 1000 : Nat)
    if minMicros ≤ us ∧ us ≤ maxMicros then some us else none

def parseMicros (text : String) : Option Int := (cut (utf8 text)).bind Parts.micros

def invalidText (us : Int) : String := "invalid timestamp " ++ toString us

/-- `%Y-%m-%dT%H:%M:%S%.6f+00:00`. -/
def formatMicros (secs : Int) (micros : Nat) : List Char :=
  yearText (Calendar.dateOf (dayNumber secs)).year ++
    (render dateTimeFields (dateTimeValues secs) ++
      (render [(['.'], 6)] [micros] ++ "+00:00".toList))

def renderMicros (us : Int) : String :=
  match fromTimestamp (us / 10 ^ 6) with
  | some t =>
    if minMicros ≤ us ∧ us ≤ maxMicros then
      String.ofList (formatMicros t.secs (us % 10 ^ 6).toNat)
    else invalidText us
  | none => invalidText us

example : renderMicros (-1) = "1969-12-31T23:59:59.999999+00:00" := by decide +kernel

example : parseMicros "2024-02-29 23:59:60.5-0130" = some 1709256600500000 := by decide +kernel

/-! ## What is rendered -/

theorem fourDigit_of_range {us : Int} (low : minMicros ≤ us) (high : us ≤ maxMicros) :
    FourDigit (us / 10 ^ 6) := by
  unfold minMicros maxMicros at *
  constructor <;> omega

theorem renderMicros_eq {us : Int} (low : minMicros ≤ us) (high : us ≤ maxMicros) :
    renderMicros us = String.ofList (formatMicros (us / 10 ^ 6) (us % 10 ^ 6).toNat) := by
  have year := fourDigit_iff.mp (fourDigit_of_range low high)
  have known : fromTimestamp (us / 10 ^ 6) = some ⟨us / 10 ^ 6, 0, Instant.zero_nanos_lt⟩ := by
    rw [fromTimestamp]
    exact if_pos (by omega)
  rw [renderMicros, known]
  exact if_pos ⟨low, high⟩

theorem formatMicros_lt {a b : Int} {m n : Nat} (ha : FourDigit a) (hb : FourDigit b)
    (hm : m < 10 ^ 6) (hn : n < 10 ^ 6) (before : a < b ∨ a = b ∧ m < n) :
    formatMicros a m < formatMicros b n := by
  have fa := fourDigit_iff.mp ha
  have fb := fourDigit_iff.mp hb
  rw [formatMicros, formatMicros, yearText, yearText, if_pos fa, if_pos fb,
    numeral_append_lt (by omega) (by omega),
    render_append_lt (fits_dateTimeValues a) (fits_dateTimeValues b)]
  rcases before with secs | ⟨rfl, micros⟩
  · rcases values_lt secs with year | ⟨year, values⟩
    · left
      omega
    · exact .inr ⟨by rw [year], .inl values⟩
  · refine .inr ⟨rfl, .inr ⟨rfl, ?_⟩⟩
    rw [render_append_lt (by simpa [Fits] using hm) (by simpa [Fits] using hn)]
    exact .inl (List.cons_lt_cons_iff.mpr (.inl micros))

theorem toNat_digitChar_lt : ∀ d < 10, (Nat.digitChar d).toNat < 128 := by decide

theorem ascii_numeral {width n : Nat} : ∀ c ∈ numeral width n, c.toNat < 128 := by
  intro c mem
  obtain ⟨d, digit, rfl⟩ := List.mem_map.mp mem
  exact toNat_digitChar_lt d (Digits.lt_of_mem_digits (by omega) digit)

theorem ascii_render {fields : List (List Char × Nat)}
    (leads : ∀ field ∈ fields, ∀ c ∈ field.1, c.toNat < 128) {ns : List Nat} :
    ∀ c ∈ render fields ns, c.toNat < 128 := by
  induction fields generalizing ns with
  | nil => simp [render]
  | cons field fields ih =>
    obtain _ | ⟨n, ns⟩ := ns
    · simp [render]
    · obtain ⟨lead, leads⟩ := List.forall_mem_cons.mp leads
      intro c mem
      rw [render, List.mem_append, List.mem_append] at mem
      rcases mem with mem | mem | mem
      · exact lead c mem
      · exact ascii_numeral c mem
      · exact ih leads c mem

theorem ascii_formatMicros {secs : Int} (four : FourDigit secs) (micros : Nat) :
    ∀ c ∈ formatMicros secs micros, c.toNat < 128 := by
  intro c mem
  rw [formatMicros, yearText, if_pos (fourDigit_iff.mp four), List.mem_append, List.mem_append,
    List.mem_append] at mem
  rcases mem with mem | mem | mem | mem
  · exact ascii_numeral c mem
  · exact ascii_render (by simp [dateTimeFields]) c mem
  · exact ascii_render (by simp) c mem
  · revert c
    simp

/-! ## What is read -/

theorem digit_read : ∀ d < 10, isDigit (byte (Nat.digitChar d)) = true ∧
    (byte (Nat.digitChar d)).toNat - 48 = d := by decide

theorem digits_numeral {width n : Nat} (pos : 0 < width) (small : n < 10 ^ width) :
    digits ((numeral width n).map byte) = some n := by
  have fold (ds : List Nat) (start : Nat) (tens : ∀ d ∈ ds, d < 10) :
      ((ds.map Nat.digitChar).map byte).foldlM
        (fun n b => if isDigit b then some (n * 10 + (b.toNat - 48)) else none) start =
          some (ds.foldl (fun v d => v * 10 + d) start) := by
    induction ds generalizing start with
    | nil => rfl
    | cons d ds ih =>
      obtain ⟨first, others⟩ := List.forall_mem_cons.mp tens
      obtain ⟨known, value⟩ := digit_read d first
      simp only [List.map_cons, List.foldlM_cons, known, if_true, value, Option.bind_eq_bind,
        Option.bind_some, List.foldl_cons]
      exact ih _ others
  have nonempty : (numeral width n).map byte ≠ [] := by
    rw [← List.length_pos_iff, List.length_map, length_numeral]
    exact pos
  have tens : ∀ d ∈ Digits.digits 10 width n, d < 10 := fun _ => Digits.lt_of_mem_digits (by omega)
  rw [digits, if_neg nonempty, numeral, fold _ _ tens]
  exact congrArg _ ((Digits.value_digits 10 width n).trans (Nat.mod_eq_of_lt small))

structure Parts.Shaped (parts : Parts) : Prop where
  year : parts.year.length = 4
  month : parts.month.length = 2
  day : parts.day.length = 2
  sep : parts.sep = byte 'T' ∨ parts.sep = byte 't' ∨ parts.sep = byte ' '
  hour : parts.hour.length = 2
  minute : parts.minute.length = 2
  second : parts.second.length = 2

def Parts.bytes (parts : Parts) : List UInt8 :=
  parts.year ++ byte '-' :: (parts.month ++ byte '-' :: (parts.day ++ parts.sep ::
    (parts.hour ++ byte ':' :: (parts.minute ++ byte ':' :: (parts.second ++ parts.rest)))))

theorem cut_eq_some {b : List UInt8} {parts : Parts} :
    cut b = some parts ↔ parts.Shaped ∧ b = parts.bytes := by
  constructor
  · intro found
    unfold cut at found
    split at found
    · split_ifs at found with separators
      cases found
      simp only [not_or, not_not] at separators
      obtain ⟨rfl, rfl, sep, rfl, rfl⟩ := separators
      exact ⟨⟨rfl, rfl, rfl, by grind, rfl, rfl, rfl⟩, rfl⟩
    · cases found
  · rintro ⟨⟨year, month, day, sep, hour, minute, second⟩, rfl⟩
    obtain ⟨ys, mos, ds, sep', hs, mis, ss, rest⟩ := parts
    obtain ⟨y1, ys, rfl⟩ := List.exists_cons_of_length_eq_add_one year
    obtain ⟨y2, y3, y4, rfl⟩ := List.length_eq_three.mp (Nat.succ.inj year)
    obtain ⟨mo1, mo2, rfl⟩ := List.length_eq_two.mp month
    obtain ⟨d1, d2, rfl⟩ := List.length_eq_two.mp day
    obtain ⟨h1, h2, rfl⟩ := List.length_eq_two.mp hour
    obtain ⟨mi1, mi2, rfl⟩ := List.length_eq_two.mp minute
    obtain ⟨s1, s2, rfl⟩ := List.length_eq_two.mp second
    simp only [Parts.bytes, List.cons_append, List.nil_append, cut]
    exact if_neg (by grind)

structure Parts.Reads (parts : Parts) (year month day hour minute second : Nat) : Prop where
  year : digits parts.year = some year
  month : digits parts.month = some month
  day : digits parts.day = some day
  hour : digits parts.hour = some hour
  minute : digits parts.minute = some minute
  second : digits parts.second = some second

theorem Parts.micros_eq {parts : Parts} {year month day hour minute second nanos : Nat}
    {days offset : Int} {rest : List UInt8}
    (reads : parts.Reads year month day hour minute second)
    (clock : ¬ (hour > 23 ∨ minute > 59 ∨ second > 60))
    (date : fromYmdOpt year month day = some days)
    (fraction : readFraction parts.rest = some (nanos, rest))
    (zone : readOffset rest = some offset) :
    parts.micros =
      let us : Int := (days * 86400 + hour * 3600 + minute * 60 + second - offset) * 1000000 +
        ((nanos + 500) / 1000 : Nat)
      if minMicros ≤ us ∧ us ≤ maxMicros then some us else none := by
  simp only [Parts.micros, reads.year, reads.month, reads.day, reads.hour, reads.minute,
    reads.second, Option.bind_eq_bind, Option.bind_some, if_neg clock, date, fraction, zone]

/-! ## The round trip -/

def renderedParts (secs : Int) (micros : Nat) : Parts :=
  let date := Calendar.dateOf (dayNumber secs)
  let second := secondOfDay secs
  ⟨(numeral 4 date.year.toNat).map byte, (numeral 2 date.month).map byte,
    (numeral 2 date.day).map byte, byte 'T', (numeral 2 (second / 3600)).map byte,
    (numeral 2 (second / 60 % 60)).map byte, (numeral 2 (second % 60)).map byte,
    byte '.' :: ((numeral 6 micros).map byte ++ "+00:00".toList.map byte)⟩

theorem shaped_renderedParts (secs : Int) (micros : Nat) : (renderedParts secs micros).Shaped := by
  constructor <;> simp [renderedParts]

theorem utf8_formatMicros {secs : Int} (four : FourDigit secs) (micros : Nat) :
    utf8 (String.ofList (formatMicros secs micros)) = (renderedParts secs micros).bytes := by
  rw [utf8_ascii (ascii_formatMicros four micros), formatMicros, yearText,
    if_pos (fourDigit_iff.mp four)]
  simp [render, dateTimeFields, dateTimeValues, Parts.bytes, renderedParts]

theorem readFraction_rendered {micros : Nat} (small : micros < 10 ^ 6) :
    readFraction (byte '.' :: ((numeral 6 micros).map byte ++ "+00:00".toList.map byte)) =
      some (micros * 10 ^ 3, "+00:00".toList.map byte) := by
  have all : ∀ b ∈ (numeral 6 micros).map byte, isDigit b = true := by
    intro b mem
    simp only [numeral, List.map_map, List.mem_map, Function.comp_apply] at mem
    obtain ⟨d, digit, rfl⟩ := mem
    exact (digit_read d (Digits.lt_of_mem_digits (by omega) digit)).1
  have stop : ("+00:00".toList.map byte).takeWhile isDigit = [] ∧
      ("+00:00".toList.map byte).dropWhile isDigit = "+00:00".toList.map byte := by decide
  have kept : (((numeral 6 micros).map byte ++ "+00:00".toList.map byte).takeWhile isDigit).take 9 =
      (numeral 6 micros).map byte := by
    rw [List.takeWhile_append_of_pos all, stop.1, List.append_nil, List.take_of_length_le]
    simp
  rw [readFraction, if_pos rfl]
  simp only [kept, digits_numeral (by decide) small, List.dropWhile_append_of_pos all, stop.2]
  simp

theorem fromYmdOpt_dateOf {days : Int} (year : 0 ≤ (Calendar.dateOf days).year) :
    fromYmdOpt (Calendar.dateOf days).year.toNat (Calendar.dateOf days).month
      (Calendar.dateOf days).day = some (days - 719528) := by
  have same : (⟨((Calendar.dateOf days).year.toNat : Int), (Calendar.dateOf days).month,
      (Calendar.dateOf days).day⟩ : Calendar.Date) = Calendar.dateOf days := by
    rw [Int.toNat_of_nonneg year]
  rw [fromYmdOpt, same]
  simp only [if_pos (Calendar.valid_dateOf days), Calendar.number_dateOf]

theorem micros_renderedParts {us : Int} (low : minMicros ≤ us) (high : us ≤ maxMicros) :
    (renderedParts (us / 10 ^ 6) (us % 10 ^ 6).toNat).micros = some us := by
  have year := fourDigit_iff.mp (fourDigit_of_range low high)
  have fits := fits_dateTimeValues (us / 10 ^ 6)
  have micros : (us % 10 ^ 6).toNat < 10 ^ 6 := by omega
  have second : secondOfDay (us / 10 ^ 6) < 86400 := by
    unfold secondOfDay
    omega
  simp only [Fits, dateTimeFields, dateTimeValues, List.forall₂_cons, List.Forall₂.nil,
    and_true] at fits
  obtain ⟨month, day, hour, minute, sec⟩ := fits
  have clock : ¬ (secondOfDay (us / 10 ^ 6) / 3600 > 23 ∨
      secondOfDay (us / 10 ^ 6) / 60 % 60 > 59 ∨ secondOfDay (us / 10 ^ 6) % 60 > 60) := by omega
  have offset : readOffset ("+00:00".toList.map byte) = some 0 := by decide
  have total : (dayNumber (us / 10 ^ 6) - 719528) * 86400 +
      (secondOfDay (us / 10 ^ 6) / 3600 : Nat) * 3600 +
      (secondOfDay (us / 10 ^ 6) / 60 % 60 : Nat) * 60 +
      (secondOfDay (us / 10 ^ 6) % 60 : Nat) = us / 10 ^ 6 := by
    unfold dayNumber secondOfDay
    omega
  have rounded : ((us % 10 ^ 6).toNat * 10 ^ 3 + 500) / 1000 = (us % 10 ^ 6).toNat := by omega
  have whole : us / 10 ^ 6 * 1000000 + ((us % 10 ^ 6).toNat : Int) = us := by omega
  rw [Parts.micros_eq ⟨digits_numeral (by decide) (by omega), digits_numeral (by decide) month,
    digits_numeral (by decide) day, digits_numeral (by decide) hour,
    digits_numeral (by decide) minute, digits_numeral (by decide) sec⟩ clock
    (fromYmdOpt_dateOf year.1) (readFraction_rendered micros) offset, sub_zero, total, rounded,
    whole]
  exact if_pos ⟨low, high⟩

theorem parseMicros_renderMicros {us : Int} (low : minMicros ≤ us) (high : us ≤ maxMicros) :
    parseMicros (renderMicros us) = some us := by
  have four := fourDigit_of_range low high
  rw [parseMicros, renderMicros_eq low high, utf8_formatMicros four,
    cut_eq_some.mpr ⟨shaped_renderedParts _ _, rfl⟩, Option.bind_some,
    micros_renderedParts low high]

theorem renderMicros_lt {us us' : Int} (low : minMicros ≤ us) (before : us < us')
    (high : us' ≤ maxMicros) : utf8 (renderMicros us) < utf8 (renderMicros us') := by
  have four := fourDigit_of_range low (by omega)
  have four' := fourDigit_of_range (by omega) high
  rw [renderMicros_eq low (by omega), renderMicros_eq (by omega) high,
    utf8_ascii (ascii_formatMicros four _), utf8_ascii (ascii_formatMicros four' _)]
  refine map_byte_lt (ascii_formatMicros four _) (ascii_formatMicros four' _) ?_
  exact formatMicros_lt four four' (by omega) (by omega) (by omega)

/-- Every number of the range is read back from its text, and an earlier time has a text with
lesser bytes. -/
theorem timestamp_column_faithful :
    (∀ us, minMicros ≤ us → us ≤ maxMicros → parseMicros (renderMicros us) = some us) ∧
    ∀ us us', minMicros ≤ us → us < us' → us' ≤ maxMicros →
      utf8 (renderMicros us) < utf8 (renderMicros us') :=
  ⟨fun _ => parseMicros_renderMicros, fun _ _ => renderMicros_lt⟩

end HappyView.Records.MicrosColumn
