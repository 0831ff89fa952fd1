import Mathlib.Algebra.Order.Group.Abs
import Mathlib.Algebra.Order.Group.Int
import ImageProxy.Library.FixedWidth
import ImageProxy.Cpcl.FormatIdiv

set_option autoImplicit false

/-! # The header of a log line (`trace_posix.cpp`)

A line begins with its time to the millisecond. The microseconds are rounded, and the thousandth
millisecond has no place among three digits. -/

namespace ImageProxy.Cpcl

open Ascii (asc lit lastDigits)
open FixedWidth (fields Fits)

/-! ## The source -/

/-- `CPCL_TRACE_LEVEL`. -/
inductive TraceLevel
  | info
  | debug
  | warning
  | error
  | other
deriving DecidableEq

/-- `TraceLevelNames`. -/
def traceLevelNames : TraceLevel → Bytes
  | .info => lit "[notice] "
  | .debug => lit "[debug]  "
  | .warning => lit "[warning]"
  | .error => lit "[error]  "
  | .other => lit "  [^_^]  "

/-- `struct tm`, as `localtime_r` leaves it; a second may be a leap second. -/
@[ext]
structure Tm where
  tmSec : ℕ
  tmMin : ℕ
  tmHour : ℕ
  tmMday : ℕ
  tmMon : ℕ
  tmYear : ℤ
  tmSec_le : tmSec ≤ 60
  tmMin_lt : tmMin < 60
  tmHour_lt : tmHour < 24
  tmMday_le : 1 ≤ tmMday ∧ tmMday ≤ 31
  tmMon_lt : tmMon < 12
  tmYear_le : -2 ^ 31 ≤ tmYear ∧ tmYear + 1900 < 2 ^ 31

/-- `unsigned int`. -/
def unsignedInt : IntegralType := { IntegralType.int with signed := false }

/-- `formatidiv<10>` with zeros in front. -/
def formatField (T : IntegralType) (v : ℤ) (width : ℕ) : Option Bytes :=
  (formatidiv T 10 v width (asc '0')).map fun r => r.1

/-- `milliseconds` in `FormatHeaderImpl`. -/
def milliseconds (useconds : ℕ) : ℕ :=
  if useconds % 1000 > 500 then useconds / 1000 + 1 else useconds / 1000

/-- `HEADER_LENGTH`. -/
def headerLength : ℕ := 45

/-- `FormatHeaderImpl`: what is written from `s_` on. -/
def formatHeaderImpl (l : TraceLevel) (t : Tm) (useconds processId threadId : UInt32) :
    Option Bytes := do
  let year ← formatField .int (t.tmYear + 1900) 4
  let mon ← formatField .int (t.tmMon + 1) 2
  let mday ← formatField .int t.tmMday 2
  let hour ← formatField .int t.tmHour 2
  let min ← formatField .int t.tmMin 2
  let sec ← formatField .int t.tmSec 2
  let ms ← formatField unsignedInt (milliseconds useconds.toNat) 3
  let process ← formatField unsignedInt processId.toNat 4
  let thread ← formatField unsignedInt threadId.toNat 4
  return year ++ lit "/" ++ mon ++ lit "/" ++ mday ++ lit " " ++ hour ++ lit ":" ++ min ++ lit ":"
    ++ sec ++ lit "." ++ ms ++ lit " " ++ traceLevelNames l ++ lit " " ++ process ++ lit "#"
    ++ thread ++ lit ": "

/-! ## What is written -/

theorem formatField_natCast {T : IntegralType} {v : ℕ} (h : (v : ℤ) ≤ T.max) (width : ℕ) :
    formatField T v width = some (lastDigits 10 width v) := by
  have hneg : ¬(v : ℤ) < 0 := by omega
  rw [formatField, formatidiv, if_neg hneg, formatLoop_zeros _ _ h, Option.map_some,
    Option.map_some, List.append_nil]

/-- The year, also before the first one. -/
def yearText (year : ℤ) : Bytes :=
  if year < 0 then asc '-' :: lastDigits 10 3 year.natAbs else lastDigits 10 4 year.toNat

theorem length_yearText (year : ℤ) : (yearText year).length = 4 := by
  unfold yearText
  split <;> simp

theorem formatField_year (t : Tm) :
    formatField .int (t.tmYear + 1900) 4 = some (yearText (t.tmYear + 1900)) := by
  obtain ⟨hlow, hhigh⟩ := t.tmYear_le
  have hmax : IntegralType.int.max = 2 ^ 31 - 1 := rfl
  have hmin : IntegralType.int.min = -2 ^ 31 := rfl
  unfold yearText
  by_cases hneg : t.tmYear + 1900 < 0
  · have habs : -(t.tmYear + 1900) = ((t.tmYear + 1900).natAbs : ℤ) := by omega
    rw [if_pos hneg, formatField, formatidiv, if_pos hneg,
      IntegralType.negated_eq (by omega) hneg, Option.bind_some, if_pos rfl, if_neg (by decide),
      habs, formatLoop_zeros _ _ (by omega)]
    rfl
  · obtain ⟨n, hn⟩ : ∃ n : ℕ, t.tmYear + 1900 = n := ⟨(t.tmYear + 1900).toNat, by omega⟩
    rw [hn, if_neg (by omega), formatField_natCast (by omega), Int.toNat_natCast]

theorem toNat_le_max (w : UInt32) : (w.toNat : ℤ) ≤ unsignedInt.max := by
  have hlt := w.toNat_lt
  have hmax : unsignedInt.max = 2 ^ 32 - 1 := rfl
  omega

theorem milliseconds_le (useconds : ℕ) : milliseconds useconds ≤ useconds / 1000 + 1 := by
  unfold milliseconds
  split <;> omega

/-- The fields of a date, a time and its milliseconds, with what is between them. -/
def stampFields : List (ℕ × Bytes) :=
  [(4, lit "/"), (2, lit "/"), (2, lit " "), (2, lit ":"), (2, lit ":"), (2, lit "."), (3, [])]

/-- The time of a header. -/
def stampText (t : Tm) (ms : ℕ) : Bytes :=
  yearText (t.tmYear + 1900) ++ lit "/" ++ fields stampFields.tail
    [t.tmMon + 1, t.tmMday, t.tmHour, t.tmMin, t.tmSec, ms]

/-- The header is its time, the level, and the process and the thread in four digits each. -/
theorem formatHeaderImpl_eq (l : TraceLevel) (t : Tm) (useconds processId threadId : UInt32) :
    formatHeaderImpl l t useconds processId threadId = some (stampText t (milliseconds useconds.toNat)
      ++ (lit " " ++ traceLevelNames l ++ lit " " ++ lastDigits 10 4 processId.toNat ++ lit "#"
        ++ lastDigits 10 4 threadId.toNat ++ lit ": ")) := by
  have hsmall : ∀ n : ℕ, n < 100 → (n : ℤ) ≤ IntegralType.int.max := by
    intro n hn
    have hmax : IntegralType.int.max = 2 ^ 31 - 1 := rfl
    omega
  have hmon : formatField .int (t.tmMon + 1) 2 = some (lastDigits 10 2 (t.tmMon + 1)) :=
    formatField_natCast (v := t.tmMon + 1) (hsmall _ (by have := t.tmMon_lt; omega)) 2
  have hms : (milliseconds useconds.toNat : ℤ) ≤ unsignedInt.max := by
    have hle := milliseconds_le useconds.toNat
    have hlt := toNat_le_max useconds
    have hmax : unsignedInt.max = 2 ^ 32 - 1 := rfl
    omega
  rw [formatHeaderImpl, formatField_year, hmon,
    formatField_natCast (hsmall _ (by have := t.tmMday_le; omega)),
    formatField_natCast (hsmall _ (by have := t.tmHour_lt; omega)),
    formatField_natCast (hsmall _ (by have := t.tmMin_lt; omega)),
    formatField_natCast (hsmall _ (by have := t.tmSec_le; omega)),
    formatField_natCast hms, formatField_natCast (toNat_le_max processId),
    formatField_natCast (toNat_le_max threadId)]
  simp only [Option.bind_eq_bind, Option.bind_some, Option.pure_def, stampText, stampFields,
    List.tail_cons, fields, List.append_assoc, List.append_nil]

theorem length_traceLevelNames (l : TraceLevel) : (traceLevelNames l).length = 9 := by
  cases l <;> rfl

theorem length_stampText (t : Tm) (ms : ℕ) : (stampText t ms).length = 23 := by
  simp [stampText, length_yearText, stampFields, fields, lit]

/-- The header has the length that is left for it, whatever the numbers are. -/
theorem length_formatHeaderImpl {l : TraceLevel} {t : Tm} {useconds processId threadId : UInt32}
    {header : Bytes} (h : formatHeaderImpl l t useconds processId threadId = some header) :
    header.length = headerLength := by
  rw [formatHeaderImpl_eq, Option.some.injEq] at h
  rw [← h]
  simp [length_stampText, length_traceLevelNames, headerLength, lit]

/-! ## Times in order -/

/-- A local time to the microsecond, in a year of four digits. -/
structure Instant where
  t : Tm
  useconds : UInt32
  useconds_lt : useconds.toNat < 1000000
  year_le : 1000 ≤ t.tmYear + 1900 ∧ t.tmYear + 1900 ≤ 9999

namespace Instant

/-- The numbers of the time down to the seconds. -/
def date (t : Tm) : List ℕ :=
  [(t.tmYear + 1900).toNat, t.tmMon + 1, t.tmMday, t.tmHour, t.tmMin, t.tmSec]

/-- `i` is not after `j`: without a change of the clock that is the order of the numbers. -/
def NotAfter (i j : Instant) : Prop :=
  date i.t ++ [i.useconds.toNat] ≤ date j.t ++ [j.useconds.toNat]

/-- The time in front of a header. -/
def stamp (i : Instant) (l : TraceLevel) (processId threadId : UInt32) : Option Bytes :=
  (formatHeaderImpl l i.t i.useconds processId threadId).map (·.take 23)

/-- The text denotes a time that is no more than a millisecond from `i`; `seconds` is the time of a
broken-down time. -/
def DenotedWithin (seconds : Tm → ℤ) (i : Instant) (text : Bytes) : Prop :=
  ∃ (t : Tm) (ms : ℕ), ms < 1000 ∧ 0 ≤ t.tmYear + 1900 ∧ t.tmYear + 1900 ≤ 9999 ∧
    text = stampText t ms ∧
    |(seconds t * 1000000 + ms * 1000) - (seconds i.t * 1000000 + i.useconds.toNat)| ≤ 1000

/-- The headers of two lines, whatever they are of, have their times in order, and each denotes its
time. -/
def InOrder (seconds : Tm → ℤ) (i j : Instant) : Prop :=
  ∀ (l l' : TraceLevel) (processId processId' threadId threadId' : UInt32),
    ∃ a b, i.stamp l processId threadId = some a ∧ j.stamp l' processId' threadId' = some b ∧
      a ≤ b ∧ DenotedWithin seconds i a ∧ DenotedWithin seconds j b

theorem stampText_eq {t : Tm} (h : 0 ≤ t.tmYear + 1900) (ms : ℕ) :
    stampText t ms = fields stampFields (date t ++ [ms]) := by
  rw [stampText, yearText, if_neg (by omega)]
  rfl

theorem fits_date {t : Tm} (h : t.tmYear + 1900 ≤ 9999) {ms : ℕ} (hms : ms < 1000) :
    Fits stampFields (date t ++ [ms]) := by
  have hmon := t.tmMon_lt
  have hmday := t.tmMday_le
  have hhour := t.tmHour_lt
  have hmin := t.tmMin_lt
  have hsec := t.tmSec_le
  refine .cons ?_ (.cons ?_ (.cons ?_ (.cons ?_ (.cons ?_ (.cons ?_ (.cons ?_ .nil))))))
  all_goals
    simp only
    omega

theorem date_injective {t t' : Tm} (h : 0 ≤ t.tmYear + 1900) (h' : 0 ≤ t'.tmYear + 1900)
    (hdate : date t = date t') : t = t' := by
  simp only [date, List.cons.injEq, Nat.add_right_cancel_iff, and_true] at hdate
  obtain ⟨hyear, hmon, hmday, hhour, hmin, hsec⟩ := hdate
  exact Tm.ext hsec hmin hhour hmday hmon (by omega)

theorem stamp_eq (i : Instant) (l : TraceLevel) (processId threadId : UInt32) :
    i.stamp l processId threadId = some (stampText i.t (milliseconds i.useconds.toNat)) := by
  rw [stamp, formatHeaderImpl_eq, Option.map_some, List.take_append_of_le_length
    (by rw [length_stampText]), List.take_of_length_le (by rw [length_stampText])]

theorem milliseconds_mono (u v : ℕ) (h : u ≤ v) : milliseconds u ≤ milliseconds v := by
  unfold milliseconds
  split <;> split <;> omega

/-- The thousandth millisecond. -/
theorem milliseconds_late {i : Instant} (h : 999500 < i.useconds.toNat) :
    milliseconds i.useconds.toNat = 1000 := by
  have hlt := i.useconds_lt
  unfold milliseconds
  split <;> omega

theorem milliseconds_early {i : Instant} (h : i.useconds.toNat ≤ 999500) :
    milliseconds i.useconds.toNat < 1000 := by
  unfold milliseconds
  split <;> omega

/-- It is printed as the first, so that the text denotes a time almost a second before. -/
theorem not_denotedWithin (seconds : Tm → ℤ) {i : Instant} (h : 999500 < i.useconds.toNat) :
    ¬DenotedWithin seconds i (stampText i.t (milliseconds i.useconds.toNat)) := by
  rintro ⟨t, ms, hms, hyear, hyear', htext, hnear⟩
  have hzero : stampText i.t 1000 = stampText i.t 0 := rfl
  have hi := i.year_le
  rw [milliseconds_late h, hzero, stampText_eq (by omega), stampText_eq hyear] at htext
  have hsame := FixedWidth.fields_injective (fits_date hi.2 (by omega)) (fits_date hyear' hms) htext
  obtain ⟨hdate, hlast⟩ := List.append_inj' hsame rfl
  rw [date_injective (by omega) hyear hdate, ← (List.cons.inj hlast).1, abs_le] at hnear
  omega

theorem denotedWithin (seconds : Tm → ℤ) {i : Instant} (h : i.useconds.toNat ≤ 999500) :
    DenotedWithin seconds i (stampText i.t (milliseconds i.useconds.toNat)) := by
  have hyear := i.year_le
  refine ⟨i.t, _, milliseconds_early h, by omega, hyear.2, rfl, ?_⟩
  rw [abs_le]
  unfold milliseconds
  split <;> omega

/-- The times of two lines are in order, and denote the times, if and only if neither is in the last
half millisecond of a second. -/
theorem inOrder_iff (seconds : Tm → ℤ) {i j : Instant} (h : i.NotAfter j) :
    InOrder seconds i j ↔ i.useconds.toNat ≤ 999500 ∧ j.useconds.toNat ≤ 999500 := by
  constructor
  · intro horder
    obtain ⟨a, b, ha, hb, -, hi, hj⟩ := horder .info .info 0 0 0 0
    rw [stamp_eq, Option.some.injEq] at ha hb
    rw [← ha] at hi
    rw [← hb] at hj
    exact ⟨Nat.le_of_not_lt fun hlate => not_denotedWithin seconds hlate hi,
      Nat.le_of_not_lt fun hlate => not_denotedWithin seconds hlate hj⟩
  · rintro ⟨hi, hj⟩ l l' processId processId' threadId threadId'
    refine ⟨_, _, stamp_eq i l processId threadId, stamp_eq j l' processId' threadId', ?_,
      denotedWithin seconds hi, denotedWithin seconds hj⟩
    have hyear := i.year_le
    have hyear' := j.year_le
    have hlen : (date i.t).length = (date j.t).length := rfl
    rw [stampText_eq (by omega), stampText_eq (by omega)]
    exact FixedWidth.fields_le (fits_date hyear.2 (milliseconds_early hi))
      (fits_date hyear'.2 (milliseconds_early hj))
      (FixedWidth.concat_le_of_monotone milliseconds_mono hlen h)

/-- The first second of a year. -/
def newYear : Tm :=
  ⟨0, 0, 0, 1, 0, 114, by decide, by decide, by decide, by decide, by decide, by decide⟩

/-- Two lines, a microsecond apart. -/
theorem inOrder_newYear : InOrder (fun t => t.tmMin * 60 + t.tmSec)
    ⟨newYear, 999499, by decide, by decide⟩ ⟨newYear, 999500, by decide, by decide⟩ :=
  (inOrder_iff _ (by unfold NotAfter; decide)).2 ⟨by decide, by decide⟩

/-- The later of two lines in the same second has the earlier time. -/
theorem not_inOrder_newYear :
    NotAfter ⟨newYear, 999000, by decide, by decide⟩ ⟨newYear, 999600, by decide, by decide⟩ ∧
    stamp ⟨newYear, 999000, by decide, by decide⟩ .info 1 1 = some (lit "2014/01/01 00:00:00.999") ∧
    stamp ⟨newYear, 999600, by decide, by decide⟩ .info 1 1 = some (lit "2014/01/01 00:00:00.000") ∧
    ∀ seconds, ¬InOrder seconds ⟨newYear, 999000, by decide, by decide⟩
      ⟨newYear, 999600, by decide, by decide⟩ := by
  refine ⟨by unfold NotAfter; decide, by rw [stamp_eq]; rfl, by rw [stamp_eq]; rfl,
    fun seconds h => ?_⟩
  obtain ⟨a, b, -, hb, -, -, hdenoted⟩ := h .info .info 0 0 0 0
  rw [stamp_eq, Option.some.injEq] at hb
  rw [← hb] at hdenoted
  exact not_denotedWithin seconds (by decide) hdenoted

end Instant

end ImageProxy.Cpcl
