import Mathlib.Data.Int.Init
import ImageProxy.Cpcl.StringUtil
import ImageProxy.Library.CInteger

set_option autoImplicit false

/-! # Conversion of strings to integers (`string_cast.hpp`)

`TryConvert` for `int`, `unsigned int`, `long` and `unsigned long` from strings of `char` and of
`wchar_t`. The narrow types go through the wide ones by a cast that nobody checks, and the two
specialisations for `unsigned long` look for a minus sign in two ways.
`convertsExactly_iff` says which numbers are converted to themselves or refused,
`sameAnswer_iff` where the two specialisations agree. -/

namespace ImageProxy.Cpcl

open Ascii
open CInteger (number terminated)

/-! ## The specialisations -/

/-- `T` in `TryConvert<T>`. -/
inductive Target where
  | int
  | unsignedInt
  | long
  | unsignedLong
deriving DecidableEq, Repr

/-- The string that is converted, of `char` or of `wchar_t`. -/
inductive Text where
  | char (s : Bytes)
  | wchar (s : List UInt32)
deriving DecidableEq, Repr

/-- The codes of the characters. -/
def Text.codes : Text → List ℕ
  | .char s => s.map UInt8.toNat
  | .wchar s => s.map UInt32.toNat

/-- `TryConvert<long>`, for either character type. -/
def tryConvertLong (s : List ℕ) : Option ℤ :=
  let (n, moved) := CInteger.strtol s
  if n = 0x7fffffffffffffff ∨ n = -0x8000000000000000 ∨ (n = 0 ∧ !moved) then none
  else some n

/-- `TryConvert<unsigned long, wchar_t>`. -/
def tryConvertUnsignedLongWide (s : List ℕ) : Option ℤ :=
  let (n, moved) := CInteger.strtoul s
  if n = 0xffffffffffffffff ∨ (n = 0 ∧ !moved) then none
  else
    let tmp := (CInteger.strtol s).1
    if tmp < 0 then none else some n

/-- `static_cast<int>`. -/
def toInt (n : ℤ) : ℤ := n.bmod 0x100000000

/-- `static_cast<unsigned int>`. -/
def toUnsignedInt (n : ℤ) : ℤ := n % 0x100000000

/-- What `TryConvert<T>` stores; `none` if it returns false. -/
def tryConvert : Target → Text → Option ℤ
  | .long, s => tryConvertLong s.codes
  | .int, s => (tryConvertLong s.codes).map toInt
  | .unsignedLong, .char s => (tryConvertUnsignedLong s).map Int.ofNat
  | .unsignedLong, .wchar s => tryConvertUnsignedLongWide (s.map UInt32.toNat)
  | .unsignedInt, .char s => (tryConvertUnsignedInt s).map Int.ofNat
  | .unsignedInt, .wchar s =>
      (tryConvertUnsignedLongWide (s.map UInt32.toNat)).map toUnsignedInt

/-- `TryConvert<T>(s, &r)`: the result, and `r` after it. -/
def tryConvertTo (T : Target) (s : Text) (r : ℤ) : Bool × ℤ :=
  match tryConvert T s with
  | some n => (true, n)
  | none => (false, r)

/-! ## What is asked of them -/

/-- What is stored is the number `s` begins with, and nothing is stored if the result is false. -/
def ConvertsExactly (T : Target) (s : Text) : Prop :=
  ∀ r, ((tryConvertTo T s r).1 = true → number s.codes = some (tryConvertTo T s r).2) ∧
    ((tryConvertTo T s r).1 = false → (tryConvertTo T s r).2 = r)

/-- The numbers that are converted to themselves or refused. -/
def Target.Sound : Target → Text → ℤ → Prop
  | .long, _, _ => True
  | .int, _, n =>
      n ≤ -0x8000000000000000 ∨ (-0x80000000 ≤ n ∧ n < 0x80000000) ∨ 0x7fffffffffffffff ≤ n
  | .unsignedLong, .char _, n => n ≤ -0x10000000000000000 ∨ -0x8000000000000000 ≤ n
  | .unsignedLong, .wchar _, _ => True
  | .unsignedInt, .char _, n =>
      n ≤ -0x10000000000000000 ∨ (-0x8000000000000000 ≤ n ∧ n < 0x100000000) ∨
        0x8000000000000000 ≤ n
  | .unsignedInt, .wchar _, n => n < 0x100000000 ∨ 0xffffffffffffffff ≤ n

/-! ## The conversions in terms of the number -/

/-- What is stored for a number: `long`. -/
def storedLong (n : ℤ) : Option ℤ :=
  if -0x8000000000000000 < n ∧ n < 0x7fffffffffffffff then some n else none

/-- `unsigned long`, from a string of `char`. -/
def storedUnsignedLong (n : ℤ) : Option ℤ :=
  if 0 ≤ n ∧ n < 0x8000000000000000 then some n
  else if -0x10000000000000000 < n ∧ n < -0x8000000000000000 then some (n + 0x10000000000000000)
  else none

/-- `unsigned long`, from a string of `wchar_t`. -/
def storedUnsignedLongWide (n : ℤ) : Option ℤ :=
  if 0 ≤ n ∧ n < 0xffffffffffffffff then some n else none

def Target.stored : Target → Text → ℤ → Option ℤ
  | .long, _, n => storedLong n
  | .int, _, n => (storedLong n).map toInt
  | .unsignedLong, .char _, n => storedUnsignedLong n
  | .unsignedLong, .wchar _, n => storedUnsignedLongWide n
  | .unsignedInt, .char _, n => (storedUnsignedLong n).map toUnsignedInt
  | .unsignedInt, .wchar _, n => (storedUnsignedLongWide n).map toUnsignedInt

theorem tryConvertLong_eq (s : List ℕ) : tryConvertLong s = (number s).bind storedLong := by
  simp only [tryConvertLong, CInteger.strtol, CInteger.number_terminated]
  cases number s with
  | none => rfl
  | some n =>
      simp only [Option.bind_some, storedLong, Bool.not_true, Bool.false_eq_true, and_false,
        or_false]
      by_cases hlow : n ≤ -0x8000000000000000
      · rw [if_pos (by omega), if_neg (by omega)]
      · by_cases hhigh : 0x7fffffffffffffff ≤ n
        · rw [if_pos (by omega), if_neg (by omega)]
        · have hclamp : max (-0x8000000000000000) (min 0x7fffffffffffffff n) = n := by omega
          rw [hclamp, if_neg (by omega), if_pos (by omega)]

theorem tryConvertUnsignedLongWide_eq (s : List ℕ) :
    tryConvertUnsignedLongWide s = (number s).bind storedUnsignedLongWide := by
  simp only [tryConvertUnsignedLongWide, CInteger.strtoul, CInteger.strtol,
    CInteger.number_terminated]
  cases number s with
  | none => rfl
  | some n =>
      simp only [Option.bind_some, storedUnsignedLongWide, Bool.not_true, Bool.false_eq_true,
        and_false, or_false]
      by_cases hin : 0 ≤ n ∧ n < 0xffffffffffffffff
      · have hmod : n % 0x10000000000000000 = n := by omega
        rw [if_neg (by omega : ¬(n ≤ -0x10000000000000000 ∨ 0x10000000000000000 ≤ n)), hmod,
          if_neg (by omega), if_neg (by omega), if_pos hin]
      · rw [if_neg hin]
        -- a negative number is found by `wcstol`
        by_cases hneg : n < 0
        · have htmp : max (-0x8000000000000000) (min 0x7fffffffffffffff n) < 0 := by omega
          rw [if_pos htmp]
          split_ifs <;> rfl
        · rw [if_pos]
          split_ifs <;> omega

/-! ### Strings of `char` -/

theorem isSpace_toNat (c : UInt8) : CInteger.isSpace c.toNat = isSpace c := by
  rw [CInteger.isSpace, isSpace, Bool.eq_iff_iff]
  simp [UInt8.le_iff_toNat_le, ← UInt8.toNat_inj]

theorem isDigit_toNat (c : UInt8) : CInteger.isDigit c.toNat = isDigit c := by
  rw [CInteger.isDigit, isDigit, Bool.eq_iff_iff]
  simp [UInt8.le_iff_toNat_le, asc]

theorem terminated_map (s : Bytes) : terminated (s.map UInt8.toNat) = (cString s).map UInt8.toNat := by
  rw [terminated, List.takeWhile_map, cString]
  congr 2
  funext c
  simp [← UInt8.toNat_inj]

theorem magnitude_map (digits : Bytes) :
    CInteger.magnitude (digits.map UInt8.toNat) = decimalValue digits := by
  rw [CInteger.magnitude, List.foldl_map]
  rfl

theorem takeWhile_isDigit_map (s : Bytes) :
    (s.map UInt8.toNat).takeWhile CInteger.isDigit = (s.takeWhile isDigit).map UInt8.toNat := by
  have hsame : CInteger.isDigit ∘ UInt8.toNat = isDigit := funext isDigit_toNat
  rw [List.takeWhile_map, hsame]

theorem dropWhile_isSpace_map (s : Bytes) :
    (s.map UInt8.toNat).dropWhile CInteger.isSpace = (s.dropWhile isSpace).map UInt8.toNat := by
  have hsame : CInteger.isSpace ∘ UInt8.toNat = isSpace := funext isSpace_toNat
  rw [List.dropWhile_map, hsame]

/-- What `strtoul` makes of a sign and what is behind it. -/
def signedValue (negative : Bool) (s : Bytes) : ℕ × Bool :=
  if (s.takeWhile isDigit).isEmpty then (0, false)
  else if decimalValue (s.takeWhile isDigit) ≥ 2 ^ 64 then (2 ^ 64 - 1, true)
  else (if negative then (2 ^ 64 - decimalValue (s.takeWhile isDigit)) % 2 ^ 64
    else decimalValue (s.takeWhile isDigit), true)

theorem strtoul_eq_signedValue (str : Bytes) : ∃ negative s, strtoul str = signedValue negative s ∧
    CInteger.sign (((cString str).dropWhile isSpace).map UInt8.toNat)
      = (negative, s.map UInt8.toNat) := by
  unfold strtoul
  generalize (cString str).dropWhile isSpace = s
  cases s with
  | nil => exact ⟨false, [], rfl, rfl⟩
  | cons c s =>
      rw [List.map_cons, CInteger.sign]
      by_cases hminus : c = asc '-'
      · subst hminus
        exact ⟨true, s, rfl, rfl⟩
      · by_cases hplus : c = asc '+'
        · subst hplus
          exact ⟨false, s, rfl, rfl⟩
        · have hminus' : c.toNat ≠ 45 := fun h => hminus (UInt8.toNat_inj.1 h)
          have hplus' : c.toNat ≠ 43 := fun h => hplus (UInt8.toNat_inj.1 h)
          refine ⟨false, c :: s, ?_, by rw [if_neg hminus', if_neg hplus', List.map_cons]⟩
          simp only [hminus, hplus, if_false]
          rfl

/-- `strtoul` of a string of `char`. -/
theorem strtoul_eq (str : Bytes) :
    (((strtoul str).1 : ℤ), (strtoul str).2) = CInteger.strtoul (str.map UInt8.toNat) := by
  obtain ⟨negative, s, hvalue, hsign⟩ := strtoul_eq_signedValue str
  rw [hvalue, CInteger.strtoul]
  simp only [number, terminated_map, dropWhile_isSpace_map, hsign, takeWhile_isDigit_map,
    magnitude_map, List.isEmpty_map, signedValue]
  generalize decimalValue (s.takeWhile isDigit) = n
  cases (s.takeWhile isDigit).isEmpty with
  | true => rfl
  | false =>
      simp only [Bool.false_eq_true, if_false]
      by_cases hbig : n ≥ 2 ^ 64
      · have hout : (if negative then -(n : ℤ) else n) ≤ -0x10000000000000000 ∨
            0x10000000000000000 ≤ (if negative then -(n : ℤ) else n) := by
          cases negative <;> simp only [Bool.false_eq_true, if_false, if_true] <;> omega
        rw [if_pos hbig, if_pos hout]
        rfl
      · have hin : ¬((if negative then -(n : ℤ) else n) ≤ -0x10000000000000000 ∨
            0x10000000000000000 ≤ (if negative then -(n : ℤ) else n)) := by
          cases negative <;> simp only [Bool.false_eq_true, if_false, if_true] <;> omega
        rw [if_neg hbig, if_neg hin]
        cases negative <;> simp only [Bool.false_eq_true, if_false, if_true, Prod.mk.injEq, and_true]
          <;> omega

/-- `TryConvert<unsigned long, char>`: the numbers it refuses are those whose value modulo 2 ^ 64 has
the highest bit set. -/
theorem tryConvertUnsignedLong_eq (s : Bytes) :
    (tryConvertUnsignedLong s).map Int.ofNat
      = (number (s.map UInt8.toNat)).bind storedUnsignedLong := by
  have hstrtoul := strtoul_eq s
  rw [CInteger.strtoul, CInteger.number_terminated] at hstrtoul
  simp only [tryConvertUnsignedLong]
  generalize strtoul s = result at hstrtoul ⊢
  obtain ⟨v, moved⟩ := result
  cases hnumber : number (s.map UInt8.toNat) with
  | none =>
      rw [hnumber] at hstrtoul
      simp only [Prod.mk.injEq] at hstrtoul
      obtain ⟨hv, rfl⟩ := hstrtoul
      rw [if_pos (Or.inr ⟨by omega, rfl⟩)]
      rfl
  | some n =>
      rw [hnumber] at hstrtoul
      simp only [Prod.mk.injEq] at hstrtoul
      obtain ⟨hv, rfl⟩ := hstrtoul
      simp only [Option.bind_some, storedUnsignedLong, Bool.not_true, Bool.false_eq_true, and_false,
        or_false]
      by_cases hout : n ≤ -0x10000000000000000 ∨ 0x10000000000000000 ≤ n
      · rw [if_pos hout] at hv
        rw [if_pos (by omega), if_neg (by omega), if_neg (by omega), Option.map_none]
      · rw [if_neg hout] at hv
        by_cases hin : 0 ≤ n ∧ n < 0x8000000000000000
        · have hsame : Int.ofNat v = n := by rw [Int.ofNat_eq_natCast]; omega
          rw [if_neg (by omega), if_neg (by omega), if_pos hin, Option.map_some, hsame]
        · rw [if_neg hin]
          by_cases hwrap : -0x10000000000000000 < n ∧ n < -0x8000000000000000
          · -- negated, it has the highest bit cleared
            have hnegated : Int.ofNat v = n + 0x10000000000000000 := by
              rw [Int.ofNat_eq_natCast]
              omega
            rw [if_neg (by omega), if_neg (by omega), if_pos hwrap, Option.map_some, hnegated]
          · rw [if_neg hwrap]
            split_ifs
            · rfl
            · rfl
            · omega

theorem tryConvertUnsignedInt_eq (s : Bytes) : (tryConvertUnsignedInt s).map Int.ofNat
    = ((tryConvertUnsignedLong s).map Int.ofNat).map toUnsignedInt := by
  rw [tryConvertUnsignedInt, Option.map_map, Option.map_map]
  rfl

theorem convertsExactly_iff_stored (T : Target) (s : Text) :
    ConvertsExactly T s ↔ ∀ m, tryConvert T s = some m → number s.codes = some m := by
  rw [ConvertsExactly]
  simp only [tryConvertTo]
  cases tryConvert T s with
  | none => simp
  | some m => simp [eq_comm]

theorem toInt_eq_iff {n : ℤ} : toInt n = n ↔ -0x80000000 ≤ n ∧ n < 0x80000000 := by
  rw [toInt, Int.bmod_def]
  split_ifs <;> omega

theorem tryConvert_eq (T : Target) (s : Text) :
    tryConvert T s = (number s.codes).bind (T.stored s) := by
  have hmap : ∀ (result number : Option ℤ) (stored cast : ℤ → Option ℤ) (f : ℤ → ℤ),
      result = number.bind stored → (∀ n, cast n = (stored n).map f) →
      result.map f = number.bind cast := by
    rintro result number stored cast f rfl hcast
    cases number with
    | none => rfl
    | some n => exact (hcast n).symm
  cases T with
  | long => exact tryConvertLong_eq _
  | int => exact hmap _ _ _ _ _ (tryConvertLong_eq _) fun n => rfl
  | unsignedLong =>
      cases s with
      | char s => exact tryConvertUnsignedLong_eq s
      | wchar s => exact tryConvertUnsignedLongWide_eq _
  | unsignedInt =>
      cases s with
      | char s =>
          exact (tryConvertUnsignedInt_eq s).trans
            (hmap _ _ _ _ _ (tryConvertUnsignedLong_eq s) fun n => rfl)
      | wchar s => exact hmap _ _ _ _ _ (tryConvertUnsignedLongWide_eq _) fun n => rfl

/-! ## Which numbers come out as they went in -/

theorem storedLong_eq_some_iff {n k : ℤ} : storedLong n = some k ↔
    n = k ∧ -0x8000000000000000 < n ∧ n < 0x7fffffffffffffff := by
  rw [storedLong]
  split_ifs with htaken <;> simp [htaken]

theorem storedUnsignedLongWide_eq_some_iff {n k : ℤ} : storedUnsignedLongWide n = some k ↔
    n = k ∧ 0 ≤ n ∧ n < 0xffffffffffffffff := by
  rw [storedUnsignedLongWide]
  split_ifs with htaken <;> simp [htaken]

theorem storedUnsignedLong_eq_some_iff {n k : ℤ} : storedUnsignedLong n = some k ↔
    (n = k ∧ 0 ≤ n ∧ n < 0x8000000000000000) ∨ (n + 0x10000000000000000 = k ∧
      -0x10000000000000000 < n ∧ n < -0x8000000000000000) := by
  rw [storedUnsignedLong]
  split_ifs with htaken hwrap
  · rw [Option.some.injEq]
    omega
  · rw [Option.some.injEq]
    omega
  · exact iff_of_false (by simp) (by omega)

/-- What is stored through a cast. -/
theorem sound_map_iff (stored : Option ℤ) (cast : ℤ → ℤ) (n : ℤ) :
    (∀ m, stored.map cast = some m → n = m) ↔ ∀ k, stored = some k → n = cast k := by
  cases stored with
  | none => simp
  | some k => simp

theorem sound_long (n : ℤ) : ∀ m, storedLong n = some m → n = m :=
  fun _ h => (storedLong_eq_some_iff.1 h).1

theorem sound_int (n : ℤ) : (∀ m, (storedLong n).map toInt = some m → n = m) ↔
    n ≤ -0x8000000000000000 ∨ (-0x80000000 ≤ n ∧ n < 0x80000000) ∨ 0x7fffffffffffffff ≤ n := by
  have heq := toInt_eq_iff (n := n)
  simp only [sound_map_iff, storedLong_eq_some_iff, and_imp, forall_eq']
  omega

theorem sound_unsignedLong (n : ℤ) : (∀ m, storedUnsignedLong n = some m → n = m) ↔
    n ≤ -0x10000000000000000 ∨ -0x8000000000000000 ≤ n := by
  simp only [storedUnsignedLong_eq_some_iff, or_imp, forall_and, and_imp, forall_eq', implies_true,
    true_and]
  omega

theorem sound_unsignedLongWide (n : ℤ) : ∀ m, storedUnsignedLongWide n = some m → n = m :=
  fun _ h => (storedUnsignedLongWide_eq_some_iff.1 h).1

theorem sound_unsignedInt (n : ℤ) :
    (∀ m, (storedUnsignedLong n).map toUnsignedInt = some m → n = m) ↔
      n ≤ -0x10000000000000000 ∨ (-0x8000000000000000 ≤ n ∧ n < 0x100000000) ∨
        0x8000000000000000 ≤ n := by
  -- a number that wraps is negative, and the cast is not
  simp only [sound_map_iff, storedUnsignedLong_eq_some_iff, or_imp, forall_and, and_imp,
    forall_eq', toUnsignedInt]
  omega

theorem sound_unsignedIntWide (n : ℤ) :
    (∀ m, (storedUnsignedLongWide n).map toUnsignedInt = some m → n = m) ↔
      n < 0x100000000 ∨ 0xffffffffffffffff ≤ n := by
  simp only [sound_map_iff, storedUnsignedLongWide_eq_some_iff, and_imp, forall_eq',
    toUnsignedInt]
  omega

theorem sound_iff (T : Target) (s : Text) (n : ℤ) :
    (∀ m, T.stored s n = some m → n = m) ↔ T.Sound s n := by
  cases T with
  | long => exact ⟨fun _ => trivial, fun _ => sound_long n⟩
  | int => exact sound_int n
  | unsignedLong =>
      cases s with
      | char s => exact sound_unsignedLong n
      | wchar s => exact ⟨fun _ => trivial, fun _ => sound_unsignedLongWide n⟩
  | unsignedInt =>
      cases s with
      | char s => exact sound_unsignedInt n
      | wchar s => exact sound_unsignedIntWide n

/-- **Which numbers are converted right.** A conversion stores the number its string begins with or
refuses it, except for the numbers that are not `Sound`. -/
theorem convertsExactly_iff (T : Target) (s : Text) :
    ConvertsExactly T s ↔ ∀ n, number s.codes = some n → T.Sound s n := by
  rw [convertsExactly_iff_stored, tryConvert_eq]
  cases number s.codes with
  | none => simp
  | some n => simpa using sound_iff T s n

/-- 2 ^ 32 as an `int` is 0. -/
theorem not_convertsExactly_int : ¬ConvertsExactly .int (.char (lit "4294967296")) := by
  rw [convertsExactly_iff_stored]
  intro h
  exact absurd (h 0 (by decide +kernel)) (by decide +kernel)

/-! ## The two specialisations for `unsigned long` -/

/-- The same characters as `wchar_t`. -/
def widen (s : Bytes) : List UInt32 := s.map UInt8.toUInt32

theorem codes_widen (s : Bytes) : (Text.wchar (widen s)).codes = (Text.char s).codes := by
  show (s.map UInt8.toUInt32).map UInt32.toNat = s.map UInt8.toNat
  rw [List.map_map]
  rfl

/-- **Where they agree.** On every string but those whose number is non-negative and does not fit in
`long`, or is below its minimum and has a magnitude that fits in `unsigned long`. -/
theorem sameAnswer_iff (s : Bytes) :
    tryConvert .unsignedLong (.char s) = tryConvert .unsignedLong (.wchar (widen s)) ↔
      ∀ n, number (Text.char s).codes = some n → n ≤ -0x10000000000000000 ∨
        (-0x8000000000000000 ≤ n ∧ n < 0x8000000000000000) ∨ 0xffffffffffffffff ≤ n := by
  rw [tryConvert_eq, tryConvert_eq, codes_widen]
  cases number (Text.char s).codes with
  | none => simp
  | some n =>
      simp only [Option.bind_some, Target.stored, storedUnsignedLong, storedUnsignedLongWide,
        Option.some.injEq, forall_eq']
      split_ifs <;> simp only [Option.some.injEq, true_iff, false_iff] <;> omega

/-- 2 ^ 63 is refused in a string of `char` only. -/
theorem not_sameAnswer_high : tryConvert .unsignedLong (.char (lit "9223372036854775808"))
    ≠ tryConvert .unsignedLong (.wchar (widen (lit "9223372036854775808"))) := by
  decide +kernel

end ImageProxy.Cpcl
