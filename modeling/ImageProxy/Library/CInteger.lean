import Mathlib.Data.Int.Notation
import Mathlib.Data.List.TakeWhile

set_option autoImplicit false

/-! # The integer conversions of the C library

`strtol` and `strtoul` with base ten, for `long` of 64 bits, over the codes of the characters; the
wide versions are the same functions in the C locale. Both read the number that stands at the
beginning of the string, behind white space: a sign, if there is one, and digits. -/

namespace CInteger

/-! ## The number at the beginning -/

/-- `isspace` and `iswspace` in the C locale. -/
def isSpace (c : ℕ) : Bool := c = 32 || (9 ≤ c && c ≤ 13)

def isDigit (c : ℕ) : Bool := 48 ≤ c && c ≤ 57

/-- The value of a run of digits. -/
def magnitude (digits : List ℕ) : ℕ := digits.foldl (fun n c => 10 * n + (c - 48)) 0

/-- The sign, `true` for a minus, and what is behind it. -/
def sign : List ℕ → Bool × List ℕ
  | [] => (false, [])
  | c :: s => if c = 45 then (true, s) else if c = 43 then (false, s) else (false, c :: s)

/-- The integer that the number at the beginning of `s` denotes, if there is one. -/
def number (s : List ℕ) : Option ℤ :=
  let (negative, s) := sign (s.dropWhile isSpace)
  let digits := s.takeWhile isDigit
  if digits.isEmpty then none
  else some (if negative then -(magnitude digits : ℤ) else magnitude digits)

/-! ## The string ends at its first NUL -/

def terminated (s : List ℕ) : List ℕ := s.takeWhile (· ≠ 0)

theorem dropWhile_takeWhile {α : Type} {f g : α → Bool} (hfg : ∀ c, f c = true → g c = true)
    (s : List α) : (s.takeWhile g).dropWhile f = (s.dropWhile f).takeWhile g := by
  induction s with
  | nil => rfl
  | cons c s ih =>
      cases hf : f c with
      | true => rw [List.takeWhile_cons_of_pos (hfg c hf), List.dropWhile_cons_of_pos hf,
          List.dropWhile_cons_of_pos hf, ih]
      | false =>
          rw [List.dropWhile_cons_of_neg (by simp [hf])]
          cases hg : g c with
          | true => rw [List.takeWhile_cons_of_pos hg, List.dropWhile_cons_of_neg (by simp [hf])]
          | false =>
              rw [List.takeWhile_cons_of_neg (by simp [hg])]
              rfl

theorem takeWhile_takeWhile_of_imp {α : Type} {f g : α → Bool}
    (hfg : ∀ c, f c = true → g c = true) (s : List α) :
    (s.takeWhile g).takeWhile f = s.takeWhile f := by
  rw [List.takeWhile_takeWhile]
  congr 1
  funext c
  cases hf : f c with
  | true => simp [hfg c hf]
  | false => simp

theorem isSpace_imp (c : ℕ) (h : isSpace c = true) : decide (c ≠ 0) = true := by
  simp only [isSpace, Bool.or_eq_true, Bool.and_eq_true, decide_eq_true_eq] at h ⊢
  omega

theorem isDigit_imp (c : ℕ) (h : isDigit c = true) : decide (c ≠ 0) = true := by
  simp only [isDigit, Bool.and_eq_true, decide_eq_true_eq] at h ⊢
  omega

theorem sign_terminated (s : List ℕ) :
    sign (terminated s) = ((sign s).1, terminated (sign s).2) := by
  cases s with
  | nil => rfl
  | cons c s =>
      by_cases hnul : c = 0
      · subst hnul
        rfl
      · rw [terminated, List.takeWhile_cons_of_pos (by simpa using hnul), sign, sign]
        split_ifs
        · rfl
        · rfl
        · rw [terminated, List.takeWhile_cons_of_pos (by simpa using hnul)]

/-- Nothing of the number is behind the NUL. -/
theorem number_terminated (s : List ℕ) : number (terminated s) = number s := by
  have hspace : (terminated s).dropWhile isSpace = terminated (s.dropWhile isSpace) :=
    dropWhile_takeWhile isSpace_imp s
  have hdigits : (terminated (sign (s.dropWhile isSpace)).2).takeWhile isDigit
      = (sign (s.dropWhile isSpace)).2.takeWhile isDigit :=
    takeWhile_takeWhile_of_imp isDigit_imp _
  simp only [number, hspace, sign_terminated, hdigits]

/-! ## `strtol` and `strtoul` -/

/-- `strtol(str, &tail, 10)`: the result, and whether `tail` moved. What is out of range gives the
nearest bound. -/
def strtol (str : List ℕ) : ℤ × Bool :=
  match number (terminated str) with
  | none => (0, false)
  | some n => (max (-0x8000000000000000) (min 0x7fffffffffffffff n), true)

/-- `strtoul(str, &tail, 10)`. A magnitude above `ULONG_MAX` gives `ULONG_MAX`; a minus sign negates
modulo 2 ^ 64. -/
def strtoul (str : List ℕ) : ℤ × Bool :=
  match number (terminated str) with
  | none => (0, false)
  | some n =>
      (if n ≤ -0x10000000000000000 ∨ 0x10000000000000000 ≤ n then 0xffffffffffffffff
        else n % 0x10000000000000000, true)

end CInteger
