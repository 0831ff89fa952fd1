import Mathlib.Algebra.Group.Nat.Defs

set_option autoImplicit false

/-! # Bytes, ASCII literals and numerals

Byte strings are lists of `UInt8`. A character below 128 stands for the byte of its code, so source
literals and the digits `printf` writes can be given as text. -/

/-- A string of bytes. -/
abbrev Bytes := List UInt8

namespace Ascii

/-- The byte of an ASCII character. -/
def asc (c : Char) : UInt8 := UInt8.ofNat c.toNat

/-- The bytes of an ASCII literal. -/
def lit (s : String) : Bytes := s.toList.map asc

/-! ## Numerals -/

/-- The byte of the digit `d`, lower case from ten on. -/
def digit (d : ℕ) : UInt8 := asc (Nat.digitChar d)

/-- `n` in base `b`, without leading zeros: what `%u` and `%x` print. -/
def numeral (b n : ℕ) : Bytes := (Nat.toDigits b n).map asc

/-- `%d`. -/
def signedNumeral : Int → Bytes
  | .ofNat n => numeral 10 n
  | .negSucc n => asc '-' :: numeral 10 (n + 1)

theorem numeral_of_lt {b n : ℕ} (h : n < b) : numeral b n = [digit n] := by
  rw [numeral, Nat.toDigits_of_lt_base h]
  rfl

theorem numeral_of_le {b n : ℕ} (hb : 1 < b) (h : b ≤ n) :
    numeral b n = numeral b (n / b) ++ [digit (n % b)] := by
  rw [numeral, Nat.toDigits_of_base_le hb h, List.map_append]
  rfl

theorem length_numeral_le_iff {b n k : ℕ} (hb : 1 < b) (hk : 0 < k) :
    (numeral b n).length ≤ k ↔ n < b ^ k := by
  rw [numeral, List.length_map]
  exact Nat.length_toDigits_le_iff hb hk

/-- A numeral is one digit, or the numeral of the quotient and one more digit. -/
theorem numeral_induction {b : ℕ} (hb : 1 < b) {P : ℕ → Bytes → Prop}
    (hone : ∀ n, n < b → P n [digit n])
    (hmore : ∀ n, b ≤ n → P (n / b) (numeral b (n / b)) →
      P n (numeral b (n / b) ++ [digit (n % b)])) (n : ℕ) : P n (numeral b n) := by
  induction n using Nat.strongRecOn with
  | ind n ih =>
      rcases Nat.lt_or_ge n b with h | h
      · rw [numeral_of_lt h]
        exact hone n h
      · have hquot : n / b < n := Nat.div_lt_self (by omega) hb
        rw [numeral_of_le hb h]
        exact hmore n h (ih (n / b) hquot)

/-- The last `k` digits of `n` in base `b`, with zeros in front if there are fewer. -/
def lastDigits (b : ℕ) : (k : ℕ) → (n : ℕ) → Bytes
  | 0, _ => []
  | k + 1, n => lastDigits b k (n / b) ++ [digit (n % b)]

@[simp] theorem length_lastDigits (b k n : ℕ) : (lastDigits b k n).length = k := by
  induction k generalizing n with
  | zero => rfl
  | succ k ih => rw [lastDigits, List.length_append, ih, List.length_singleton]

theorem lastDigits_zero (b k : ℕ) : lastDigits b k 0 = List.replicate k (digit 0) := by
  induction k with
  | zero => rfl
  | succ k ih => rw [lastDigits, Nat.zero_div, Nat.zero_mod, ih, List.replicate_succ']

/-- With room for the numeral they are the numeral, and zeros in front of it. -/
theorem lastDigits_eq {b n k : ℕ} (hb : 1 < b) (hk : (numeral b n).length ≤ k) :
    lastDigits b k n = List.replicate (k - (numeral b n).length) (digit 0) ++ numeral b n := by
  suffices hany : ∀ k, (numeral b n).length ≤ k → lastDigits b k n
      = List.replicate (k - (numeral b n).length) (digit 0) ++ numeral b n from hany k hk
  refine numeral_induction hb (P := fun n s => ∀ k, s.length ≤ k →
    lastDigits b k n = List.replicate (k - s.length) (digit 0) ++ s) ?_ ?_ n
  · intro n hn k hk
    obtain ⟨k, rfl⟩ : ∃ j, k = j + 1 := ⟨k - 1, by simp at hk; omega⟩
    rw [lastDigits, Nat.div_eq_of_lt hn, Nat.mod_eq_of_lt hn, lastDigits_zero]
    rfl
  · intro n _ ih k hk
    rw [List.length_append, List.length_singleton] at hk
    obtain ⟨k, rfl⟩ : ∃ j, k = j + 1 := ⟨k - 1, by omega⟩
    rw [lastDigits, ih k (by omega), List.length_append, List.length_singleton,
      Nat.add_sub_add_right, List.append_assoc]

/-- The value of a hexadecimal digit of either case. -/
def hexValue (c : UInt8) : Option ℕ :=
  if asc '0' ≤ c ∧ c ≤ asc '9' then some (c.toNat - 48)
  else if asc 'a' ≤ c ∧ c ≤ asc 'f' then some (c.toNat - 87)
  else if asc 'A' ≤ c ∧ c ≤ asc 'F' then some (c.toNat - 55)
  else none

theorem hexValue_digit {d : ℕ} (h : d < 16) : hexValue (digit d) = some d := by
  revert d
  decide

theorem hexValue_lt {c : UInt8} {d : ℕ} (h : hexValue c = some d) : d < 16 := by
  have h9 : (asc '9').toNat = 57 := by decide
  have hf : (asc 'f').toNat = 102 := by decide
  have hF : (asc 'F').toNat = 70 := by decide
  simp only [hexValue] at h
  split at h
  · next hc =>
      have hle := UInt8.le_iff_toNat_le.1 hc.2
      cases h
      omega
  · split at h
    · next hc =>
        have hle := UInt8.le_iff_toNat_le.1 hc.2
        cases h
        omega
    · split at h
      · next hc =>
          have hle := UInt8.le_iff_toNat_le.1 hc.2
          cases h
          omega
      · exact absurd h (by simp)

end Ascii
