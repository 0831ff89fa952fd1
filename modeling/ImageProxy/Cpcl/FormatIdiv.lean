import Mathlib.Algebra.Group.Int.Defs
import Mathlib.Tactic.ByContra
import ImageProxy.Library.Ascii

set_option autoImplicit false

/-! # Numbers in a field (`formatidiv.hpp`)

The digits are written from the end of the field to its front, and behind the last of them the place
holder; the sign goes where the first place holder would be, or in front of zeros. The base is a
`size_t`, so that the division is one of `size_t`s, whatever the type of the value is. -/

namespace ImageProxy.Cpcl

open Ascii (asc lit digit numeral signedNumeral lastDigits)

/-! ## The source -/

/-- An integral type. -/
structure IntegralType where
  bits : ℕ
  signed : Bool
  bits_mem : bits ∈ [8, 16, 32, 64]

namespace IntegralType

def min (T : IntegralType) : ℤ := if T.signed then -2 ^ (T.bits - 1) else 0

def max (T : IntegralType) : ℤ := if T.signed then 2 ^ (T.bits - 1) - 1 else 2 ^ T.bits - 1

/-- A conversion to the type. -/
def convert (T : IntegralType) (x : ℤ) : ℤ :=
  if T.signed then x.bmod (2 ^ T.bits) else x % 2 ^ T.bits

/-- `v *= -1`, which a narrow type does as an `int`; `none` if that is above the type's numbers. -/
def negated (T : IntegralType) (v : ℤ) : Option ℤ :=
  if T.bits < 32 then some (T.convert (-v)) else if -v ≤ T.max then some (-v) else none

/-- `int`. -/
def int : IntegralType := ⟨32, true, by decide⟩

end IntegralType

/-- A conversion to `size_t`. -/
def toSizeT (v : ℤ) : ℕ := (v % 2 ^ 64).toNat

/-- The loop, `n` being the number of places from `h` down to `s`, and `written` what is behind `h`;
`none` if there is no such digit. -/
def formatLoop (T : IntegralType) (base : ℕ) (place : UInt8) :
    (n : ℕ) → (v : ℤ) → (sign : Bool) → (written : Bytes) → Option Bytes
  | 0, _, _, written => some written
  | n + 1, v, sign, written =>
      if v ≠ 0 then
        (lit "0123456789ABCDEF")[toSizeT v % base]?.bind fun c =>
          formatLoop T base place n (T.convert (toSizeT v / base : ℕ)) sign (c :: written)
      else if sign then formatLoop T base place n v false (asc '-' :: written)
      else formatLoop T base place n v false (place :: written)

/-- `formatidiv` for the tags of signed and unsigned values: what is written from `s` on, and how far
behind `s` the pointer is that is returned. -/
def formatidiv (T : IntegralType) (base : ℕ) (v : ℤ) (width : ℕ) (place : UInt8) :
    Option (Bytes × ℕ) :=
  if v < 0 then
    (T.negated v).bind fun v =>
      if place = asc '0' then
        if width = 0 then none
        else (formatLoop T base place (width - 1) v false []).map fun written =>
          (asc '-' :: written, 1 + (width - 1))
      else (formatLoop T base place width v true []).map fun written => (written, width)
  else (formatLoop T base place width v false []).map fun written => (written, width)

/-! ## The numbers of a type -/

namespace IntegralType

variable {T : IntegralType}

/-- The numbers of a type, by half of what it can tell apart. -/
theorem exists_half (T : IntegralType) : ∃ half : ℕ, half ∈ [2 ^ 7, 2 ^ 15, 2 ^ 31, 2 ^ 63] ∧
    2 ^ T.bits = 2 * half ∧ (T.bits < 32 ↔ half < 2 ^ 31) ∧
    (T.signed = true → T.min = -half ∧ T.max = half - 1) ∧
    (T.signed = false → T.min = 0 ∧ T.max = 2 * half - 1) := by
  obtain ⟨bits, signed, hbits⟩ := T
  unfold min max
  simp only [List.mem_cons, List.not_mem_nil, or_false] at hbits
  refine ⟨2 ^ (bits - 1), ?_⟩
  rcases hbits with rfl | rfl | rfl | rfl <;> cases signed <;> simp

theorem max_lt (T : IntegralType) : T.max < 2 ^ 64 := by
  obtain ⟨half, hhalf, -, -, hsigned, hunsigned⟩ := T.exists_half
  simp only [List.mem_cons, List.not_mem_nil, or_false] at hhalf
  cases h : T.signed with
  | false => have hmax := (hunsigned h).2; omega
  | true => have hmax := (hsigned h).2; omega

/-- A number of the type is not changed by a conversion. -/
theorem convert_eq {x : ℤ} (hmin : T.min ≤ x) (hmax : x ≤ T.max) : T.convert x = x := by
  obtain ⟨half, -, hbits, -, hsigned, hunsigned⟩ := T.exists_half
  unfold convert
  cases h : T.signed with
  | false =>
      obtain ⟨hlow, hhigh⟩ := hunsigned h
      have hpow : (2 : ℤ) ^ T.bits = 2 * half := by exact_mod_cast hbits
      rw [if_neg (by simp), hpow, Int.emod_eq_of_lt (by omega) (by omega)]
  | true =>
      obtain ⟨hlow, hhigh⟩ := hsigned h
      rw [if_pos rfl, hbits, Int.bmod_eq_of_le (by omega) (by omega)]

/-- The negative of a number can be had, unless that is the least one. -/
theorem negated_eq {v : ℤ} (hmin : T.min < v) (hneg : v < 0) : T.negated v = some (-v) := by
  obtain ⟨half, -, -, -, hsigned, hunsigned⟩ := T.exists_half
  have hmax : -v ≤ T.max := by
    cases h : T.signed with
    | false => have hlow := (hunsigned h).1; omega
    | true => obtain ⟨hlow, hhigh⟩ := hsigned h; omega
  have hlow : T.min ≤ -v := by omega
  rw [negated, convert_eq hlow hmax, if_pos hmax, ite_self]

/-- What becomes of the least number: an `int` and a wider type have no result, a narrower one has
the same number again. -/
theorem negated_min (hsigned : T.signed = true) :
    T.negated T.min = if T.bits < 32 then some T.min else none := by
  obtain ⟨half, hhalf, hbits, -, hrange, -⟩ := T.exists_half
  simp only [List.mem_cons, List.not_mem_nil, or_false] at hhalf
  obtain ⟨hlow, hhigh⟩ := hrange hsigned
  have hmod : (half : ℤ) % ((2 * half : ℕ) : ℤ) = half := Int.emod_eq_of_lt (by omega) (by omega)
  have hsame : (half : ℤ).bmod (2 * half) = -half := by
    rw [Int.bmod_def, hmod, if_neg (by omega)]
    omega
  rw [negated, if_neg (by omega : ¬-T.min ≤ T.max), convert, if_pos hsigned, hlow, hbits,
    Int.neg_neg, hsame]

end IntegralType

theorem toSizeT_natCast {T : IntegralType} {n : ℕ} (h : (n : ℤ) ≤ T.max) : toSizeT n = n := by
  have hmax := T.max_lt
  unfold toSizeT
  omega

/-! ## The loop -/

theorem getElem?_digit {d : ℕ} (h : d < 10) : (lit "0123456789ABCDEF")[d]? = some (digit d) := by
  revert d
  decide

variable {T : IntegralType} {place : UInt8}

/-- A turn with a digit. -/
theorem formatLoop_digit {v : ℕ} (hv : v ≠ 0) (hmax : (v : ℤ) ≤ T.max) (n : ℕ) (sign : Bool)
    (written : Bytes) : formatLoop T 10 place (n + 1) v sign written
      = formatLoop T 10 place n (v / 10 : ℕ) sign (digit (v % 10) :: written) := by
  have hmin : T.min ≤ ((v / 10 : ℕ) : ℤ) := by
    obtain ⟨half, -, -, -, hsigned, hunsigned⟩ := T.exists_half
    cases h : T.signed with
    | false => have hlow := (hunsigned h).1; omega
    | true => have hlow := (hsigned h).1; omega
  rw [formatLoop, if_pos (by exact_mod_cast hv), toSizeT_natCast hmax,
    getElem?_digit (Nat.mod_lt _ (by decide)), Option.bind_some,
    T.convert_eq hmin (by omega)]

/-- With zeros as place holders the loop writes the last digits. -/
theorem formatLoop_zeros (n v : ℕ) (hmax : (v : ℤ) ≤ T.max) (written : Bytes) :
    formatLoop T 10 (asc '0') n v false written = some (lastDigits 10 n v ++ written) := by
  induction n generalizing v written with
  | zero => rfl
  | succ n ih =>
      by_cases hv : v = 0
      · rw [hv, Int.natCast_zero, formatLoop, if_neg (by simp), if_neg (by simp)]
        have hrest := ih 0 (by omega) (asc '0' :: written)
        rw [Int.natCast_zero] at hrest
        rw [hrest, lastDigits, List.append_assoc]
        rfl
      · rw [formatLoop_digit hv hmax, ih (v / 10) (by omega), lastDigits, List.append_assoc]
        rfl

/-- The loop writes all the digits before it comes to a place holder. -/
theorem formatLoop_numeral {v : ℕ} (hv : v ≠ 0) (hmax : (v : ℤ) ≤ T.max) {n : ℕ}
    (hn : (numeral 10 v).length ≤ n) (sign : Bool) (written : Bytes) :
    formatLoop T 10 place n v sign written
      = formatLoop T 10 place (n - (numeral 10 v).length) 0 sign (numeral 10 v ++ written) := by
  suffices hany : ∀ n written, v ≠ 0 → (v : ℤ) ≤ T.max → (numeral 10 v).length ≤ n →
      formatLoop T 10 place n v sign written
        = formatLoop T 10 place (n - (numeral 10 v).length) 0 sign (numeral 10 v ++ written) from
    hany n written hv hmax hn
  refine Ascii.numeral_induction (by decide) (P := fun v s => ∀ n written, v ≠ 0 →
    (v : ℤ) ≤ T.max → s.length ≤ n → formatLoop T 10 place n v sign written
      = formatLoop T 10 place (n - s.length) 0 sign (s ++ written)) ?_ ?_ v
  · intro v hlt n written hv hmax hn
    obtain ⟨n, rfl⟩ : ∃ k, n = k + 1 := ⟨n - 1, by simp at hn; omega⟩
    rw [formatLoop_digit hv hmax, Nat.div_eq_of_lt hlt, Nat.mod_eq_of_lt hlt]
    rfl
  · intro v hle ih n written _ hmax hn
    rw [List.length_append, List.length_singleton] at hn
    obtain ⟨n, rfl⟩ : ∃ k, n = k + 1 := ⟨n - 1, by omega⟩
    rw [formatLoop_digit (by omega) hmax, ih n _ (by omega) (by omega) (by omega),
      List.length_append, List.length_singleton, Nat.add_sub_add_right, List.append_assoc]
    rfl

theorem formatLoop_place (n : ℕ) (written : Bytes) :
    formatLoop T 10 place n 0 false written = some (List.replicate n place ++ written) := by
  induction n generalizing written with
  | zero => rfl
  | succ n ih =>
      rw [formatLoop, if_neg (by simp), if_neg (by simp), ih, List.replicate_succ']
      simp

theorem formatLoop_sign (n : ℕ) (written : Bytes) : formatLoop T 10 place (n + 1) 0 true written
    = some (List.replicate n place ++ asc '-' :: written) := by
  rw [formatLoop, if_neg (by simp), if_pos rfl, formatLoop_place]

/-- What is written stays. -/
theorem suffix_of_formatLoop {base n : ℕ} {v : ℤ} {sign : Bool} {written r : Bytes}
    (h : formatLoop T base place n v sign written = some r) : written <:+ r := by
  induction n generalizing v sign written with
  | zero =>
      cases h
      exact List.suffix_rfl
  | succ n ih =>
      rw [formatLoop] at h
      split at h
      · obtain ⟨c, -, hc⟩ := Option.bind_eq_some_iff.1 h
        exact (List.suffix_cons c written).trans (ih hc)
      · split at h
        · exact (List.suffix_cons _ written).trans (ih h)
        · exact (List.suffix_cons _ written).trans (ih h)

/-! ## The two forms -/

/-- The number as a stream prints it with `setw(width)`. -/
def BlankForm (T : IntegralType) (v : ℤ) (width : ℕ) : Prop :=
  formatidiv T 10 v width (asc ' ') = some
    (List.replicate (width - (signedNumeral v).length) (asc ' ') ++ signedNumeral v, width)

/-- The sign, and the digits with zeros in front of them. -/
def ZeroForm (T : IntegralType) (v : ℤ) (width : ℕ) : Prop :=
  formatidiv T 10 v width (asc '0') = some
    ((if v < 0 then [asc '-'] else []) ++
      (List.replicate (width - (signedNumeral v).length) (asc '0') ++ numeral 10 v.natAbs), width)

theorem signedNumeral_natCast (n : ℕ) : signedNumeral n = numeral 10 n := rfl

theorem signedNumeral_neg {v : ℤ} (h : v < 0) :
    signedNumeral v = asc '-' :: numeral 10 v.natAbs := by
  obtain ⟨n, rfl⟩ := Int.eq_negSucc_of_lt_zero h
  rfl

theorem length_numeral_pos (n : ℕ) : 0 < (numeral 10 n).length := by
  refine Ascii.numeral_induction (by decide) (P := fun _ s => 0 < s.length) ?_ ?_ n
  · intro n _
    exact Nat.succ_pos _
  · intro n _ _
    simp

theorem zeroForm_natCast {n width : ℕ} (hmax : (n : ℤ) ≤ T.max)
    (hwidth : (signedNumeral n).length ≤ width) : ZeroForm T n width := by
  have hneg : ¬(n : ℤ) < 0 := by omega
  rw [signedNumeral_natCast] at hwidth
  rw [ZeroForm, formatidiv, if_neg hneg, if_neg hneg, formatLoop_zeros _ _ hmax, Option.map_some,
    Ascii.lastDigits_eq (by decide) hwidth, List.append_nil, List.nil_append, Int.natAbs_natCast]
  rfl

theorem blankForm_natCast {n width : ℕ} (hn : n ≠ 0) (hmax : (n : ℤ) ≤ T.max)
    (hwidth : (signedNumeral n).length ≤ width) : BlankForm T n width := by
  have hneg : ¬(n : ℤ) < 0 := by omega
  rw [BlankForm, formatidiv, if_neg hneg, formatLoop_numeral hn hmax hwidth, formatLoop_place,
    Option.map_some, List.append_nil]
  rfl

/-- For 0 there is no digit. -/
theorem not_blankForm_zero {width : ℕ} (hwidth : 0 < width) : ¬BlankForm T 0 width := by
  obtain ⟨width, rfl⟩ : ∃ k, width = k + 1 := ⟨width - 1, by omega⟩
  intro h
  rw [BlankForm, formatidiv, if_neg (by decide), formatLoop_place, Option.map_some,
    Option.some.injEq, Prod.mk.injEq, List.append_nil, List.replicate_succ'] at h
  have hlast := (List.append_inj' h.1 rfl).2
  exact absurd hlast (by decide)

theorem forms_neg {v : ℤ} {width : ℕ} (hmin : T.min < v) (hneg : v < 0)
    (hwidth : (signedNumeral v).length ≤ width) : BlankForm T v width ∧ ZeroForm T v width := by
  have habs : -v = (v.natAbs : ℤ) := by omega
  have hmax : (v.natAbs : ℤ) ≤ T.max := by
    obtain ⟨half, -, -, -, hsigned, hunsigned⟩ := T.exists_half
    cases h : T.signed with
    | false => have hlow := (hunsigned h).1; omega
    | true => obtain ⟨hlow, hhigh⟩ := hsigned h; omega
  rw [signedNumeral_neg hneg, List.length_cons] at hwidth
  constructor
  · obtain ⟨k, hk⟩ : ∃ k, width - (numeral 10 v.natAbs).length = k + 1 :=
      ⟨width - (numeral 10 v.natAbs).length - 1, by omega⟩
    rw [BlankForm, formatidiv, if_pos hneg, T.negated_eq hmin hneg, Option.bind_some,
      if_neg (by decide), habs, formatLoop_numeral (by omega) hmax (by omega), hk,
      formatLoop_sign, Option.map_some, signedNumeral_neg hneg, List.append_nil, List.length_cons,
      show width - ((numeral 10 v.natAbs).length + 1) = k by omega]
  · rw [ZeroForm, formatidiv, if_pos hneg, if_pos hneg, T.negated_eq hmin hneg, Option.bind_some,
      if_pos rfl, if_neg (by omega), habs, formatLoop_zeros _ _ hmax, Option.map_some,
      List.append_nil, Ascii.lastDigits_eq (by decide) (by omega), signedNumeral_neg hneg,
      List.length_cons, show width - ((numeral 10 v.natAbs).length + 1)
        = width - 1 - (numeral 10 v.natAbs).length by omega, show 1 + (width - 1) = width by omega]
    rfl

/-- A turn with any number that is not 0. -/
theorem formatLoop_step (T : IntegralType) (place : UInt8) {v : ℤ} (c : UInt8) (hv : v ≠ 0)
    (hc : (lit "0123456789ABCDEF")[toSizeT v % 10]? = some c) (n : ℕ) (sign : Bool)
    (written : Bytes) : formatLoop T 10 place (n + 1) v sign written
      = formatLoop T 10 place n (T.convert (toSizeT v / 10 : ℕ)) sign (c :: written) := by
  rw [formatLoop, if_pos hv, hc, Option.bind_some]

/-- The second digit of the least number of a narrow type is wrong: it is converted to a `size_t` with
its sign. -/
theorem formatLoop_min (hsigned : T.signed = true) (hbits : T.bits < 32) (place : UInt8) (n : ℕ)
    (sign : Bool) : ∃ v' c x d, formatLoop T 10 place (n + 2) T.min sign []
        = formatLoop T 10 place n v' sign [c, asc '8'] ∧
      numeral 10 T.min.natAbs = x ++ [d, asc '8'] ∧ c ≠ d := by
  have hnarrow : T.bits = 8 ∨ T.bits = 16 := by
    have hmem := T.bits_mem
    simp only [List.mem_cons, List.not_mem_nil, or_false] at hmem
    omega
  have hmin : T.min = -2 ^ (T.bits - 1) := if_pos hsigned
  have hsecond : ∀ v : ℕ, T.convert v = (v : ℤ).bmod (2 ^ T.bits) := fun v => if_pos hsigned
  rcases hnarrow with h | h
  · have hvalue : T.min = -128 := by rw [hmin, h]; rfl
    have hfirst := formatLoop_step T place (v := T.min) (asc '8') (by rw [hvalue]; decide)
      (by rw [hvalue]; decide) (n + 1) sign []
    have hnext := hfirst.trans (formatLoop_step T place (asc '0')
      (by rw [hsecond, h, hvalue]; decide) (by rw [hsecond, h, hvalue]; decide) n sign _)
    exact ⟨_, _, lit "1", asc '2', hnext, by rw [hvalue]; decide, by decide⟩
  · have hvalue : T.min = -32768 := by rw [hmin, h]; rfl
    have hfirst := formatLoop_step T place (v := T.min) (asc '8') (by rw [hvalue]; decide)
      (by rw [hvalue]; decide) (n + 1) sign []
    have hnext := hfirst.trans (formatLoop_step T place (asc '4')
      (by rw [hsecond, h, hvalue]; decide) (by rw [hsecond, h, hvalue]; decide) n sign _)
    exact ⟨_, _, lit "327", asc '6', hnext, by rw [hvalue]; decide, by decide⟩

/-- The least number has no result, or a wrong one. -/
theorem not_forms_min (hsigned : T.signed = true) {width : ℕ}
    (hwidth : (signedNumeral T.min).length ≤ width) :
    ¬BlankForm T T.min width ∧ ¬ZeroForm T T.min width := by
  have hneg : T.min < 0 := by
    obtain ⟨half, hhalf, -, -, hrange, -⟩ := T.exists_half
    have hlow := (hrange hsigned).1
    simp only [List.mem_cons, List.not_mem_nil, or_false] at hhalf
    omega
  rw [signedNumeral_neg hneg, List.length_cons] at hwidth
  by_cases hbits : T.bits < 32
  · -- the last two digits of what is written are not those of the number
    have hnegated : T.negated T.min = some T.min := by rw [T.negated_min hsigned, if_pos hbits]
    have hwrong : ∀ (place : UInt8) (sign : Bool) (n : ℕ) (text : Bytes),
        formatLoop T 10 place (n + 2) T.min sign [] ≠ some (text ++ numeral 10 T.min.natAbs) := by
      intro place sign n text h
      obtain ⟨v', c, x, d, hloop, hnumeral, hne⟩ :=
        formatLoop_min hsigned hbits place n sign
      rw [hloop, hnumeral, ← List.append_assoc] at h
      obtain ⟨y, hy⟩ := suffix_of_formatLoop h
      exact hne (List.cons.inj (List.append_inj' hy rfl).2).1
    obtain ⟨k, rfl⟩ : ∃ k, width = k + 3 := by
      obtain ⟨v', c, x, d, -, hnumeral, -⟩ :=
        formatLoop_min hsigned hbits (asc ' ') 0 false
      rw [hnumeral, List.length_append] at hwidth
      simp only [List.length_cons, List.length_nil] at hwidth
      exact ⟨width - 3, by omega⟩
    constructor
    · intro h
      rw [BlankForm, formatidiv, if_pos hneg, hnegated, Option.bind_some, if_neg (by decide)] at h
      obtain ⟨r, hr, heq⟩ := Option.map_eq_some_iff.1 h
      rw [Prod.mk.injEq, signedNumeral_neg hneg, ← List.singleton_append, ← List.append_assoc] at heq
      rw [heq.1] at hr
      exact hwrong _ _ _ _ hr
    · intro h
      rw [ZeroForm, formatidiv, if_pos hneg, if_pos hneg, hnegated, Option.bind_some, if_pos rfl,
        if_neg (by omega)] at h
      obtain ⟨r, hr, heq⟩ := Option.map_eq_some_iff.1 h
      rw [Prod.mk.injEq, List.singleton_append] at heq
      rw [(List.cons.inj heq.1).2] at hr
      exact hwrong _ _ _ _ hr
  · have hnegated : T.negated T.min = none := by rw [T.negated_min hsigned, if_neg hbits]
    constructor
    · intro h
      rw [BlankForm, formatidiv, if_pos hneg, hnegated] at h
      exact absurd h (by simp)
    · intro h
      rw [ZeroForm, formatidiv, if_pos hneg, hnegated] at h
      exact absurd h (by simp)

/-- Both forms are right if and only if the number is neither 0 nor the least one of a signed type;
the form with zeros is right for 0, too. -/
theorem formatidiv_forms_iff (T : IntegralType) (v : ℤ) (width : ℕ) (hmin : T.min ≤ v)
    (hmax : v ≤ T.max) (hwidth : (signedNumeral v).length ≤ width) :
    (BlankForm T v width ∧ ZeroForm T v width ↔ v ≠ 0 ∧ ¬(T.signed = true ∧ v = T.min)) ∧
    (ZeroForm T v width ↔ ¬(T.signed = true ∧ v = T.min)) := by
  by_cases hleast : T.signed = true ∧ v = T.min
  · obtain ⟨hsigned, rfl⟩ := hleast
    obtain ⟨hblank, hzero⟩ := not_forms_min hsigned hwidth
    exact ⟨iff_of_false (fun h => hblank h.1) fun h => h.2 ⟨hsigned, rfl⟩,
      iff_of_false hzero fun h => h ⟨hsigned, rfl⟩⟩
  · by_cases hneg : v < 0
    · have hsigned : T.signed = true := by
        by_contra hnot
        obtain ⟨half, -, -, -, -, hrange⟩ := T.exists_half
        have hlow := (hrange (by simpa using hnot)).1
        omega
      have hlt : T.min < v := Int.lt_iff_le_and_ne.2 ⟨hmin, fun h => hleast ⟨hsigned, h.symm⟩⟩
      obtain ⟨hblank, hzero⟩ := forms_neg hlt hneg hwidth
      exact ⟨iff_of_true ⟨hblank, hzero⟩ ⟨by omega, hleast⟩, iff_of_true hzero hleast⟩
    · obtain ⟨n, rfl⟩ : ∃ n : ℕ, v = n := ⟨v.toNat, by omega⟩
      have hzero := zeroForm_natCast hmax hwidth
      refine ⟨?_, iff_of_true hzero hleast⟩
      by_cases hn : n = 0
      · have hpos : 0 < width := Nat.lt_of_lt_of_le (length_numeral_pos n) hwidth
        rw [hn]
        exact iff_of_false (fun h => not_blankForm_zero hpos h.1) fun h => h.1 rfl
      · exact iff_of_true ⟨blankForm_natCast hn hmax hwidth, hzero⟩
          ⟨by exact_mod_cast hn, hleast⟩

/-- -123 in eight places. -/
theorem formatidiv_forms_int : BlankForm .int (-123) 8 ∧ ZeroForm .int (-123) 8 :=
  (formatidiv_forms_iff .int (-123) 8 (by decide) (by decide) (by decide)).1.2
    ⟨by decide, by decide⟩

/-- No digit is written for 0, and the least `int` has no negative. -/
theorem not_formatidiv_forms : ¬BlankForm .int 0 4 ∧ ¬ZeroForm .int (-2147483648) 11 :=
  ⟨not_blankForm_zero (by decide), (not_forms_min (T := .int) rfl (by decide)).2⟩

end ImageProxy.Cpcl
