import Mathlib.Data.Nat.Notation
import Mathlib.Tactic.ByContra
import Mathlib.Tactic.SplitIfs
import ImageProxy.Library.Ascii

set_option autoImplicit false

/-! # UTF-8 of up to 31 bits (`string_util.h`, `string_util.cpp`)

`int` and `wchar_t` have 32 bits and are given by them, as `UInt32`; a number from 2 ^ 31 on is
negative. The encoder writes up to six bytes. The decoder refuses a leading byte whose own bits are
all 0, and the encoder writes such bytes: of every length class above two bytes the lower part does
not come back. -/

namespace ImageProxy.Cpcl

/-! ## The source -/

/-- `while (n > 1) { p[--n] = (char)((w & 0x3F) | 0x80); w >>= 6; }` with `m` turns left, then
`p[0] = (char)((255 << (8 - r)) | w)`; `written` is what is behind. -/
def encodeLoop (r : ℕ) : (m : ℕ) → (w : UInt32) → (written : Bytes) → Bytes
  | 0, w, written => ((255 <<< UInt32.ofNat (8 - r)) ||| w).toUInt8 :: written
  | m + 1, w, written => encodeLoop r m (w >>> 6) (((w &&& 0x3F) ||| 0x80).toUInt8 :: written)

/-- `uc_to_utf`: the bytes it writes; it returns how many. -/
def ucToUtf (w : UInt32) : Bytes :=
  if w &&& 0x80000000 ≠ 0 then []
  else if w &&& 0xFC000000 ≠ 0 then encodeLoop 6 5 w []
  else if w &&& 0xFFE00000 ≠ 0 then encodeLoop 5 4 w []
  else if w &&& 0xFFFF0000 ≠ 0 then encodeLoop 4 3 w []
  else if w &&& 0xFFFFF800 ≠ 0 then encodeLoop 3 2 w []
  else if w &&& 0xFFFFFF80 ≠ 0 then encodeLoop 2 1 w []
  else [w.toUInt8]

/-- `do { n++; q >>= 1; } while (z & q)`; after eight turns `q` is 0. -/
def leadLoop (z : UInt32) : (turns : ℕ) → (n : ℕ) → (q : UInt32) → ℕ × UInt32
  | 0, n, q => (n, q)
  | turns + 1, n, q =>
      let n := n + 1
      let q := q >>> 1
      if z &&& q ≠ 0 then leadLoop z turns n q else (n, q)

/-- `while (n > 1)`, with `m` turns left; `p` is what `++p` goes through. -/
def decodeLoop : (m : ℕ) → (r : UInt32) → (p : Bytes) → Option UInt32
  | 0, r, _ => some r
  | _ + 1, _, [] => none
  | m + 1, r, z :: p =>
      if z.toUInt32 &&& 0xC0 ≠ 0x80 then none
      else decodeLoop m ((r <<< 6) ||| (z.toUInt32 &&& 0x3F)) p

/-- `utf_to_uc`: the length it returns and `*w`; `none` is 0. There are at least `lim` bytes at
`p`. -/
def utfToUc (p : Bytes) (lim : ℤ) : Option (ℕ × UInt32) :=
  if lim < 1 then none
  else match p with
    | [] => none
    | p₀ :: p =>
        let z := p₀.toUInt32
        if z &&& 0x80 = 0 then some (1, z)
        else
          let (n, q) := leadLoop z 8 0 0x80
          if n < 2 ∨ lim < n then none
          else
            let r := z &&& (q - 1)
            if r = 0 then none else (decodeLoop (n - 1) r p).map fun r => (n, r)

/-- `WCHAR_MAX`. -/
def wcharMax : ℤ := 0x7FFFFFFF

/-- `static_cast<int>` of a size. -/
def intOfSize (n : ℕ) : ℤ := (n : ℤ).bmod (2 ^ 32)

/-- The loop of `TryConvertUTF8_UTF16` from `p + i` on, `lim` being `n - i`. -/
def convertLoop : (turns : ℕ) → (p : Bytes) → (lim : ℤ) → Option (List UInt32)
  | 0, _, _ => none
  | turns + 1, p, lim =>
      if 0 < lim then
        match utfToUc p lim with
        | none => none
        | some (k, w) =>
            if w.toInt32.toInt > wcharMax then none
            else (convertLoop turns (p.drop k) (lim - k)).map (w :: ·)
      else some []

/-- `TryConvertUTF8_UTF16(s, r)`; every turn takes a byte. -/
def tryConvertUTF8UTF16 (s : Bytes) : Option (List UInt32) :=
  convertLoop (s.length + 1) s (intOfSize s.length)

/-- `ConvertUTF16_UTF8(s)`. -/
def convertUTF16UTF8 (s : List UInt32) : Bytes :=
  (s.take (intOfSize s.length).toNat).flatMap ucToUtf

/-! ## One group of six bits -/

theorem low_six (x : UInt32) : x &&& 0x3F = UInt32.ofNat (x.toNat % 64) := by
  apply UInt32.toNat_inj.1
  rw [UInt32.toNat_and]
  show x.toNat &&& 2 ^ 6 - 1 = _
  rw [Nat.and_two_pow_sub_one_eq_mod, UInt32.toNat_ofNat_of_lt' (by
    show x.toNat % 64 < 2 ^ 32
    omega)]

/-- The byte that carries six bits. -/
def continuation (x : UInt32) : UInt8 := ((x &&& 0x3F) ||| 0x80).toUInt8

theorem continuation_table : ∀ i < 64,
    ((UInt32.ofNat i ||| 0x80).toUInt8.toUInt32 &&& 0xC0 = 0x80) ∧
    ((UInt32.ofNat i ||| 0x80).toUInt8.toUInt32 &&& 0x3F = UInt32.ofNat i) := by
  decide +kernel

theorem shift_or (x : UInt32) : ((x >>> 6) <<< 6) ||| (x &&& 0x3F) = x := by
  have hx := x.toNat_lt
  apply UInt32.toNat_inj.1
  rw [UInt32.toNat_or, UInt32.toNat_and, UInt32.toNat_shiftLeft, UInt32.toNat_shiftRight]
  show (x.toNat >>> 6) <<< 6 % 2 ^ 32 ||| x.toNat &&& 2 ^ 6 - 1 = x.toNat
  rw [Nat.and_two_pow_sub_one_eq_mod, Nat.shiftRight_eq_div_pow, Nat.mod_eq_of_lt (by
    rw [Nat.shiftLeft_eq]
    omega), ← Nat.shiftLeft_add_eq_or_of_lt (by omega), Nat.shiftLeft_eq]
  omega

/-- A byte of six bits is read back. -/
theorem decodeLoop_continuation (m : ℕ) (x : UInt32) (p : Bytes) :
    decodeLoop (m + 1) (x >>> 6) (continuation x :: p) = decodeLoop m x p := by
  have htable := continuation_table (x.toNat % 64) (Nat.mod_lt _ (by decide))
  have hbits := shift_or x
  rw [low_six] at hbits
  rw [decodeLoop, continuation, low_six, htable.1, htable.2, if_neg (by simp), hbits]

/-! ## One character -/

/-- What is left of `w` for the leading byte after `m` groups. -/
def high : (m : ℕ) → UInt32 → UInt32
  | 0, w => w
  | m + 1, w => high m (w >>> 6)

/-- The bytes of the last `m` groups of `w`. -/
def groups : (m : ℕ) → UInt32 → Bytes
  | 0, _ => []
  | m + 1, w => groups m (w >>> 6) ++ [continuation w]

/-- The leading byte of `r` bytes. -/
def lead (r : ℕ) (v : UInt32) : UInt8 := ((255 <<< UInt32.ofNat (8 - r)) ||| v).toUInt8

theorem encodeLoop_eq (r m : ℕ) (w : UInt32) (written : Bytes) :
    encodeLoop r m w written = lead r (high m w) :: (groups m w ++ written) := by
  induction m generalizing w written with
  | zero => rfl
  | succ m ih =>
      rw [encodeLoop, ih, groups, List.append_assoc]
      rfl

theorem length_groups (m : ℕ) (w : UInt32) : (groups m w).length = m := by
  induction m generalizing w with
  | zero => rfl
  | succ m ih => rw [groups, List.length_append, ih, List.length_singleton]

theorem toNat_high (m : ℕ) (w : UInt32) : (high m w).toNat = w.toNat / 64 ^ m := by
  induction m generalizing w with
  | zero => simp [high]
  | succ m ih =>
      have hshift : (w >>> 6).toNat = w.toNat / 64 := by
        rw [UInt32.toNat_shiftRight]
        exact Nat.shiftRight_eq_div_pow _ _
      rw [high, ih, hshift, Nat.div_div_eq_div_mul, Nat.pow_succ, Nat.mul_comm]

theorem decodeLoop_groups (m k : ℕ) (w : UInt32) (p : Bytes) :
    decodeLoop (m + k) (high m w) (groups m w ++ p) = decodeLoop k w p := by
  induction m generalizing k w p with
  | zero => rw [Nat.zero_add, high, groups, List.nil_append]
  | succ m ih =>
      have hturns : m + 1 + k = m + (k + 1) := by omega
      rw [hturns, high, groups, List.append_assoc, List.singleton_append, ih,
        decodeLoop_continuation]

theorem lead_table : ∀ m < 5, ∀ v < 2 ^ (5 - m),
    (lead (m + 2) (UInt32.ofNat v)).toUInt32 &&& 0x80 ≠ 0 ∧
    (leadLoop (lead (m + 2) (UInt32.ofNat v)).toUInt32 8 0 0x80).1 = m + 2 ∧
    (lead (m + 2) (UInt32.ofNat v)).toUInt32 &&&
      ((leadLoop (lead (m + 2) (UInt32.ofNat v)).toUInt32 8 0 0x80).2 - 1) = UInt32.ofNat v := by
  decide +kernel

/-- Decoding `m + 1` bytes that carry all of `w`. -/
theorem utfToUc_encodeLoop {m : ℕ} (hm : m < 5) {w : UInt32}
    (hw : w.toNat / 64 ^ (m + 1) < 2 ^ (5 - m)) (rest : Bytes) (lim : ℤ) :
    utfToUc (encodeLoop (m + 2) (m + 1) w [] ++ rest) lim =
      if w.toNat / 64 ^ (m + 1) ≠ 0 ∧ (m + 2 : ℕ) ≤ lim then some (m + 2, w) else none := by
  have hhigh : high (m + 1) w = UInt32.ofNat (w.toNat / 64 ^ (m + 1)) := by
    rw [← toNat_high, UInt32.ofNat_toNat]
  have hzero : UInt32.ofNat (w.toNat / 64 ^ (m + 1)) = 0 ↔ w.toNat / 64 ^ (m + 1) = 0 := by
    rw [← hhigh, ← toNat_high, ← UInt32.toNat_inj]
    rfl
  obtain ⟨hbit, hlen, hown⟩ := lead_table m hm _ hw
  have hloop := decodeLoop_groups (m + 1) 0 w rest
  rw [hhigh] at hloop
  rw [encodeLoop_eq, hhigh, List.append_nil, List.cons_append, utfToUc]
  generalize lead (m + 2) (UInt32.ofNat (w.toNat / 64 ^ (m + 1))) = z at hbit hlen hown ⊢
  cases hpair : leadLoop z.toUInt32 8 0 0x80 with
  | mk n q =>
      rw [hpair] at hlen hown
      change n = m + 2 at hlen
      change z.toUInt32 &&& (q - 1) = _ at hown
      subst hlen
      simp only [hpair, hown, hzero]
      rw [if_neg hbit]
      by_cases hroom : ((m + 2 : ℕ) : ℤ) ≤ lim
      · rw [if_neg (by omega), if_neg (by omega)]
        by_cases hnone : w.toNat / 64 ^ (m + 1) = 0
        · rw [if_pos hnone, if_neg (by simp [hnone])]
        · rw [if_neg hnone, if_pos ⟨hnone, hroom⟩]
          have hread : decodeLoop (m + 2 - 1) (UInt32.ofNat (w.toNat / 64 ^ (m + 1)))
              (groups (m + 1) w ++ rest) = some w := hloop
          rw [hread]
          rfl
      · have hright : ¬(w.toNat / 64 ^ (m + 1) ≠ 0 ∧ ((m + 2 : ℕ) : ℤ) ≤ lim) := fun h => hroom h.2
        rw [if_neg hright]
        by_cases hlim : lim < 1
        · rw [if_pos hlim]
        · rw [if_neg hlim, if_pos (by omega)]

/-! ## Every class of length -/

theorem and_high_bits {w : UInt32} (k : ℕ) (hk : k ≤ 32) :
    w.toNat &&& ((2 ^ (32 - k) - 1) <<< k) = w.toNat / 2 ^ k * 2 ^ k := by
  have hw := w.toNat_lt
  rw [← Nat.shiftRight_eq_div_pow, ← Nat.shiftLeft_eq]
  apply Nat.eq_of_testBit_eq
  intro i
  rw [Nat.testBit_and, Nat.testBit_shiftLeft, Nat.testBit_shiftLeft, Nat.testBit_shiftRight,
    Nat.testBit_two_pow_sub_one]
  by_cases hi : k ≤ i
  · have hpos : k + (i - k) = i := by omega
    rw [hpos]
    by_cases hlt : i < 32
    · have hin : i - k < 32 - k := by omega
      simp [hi, hin]
    · have hbit : w.toNat.testBit i = false :=
        Nat.testBit_lt_two_pow (Nat.lt_of_lt_of_le hw (Nat.pow_le_pow_right (by decide) (by omega)))
      simp [hbit]
  · simp [hi]

/-- A test against the bits from `k` on. -/
theorem and_mask_ne_zero (w mask : UInt32) (k : ℕ) (hk : k ≤ 32)
    (hmask : mask.toNat = (2 ^ (32 - k) - 1) <<< k) : w &&& mask ≠ 0 ↔ 2 ^ k ≤ w.toNat := by
  have hand : (w &&& mask).toNat = w.toNat / 2 ^ k * 2 ^ k := by
    rw [UInt32.toNat_and, hmask, and_high_bits k hk]
  have hpos : 0 < 2 ^ k := Nat.two_pow_pos k
  rw [ne_eq, ← UInt32.toNat_inj, hand]
  show ¬w.toNat / 2 ^ k * 2 ^ k = 0 ↔ _
  rw [Nat.mul_eq_zero, Nat.div_eq_zero_iff]
  omega

theorem ucToUtf_eq {w : UInt32} (hw : w.toNat < 2 ^ 31) : ucToUtf w =
    if 2 ^ 26 ≤ w.toNat then encodeLoop 6 5 w []
    else if 2 ^ 21 ≤ w.toNat then encodeLoop 5 4 w []
    else if 2 ^ 16 ≤ w.toNat then encodeLoop 4 3 w []
    else if 2 ^ 11 ≤ w.toNat then encodeLoop 3 2 w []
    else if 2 ^ 7 ≤ w.toNat then encodeLoop 2 1 w []
    else [w.toUInt8] := by
  have hsign : ¬w &&& 0x80000000 ≠ 0 := by
    rw [and_mask_ne_zero w 0x80000000 31 (by decide) (by decide)]
    omega
  have h6 := and_mask_ne_zero w 0xFC000000 26 (by decide) (by decide)
  have h5 := and_mask_ne_zero w 0xFFE00000 21 (by decide) (by decide)
  have h4 := and_mask_ne_zero w 0xFFFF0000 16 (by decide) (by decide)
  have h3 := and_mask_ne_zero w 0xFFFFF800 11 (by decide) (by decide)
  have h2 := and_mask_ne_zero w 0xFFFFFF80 7 (by decide) (by decide)
  rw [ucToUtf, if_neg hsign]
  simp only [h6, h5, h4, h3, h2]

/-- The characters that come back: those whose leading byte has a bit of its own. -/
def Restorable (w : UInt32) : Prop :=
  w.toNat < 0x800 ∨ (0x1000 ≤ w.toNat ∧ w.toNat ≤ 0xFFFF) ∨
    (0x40000 ≤ w.toNat ∧ w.toNat ≤ 0x1FFFFF) ∨
    (0x1000000 ≤ w.toNat ∧ w.toNat ≤ 0x3FFFFFF) ∨ 0x40000000 ≤ w.toNat
deriving Decidable

theorem length_encodeLoop (r m : ℕ) (w : UInt32) : (encodeLoop r m w []).length = m + 1 := by
  rw [encodeLoop_eq, List.append_nil, List.length_cons, length_groups]

/-- A leading byte with bits of its own, and enough bytes behind it. -/
theorem utfToUc_of_lead {p₀ : UInt8} {p : Bytes} {lim : ℤ} {n : ℕ} {q w : UInt32}
    (hbit : ¬p₀.toUInt32 &&& 0x80 = 0) (hlead : leadLoop p₀.toUInt32 8 0 0x80 = (n, q))
    (hlen : 2 ≤ n) (hroom : n ≤ lim) (hown : ¬p₀.toUInt32 &&& (q - 1) = 0)
    (hloop : decodeLoop (n - 1) (p₀.toUInt32 &&& (q - 1)) p = some w) :
    utfToUc (p₀ :: p) lim = some (n, w) := by
  rw [utfToUc, if_neg (by omega)]
  simp only [hlead, if_neg hbit, if_neg hown, hloop, Option.map_some]
  rw [if_neg (by omega)]

/-- Nothing else but a byte below `80` is accepted. -/
theorem utfToUc_cases {p : Bytes} {lim : ℤ} {k : ℕ} {w : UInt32}
    (h : utfToUc p lim = some (k, w)) : ∃ p₀ rest, p = p₀ :: rest ∧
      (p₀.toUInt32 &&& 0x80 = 0 ∧ 1 ≤ lim ∧ k = 1 ∧ w = p₀.toUInt32 ∨
        ¬p₀.toUInt32 &&& 0x80 = 0 ∧ (leadLoop p₀.toUInt32 8 0 0x80).1 = k ∧ 2 ≤ k ∧ k ≤ lim ∧
          ¬p₀.toUInt32 &&& ((leadLoop p₀.toUInt32 8 0 0x80).2 - 1) = 0 ∧
          decodeLoop (k - 1) (p₀.toUInt32 &&& ((leadLoop p₀.toUInt32 8 0 0x80).2 - 1)) rest
            = some w) := by
  unfold utfToUc at h
  split at h
  · exact absurd h (by simp)
  · next hlim =>
      cases p with
      | nil => exact absurd h (by simp)
      | cons p₀ p =>
          refine ⟨p₀, p, rfl, ?_⟩
          simp only at h
          split at h
          · next hbit =>
              cases h
              exact .inl ⟨hbit, by omega, rfl, rfl⟩
          · next hbit =>
              split at h
              · exact absurd h (by simp)
              · next hroom =>
                  split at h
                  · exact absurd h (by simp)
                  · next hown =>
                      obtain ⟨r, hr, heq⟩ := Option.map_eq_some_iff.1 h
                      cases heq
                      exact .inr ⟨hbit, rfl, by omega, by omega, hown, hr⟩

theorem ascii_table : ∀ i < 128,
    (UInt32.ofNat i).toUInt8.toUInt32 = UInt32.ofNat i ∧ UInt32.ofNat i &&& 0x80 = 0 := by
  decide +kernel

theorem utfToUc_ascii {w : UInt32} (hw : w.toNat < 2 ^ 7) (rest : Bytes) (lim : ℤ) :
    utfToUc (w.toUInt8 :: rest) lim = if 1 ≤ lim then some (1, w) else none := by
  have htable := ascii_table w.toNat hw
  rw [UInt32.ofNat_toNat] at htable
  unfold utfToUc
  simp only [htable.1, htable.2, if_true]
  by_cases hlim : 1 ≤ lim
  · rw [if_neg (by omega), if_pos hlim]
  · rw [if_pos (by omega), if_neg hlim]

theorem utfToUc_class {m : ℕ} (hm : m < 5) {w : UInt32}
    (hw : w.toNat / 64 ^ (m + 1) < 2 ^ (5 - m))
    (hrestorable : Restorable w ↔ w.toNat / 64 ^ (m + 1) ≠ 0) (rest : Bytes) (lim : ℤ) :
    utfToUc (encodeLoop (m + 2) (m + 1) w [] ++ rest) lim =
      if Restorable w ∧ ((encodeLoop (m + 2) (m + 1) w []).length : ℤ) ≤ lim then
        some ((encodeLoop (m + 2) (m + 1) w []).length, w)
      else none := by
  rw [utfToUc_encodeLoop hm hw, length_encodeLoop]
  simp only [hrestorable]

/-- **What the decoder makes of an encoded character**, whatever comes behind it. -/
theorem utfToUc_ucToUtf {w : UInt32} (hw : w.toNat < 2 ^ 31) (rest : Bytes) (lim : ℤ) :
    utfToUc (ucToUtf w ++ rest) lim =
      if Restorable w ∧ ((ucToUtf w).length : ℤ) ≤ lim then some ((ucToUtf w).length, w)
      else none := by
  rw [ucToUtf_eq hw]
  by_cases h6 : 2 ^ 26 ≤ w.toNat
  · simp only [if_pos h6]
    exact utfToUc_class (m := 4) (by decide) (by omega) (by unfold Restorable; omega) rest lim
  by_cases h5 : 2 ^ 21 ≤ w.toNat
  · simp only [if_neg h6, if_pos h5]
    exact utfToUc_class (m := 3) (by decide) (by omega) (by unfold Restorable; omega) rest lim
  by_cases h4 : 2 ^ 16 ≤ w.toNat
  · simp only [if_neg h6, if_neg h5, if_pos h4]
    exact utfToUc_class (m := 2) (by decide) (by omega) (by unfold Restorable; omega) rest lim
  by_cases h3 : 2 ^ 11 ≤ w.toNat
  · simp only [if_neg h6, if_neg h5, if_neg h4, if_pos h3]
    exact utfToUc_class (m := 1) (by decide) (by omega) (by unfold Restorable; omega) rest lim
  by_cases h2 : 2 ^ 7 ≤ w.toNat
  · simp only [if_neg h6, if_neg h5, if_neg h4, if_neg h3, if_pos h2]
    exact utfToUc_class (m := 0) (by decide) (by omega) (by unfold Restorable; omega) rest lim
  · have hrestorable : Restorable w := by
      unfold Restorable
      omega
    simp only [if_neg h6, if_neg h5, if_neg h4, if_neg h3, if_neg h2]
    rw [List.singleton_append, utfToUc_ascii (by omega)]
    simp [hrestorable]


/-! ## Strings -/

theorem length_ucToUtf_pos {w : UInt32} (hw : w.toNat < 2 ^ 31) : 0 < (ucToUtf w).length := by
  rw [ucToUtf_eq hw]
  split_ifs <;> simp [length_encodeLoop]

theorem length_le_length_encoded {s : List UInt32} (hs : ∀ w ∈ s, w.toNat < 2 ^ 31) :
    s.length ≤ (s.flatMap ucToUtf).length := by
  induction s with
  | nil => exact Nat.zero_le _
  | cons w s ih =>
      have hpos := length_ucToUtf_pos (hs w List.mem_cons_self)
      have hrest := ih fun v hv => hs v (List.mem_cons_of_mem _ hv)
      rw [List.flatMap_cons, List.length_append, List.length_cons]
      omega

theorem intOfSize_of_lt {n : ℕ} (h : n < 2 ^ 31) : intOfSize n = n := by
  unfold intOfSize
  rw [Int.bmod_def]
  split <;> omega

theorem intOfSize_lt {n : ℕ} (h : 2 ^ 31 ≤ n) : intOfSize n < n := by
  unfold intOfSize
  rw [Int.bmod_def]
  split <;> omega

theorem not_gt_wcharMax (w : UInt32) : ¬w.toInt32.toInt > wcharMax := by
  have hle : w.toInt32.toInt ≤ 2 ^ 31 - 1 := w.toInt32.toInt_le
  unfold wcharMax
  omega

theorem convertLoop_end (turns : ℕ) (p : Bytes) {lim : ℤ} (hlim : ¬0 < lim) :
    convertLoop (turns + 1) p lim = some [] := by
  rw [convertLoop, if_neg hlim]

/-- One turn of the loop; no character is above `WCHAR_MAX`. -/
theorem convertLoop_turn (turns : ℕ) (p : Bytes) {lim : ℤ} (hlim : 0 < lim) :
    convertLoop (turns + 1) p lim = (utfToUc p lim).bind fun r =>
      (convertLoop turns (p.drop r.1) (lim - r.1)).map (r.2 :: ·) := by
  rw [convertLoop, if_pos hlim]
  cases utfToUc p lim with
  | none => rfl
  | some r => exact if_neg (not_gt_wcharMax r.2)

/-- What the loop gets out of encoded characters when `lim` cuts them off: a beginning of them that
fills `lim`. -/
theorem convertLoop_sound {turns : ℕ} {s out : List UInt32} {lim : ℤ}
    (hs : ∀ w ∈ s, w.toNat < 2 ^ 31) (hlim : lim ≤ (s.flatMap ucToUtf).length)
    (h : convertLoop turns (s.flatMap ucToUtf) lim = some out) :
    out <+: s ∧ (∀ w ∈ out, Restorable w) ∧
      (0 ≤ lim → ((out.flatMap ucToUtf).length : ℤ) = lim) := by
  induction turns generalizing s out lim with
  | zero => exact absurd h (by simp [convertLoop])
  | succ turns ih =>
      by_cases hpos : 0 < lim
      · rw [convertLoop_turn turns _ hpos] at h
        cases s with
        | nil => simp at hlim; omega
        | cons w s =>
            have hw := hs w List.mem_cons_self
            rw [List.flatMap_cons, List.length_append] at hlim
            rw [List.flatMap_cons, utfToUc_ucToUtf hw] at h
            by_cases hfits : Restorable w ∧ ((ucToUtf w).length : ℤ) ≤ lim
            · simp only [if_pos hfits, Option.bind_some, List.drop_left] at h
              obtain ⟨out', hout, rfl⟩ := Option.map_eq_some_iff.1 h
              obtain ⟨hbegins, hall, hlen⟩ := ih (fun v hv => hs v (List.mem_cons_of_mem _ hv))
                (by omega) hout
              refine ⟨by simpa using hbegins, ?_, fun _ => ?_⟩
              · intro v hv
                rcases List.mem_cons.1 hv with rfl | hv
                · exact hfits.1
                · exact hall v hv
              · have hrest := hlen (by omega)
                rw [List.flatMap_cons, List.length_append]
                omega
            · rw [if_neg hfits] at h
              exact absurd h (by simp)
      · rw [convertLoop_end turns _ hpos] at h
        cases h
        exact ⟨List.nil_prefix, by simp, fun hnonneg => by simp; omega⟩

/-- Restorable characters come back. -/
theorem convertLoop_complete {turns : ℕ} {s : List UInt32} (hs : ∀ w ∈ s, w.toNat < 2 ^ 31)
    (hall : ∀ w ∈ s, Restorable w) (hturns : s.length < turns) :
    convertLoop turns (s.flatMap ucToUtf) (s.flatMap ucToUtf).length = some s := by
  induction s generalizing turns with
  | nil =>
      cases turns with
      | zero => omega
      | succ turns => rfl
  | cons w s ih =>
      cases turns with
      | zero => omega
      | succ turns =>
          have hw := hs w List.mem_cons_self
          have hpos := length_ucToUtf_pos hw
          have hleft : s.length < turns := by
            rw [List.length_cons] at hturns
            omega
          have hrest := ih (fun v hv => hs v (List.mem_cons_of_mem _ hv))
            (fun v hv => hall v (List.mem_cons_of_mem _ hv)) hleft
          have hfits : Restorable w ∧
              ((ucToUtf w).length : ℤ) ≤ ((ucToUtf w).length + (s.flatMap ucToUtf).length : ℕ) :=
            ⟨hall w List.mem_cons_self, by omega⟩
          have hlim : ((ucToUtf w).length + (s.flatMap ucToUtf).length : ℕ) - ((ucToUtf w).length : ℤ)
              = (s.flatMap ucToUtf).length := by omega
          rw [List.flatMap_cons, List.length_append, convertLoop_turn turns _ (by omega),
            utfToUc_ucToUtf hw, if_pos hfits, Option.bind_some, List.drop_left, hlim, hrest,
            Option.map_some]

/-- A conversion that gives back every character takes every byte of them. -/
theorem encoded_of_restored {s : List UInt32} (hs : ∀ w ∈ s, w.toNat < 2 ^ 31)
    (h : tryConvertUTF8UTF16 (convertUTF16UTF8 s) = some s) :
    (∀ w ∈ s, Restorable w) ∧ (s.flatMap ucToUtf).length < 2 ^ 31 := by
  obtain ⟨t, ht, hts⟩ : ∃ t, convertUTF16UTF8 s = t.flatMap ucToUtf ∧ t <+: s :=
    ⟨_, rfl, List.take_prefix _ _⟩
  have htbound : ∀ w ∈ t, w.toNat < 2 ^ 31 := fun w hw => hs w (hts.subset hw)
  rw [ht, tryConvertUTF8UTF16] at h
  have hle : intOfSize (t.flatMap ucToUtf).length ≤ (t.flatMap ucToUtf).length := by
    by_cases hlen : (t.flatMap ucToUtf).length < 2 ^ 31
    · exact Int.le_of_eq (intOfSize_of_lt hlen)
    · exact Int.le_of_lt (intOfSize_lt (Nat.le_of_not_lt hlen))
  obtain ⟨hst, hall, hlen⟩ := convertLoop_sound htbound hle h
  -- the encoder has not left out anything
  have heq : t = s := hts.eq_of_length_le hst.length_le
  subst heq
  refine ⟨hall, ?_⟩
  by_contra hlong
  have hlt := intOfSize_lt (Nat.le_of_not_lt hlong)
  by_cases hneg : 0 ≤ intOfSize (t.flatMap ucToUtf).length
  · have hfull := hlen hneg
    omega
  · have hnil : convertLoop ((t.flatMap ucToUtf).length + 1) (t.flatMap ucToUtf)
        (intOfSize (t.flatMap ucToUtf).length) = some [] := convertLoop_end _ _ (by omega)
    rw [hnil] at h
    cases h
    exact hlong (by simp)

theorem convertUTF16UTF8_of_lt {s : List UInt32} (hs : ∀ w ∈ s, w.toNat < 2 ^ 31)
    (hlen : (s.flatMap ucToUtf).length < 2 ^ 31) : convertUTF16UTF8 s = s.flatMap ucToUtf := by
  have hcount := length_le_length_encoded hs
  rw [convertUTF16UTF8, intOfSize_of_lt (by omega), Int.toNat_natCast, List.take_length]

theorem restored_of_encoded {s : List UInt32} (hs : ∀ w ∈ s, w.toNat < 2 ^ 31)
    (hall : ∀ w ∈ s, Restorable w) (hlen : (s.flatMap ucToUtf).length < 2 ^ 31) :
    tryConvertUTF8UTF16 (convertUTF16UTF8 s) = some s := by
  have hcount := length_le_length_encoded hs
  rw [convertUTF16UTF8_of_lt hs hlen, tryConvertUTF8UTF16, intOfSize_of_lt hlen]
  exact convertLoop_complete hs hall (by omega)

/-! ## The round trips -/

/-- Decoding what the encoder wrote for `w` gives its length and `w`, whatever comes behind it. -/
def Restores (w : UInt32) : Prop :=
  ∀ (rest : Bytes) (lim : ℤ), ((ucToUtf w).length : ℤ) ≤ lim →
    utfToUc (ucToUtf w ++ rest) lim = some ((ucToUtf w).length, w)

/-- **Which characters, and which strings of them, come back.** -/
theorem restores_iff (w : UInt32) (hw : w.toNat < 2 ^ 31) (s : List UInt32)
    (hs : ∀ v ∈ s, v.toNat < 2 ^ 31) :
    (Restores w ↔ Restorable w) ∧
    (tryConvertUTF8UTF16 (convertUTF16UTF8 s) = some s ↔
      (∀ v ∈ s, Restorable v) ∧ (s.flatMap ucToUtf).length < 2 ^ 31) := by
  refine ⟨⟨fun h => ?_, fun hrestorable rest lim hlim => ?_⟩,
    ⟨encoded_of_restored hs, fun h => restored_of_encoded hs h.1 h.2⟩⟩
  · by_contra hnot
    have hread := h [] _ (Int.le_refl _)
    rw [utfToUc_ucToUtf hw, if_neg fun hboth => hnot hboth.1] at hread
    exact absurd hread (by simp)
  · rw [utfToUc_ucToUtf hw, if_pos ⟨hrestorable, hlim⟩]

/-- The sign of the euro comes back, alone and in a string. -/
theorem restores_euro : Restores 0x20AC ∧
    tryConvertUTF8UTF16 (convertUTF16UTF8 [0x41, 0x20AC]) = some [0x41, 0x20AC] := by
  have hs : ∀ v ∈ [(0x41 : UInt32), 0x20AC], v.toNat < 2 ^ 31 :=
    List.forall_mem_cons.2 ⟨by decide, List.forall_mem_singleton.2 (by decide)⟩
  have hall : ∀ v ∈ [(0x41 : UInt32), 0x20AC], Restorable v :=
    List.forall_mem_cons.2 ⟨by decide, List.forall_mem_singleton.2 (by decide)⟩
  obtain ⟨hone, hstring⟩ := restores_iff 0x20AC (by decide) [0x41, 0x20AC] hs
  exact ⟨hone.2 (by decide), hstring.2 ⟨hall, by decide⟩⟩

/-- The first character of three bytes has a leading byte without bits of its own. -/
theorem not_restores_0x800 : ¬Restores 0x800 ∧
    tryConvertUTF8UTF16 (convertUTF16UTF8 [0x800]) ≠ some [0x800] := by
  refine ⟨fun h => ?_, by decide +kernel⟩
  have hread := h [] 3 (by decide)
  exact absurd hread (by decide +kernel)

end ImageProxy.Cpcl
