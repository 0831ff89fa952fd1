import Mathlib.Tactic.IntervalCases
import ImageProxy.Cpcl.Utf8

set_option autoImplicit false

/-! # What the decoder accepts

`utf_to_uc` is to accept what `uc_to_utf` writes and nothing else. It refuses leading bytes whose own
bits are all 0, which keeps out the overlong forms from three bytes on. Two kinds slip through: the
leading byte `C1` has a bit of its own and still begins an overlong form, and in `FF` all eight bits
count as length, so that `q` is 0 and the mask `q - 1` lets the whole byte through. -/

namespace ImageProxy.Cpcl

/-! ## The bytes it looks at -/

/-- How many bytes `while (n > 1)` looks at, with `m` turns left. -/
def continuationsRead : (m : ℕ) → (p : Bytes) → ℕ
  | 0, _ => 0
  | _ + 1, [] => 1
  | m + 1, z :: p => if z.toUInt32 &&& 0xC0 ≠ 0x80 then 1 else continuationsRead m p + 1

/-- How many bytes `utf_to_uc` looks at. -/
def bytesRead (p : Bytes) (lim : ℤ) : ℕ :=
  if lim < 1 then 0
  else match p with
    | [] => 1
    | p₀ :: p =>
        let z := p₀.toUInt32
        if z &&& 0x80 = 0 then 1
        else
          let (n, q) := leadLoop z 8 0 0x80
          if n < 2 ∨ lim < n then 1
          else if z &&& (q - 1) = 0 then 1 else continuationsRead (n - 1) p + 1

theorem continuationsRead_le (m : ℕ) (p : Bytes) : continuationsRead m p ≤ m := by
  induction m generalizing p with
  | zero => exact Nat.le_refl 0
  | succ m ih =>
      cases p with
      | nil => exact Nat.succ_le_succ (Nat.zero_le m)
      | cons z p =>
          unfold continuationsRead
          split
          · exact Nat.succ_le_succ (Nat.zero_le m)
          · exact Nat.succ_le_succ (ih p)

/-- It looks at no byte from `lim` on. -/
theorem bytesRead_le (p : Bytes) (lim : ℤ) : bytesRead p lim ≤ lim.toNat := by
  unfold bytesRead
  split
  · exact Nat.zero_le _
  · next hlim =>
      cases p with
      | nil => simp only; omega
      | cons p₀ p =>
          simp only
          split
          · omega
          · split
            · omega
            · next hroom =>
                split
                · omega
                · have hle := continuationsRead_le ((leadLoop p₀.toUInt32 8 0 0x80).1 - 1) p
                  omega

theorem decodeLoop_take {m : ℕ} {p : Bytes} (hm : m ≤ p.length) (r : UInt32) (rest : Bytes) :
    decodeLoop m r (p.take (continuationsRead m p) ++ rest) = decodeLoop m r p := by
  induction m generalizing p r with
  | zero => rfl
  | succ m ih =>
      cases p with
      | nil => exact absurd hm (by simp)
      | cons z p =>
          unfold continuationsRead
          by_cases hz : z.toUInt32 &&& 0xC0 ≠ 0x80
          · rw [if_pos hz, decodeLoop, if_pos hz]
            show decodeLoop (m + 1) r (z :: ([] ++ rest)) = _
            rw [decodeLoop, if_pos hz]
          · rw [if_neg hz, decodeLoop, if_neg hz, List.take_succ_cons, List.cons_append, decodeLoop,
              if_neg hz]
            exact ih (Nat.le_of_succ_le_succ hm) _

/-- The bytes it looks at decide what it returns. -/
theorem utfToUc_take {p : Bytes} {lim : ℤ} (hlim : lim ≤ p.length) (rest : Bytes) :
    utfToUc (p.take (bytesRead p lim) ++ rest) lim = utfToUc p lim := by
  by_cases hnone : lim < 1
  · unfold utfToUc
    rw [if_pos hnone, if_pos hnone]
  · cases p with
    | nil => exact absurd hlim (by simp; omega)
    | cons p₀ p =>
        have hp : (p.length : ℤ) + 1 = (p₀ :: p).length := rfl
        unfold bytesRead
        simp only [if_neg hnone]
        by_cases hbit : p₀.toUInt32 &&& 0x80 = 0
        · simp only [if_pos hbit, List.take_succ_cons, List.cons_append, utfToUc, if_neg hnone]
        · by_cases hroom : (leadLoop p₀.toUInt32 8 0 0x80).1 < 2 ∨
              lim < (leadLoop p₀.toUInt32 8 0 0x80).1
          · simp only [if_neg hbit, if_pos hroom, List.take_succ_cons, List.cons_append, utfToUc,
              if_neg hnone]
          · by_cases hown : p₀.toUInt32 &&& ((leadLoop p₀.toUInt32 8 0 0x80).2 - 1) = 0
            · simp only [if_neg hbit, if_neg hroom, if_pos hown, List.take_succ_cons,
                List.cons_append, utfToUc, if_neg hnone]
            · simp only [if_neg hbit, if_neg hroom, if_neg hown, List.take_succ_cons,
                List.cons_append, utfToUc, if_neg hnone]
              rw [decodeLoop_take (by omega)]

/-! ## The bytes it accepts -/

/-- `10xxxxxx`. -/
def IsContinuation (z : UInt8) : Prop := z.toUInt32 &&& 0xC0 = 0x80
deriving Decidable

theorem high_succ (m : ℕ) (w : UInt32) : high (m + 1) w = high m w >>> 6 := by
  induction m generalizing w with
  | zero => rfl
  | succ m ih => exact ih (w >>> 6)

theorem groups_succ (m : ℕ) (w : UInt32) :
    groups (m + 1) w = continuation (high m w) :: groups m w := by
  induction m generalizing w with
  | zero => rfl
  | succ m ih =>
      rw [groups, ih (w >>> 6), List.cons_append]
      rfl

theorem ofNat_toNat_byte (z : UInt8) : UInt32.ofNat z.toNat = z.toUInt32 := by
  apply UInt32.toNat_inj.1
  rw [UInt32.toNat_ofNat_of_lt' (Nat.lt_trans z.toNat_lt (by decide)), UInt8.toNat_toUInt32]

/-- A continuation byte is its six bits and the mark. -/
theorem continuation_low_table : ∀ i < 256, UInt32.ofNat i &&& 0xC0 = 0x80 →
    (UInt32.ofNat (i % 64) ||| 0x80).toUInt8 = UInt8.ofNat i := by
  decide +kernel

/-- The number with six more bits. -/
theorem toNat_shift_or {v : UInt32} (hv : v.toNat < 2 ^ 26) (x : UInt32) :
    ((v <<< 6) ||| (x &&& 0x3F)).toNat = v.toNat * 64 + x.toNat % 64 := by
  have hlow : (x &&& 0x3F).toNat = x.toNat % 64 := by
    rw [UInt32.toNat_and]
    exact Nat.and_two_pow_sub_one_eq_mod _ 6
  have hshift : (v <<< 6).toNat = v.toNat <<< 6 := by
    rw [UInt32.toNat_shiftLeft]
    show v.toNat <<< 6 % 2 ^ 32 = _
    rw [Nat.mod_eq_of_lt (by rw [Nat.shiftLeft_eq]; omega)]
  rw [UInt32.toNat_or, hlow, hshift, ← Nat.shiftLeft_add_eq_or_of_lt (by omega), Nat.shiftLeft_eq]

/-- What the loop has read are the groups of its result, as long as the result fits. -/
theorem decodeLoop_eq_some {m : ℕ} {v w : UInt32} {p : Bytes}
    (hv : (v.toNat + 1) * 64 ^ m ≤ 2 ^ 32) (h : decodeLoop m v p = some w) :
    high m w = v ∧ ∃ rest, p = groups m w ++ rest := by
  induction m generalizing v p with
  | zero =>
      cases h
      exact ⟨rfl, p, rfl⟩
  | succ m ih =>
      cases p with
      | nil => exact absurd h (by simp [decodeLoop])
      | cons z p =>
          rw [decodeLoop] at h
          split at h
          · exact absurd h (by simp)
          · next hz =>
              simp only [ne_eq, Decidable.not_not] at hz
              have hpow : 64 ^ (m + 1) = 64 ^ m * 64 := Nat.pow_succ ..
              have hone := Nat.one_le_pow m 64 (by decide)
              have hsmall : v.toNat < 2 ^ 26 := by
                have hle := Nat.mul_le_mul_left (v.toNat + 1) (Nat.mul_le_mul_right 64 hone)
                rw [← hpow] at hle
                omega
              have hsum := toNat_shift_or hsmall z.toUInt32
              have hfits : (((v <<< 6) ||| (z.toUInt32 &&& 0x3F)).toNat + 1) * 64 ^ m ≤ 2 ^ 32 := by
                rw [hsum]
                calc (v.toNat * 64 + z.toUInt32.toNat % 64 + 1) * 64 ^ m
                    ≤ ((v.toNat + 1) * 64) * 64 ^ m := Nat.mul_le_mul_right _ (by omega)
                  _ = (v.toNat + 1) * 64 ^ (m + 1) := by rw [hpow, Nat.mul_assoc, Nat.mul_comm 64]
                  _ ≤ 2 ^ 32 := hv
              obtain ⟨hhigh, rest, rfl⟩ := ih hfits h
              rw [high_succ, groups_succ, hhigh]
              constructor
              · apply UInt32.toNat_inj.1
                rw [UInt32.toNat_shiftRight, hsum]
                show (v.toNat * 64 + z.toUInt32.toNat % 64) >>> 6 = v.toNat
                rw [Nat.shiftRight_eq_div_pow]
                omega
              · refine ⟨rest, ?_⟩
                have htable := continuation_low_table z.toNat z.toNat_lt
                rw [ofNat_toNat_byte, UInt8.ofNat_toNat] at htable
                have hmod : (v.toNat * 64 + z.toUInt32.toNat % 64) % 64 = z.toNat % 64 := by
                  have hnat : z.toUInt32.toNat = z.toNat := UInt8.toNat_toUInt32 z
                  omega
                rw [continuation, low_six, hsum, hmod, htable hz]
                rfl

/-- The leading bytes: those that begin one to six bytes, and the rest. -/
theorem leading_table : ∀ i < 256, UInt32.ofNat i &&& 0x80 ≠ 0 →
    (leadLoop (UInt32.ofNat i) 8 0 0x80).1 < 2 ∨
    UInt32.ofNat i &&& ((leadLoop (UInt32.ofNat i) 8 0 0x80).2 - 1) = 0 ∨
    (i = 0xFF ∧ (leadLoop (UInt32.ofNat i) 8 0 0x80).1 = 8) ∨
    ∃ m < 5, (leadLoop (UInt32.ofNat i) 8 0 0x80).1 = m + 2 ∧
      (UInt32.ofNat i &&& ((leadLoop (UInt32.ofNat i) 8 0 0x80).2 - 1)).toNat < 2 ^ (5 - m) ∧
      lead (m + 2) (UInt32.ofNat i &&& ((leadLoop (UInt32.ofNat i) 8 0 0x80).2 - 1))
        = UInt8.ofNat i ∧
      ((UInt32.ofNat i &&& ((leadLoop (UInt32.ofNat i) 8 0 0x80).2 - 1)).toNat = 1 → m = 0 →
        i = 0xC1) := by
  decide +kernel

/-! ## Canonical results -/

/-- What is decoded at `p` is the encoding of its value, and no byte from `lim` on is looked at. -/
structure DecodesCanonically (p : Bytes) (lim : ℤ) : Prop where
  canonical : ∀ k w, utfToUc p lim = some (k, w) →
    w.toNat < 2 ^ 31 ∧ (ucToUtf w).length = k ∧ ∃ rest, p = ucToUtf w ++ rest
  below : bytesRead p lim ≤ lim.toNat

/-- The forms that slip through: `C1` and a continuation byte, `FF` and seven of them. -/
def Misread (p : Bytes) (lim : ℤ) : Prop :=
  (∃ c rest, p = 0xC1 :: c :: rest ∧ IsContinuation c ∧ 2 ≤ lim) ∨
  (∃ cs rest, p = 0xFF :: (cs ++ rest) ∧ cs.length = 7 ∧ (∀ c ∈ cs, IsContinuation c) ∧ 8 ≤ lim)

/-- The loop gets through continuation bytes, and through nothing else. -/
theorem decodeLoop_isSome {m : ℕ} {r : UInt32} {p : Bytes} :
    (decodeLoop m r p).isSome ↔
      ∃ cs rest, p = cs ++ rest ∧ cs.length = m ∧ ∀ c ∈ cs, IsContinuation c := by
  induction m generalizing r p with
  | zero =>
      refine iff_of_true rfl ⟨[], p, rfl, rfl, by simp⟩
  | succ m ih =>
      cases p with
      | nil =>
          refine iff_of_false (by simp [decodeLoop]) ?_
          rintro ⟨cs, rest, hp, hlen, -⟩
          rw [(List.append_eq_nil_iff.1 hp.symm).1] at hlen
          exact absurd hlen (by simp)
      | cons z p =>
          rw [decodeLoop]
          by_cases hz : z.toUInt32 &&& 0xC0 = 0x80
          · rw [if_neg (by simpa using hz), ih]
            constructor
            · rintro ⟨cs, rest, rfl, hlen, hall⟩
              exact ⟨z :: cs, rest, rfl, by rw [List.length_cons, hlen],
                List.forall_mem_cons.2 ⟨hz, hall⟩⟩
            · rintro ⟨cs, rest, hp, hlen, hall⟩
              cases cs with
              | nil => exact absurd hlen (by simp)
              | cons c cs =>
                  cases hp
                  exact ⟨cs, rest, rfl, Nat.succ.inj hlen, (List.forall_mem_cons.1 hall).2⟩
          · rw [if_pos hz]
            refine iff_of_false (by simp) ?_
            rintro ⟨cs, rest, hp, hlen, hall⟩
            cases cs with
            | nil => exact absurd hlen (by simp)
            | cons c cs =>
                cases hp
                exact hz (List.forall_mem_cons.1 hall).1

/-- The class of a number whose leading byte has bits of its own. -/
theorem ucToUtf_of_high {m : ℕ} (hm : m < 5) {w : UInt32} (hlow : 1 ≤ w.toNat / 64 ^ (m + 1))
    (hhigh : w.toNat / 64 ^ (m + 1) < 2 ^ (5 - m)) :
    ucToUtf w = encodeLoop (m + 2) (m + 1) w [] ∨ (m = 0 ∧ w.toNat / 64 = 1) := by
  have hw : w.toNat < 2 ^ 31 := by
    interval_cases m <;> omega
  rw [ucToUtf_eq hw]
  interval_cases m
  · by_cases hone : w.toNat / 64 = 1
    · exact Or.inr ⟨rfl, hone⟩
    · left
      rw [if_neg (by omega), if_neg (by omega), if_neg (by omega), if_neg (by omega),
        if_pos (by omega)]
  · left
    rw [if_neg (by omega), if_neg (by omega), if_neg (by omega), if_pos (by omega)]
  · left
    rw [if_neg (by omega), if_neg (by omega), if_pos (by omega)]
  · left
    rw [if_neg (by omega), if_pos (by omega)]
  · left
    rw [if_pos (by omega)]

theorem toNat_lt_of_mask {b : UInt8} (h : b.toUInt32 &&& 0x80 = 0) : b.toUInt32.toNat < 2 ^ 7 := by
  have htable : ∀ i < 256, ¬i < 2 ^ 7 → UInt32.ofNat i &&& 0x80 ≠ 0 := by
    decide +kernel
  by_contra hlarge
  have hbyte := htable b.toNat b.toNat_lt (by rwa [← UInt8.toNat_toUInt32])
  rw [ofNat_toNat_byte] at hbyte
  exact hbyte h

/-- What `utf_to_uc` accepts: a byte below `80`, a form that slips through, or a leading byte with
bits of its own and its continuation bytes. -/
theorem utfToUc_eq_some {p : Bytes} {lim : ℤ} {k : ℕ} {w : UInt32}
    (h : utfToUc p lim = some (k, w)) :
    (k = 1 ∧ w.toNat < 2 ^ 7 ∧ ∃ rest, p = w.toUInt8 :: rest) ∨ Misread p lim ∨
      ∃ m < 5, k = m + 2 ∧ 1 ≤ w.toNat / 64 ^ (m + 1) ∧ w.toNat / 64 ^ (m + 1) < 2 ^ (5 - m) ∧
        ¬(m = 0 ∧ w.toNat / 64 = 1) ∧ ∃ rest, p = encodeLoop (m + 2) (m + 1) w [] ++ rest := by
  obtain ⟨p₀, p, rfl, ⟨hbit, -, rfl, rfl⟩ | ⟨hbit, hlen, htwo, hroom, hown, hloop⟩⟩ :=
    utfToUc_cases h
  · exact .inl ⟨rfl, toNat_lt_of_mask hbit, p, by rw [UInt8.toUInt8_toUInt32]⟩
  · right
    have htable := leading_table p₀.toNat p₀.toNat_lt
    rw [ofNat_toNat_byte, UInt8.ofNat_toNat, hlen] at htable
    rcases htable hbit with hshort | hzero | ⟨hff, rfl⟩ | ⟨m, hm, rfl, hsmall, hlead, hone⟩
    · omega
    · exact absurd hzero hown
    · -- all bits of the leading byte count as length
      obtain ⟨cs, rest, rfl, hcs, hall⟩ :=
        decodeLoop_isSome.1 (Option.isSome_iff_exists.2 ⟨w, hloop⟩)
      have hp₀ : p₀ = 0xFF := UInt8.toNat_inj.1 hff
      exact .inl (.inr ⟨cs, rest, by rw [hp₀], hcs, hall, by omega⟩)
    · generalize p₀.toUInt32 &&& ((leadLoop p₀.toUInt32 8 0 0x80).2 - 1) = v
        at hown hloop hsmall hlead hone
      have hv : (v.toNat + 1) * 64 ^ (m + 1) ≤ 2 ^ 32 := by
        interval_cases m <;> omega
      obtain ⟨hhigh, rest, rfl⟩ := decodeLoop_eq_some hv hloop
      have hquot : w.toNat / 64 ^ (m + 1) = v.toNat := by rw [← toNat_high, hhigh]
      have hne : v.toNat ≠ 0 := fun hzero => hown (UInt32.toNat_inj.1 hzero)
      by_cases hc1 : m = 0 ∧ w.toNat / 64 = 1
      · obtain ⟨rfl, hw⟩ := hc1
        have hv1 : v.toNat = 1 := hquot.symm.trans hw
        have hp₀ : p₀ = 0xC1 := UInt8.toNat_inj.1 (hone hv1 rfl)
        obtain ⟨cs, rest', hcs, hlen', hall⟩ :=
          decodeLoop_isSome.1 (Option.isSome_iff_exists.2 ⟨w, hloop⟩)
        obtain ⟨c, rfl⟩ := List.length_eq_one_iff.1 hlen'
        exact .inl (.inl ⟨c, rest', by rw [hp₀, hcs]; rfl, hall c List.mem_cons_self, by omega⟩)
      · right
        refine ⟨m, hm, rfl, by omega, by omega, hc1, rest, ?_⟩
        rw [encodeLoop_eq, hhigh, hlead, List.append_nil, List.cons_append]

theorem length_ucToUtf_le {w : UInt32} (hw : w.toNat < 2 ^ 31) : (ucToUtf w).length ≤ 6 := by
  rw [ucToUtf_eq hw]
  split_ifs <;> simp [length_encodeLoop]

/-- `C1` begins an overlong form: the value has less than eight bits. -/
theorem utfToUc_c1 {c : UInt8} (hc : IsContinuation c) {lim : ℤ} (hlim : 2 ≤ lim) (rest : Bytes) :
    ∃ w, utfToUc (0xC1 :: c :: rest) lim = some (2, w) ∧ w.toNat < 2 ^ 7 := by
  obtain ⟨w, hw⟩ := Option.isSome_iff_exists.1 (decodeLoop_isSome.2
    ⟨[c], rest, rfl, rfl, List.forall_mem_singleton.2 hc⟩ : (decodeLoop 1 1 (c :: rest)).isSome)
  obtain ⟨hhigh, -⟩ := decodeLoop_eq_some (m := 1) (v := 1) (by decide) hw
  refine ⟨w, ?_, ?_⟩
  · have hlead : leadLoop (0xC1 : UInt8).toUInt32 8 0 0x80 = (2, 0x20) := by decide
    exact utfToUc_of_lead (by decide) hlead (Nat.le_refl 2) hlim (by decide) hw
  · have hquot := toNat_high 1 w
    rw [hhigh] at hquot
    change 1 = w.toNat / 64 at hquot
    omega

theorem utfToUc_ff {cs : Bytes} (hlen : cs.length = 7) (hcs : ∀ c ∈ cs, IsContinuation c) {lim : ℤ}
    (hlim : 8 ≤ lim) (rest : Bytes) : ∃ w, utfToUc (0xFF :: (cs ++ rest)) lim = some (8, w) := by
  obtain ⟨w, hw⟩ := Option.isSome_iff_exists.1 (decodeLoop_isSome.2
    ⟨cs, rest, rfl, hlen, hcs⟩ : (decodeLoop 7 0xFF (cs ++ rest)).isSome)
  have hlead : leadLoop (0xFF : UInt8).toUInt32 8 0 0x80 = (8, 0) := by decide
  exact ⟨w, utfToUc_of_lead (by decide) hlead (by decide) hlim (by decide) hw⟩

/-- **What is accepted is what the encoder writes**, unless it begins with `C1` or `FF`. -/
theorem decodesCanonically_iff (p : Bytes) (lim : ℤ) :
    DecodesCanonically p lim ↔ ¬Misread p lim := by
  constructor
  · rintro h (⟨c, rest, rfl, hc, hlim⟩ | ⟨cs, rest, rfl, hlen, hcs, hlim⟩)
    · obtain ⟨w, hread, hsmall⟩ := utfToUc_c1 hc hlim rest
      obtain ⟨hw, hlength, -⟩ := h.canonical 2 w hread
      rw [ucToUtf_eq hw, if_neg (by omega), if_neg (by omega), if_neg (by omega), if_neg (by omega),
        if_neg (by omega)] at hlength
      exact absurd hlength (by simp)
    · obtain ⟨w, hread⟩ := utfToUc_ff hlen hcs hlim rest
      obtain ⟨hw, hlength, -⟩ := h.canonical 8 w hread
      have hle := length_ucToUtf_le hw
      omega
  · intro hok
    refine ⟨fun k w h => ?_, bytesRead_le p lim⟩
    rcases utfToUc_eq_some h with
      ⟨rfl, hsmall, rest, rfl⟩ | hmis | ⟨m, hm, rfl, hlow, hhigh, hnot, rest, rfl⟩
    · have hascii : ucToUtf w = [w.toUInt8] := by
        rw [ucToUtf_eq (by omega), if_neg (by omega), if_neg (by omega), if_neg (by omega),
          if_neg (by omega), if_neg (by omega)]
      rw [hascii]
      exact ⟨by omega, rfl, rest, rfl⟩
    · exact absurd hmis hok
    · rw [(ucToUtf_of_high hm hlow hhigh).resolve_right hnot]
      refine ⟨?_, length_encodeLoop _ _ _, rest, rfl⟩
      interval_cases m <;> omega

/-- `C1 80` is read as `@`, which is the one byte `40`. -/
theorem not_decodesCanonically_c1 : ¬DecodesCanonically [0xC1, 0x80] 2 := by
  intro h
  obtain ⟨-, hlength, -⟩ := h.canonical 2 0x40 (by decide +kernel)
  exact absurd hlength (by decide +kernel)

end ImageProxy.Cpcl
