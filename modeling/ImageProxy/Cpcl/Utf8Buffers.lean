import ImageProxy.Cpcl.Utf8Decode

set_option autoImplicit false

/-! # Conversions into a buffer (`string_util.h`, `string_util.cpp`)

The overloads that take a buffer and its length return the length of the whole conversion, so that
the caller can see whether it fits. They differ in what they do after the first character that does
not: one decoder and one encoder go on, another encoder stops. -/

namespace ImageProxy.Cpcl

/-! ## The source -/

/-- The loop of `TryConvertUTF8_UTF16(s, r, r_len)` from `p + i` on, `lim` being `n - i`: what it
returns, and the characters it stores from `r` on. -/
def convertBufferLoop :
    (turns : ℕ) → (p : Bytes) → (lim rSize : ℤ) → (rLen : ℕ) → Option (ℤ × List UInt32)
  | 0, _, _, _, _ => none
  | turns + 1, p, lim, rSize, rLen =>
      if 0 < lim then
        match utfToUc p lim with
        | none => some (-1, [])
        | some (k, w) =>
            if w.toInt32.toInt > wcharMax then some (-1, [])
            else
              (convertBufferLoop turns (p.drop k) (lim - k) (rSize - 1) (rLen + 1)).map fun r =>
                (r.1, if rSize > 0 then w :: r.2 else r.2)
      else some (intOfSize rLen, [])

/-- `TryConvertUTF8_UTF16(s, r, r_len)`; every turn takes a byte. -/
def tryConvertUTF8UTF16Buffer (s : Bytes) (rLen : ℕ) : Option (ℤ × List UInt32) :=
  convertBufferLoop (s.length + 1) s (intOfSize s.length) (rLen % 0x80000000 : ℕ) 0

/-- The loop of `TryConvertUTF16_UTF8(s, s_len, r, r_len)`: what it returns, and the bytes it stores
from `r` on. -/
def tryConvertLoop : (s : List UInt32) → (rSize rLen : ℕ) → ℤ × Bytes
  | [], rSize, _ => (intOfSize rSize, [])
  | w :: s, rSize, rLen =>
      let k := (ucToUtf w).length
      if k = 0 then (-1, [])
      else if rLen ≥ k then
        let r := tryConvertLoop s (rSize + k) (rLen - k)
        (r.1, ucToUtf w ++ r.2)
      else tryConvertLoop s (rSize + k) rLen

/-- `TryConvertUTF16_UTF8(s, s_len, r, r_len)`. -/
def tryConvertUTF16UTF8 (s : List UInt32) (rLen : ℕ) : ℤ × Bytes := tryConvertLoop s 0 rLen

/-- `ConvertUTF16_UTF8(s, s_len, r, r_len)`: the bytes it stores from `r` on; it returns their end. -/
def convertUTF16UTF8Buffer : (s : List UInt32) → (rLen : ℕ) → Bytes
  | [], _ => []
  | w :: s, rLen =>
      let k := (ucToUtf w).length
      if rLen ≥ k then ucToUtf w ++ convertUTF16UTF8Buffer s (rLen - k)
      else []

/-! ## Decoding -/

/-- `p` is made of `n` characters that `utf_to_uc` takes. -/
inductive Characters : (p : Bytes) → (n : ℕ) → Prop
  | nil : Characters [] 0
  | cons {p : Bytes} {k n : ℕ} {w : UInt32} (head : utfToUc p p.length = some (k, w))
      (tail : Characters (p.drop k) n) : Characters p (n + 1)

theorem le_of_utfToUc_eq_some {p : Bytes} {lim : ℤ} {k : ℕ} {w : UInt32}
    (h : utfToUc p lim = some (k, w)) : 1 ≤ k ∧ (k : ℤ) ≤ lim := by
  obtain ⟨p₀, rest, -, ⟨-, hlim, rfl, -⟩ | ⟨-, -, hlen, hroom, -, -⟩⟩ := utfToUc_cases h
  · exact ⟨Nat.le_refl 1, hlim⟩
  · exact ⟨by omega, hroom⟩

/-- No more characters than bytes. -/
theorem length_le_of_convertLoop {turns : ℕ} {p : Bytes} {lim : ℤ} {out : List UInt32}
    (h : convertLoop turns p lim = some out) : out.length ≤ lim.toNat := by
  induction turns generalizing p lim out with
  | zero => exact absurd h (by simp [convertLoop])
  | succ turns ih =>
      by_cases hlim : 0 < lim
      · rw [convertLoop_turn turns p hlim] at h
        obtain ⟨⟨k, w⟩, hread, hmap⟩ := Option.bind_eq_some_iff.1 h
        obtain ⟨out, hout, rfl⟩ := Option.map_eq_some_iff.1 hmap
        obtain ⟨hk, hle⟩ := le_of_utfToUc_eq_some hread
        have hrest := ih hout
        rw [List.length_cons]
        omega
      · rw [convertLoop_end turns p hlim] at h
        cases h
        exact Nat.zero_le _

theorem utfToUc_of_take {p : Bytes} {lim : ℤ} (hlim : lim ≤ p.length) :
    utfToUc (p.take lim.toNat) lim = utfToUc p lim := by
  have hread := utfToUc_take hlim ((p.take lim.toNat).drop (bytesRead p lim))
  rw [← hread]
  congr 1
  conv_lhs => rw [← List.take_append_drop (bytesRead p lim) (p.take lim.toNat)]
  rw [List.take_take, Nat.min_eq_left (bytesRead_le p lim)]

/-- The loop sees the first `lim` bytes, and has turns enough for them. -/
theorem convertLoop_take {turns turns' : ℕ} {p : Bytes} {lim : ℤ} (hlim : lim ≤ p.length)
    (hturns : lim < turns) (hpos : 0 < turns) (hturns' : lim < turns') (hpos' : 0 < turns') :
    convertLoop turns' (p.take lim.toNat) lim = convertLoop turns p lim := by
  induction turns generalizing turns' p lim with
  | zero => omega
  | succ turns ih =>
      cases turns' with
      | zero => omega
      | succ turns' =>
          by_cases hleft : 0 < lim
          · rw [convertLoop_turn turns' _ hleft, convertLoop_turn turns p hleft,
              utfToUc_of_take hlim]
            refine Option.bind_congr fun r hread => ?_
            obtain ⟨hk, hle⟩ := le_of_utfToUc_eq_some hread
            have hdrop : lim - r.1 ≤ ((p.drop r.1).length : ℤ) := by
              rw [List.length_drop]
              omega
            have hrest : convertLoop turns' ((p.drop r.1).take (lim - r.1).toNat) (lim - r.1)
                = convertLoop turns (p.drop r.1) (lim - r.1) :=
              ih hdrop (by omega) (by omega) (by omega) (by omega)
            rw [List.drop_take, show lim.toNat - r.1 = (lim - r.1).toNat by omega, hrest]
          · rw [convertLoop_end turns' _ hleft, convertLoop_end turns p hleft]

theorem convertBufferLoop_end (turns : ℕ) (p : Bytes) {lim : ℤ} (hlim : ¬0 < lim) (rSize : ℤ)
    (rLen : ℕ) : convertBufferLoop (turns + 1) p lim rSize rLen = some (intOfSize rLen, []) := by
  rw [convertBufferLoop, if_neg hlim]

/-- One turn of the loop with a buffer. -/
theorem convertBufferLoop_turn (turns : ℕ) (p : Bytes) {lim : ℤ} (hlim : 0 < lim) (rSize : ℤ)
    (rLen : ℕ) : convertBufferLoop (turns + 1) p lim rSize rLen
      = match utfToUc p lim with
        | none => some (-1, [])
        | some (k, w) => (convertBufferLoop turns (p.drop k) (lim - k) (rSize - 1) (rLen + 1)).map
            fun r => (r.1, if rSize > 0 then w :: r.2 else r.2) := by
  rw [convertBufferLoop, if_pos hlim]
  cases utfToUc p lim with
  | none => rfl
  | some r => exact if_neg (not_gt_wcharMax r.2)

/-- The two loops accept the same, and the buffer gets the beginning of what the string gets. -/
theorem convertBufferLoop_eq {turns : ℕ} (p : Bytes) {lim : ℤ} (rSize : ℤ) (rLen : ℕ)
    (hturns : lim < turns) (hpos : 0 < turns) :
    ∃ ret written, convertBufferLoop turns p lim rSize rLen = some (ret, written) ∧
      (convertLoop turns p lim = none → ret = -1 ∧ written.length ≤ rSize.toNat) ∧
      ∀ out, convertLoop turns p lim = some out →
        ret = intOfSize (rLen + out.length) ∧ written = out.take rSize.toNat := by
  induction turns generalizing p lim rSize rLen with
  | zero => omega
  | succ turns ih =>
      by_cases hlim : 0 < lim
      · rw [convertBufferLoop_turn turns p hlim, convertLoop_turn turns p hlim]
        cases hread : utfToUc p lim with
        | none => exact ⟨-1, [], rfl, fun _ => ⟨rfl, Nat.zero_le _⟩, by simp⟩
        | some kw =>
            obtain ⟨k, w⟩ := kw
            obtain ⟨hk, hle⟩ := le_of_utfToUc_eq_some hread
            obtain ⟨ret, written, hloop, hnone, hsome⟩ :=
              ih (p.drop k) (rSize - 1) (rLen + 1) (by omega : lim - k < turns) (by omega)
            simp only [hloop, Option.map_some, Option.bind_some]
            refine ⟨ret, _, rfl, fun h => ?_, fun out h => ?_⟩
            · obtain ⟨hret, hlen⟩ := hnone (Option.map_eq_none_iff.1 h)
              refine ⟨hret, ?_⟩
              split
              · rw [List.length_cons]
                omega
              · omega
            · obtain ⟨out, hout, rfl⟩ := Option.map_eq_some_iff.1 h
              obtain ⟨hret, hwritten⟩ := hsome out hout
              refine ⟨?_, ?_⟩
              · rw [hret, List.length_cons, Nat.add_assoc, Nat.add_comm 1]
              · split
                · next hroom =>
                    rw [hwritten, show rSize.toNat = (rSize - 1).toNat + 1 by omega,
                      List.take_succ_cons]
                · next hfull =>
                    rw [hwritten, Int.toNat_of_nonpos (by omega), Int.toNat_of_nonpos (by omega),
                      List.take_zero, List.take_zero]
      · rw [convertBufferLoop_end turns p hlim, convertLoop_end turns p hlim]
        refine ⟨intOfSize rLen, [], rfl, by simp, fun out h => ?_⟩
        cases h
        exact ⟨rfl, List.take_nil.symm⟩

theorem intOfSize_le (n : ℕ) : intOfSize n ≤ (n % 0x80000000 : ℕ) := by
  unfold intOfSize
  rw [Int.bmod_def]
  split <;> omega

/-- What the buffer overload returns and stores. -/
theorem tryConvertUTF8UTF16Buffer_eq (s : Bytes) (rLen : ℕ) :
    ∃ ret written, tryConvertUTF8UTF16Buffer s rLen = some (ret, written) ∧
      (tryConvertUTF8UTF16 s = none → ret = -1 ∧ written.length ≤ rLen % 0x80000000) ∧
      ∀ out, tryConvertUTF8UTF16 s = some out →
        ret = intOfSize out.length ∧ written = out.take (rLen % 0x80000000) := by
  have hle := intOfSize_le s.length
  have hturns : intOfSize s.length < (s.length + 1 : ℕ) := by omega
  obtain ⟨ret, written, hloop, hnone, hsome⟩ :=
    convertBufferLoop_eq s (rLen % 0x80000000 : ℕ) 0 hturns (Nat.succ_pos _)
  rw [Int.toNat_natCast] at hnone hsome
  simp only [Nat.zero_add] at hsome
  exact ⟨ret, written, hloop, hnone, hsome⟩

theorem characters_nil_iff {n : ℕ} : Characters [] n ↔ n = 0 := by
  constructor
  · intro hchars
    cases hchars with
    | nil => rfl
    | cons head tail =>
        obtain ⟨hk, hle⟩ := le_of_utfToUc_eq_some head
        rw [List.length_nil] at hle
        omega
  · rintro rfl
    exact .nil

/-- A string that is not empty is made of the character that it begins with, and of others. -/
theorem characters_iff_of_pos {p : Bytes} (hp : 0 < p.length) {n : ℕ} :
    Characters p n ↔ ∃ r, utfToUc p p.length = some r ∧ ∃ m, Characters (p.drop r.1) m ∧
      m + 1 = n := by
  constructor
  · intro hchars
    cases hchars with
    | nil => exact absurd hp (Nat.lt_irrefl 0)
    | cons head tail => exact ⟨_, head, _, tail, rfl⟩
  · rintro ⟨r, hread, m, htail, rfl⟩
    exact .cons hread htail

/-- A string is converted exactly if it is made of characters, and then to so many. -/
theorem convertLoop_characters {turns : ℕ} {p : Bytes} (hturns : p.length < turns) (n : ℕ) :
    Characters p n ↔ ∃ out, convertLoop turns p p.length = some out ∧ out.length = n := by
  induction turns generalizing p n with
  | zero => omega
  | succ turns ih =>
      rcases Nat.eq_zero_or_pos p.length with hempty | hpos
      · rw [List.length_eq_zero_iff.1 hempty, characters_nil_iff,
          convertLoop_end turns [] (by simp)]
        simp [eq_comm]
      · rw [characters_iff_of_pos hpos, convertLoop_turn turns p (by omega)]
        have hrest : ∀ r, utfToUc p p.length = some r → ∀ m, Characters (p.drop r.1) m ↔
            ∃ out, convertLoop turns (p.drop r.1) (p.length - r.1) = some out ∧ out.length = m := by
          intro r hread m
          obtain ⟨hk, hle⟩ := le_of_utfToUc_eq_some hread
          have hdrop : ((p.drop r.1).length : ℤ) = p.length - r.1 := by
            rw [List.length_drop]
            omega
          rw [← hdrop]
          exact ih (by omega) m
        constructor
        · rintro ⟨r, hread, m, htail, rfl⟩
          obtain ⟨out, hout, rfl⟩ := (hrest r hread m).1 htail
          exact ⟨r.2 :: out, by rw [hread, Option.bind_some, hout, Option.map_some], rfl⟩
        · rintro ⟨out, hout, rfl⟩
          obtain ⟨r, hread, hmap⟩ := Option.bind_eq_some_iff.1 hout
          obtain ⟨out, htail, rfl⟩ := Option.map_eq_some_iff.1 hmap
          exact ⟨r, hread, _, (hrest r hread _).2 ⟨out, htail, rfl⟩, rfl⟩

theorem Characters.le_length {p : Bytes} {n : ℕ} (h : Characters p n) : n ≤ p.length := by
  induction h with
  | nil => exact Nat.le_refl _
  | cons head tail ih =>
      obtain ⟨hk, hle⟩ := le_of_utfToUc_eq_some head
      rw [List.length_drop] at ih
      omega

/-- A string below 2 ^ 31 bytes is converted to as many characters as it is made of. -/
theorem tryConvertUTF8UTF16_characters {s : Bytes} (hlen : s.length < 2 ^ 31) (n : ℕ) :
    Characters s n ↔ ∃ out, tryConvertUTF8UTF16 s = some out ∧ out.length = n := by
  rw [tryConvertUTF8UTF16, intOfSize_of_lt hlen]
  exact convertLoop_characters (Nat.lt_succ_self _) n

/-- The buffer overload fails where the other one does; where it does not, it returns the number of
characters and stores the first `r_len` of them, and nothing else. -/
def BufferAgrees (s : Bytes) (rLen : ℕ) : Prop :=
  ∃ ret written, tryConvertUTF8UTF16Buffer s rLen = some (ret, written) ∧
    written.length ≤ rLen ∧ (ret = -1 ↔ tryConvertUTF8UTF16 s = none) ∧
    ∀ out, tryConvertUTF8UTF16 s = some out →
      ret = out.length ∧ written = out.take (min rLen out.length)

/-- **When the overloads agree**: if the length of the buffer is no less without its bits from 31
on, or still enough. -/
theorem bufferAgrees_iff (s : Bytes) (hlen : s.length < 2 ^ 31) (rLen : ℕ) :
    BufferAgrees s rLen ↔
      ∀ n, Characters s n → rLen < 0x80000000 ∨ n ≤ rLen % 0x80000000 := by
  obtain ⟨ret, written, hloop, hnone, hsome⟩ := tryConvertUTF8UTF16Buffer_eq s rLen
  have hmod := Nat.mod_le rLen 0x80000000
  constructor
  · rintro ⟨ret', written', hloop', -, -, hall⟩ n hchars
    cases hloop'.symm.trans hloop
    obtain ⟨out, hout, rfl⟩ := (tryConvertUTF8UTF16_characters hlen n).1 hchars
    have htake := (hall out hout).2.symm.trans (hsome out hout).2
    rw [List.take_eq_take_iff] at htake
    omega
  · intro hfits
    refine ⟨ret, written, hloop, ?_, ?_, fun out hout => ?_⟩
    · cases hout : tryConvertUTF8UTF16 s with
      | none => exact Nat.le_trans (hnone hout).2 hmod
      | some out =>
          rw [(hsome out hout).2, List.length_take]
          omega
    · cases hout : tryConvertUTF8UTF16 s with
      | none => exact iff_of_true (hnone hout).1 rfl
      | some out =>
          have hle := ((tryConvertUTF8UTF16_characters hlen _).2 ⟨out, hout, rfl⟩).le_length
          rw [(hsome out hout).1, intOfSize_of_lt (by omega)]
          exact iff_of_false (by omega) (by simp)
    · have hchars := (tryConvertUTF8UTF16_characters hlen _).2 ⟨out, hout, rfl⟩
      have hle := hchars.le_length
      obtain ⟨hret, hwritten⟩ := hsome out hout
      refine ⟨by rw [hret, intOfSize_of_lt (by omega)], ?_⟩
      rw [hwritten, List.take_eq_take_iff]
      have hroom := hfits _ hchars
      omega

theorem bufferAgrees_iff_a : BufferAgrees [0x61] 0x80000000 ↔
    ∀ n, Characters [0x61] n → 0x80000000 < 0x80000000 ∨ n ≤ 0x80000000 % 0x80000000 :=
  bufferAgrees_iff [0x61] (by decide) 0x80000000

/-- Into a buffer of 2 ^ 31 characters nothing is stored. -/
theorem not_bufferAgrees : ¬BufferAgrees [0x61] 0x80000000 := by
  rintro ⟨ret, written, hloop, -, -, hall⟩
  have hstored : tryConvertUTF8UTF16Buffer [0x61] 0x80000000 = some (1, []) := by decide +kernel
  cases hloop.symm.trans hstored
  exact absurd (hall [0x61] (by decide +kernel)).2 (by decide)

/-! ## Encoding -/

/-- The length that is returned is that of the whole encoding, whatever fits. -/
theorem tryConvertLoop_fst {s : List UInt32} (hs : ∀ w ∈ s, w.toNat < 2 ^ 31) (rSize rLen : ℕ) :
    (tryConvertLoop s rSize rLen).1 = intOfSize (rSize + (s.flatMap ucToUtf).length) := by
  induction s generalizing rSize rLen with
  | nil => rw [tryConvertLoop, List.flatMap_nil, List.length_nil, Nat.add_zero]
  | cons w s ih =>
      have hpos := length_ucToUtf_pos (hs w List.mem_cons_self)
      have hrest := ih fun v hv => hs v (List.mem_cons_of_mem _ hv)
      rw [tryConvertLoop, List.flatMap_cons, List.length_append, ← Nat.add_assoc]
      simp only [if_neg (Nat.ne_of_gt hpos)]
      split
      · exact hrest _ _
      · exact hrest _ _

/-- The characters of `a` fit in `r_len` bytes, and none of `s` has longer beginnings that do. -/
def LongestFit (s : List UInt32) (rLen : ℕ) (a : List UInt32) : Prop :=
  a <+: s ∧ (a.flatMap ucToUtf).length ≤ rLen ∧
    ∀ b, b <+: s → (b.flatMap ucToUtf).length ≤ rLen → b.length ≤ a.length

/-- The encoder that stops stores the longest beginning of the characters that fits. -/
theorem convertUTF16UTF8Buffer_longest (s : List UInt32) (rLen : ℕ) :
    ∃ a, LongestFit s rLen a ∧ convertUTF16UTF8Buffer s rLen = a.flatMap ucToUtf := by
  induction s generalizing rLen with
  | nil =>
      refine ⟨[], ⟨List.prefix_rfl, Nat.zero_le _, fun b hb _ => ?_⟩, rfl⟩
      rw [List.prefix_nil.1 hb]
  | cons w s ih =>
      by_cases hfits : rLen ≥ (ucToUtf w).length
      · obtain ⟨a, ⟨hstart, hlen, hlongest⟩, heq⟩ := ih (rLen - (ucToUtf w).length)
        refine ⟨w :: a, ⟨List.cons_prefix_cons.2 ⟨rfl, hstart⟩, ?_, fun b hb hble => ?_⟩, ?_⟩
        · rw [List.flatMap_cons, List.length_append]
          omega
        · cases b with
          | nil => exact Nat.zero_le _
          | cons v b =>
              obtain ⟨rfl, hbegins⟩ := List.cons_prefix_cons.1 hb
              rw [List.flatMap_cons, List.length_append] at hble
              have hshort := hlongest b hbegins (by omega)
              rw [List.length_cons, List.length_cons]
              omega
        · simp only [convertUTF16UTF8Buffer, if_pos hfits, heq, List.flatMap_cons]
      · refine ⟨[], ⟨List.nil_prefix, Nat.zero_le _, fun b hb hble => ?_⟩, ?_⟩
        · cases b with
          | nil => exact Nat.le_refl _
          | cons v b =>
              obtain ⟨rfl, -⟩ := List.cons_prefix_cons.1 hb
              rw [List.flatMap_cons, List.length_append] at hble
              omega
        · simp only [convertUTF16UTF8Buffer, if_neg hfits, List.flatMap_nil]

/-- The other encoder stores nothing exactly if no character fits. -/
theorem tryConvertLoop_eq_nil_iff {s : List UInt32} (hs : ∀ w ∈ s, w.toNat < 2 ^ 31)
    (rSize rLen : ℕ) : (tryConvertLoop s rSize rLen).2 = [] ↔
      ∀ w ∈ s, rLen < (ucToUtf w).length := by
  induction s generalizing rSize rLen with
  | nil => simp [tryConvertLoop]
  | cons w s ih =>
      have hpos := length_ucToUtf_pos (hs w List.mem_cons_self)
      have hrest := ih fun v hv => hs v (List.mem_cons_of_mem _ hv)
      rw [tryConvertLoop, List.forall_mem_cons]
      simp only [if_neg (Nat.ne_of_gt hpos)]
      by_cases hfits : rLen ≥ (ucToUtf w).length
      · rw [if_pos hfits]
        refine iff_of_false (fun hnil => ?_) fun h => Nat.not_lt.2 hfits h.1
        rw [(List.append_eq_nil_iff.1 hnil).1] at hpos
        exact Nat.lt_irrefl _ hpos
      · rw [if_neg hfits, hrest]
        exact ⟨fun h => ⟨Nat.not_le.1 hfits, h⟩, fun h => h.2⟩

/-- Behind the first character that does not fit there is none that does. -/
def NoneFitsBehind (s : List UInt32) (rLen : ℕ) : Prop :=
  ∀ a c b, s = a ++ c :: b → (a.flatMap ucToUtf).length ≤ rLen →
    rLen < (a.flatMap ucToUtf).length + (ucToUtf c).length →
    ∀ w ∈ b, rLen < (a.flatMap ucToUtf).length + (ucToUtf w).length

theorem noneFitsBehind_cons_of_fits {w : UInt32} {s : List UInt32} {rLen : ℕ}
    (hfits : rLen ≥ (ucToUtf w).length) :
    NoneFitsBehind (w :: s) rLen ↔ NoneFitsBehind s (rLen - (ucToUtf w).length) := by
  constructor
  · intro h a c b heq hle hlt v hv
    have hall := h (w :: a) c b (by rw [heq, List.cons_append])
    rw [List.flatMap_cons, List.length_append] at hall
    have hbehind := hall (by omega) (by omega) v hv
    omega
  · intro h a c b heq hle hlt v hv
    cases a with
    | nil =>
        cases heq
        rw [List.flatMap_nil, List.length_nil] at hlt
        omega
    | cons u a =>
        rw [List.cons_append] at heq
        cases heq
        rw [List.flatMap_cons, List.length_append] at hle hlt ⊢
        have hbehind := h a c b rfl (by omega) (by omega) v hv
        omega

theorem noneFitsBehind_cons_of_not_fits {w : UInt32} {s : List UInt32} {rLen : ℕ}
    (hfits : ¬rLen ≥ (ucToUtf w).length) :
    NoneFitsBehind (w :: s) rLen ↔ ∀ v ∈ s, rLen < (ucToUtf v).length := by
  constructor
  · intro h v hv
    have hbehind := h [] w s rfl (Nat.zero_le _) (by simpa using hfits) v hv
    simpa using hbehind
  · intro h a c b heq hle hlt v hv
    cases a with
    | nil =>
        cases heq
        simpa using h v hv
    | cons u a =>
        rw [List.cons_append] at heq
        cases heq
        rw [List.flatMap_cons, List.length_append] at hle
        omega

/-- The two encoders store the same exactly if the one that goes on finds nothing that fits. -/
theorem tryConvertLoop_snd_iff {s : List UInt32} (hs : ∀ w ∈ s, w.toNat < 2 ^ 31)
    (rSize rLen : ℕ) : (tryConvertLoop s rSize rLen).2 = convertUTF16UTF8Buffer s rLen ↔
      NoneFitsBehind s rLen := by
  induction s generalizing rSize rLen with
  | nil => exact iff_of_true rfl fun a c b heq => absurd heq (by simp)
  | cons w s ih =>
      have hpos := length_ucToUtf_pos (hs w List.mem_cons_self)
      have hrest : ∀ v ∈ s, v.toNat < 2 ^ 31 := fun v hv => hs v (List.mem_cons_of_mem _ hv)
      rw [tryConvertLoop, convertUTF16UTF8Buffer]
      simp only [if_neg (Nat.ne_of_gt hpos)]
      by_cases hfits : rLen ≥ (ucToUtf w).length
      · rw [if_pos hfits, if_pos hfits, noneFitsBehind_cons_of_fits hfits, ← ih hrest]
        exact List.append_right_inj _
      · rw [if_neg hfits, if_neg hfits, noneFitsBehind_cons_of_not_fits hfits,
          tryConvertLoop_eq_nil_iff hrest]

/-- `TryConvertUTF16_UTF8` returns the length of the encoding and stores what the inline encoder
does: all of it if it fits, and its longest beginning of whole characters if not. -/
structure EncodersAgree (s : List UInt32) (rLen : ℕ) : Prop where
  ret : (tryConvertUTF16UTF8 s rLen).1 = (convertUTF16UTF8 s).length
  same : (tryConvertUTF16UTF8 s rLen).2 = convertUTF16UTF8Buffer s rLen
  whole : (convertUTF16UTF8 s).length ≤ rLen → (tryConvertUTF16UTF8 s rLen).2 = convertUTF16UTF8 s
  longest : rLen < (convertUTF16UTF8 s).length →
    ∃ a, LongestFit s rLen a ∧ (tryConvertUTF16UTF8 s rLen).2 = a.flatMap ucToUtf

/-- **When the encoders agree**: if no character behind the first that does not fit would fit. -/
theorem encodersAgree_iff {s : List UInt32} (hs : ∀ w ∈ s, w.toNat < 2 ^ 31)
    (hlen : (s.flatMap ucToUtf).length < 2 ^ 31) (rLen : ℕ) :
    EncodersAgree s rLen ↔ NoneFitsBehind s rLen := by
  have hall := convertUTF16UTF8_of_lt hs hlen
  have hret := tryConvertLoop_fst hs 0 rLen
  have hsame := tryConvertLoop_snd_iff hs 0 rLen
  obtain ⟨a, hlongest, hstored⟩ := convertUTF16UTF8Buffer_longest s rLen
  rw [Nat.zero_add, intOfSize_of_lt hlen] at hret
  constructor
  · intro h
    exact hsame.1 h.same
  · intro h
    have heq := hsame.2 h
    refine ⟨by rw [tryConvertUTF16UTF8, hret, hall], heq, fun hfits => ?_, fun _ => ?_⟩
    · rw [hall] at hfits
      have hwhole : a = s := hlongest.1.eq_of_length_le (hlongest.2.2 s List.prefix_rfl hfits)
      rw [tryConvertUTF16UTF8, heq, hstored, hwhole, hall]
    · exact ⟨a, hlongest, heq.trans hstored⟩

theorem encodersAgree_iff_euro :
    EncodersAgree [0x20AC, 0x41] 1 ↔ NoneFitsBehind [0x20AC, 0x41] 1 :=
  encodersAgree_iff (List.forall_mem_cons.2 ⟨by decide, List.forall_mem_singleton.2 (by decide)⟩)
    (by decide) 1

/-- Behind the sign of the euro, which takes three bytes, a letter still fits in one. -/
theorem not_encodersAgree : ¬EncodersAgree [0x20AC, 0x41] 1 :=
  fun h => absurd h.same (by decide)

end ImageProxy.Cpcl
