import Mathlib.Data.List.Forall2
import ImageProxy.Cpcl.XmlConvert

set_option autoImplicit false

/-! # CP1251 to UTF-8 and back (`libxml_util.cpp`)

The way back takes the characters one by one, as long as there are some and there is room. A character
that CP1251 does not have becomes a NUL, and so does U+007F, which it has: the comparison of
`UTF16_CP1251` stops one short of it. -/

namespace ImageProxy.Cpcl

/-! ## The characters of a block -/

/-- The first `n` characters that `utf_to_uc` takes, or fewer if it takes no more, and what is behind
them. -/
def takeChars : (n : ℕ) → (p : Bytes) → List UInt32 × Bytes
  | 0, p => ([], p)
  | n + 1, p =>
      match utfToUc p p.length with
      | none => ([], p)
      | some (len, w) => (w :: (takeChars n (p.drop len)).1, (takeChars n (p.drop len)).2)

theorem takeChars_none {p : Bytes} (n : ℕ) (h : utfToUc p p.length = none) :
    takeChars n p = ([], p) := by
  cases n with
  | zero => rfl
  | succ n => rw [takeChars, h]

theorem takeChars_some {p : Bytes} {len : ℕ} {w : UInt32} (n : ℕ)
    (h : utfToUc p p.length = some (len, w)) :
    takeChars (n + 1) p = (w :: (takeChars n (p.drop len)).1, (takeChars n (p.drop len)).2) := by
  rw [takeChars, h]

theorem length_takeChars_le (n : ℕ) (p : Bytes) : (takeChars n p).2.length ≤ p.length := by
  induction n generalizing p with
  | zero => exact Nat.le_refl _
  | succ n ih =>
      cases hread : utfToUc p p.length with
      | none => rw [takeChars_none _ hread]
      | some r =>
          rw [takeChars_some n hread]
          have hrest := ih (p.drop r.1)
          rw [List.length_drop] at hrest
          simp only
          omega

theorem takeChars_snd_of_nil {n : ℕ} {p : Bytes} (h : (takeChars n p).1 = []) :
    (takeChars n p).2 = p := by
  cases n with
  | zero => rfl
  | succ n =>
      cases hread : utfToUc p p.length with
      | none => rw [takeChars_none _ hread]
      | some r =>
          rw [takeChars_some n hread] at h
          exact absurd h (List.cons_ne_nil _ _)

/-- Asking for as many as there were gives the same. -/
theorem takeChars_length (n : ℕ) (p : Bytes) :
    takeChars (takeChars n p).1.length p = takeChars n p := by
  induction n generalizing p with
  | zero => rfl
  | succ n ih =>
      cases hread : utfToUc p p.length with
      | none => rw [takeChars_none _ hread, takeChars_none _ hread]
      | some r => rw [takeChars_some n hread, List.length_cons, takeChars_some _ hread, ih]

/-- One more character. -/
theorem takeChars_succ (n : ℕ) (p : Bytes) :
    (takeChars (n + 1) p).1 = (takeChars n p).1 ++ (takeChars 1 (takeChars n p).2).1 := by
  induction n generalizing p with
  | zero => rfl
  | succ n ih =>
      cases hread : utfToUc p p.length with
      | none => rw [takeChars_none _ hread, takeChars_none _ hread, takeChars_none _ hread]; rfl
      | some r =>
          rw [takeChars_some (n + 1) hread, takeChars_some n hread, ih]
          rfl

/-! ## One call -/

/-- What is left by a call that has taken the characters `ws` and left `rest` of `p`. -/
def restored (p : Bytes) (ws : List UInt32) (rest : Bytes) : Converted :=
  if ws = [] then ⟨-1, [], -1, -1⟩
  else ⟨ws.length, ws.map utf16Cp1251, ws.length, (p.length - rest.length : ℕ)⟩

/-- A turn that takes a character. -/
theorem utf8Cp1251Loop_turn {outLength : ℕ} {p : Bytes} {len : ℕ} {w : UInt32}
    {inConsumed outConsumed : ℕ} (turns : ℕ) (out : Bytes) (outlen inlen : ℤ)
    (hread : utfToUc p p.length = some (len, w)) (hint : outConsumed + 1 ≤ intMax)
    (hfits : outConsumed + 1 ≤ outLength) :
    utf8Cp1251Loop outLength (turns + 1) p p.length inConsumed outConsumed out outlen inlen
      = utf8Cp1251Loop outLength turns (p.drop len) (p.drop len).length (inConsumed + len)
          (outConsumed + 1) (out ++ [utf16Cp1251 w]) (outConsumed + 1 : ℕ)
          (inConsumed + len : ℕ) := by
  obtain ⟨hlen, hshort⟩ := le_of_utfToUc_eq_some hread
  have hleft : ((p.drop len).length : ℤ) = p.length - len := by
    rw [List.length_drop]
    omega
  rw [utf8Cp1251Loop, if_pos (by omega), hread, hleft]
  simp only
  rw [if_neg (by omega), if_neg (by omega)]

/-- A turn that takes none: there is no room or no character. -/
theorem utf8Cp1251Loop_end {outLength : ℕ} {p : Bytes} {inConsumed outConsumed : ℕ} (turns : ℕ)
    (out : Bytes) (outlen inlen : ℤ) (hint : p ≠ [] → outConsumed + 1 ≤ intMax)
    (h : (takeChars (outLength - outConsumed) p).1 = []) :
    utf8Cp1251Loop outLength (turns + 1) p p.length inConsumed outConsumed out outlen inlen
      = some ⟨outlen, out, outlen, inlen⟩ := by
  rw [utf8Cp1251Loop]
  split
  · next hlim =>
      have hsum := hint (List.length_pos_iff.1 (by omega))
      cases hread : utfToUc p p.length with
      | none => rfl
      | some r =>
          have hroom : outLength - outConsumed = 0 := by
            by_contra hne
            obtain ⟨n, hn⟩ := Nat.exists_eq_succ_of_ne_zero hne
            rw [hn, takeChars_some n hread] at h
            exact absurd h (List.cons_ne_nil _ _)
          simp only
          rw [if_neg (by omega), if_pos (by omega)]
  · rfl

theorem exists_of_takeChars_ne_nil {n : ℕ} {p : Bytes} (h : (takeChars n p).1 ≠ []) :
    ∃ k len w, n = k + 1 ∧ utfToUc p p.length = some (len, w) := by
  cases n with
  | zero => exact absurd rfl h
  | succ k =>
      cases hread : utfToUc p p.length with
      | none => exact absurd (by rw [takeChars_none _ hread]) h
      | some r => exact ⟨k, r.1, r.2, rfl, rfl⟩

/-- The loop takes what there is room for; its own sum is never above `INT_MAX`. -/
theorem utf8Cp1251Loop_eq (outLength turns : ℕ) (p : Bytes) (inConsumed outConsumed : ℕ)
    (out : Bytes) (outlen inlen : ℤ) (hturns : p.length < turns) (hle : outConsumed ≤ inConsumed)
    (hint : inConsumed + p.length ≤ intMax) (hroom : outConsumed ≤ outLength) :
    utf8Cp1251Loop outLength turns p p.length inConsumed outConsumed out outlen inlen =
      some (if (takeChars (outLength - outConsumed) p).1 = [] then ⟨outlen, out, outlen, inlen⟩
        else ⟨outConsumed + (takeChars (outLength - outConsumed) p).1.length,
          out ++ (takeChars (outLength - outConsumed) p).1.map utf16Cp1251,
          outConsumed + (takeChars (outLength - outConsumed) p).1.length,
          inConsumed + (p.length - (takeChars (outLength - outConsumed) p).2.length : ℕ)⟩) := by
  induction turns generalizing p inConsumed outConsumed out outlen inlen with
  | zero => omega
  | succ turns ih =>
      have hsum : p ≠ [] → outConsumed + 1 ≤ intMax := fun hne => by
        have hpos := List.length_pos_iff.2 hne
        omega
      by_cases hnone : (takeChars (outLength - outConsumed) p).1 = []
      · rw [utf8Cp1251Loop_end turns out outlen inlen hsum hnone, if_pos hnone]
      · obtain ⟨n, len, w, hn, hread⟩ := exists_of_takeChars_ne_nil hnone
        obtain ⟨hlen, hshort⟩ := le_of_utfToUc_eq_some hread
        have hpos : p ≠ [] := List.length_pos_iff.1 (by omega)
        have hrest := ih (p.drop len) (inConsumed + len) (outConsumed + 1)
          (out ++ [utf16Cp1251 w]) (outConsumed + 1 : ℕ) (inConsumed + len : ℕ)
          (by rw [List.length_drop]; omega) (by omega) (by rw [List.length_drop]; omega)
          (by omega)
        have hbelow := length_takeChars_le n (p.drop len)
        rw [utf8Cp1251Loop_turn turns out outlen inlen hread (hsum hpos) (by omega), hrest,
          if_neg hnone, hn, takeChars_some n hread,
          show outLength - (outConsumed + 1) = n by omega]
        rw [List.length_drop] at hbelow
        split
        · next hnil =>
            have hsame := congrArg List.length (takeChars_snd_of_nil hnil)
            rw [List.length_drop] at hsame
            simp only [hnil, List.length_cons, List.length_nil, List.map_cons, List.map_nil,
              Option.some.injEq, Converted.mk.injEq, true_and]
            omega
        · rw [List.append_assoc, List.length_drop]
          simp only [List.length_cons, List.map_cons, List.singleton_append,
            Option.some.injEq, Converted.mk.injEq, true_and]
          omega

theorem xmlConvertUTF8CP1251_eq {p : Bytes} (outLength : ℕ) (hint : p.length ≤ intMax) :
    xmlConvertUTF8CP1251 (some p) outLength
      = some (restored p (takeChars outLength p).1 (takeChars outLength p).2) := by
  rw [xmlConvertUTF8CP1251, utf8Cp1251Loop_eq outLength _ p 0 0 [] (-1) (-1) (Nat.lt_succ_self _)
    (Nat.le_refl _) (by omega) (Nat.zero_le _), Nat.sub_zero, restored]
  simp only [Nat.cast_zero, zero_add, List.nil_append]

theorem restored_out (p : Bytes) (ws : List UInt32) (rest : Bytes) :
    (restored p ws rest).out = ws.map utf16Cp1251 := by
  unfold restored
  split
  · next hnil => rw [hnil]; rfl
  · rfl

theorem restored_ret_ne (p : Bytes) (ws : List UInt32) (rest : Bytes) :
    (restored p ws rest).ret ≠ -2 := by
  unfold restored
  split
  · decide
  · intro hret
    simp only at hret
    omega

/-- What is taken and what is left are the block. -/
theorem restored_inlen (n : ℕ) (p : Bytes) :
    (restored p (takeChars n p).1 (takeChars n p).2).inlen.toNat + (takeChars n p).2.length
      = p.length := by
  have hle := length_takeChars_le n p
  unfold restored
  split
  · next hnil =>
      rw [takeChars_snd_of_nil hnil]
      exact Nat.zero_add _
  · simp only [Int.toNat_natCast]
    omega

/-- What a call is for: every character that it takes becomes the byte that stands for it, never a NUL
unless the character is one, and it fails if one of them, or the next one, has no byte. -/
def MapsBack (input : Bytes) (outLength : ℕ) : Prop :=
  ∃ r, xmlConvertUTF8CP1251 (some input) outLength = some r ∧
    ∃ ws rest, takeChars r.out.length input = (ws, rest) ∧
      r.inlen.toNat + rest.length = input.length ∧
      List.Forall₂ (fun c w => cp1251Utf16 c = w ∧ (c = 0 → w = 0)) r.out ws ∧
      ((∃ w ∈ ws ++ (takeChars 1 rest).1, ∀ c, cp1251Utf16 c ≠ w) → r.ret = -2)

/-- A character comes back if CP1251 has it and it is not U+007F. -/
theorem cp1251Utf16_utf16Cp1251 {w : UInt32} (h : ∃ c, cp1251Utf16 c = w) :
    cp1251Utf16 (utf16Cp1251 w) = w ↔ w ≠ 0x7F := by
  obtain ⟨c, rfl⟩ := h
  rw [utf16Cp1251_cp1251Utf16]
  split
  · next hdel =>
      rw [hdel]
      exact iff_of_false (by decide) (by decide)
  · next hother =>
      refine iff_of_true rfl fun hdel => ?_
      have hback := utf16Cp1251_cp1251Utf16 c
      rw [hdel, if_neg hother] at hback
      rw [← hback] at hdel
      exact absurd hdel (by decide)

theorem forall₂_map_utf16Cp1251 {ws : List UInt32} {R : UInt8 → UInt32 → Prop} :
    List.Forall₂ R (ws.map utf16Cp1251) ws ↔ ∀ w ∈ ws, R (utf16Cp1251 w) w := by
  rw [List.forall₂_map_left_iff, List.forall₂_same]

theorem mapsBack_iff {input : Bytes} (outLength : ℕ) (hint : input.length ≤ intMax) :
    MapsBack input outLength ↔
      (∀ w ∈ (takeChars (outLength + 1) input).1, ∃ c, cp1251Utf16 c = w) ∧
        0x7F ∉ (takeChars outLength input).1 := by
  have hcall := xmlConvertUTF8CP1251_eq outLength hint
  have hall := takeChars_length outLength input
  rw [takeChars_succ]
  constructor
  · rintro ⟨r, hr, ws, rest, hws, -, hback, hfail⟩
    rw [hcall, Option.some.injEq] at hr
    rw [← hr, restored_out, List.length_map, hall] at hws
    rw [← hr, restored_out, hws, forall₂_map_utf16Cp1251] at hback
    rw [hws]
    refine ⟨fun w hw => ?_, fun hdel => absurd (hback _ hdel).1 (by decide)⟩
    by_contra hnone
    refine restored_ret_ne _ _ _ (hr ▸ hfail ⟨w, hw, fun c hc => hnone ⟨c, hc⟩⟩)
  · rintro ⟨hbyte, hdel⟩
    refine ⟨_, hcall, (takeChars outLength input).1, (takeChars outLength input).2, ?_,
      restored_inlen outLength input, ?_, ?_⟩
    · rw [restored_out, List.length_map, hall]
    · rw [restored_out, forall₂_map_utf16Cp1251]
      intro w hw
      have hback : cp1251Utf16 (utf16Cp1251 w) = w :=
        (cp1251Utf16_utf16Cp1251 (hbyte w (List.mem_append_left _ hw))).2 fun h => hdel (h ▸ hw)
      exact ⟨hback, fun hnul => hback.symm.trans (cp1251Utf16_eq_zero hnul)⟩
    · rintro ⟨w, hw, hnone⟩
      obtain ⟨c, hc⟩ := hbyte w hw
      exact absurd hc (hnone c)

/-! ## There and back -/

/-- The characters of a piece of the UTF-8 of CP1251 bytes are those of a beginning of the bytes. -/
theorem takeChars_cp1251Utf8 (k n : ℕ) (t : Bytes) :
    ∃ a b, t = a ++ b ∧ (cp1251Utf8 a).length ≤ n ∧
      takeChars k ((cp1251Utf8 t).take n)
        = (a.map cp1251Utf16, (cp1251Utf8 b).take (n - (cp1251Utf8 a).length)) ∧
      (t ≠ [] → 1 ≤ k → 3 ≤ n → a ≠ []) := by
  induction k generalizing n t with
  | zero => exact ⟨[], t, rfl, Nat.zero_le _, rfl, fun _ hk => absurd hk (by decide)⟩
  | succ k ih =>
      cases t with
      | nil =>
          refine ⟨[], [], rfl, Nat.zero_le _, ?_, fun h => absurd rfl h⟩
          simp only [cp1251Utf8_nil, List.take_nil, List.map_nil]
          exact takeChars_none _ (by decide)
      | cons c t =>
          have hshort := length_cp1251Utf16_le c
          by_cases hfits : (ucToUtf (cp1251Utf16 c)).length ≤ n
          · have htake : (cp1251Utf8 (c :: t)).take n = ucToUtf (cp1251Utf16 c) ++
                (cp1251Utf8 t).take (n - (ucToUtf (cp1251Utf16 c)).length) := by
              rw [cp1251Utf8_cons, List.take_append, List.take_of_length_le hfits]
            obtain ⟨a, b, ht, hle, htaken, -⟩ := ih (n - (ucToUtf (cp1251Utf16 c)).length) t
            have hread := utfToUc_ucToUtf (cp1251Utf16_lt c)
              ((cp1251Utf8 t).take (n - (ucToUtf (cp1251Utf16 c)).length))
              ((cp1251Utf8 (c :: t)).take n).length
            rw [htake, if_pos ⟨restorable_cp1251Utf16 c, by
              rw [List.length_append]; omega⟩] at hread
            refine ⟨c :: a, b, by rw [ht, List.cons_append], ?_, ?_,
              fun _ _ _ => List.cons_ne_nil _ _⟩
            · rw [cp1251Utf8_cons, List.length_append]
              omega
            · rw [htake, takeChars_some k hread, List.drop_left, htaken, cp1251Utf8_cons,
                List.length_append, Nat.sub_sub, List.map_cons]
          · refine ⟨[], c :: t, rfl, Nat.zero_le _, ?_, fun _ _ hn => absurd hn (by omega)⟩
            have hlong : (n : ℤ) ≤ (cp1251Utf8 (c :: t)).length := by
              rw [cp1251Utf8_cons, List.length_append]
              omega
            have hlen : ((cp1251Utf8 (c :: t)).take n).length = n := by
              rw [List.length_take]
              omega
            have hread := utfToUc_of_take hlong
            rw [Int.toNat_natCast] at hread
            rw [takeChars_none _ (by
              rw [hlen, hread, cp1251Utf8_cons, utfToUc_ucToUtf (cp1251Utf16_lt c),
                if_neg (by omega)])]
            rfl

/-- One call on a piece of the UTF-8. -/
theorem xmlConvertUTF8CP1251_cp1251Utf8 (call : XmlCall) (t : Bytes) :
    ∃ a b r, t = a ++ b ∧
      xmlConvertUTF8CP1251 (some ((cp1251Utf8 t).take call.inLength)) call.outLength = some r ∧
      r.ret ≠ -2 ∧ r.out = a.map (fun c => utf16Cp1251 (cp1251Utf16 c)) ∧
      r.inlen.toNat = (cp1251Utf8 a).length ∧
      (t ≠ [] → 1 ≤ call.outLength → 3 ≤ call.inLength → a ≠ []) := by
  obtain ⟨a, b, ht, hle, htaken, hsome⟩ :=
    takeChars_cp1251Utf8 call.outLength call.inLength t
  have hint : ((cp1251Utf8 t).take call.inLength).length ≤ intMax := by
    have hcall := call.inLength_le
    rw [List.length_take]
    omega
  have hinlen := restored_inlen call.outLength ((cp1251Utf8 t).take call.inLength)
  refine ⟨a, b, _, ht, xmlConvertUTF8CP1251_eq call.outLength hint, restored_ret_ne _ _ _, ?_, ?_,
    hsome⟩
  · rw [restored_out, htaken, List.map_map]
    rfl
  · rw [htaken] at hinlen ⊢
    have htotal : (cp1251Utf8 t).length = (cp1251Utf8 a).length + (cp1251Utf8 b).length := by
      rw [ht, cp1251Utf8_append, List.length_append]
    simp only [List.length_take] at hinlen ⊢
    omega

/-- Calls that take the UTF-8 back. -/
theorem convertCalls_cp1251Utf8 (calls : List XmlCall) (t : Bytes) :
    ∃ a b, t = a ++ b ∧
      convertCalls (fun p => xmlConvertUTF8CP1251 (some p)) (cp1251Utf8 t) calls
        = some (a.map (fun c => utf16Cp1251 (cp1251Utf16 c)), cp1251Utf8 b) ∧
      ((∀ call ∈ calls, 3 ≤ call.inLength ∧ 1 ≤ call.outLength) → t.length ≤ calls.length →
        b = []) := by
  induction calls generalizing t with
  | nil =>
      refine ⟨[], t, rfl, rfl, fun _ hlen => ?_⟩
      exact List.length_eq_zero_iff.1 (Nat.le_zero.1 hlen)
  | cons call calls ih =>
      obtain ⟨a, b, r, ht, hr, hret, hout, hinlen, hsome⟩ := xmlConvertUTF8CP1251_cp1251Utf8 call t
      obtain ⟨a', b', hb, hrun, hall⟩ := ih b
      have hdrop : (cp1251Utf8 t).drop r.inlen.toNat = cp1251Utf8 b := by
        rw [hinlen, ht, cp1251Utf8_append, List.drop_left]
      refine ⟨a ++ a', b', by rw [ht, hb, List.append_assoc], ?_, fun hcalls hlen => ?_⟩
      · rw [convertCalls, hr, Option.bind_some, if_neg hret, hdrop, hrun, Option.map_some, hout,
          List.map_append]
      · obtain ⟨hin, hroom⟩ := hcalls call List.mem_cons_self
        refine hall (fun c hc => hcalls c (List.mem_cons_of_mem _ hc)) ?_
        rw [ht, List.length_append, List.length_cons] at hlen
        by_cases hnil : t = []
        · rw [hnil] at ht
          rw [(List.append_eq_nil_iff.1 ht.symm).2]
          exact Nat.zero_le _
        · have hpos := List.length_pos_iff.2 (hsome hnil hroom hin)
          omega

/-- However the work is divided into calls, a string that has gone to UTF-8 as a whole and come back
as a whole is the same. -/
def ComesBack (s : Bytes) : Prop :=
  ∀ calls, ∃ u rest, convertCalls xmlConvertCP1251UTF8 s calls = some (u, rest) ∧
    (rest = [] → ∀ calls', ∃ v rest',
      convertCalls (fun p => xmlConvertUTF8CP1251 (some p)) u calls' = some (v, rest') ∧
      (rest' = [] → v = s))

theorem map_utf16Cp1251_eq_iff (s : Bytes) :
    s.map (fun c => utf16Cp1251 (cp1251Utf16 c)) = s ↔ 0x7F ∉ s := by
  induction s with
  | nil => exact iff_of_true rfl List.not_mem_nil
  | cons c s ih =>
      rw [List.map_cons, List.cons.injEq, ih, utf16Cp1251_cp1251Utf16, List.mem_cons, not_or]
      refine and_congr_left fun _ => ?_
      split
      · next hdel =>
          rw [hdel]
          exact iff_of_false (by decide) fun h => h rfl
      · next hother => exact iff_of_true rfl fun h => hother h.symm

theorem comesBack_iff (s : Bytes) :
    ComesBack s ↔ (∀ calls, CallsEndInInt s calls) ∧ 0x7F ∉ s := by
  constructor
  · intro h
    have hends : ∀ calls, CallsEndInInt s calls := by
      intro calls
      by_contra hint
      obtain ⟨u, rest, hrun, -⟩ := h calls
      rw [(convertCalls_cp1251 calls s).2 hint] at hrun
      exact absurd hrun (by simp)
    refine ⟨hends, ?_⟩
    -- one character in each call, on both ways
    obtain ⟨u, rest, hrun, hback⟩ :=
      h (List.replicate s.length ⟨1, 3, by decide, by decide⟩)
    obtain ⟨a, rest', hs, hrun', hall⟩ :=
      (convertCalls_cp1251 (List.replicate s.length ⟨1, 3, by decide, by decide⟩) s).1 (hends _)
    have hdone := hall (fun call hcall => by rw [List.eq_of_mem_replicate hcall]; decide)
      (by rw [List.length_replicate])
    rw [hrun, Option.some.injEq, Prod.mk.injEq] at hrun'
    rw [hdone, List.append_nil] at hs
    obtain ⟨v, left, hrun₂, hsame⟩ := hback (hrun'.2.trans hdone)
      (List.replicate s.length ⟨3, 1, by decide, by decide⟩)
    obtain ⟨a', b, hs', hrun₂', hall'⟩ :=
      convertCalls_cp1251Utf8 (List.replicate s.length ⟨3, 1, by decide, by decide⟩) s
    have hdone' := hall' (fun call hcall => by rw [List.eq_of_mem_replicate hcall]; decide)
      (by rw [List.length_replicate])
    rw [hrun'.1, ← hs, hrun₂', Option.some.injEq, Prod.mk.injEq] at hrun₂
    rw [hdone', List.append_nil] at hs'
    rw [hdone', cp1251Utf8_nil, ← hs'] at hrun₂
    rw [← map_utf16Cp1251_eq_iff, hrun₂.1]
    exact hsame hrun₂.2.symm
  · rintro ⟨hends, hdel⟩ calls
    obtain ⟨a, rest, hs, hrun, -⟩ := (convertCalls_cp1251 calls s).1 (hends calls)
    refine ⟨cp1251Utf8 a, rest, hrun, fun hdone calls' => ?_⟩
    rw [hdone, List.append_nil] at hs
    obtain ⟨a', b, hs', hrun', -⟩ := convertCalls_cp1251Utf8 calls' a
    refine ⟨_, _, hrun', fun hdone' => ?_⟩
    have hb : b = [] := by
      have hlen := length_le_length_cp1251Utf8 b
      rw [hdone'] at hlen
      exact List.length_eq_zero_iff.1 (Nat.le_zero.1 hlen)
    rw [hb, List.append_nil] at hs'
    rw [← hs', ← hs]
    exact (map_utf16Cp1251_eq_iff s).2 hdel

/-- A block is mapped back if and only if CP1251 has the characters that are taken and the one behind
them, and none that is taken is U+007F; a string is restored if and only if U+007F is not in it and no
sum is above `INT_MAX` on the way to UTF-8. -/
theorem xmlConvertUTF8CP1251_mapsBack_iff {input : Bytes} (outLength : ℕ) (s : Bytes)
    (hint : input.length ≤ intMax) :
    (MapsBack input outLength ↔
      (∀ w ∈ (takeChars (outLength + 1) input).1, ∃ c, cp1251Utf16 c = w) ∧
        0x7F ∉ (takeChars outLength input).1) ∧
    (ComesBack s ↔ (∀ calls, CallsEndInInt s calls) ∧ 0x7F ∉ s) :=
  ⟨mapsBack_iff outLength hint, comesBack_iff s⟩

/-- `D0 9F 20`, with room for one byte. -/
theorem xmlConvertUTF8CP1251_mapsBack_cyrillic : MapsBack [0xD0, 0x9F, 0x20] 1 := by
  refine (xmlConvertUTF8CP1251_mapsBack_iff 1 [] (by decide)).1.2 ⟨fun w hw => ?_, by decide⟩
  have hchars : (takeChars (1 + 1) [0xD0, 0x9F, 0x20]).1 = [0x41F, 0x20] := by decide
  rw [hchars, List.mem_cons, List.mem_singleton] at hw
  rcases hw with rfl | rfl
  · exact ⟨0xCF, by decide⟩
  · exact ⟨0x20, by decide⟩

/-- U+00FF, which CP1251 does not have, and U+007F, which it has. -/
theorem xmlConvertUTF8CP1251_not_mapsBack :
    ¬MapsBack [0xC3, 0xBF] 1 ∧ ¬MapsBack [0x7F] 1 ∧ ¬ComesBack [0x7F] := by
  refine ⟨fun h => ?_, fun h => ?_, fun h => ?_⟩
  · obtain ⟨hbyte, -⟩ := (mapsBack_iff 1 (by decide)).1 h
    obtain ⟨c, hc⟩ := hbyte 0xFF (by decide)
    have hmem := cp1251Utf16_mem c
    rw [hc] at hmem
    exact absurd hmem (by decide +kernel)
  · obtain ⟨-, hdel⟩ := (mapsBack_iff 1 (by decide)).1 h
    exact hdel (by decide)
  · exact ((comesBack_iff [0x7F]).1 h).2 (List.mem_singleton_self _)

end ImageProxy.Cpcl
