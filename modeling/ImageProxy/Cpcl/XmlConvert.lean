import ImageProxy.Cpcl.Cp1251

set_option autoImplicit false

/-! # The CP1251 handler of libxml (`libxml_util.cpp`)

libxml gives a block of input and some room for output, and gets the number of bytes that were taken
and written; it calls again with what is left. Both numbers are -1 until a character is written. The
counters are `int`s, and a sum that is not one has no result. -/

namespace ImageProxy.Cpcl

/-! ## The source -/

/-- `INT_MAX`. -/
def intMax : ℕ := 0x7FFFFFFF

/-- What a converter returns, the bytes that it writes from `out` on, and what it leaves in `*outlen`
and `*inlen`. -/
structure Converted where
  ret : ℤ
  out : Bytes
  outlen : ℤ
  inlen : ℤ

/-- The loop of `XmlConvertCP1251_UTF8` from `in` on. -/
def cp1251Utf8Loop (outLength : ℕ) :
    (input : Bytes) → (inConsumed outConsumed : ℕ) → (out : Bytes) → (outlen inlen : ℤ) →
      Option Converted
  | [], _, _, out, outlen, inlen => some ⟨outlen, out, outlen, inlen⟩
  | c :: input, inConsumed, outConsumed, out, outlen, inlen =>
      let utf8 := ucToUtf (cp1251Utf16 c)
      let len := utf8.length
      if len = 0 then some ⟨-2, out, outlen, inlen⟩
      else if outConsumed + len > intMax then none
      else if outConsumed + len > outLength then some ⟨outlen, out, outlen, inlen⟩
      else
        let inConsumed := inConsumed + 1
        let outConsumed := outConsumed + len
        cp1251Utf8Loop outLength input inConsumed outConsumed (out ++ utf8) outConsumed inConsumed

/-- `XmlConvertCP1251_UTF8` with the block `input` and room for `outLength` bytes; no pointer is
`NULL`. -/
def xmlConvertCP1251UTF8 (input : Bytes) (outLength : ℕ) : Option Converted :=
  cp1251Utf8Loop outLength input 0 0 [] (-1) (-1)

/-- The loop of `XmlConvertUTF8_CP1251` from `in` on, `lim` being `in_length - in_consumed`. -/
def utf8Cp1251Loop (outLength : ℕ) :
    (turns : ℕ) → (p : Bytes) → (lim : ℤ) → (inConsumed outConsumed : ℕ) → (out : Bytes) →
      (outlen inlen : ℤ) → Option Converted
  | 0, _, _, _, _, _, _, _ => none
  | turns + 1, p, lim, inConsumed, outConsumed, out, outlen, inlen =>
      if 0 < lim then
        match utfToUc p lim with
        | none => some ⟨outlen, out, outlen, inlen⟩
        | some (len, uc) =>
            let c := utf16Cp1251 uc
            if outConsumed + 1 > intMax then none
            else if outConsumed + 1 > outLength then some ⟨outlen, out, outlen, inlen⟩
            else
              let inConsumed := inConsumed + len
              let outConsumed := outConsumed + 1
              utf8Cp1251Loop outLength turns (p.drop len) (lim - len) inConsumed outConsumed
                (out ++ [c]) outConsumed inConsumed
      else some ⟨outlen, out, outlen, inlen⟩

/-- `XmlConvertUTF8_CP1251` with the block `input`, `none` being `NULL`; every turn takes a byte. -/
def xmlConvertUTF8CP1251 (input : Option Bytes) (outLength : ℕ) : Option Converted :=
  match input with
  | none => some ⟨0, [], 0, 0⟩
  | some input => utf8Cp1251Loop outLength (input.length + 1) input input.length 0 0 [] (-1) (-1)

/-- A call: the length of the block, which ends at the latest where the input does, and the room for
the output. -/
structure XmlCall where
  inLength : ℕ
  outLength : ℕ
  inLength_le : inLength ≤ intMax
  outLength_le : outLength ≤ intMax

/-- Calls on an input, each on what the ones before have left of it: the output, and what is left. A
failed transcoding ends them. -/
def convertCalls (convert : Bytes → ℕ → Option Converted) :
    (input : Bytes) → List XmlCall → Option (Bytes × Bytes)
  | input, [] => some ([], input)
  | input, call :: calls =>
      (convert (input.take call.inLength) call.outLength).bind fun r =>
        if r.ret = -2 then none
        else (convertCalls convert (input.drop r.inlen.toNat) calls).map fun rest =>
          (r.out ++ rest.1, rest.2)

/-! ## To UTF-8 -/

/-- The UTF-8 of CP1251 bytes. -/
def cp1251Utf8 (s : Bytes) : Bytes := s.flatMap fun c => ucToUtf (cp1251Utf16 c)

/-- The longest beginning of `s` whose UTF-8 fits in `room`. -/
def fitting : (s : Bytes) → (room : ℕ) → Bytes
  | [], _ => []
  | c :: s, room =>
      let len := (ucToUtf (cp1251Utf16 c)).length
      if len ≤ room then c :: fitting s (room - len) else []

/-- With `written` bytes written, the character behind what fits in the room ends below 2 ^ 31. -/
def EndsInInt (written : ℕ) (s : Bytes) (room : ℕ) : Prop :=
  ∀ a c b, s = a ++ c :: b → written + (cp1251Utf8 a).length ≤ room →
    written + (cp1251Utf8 (a ++ [c])).length ≤ intMax

@[simp] theorem cp1251Utf8_nil : cp1251Utf8 [] = [] := rfl

@[simp] theorem cp1251Utf8_cons (c : UInt8) (s : Bytes) :
    cp1251Utf8 (c :: s) = ucToUtf (cp1251Utf16 c) ++ cp1251Utf8 s := List.flatMap_cons

@[simp] theorem cp1251Utf8_append (s t : Bytes) :
    cp1251Utf8 (s ++ t) = cp1251Utf8 s ++ cp1251Utf8 t := List.flatMap_append

theorem length_le_length_cp1251Utf8 (s : Bytes) : s.length ≤ (cp1251Utf8 s).length := by
  induction s with
  | nil => exact Nat.le_refl _
  | cons c s ih =>
      have hpos := length_cp1251Utf16_pos c
      rw [cp1251Utf8_cons, List.length_append, List.length_cons]
      omega

theorem length_cp1251Utf8_le (s : Bytes) : (cp1251Utf8 s).length ≤ 3 * s.length := by
  induction s with
  | nil => exact Nat.le_refl _
  | cons c s ih =>
      have hshort := length_cp1251Utf16_le c
      rw [cp1251Utf8_cons, List.length_append, List.length_cons]
      omega

theorem length_cp1251Utf8_replicate (n : ℕ) (c : UInt8) :
    (cp1251Utf8 (List.replicate n c)).length = n * (ucToUtf (cp1251Utf16 c)).length := by
  induction n with
  | zero => rw [Nat.zero_mul]; rfl
  | succ n ih =>
      rw [List.replicate_succ, cp1251Utf8_cons, List.length_append, ih, Nat.succ_mul, Nat.add_comm]

/-- It is a beginning that fits, and there is no longer one. -/
theorem fitting_longest (s : Bytes) (room : ℕ) :
    fitting s room <+: s ∧ (cp1251Utf8 (fitting s room)).length ≤ room ∧
      ∀ b, b <+: s → (cp1251Utf8 b).length ≤ room → b.length ≤ (fitting s room).length := by
  induction s generalizing room with
  | nil =>
      refine ⟨List.prefix_rfl, Nat.zero_le _, fun b hb _ => ?_⟩
      rw [List.prefix_nil.1 hb]
      exact Nat.zero_le _
  | cons c s ih =>
      by_cases hfits : (ucToUtf (cp1251Utf16 c)).length ≤ room
      · obtain ⟨hstart, hlen, hlongest⟩ := ih (room - (ucToUtf (cp1251Utf16 c)).length)
        simp only [fitting, if_pos hfits]
        refine ⟨List.cons_prefix_cons.2 ⟨rfl, hstart⟩, ?_, fun b hb hble => ?_⟩
        · rw [cp1251Utf8_cons, List.length_append]
          omega
        · cases b with
          | nil => exact Nat.zero_le _
          | cons d b =>
              obtain ⟨rfl, hbegins⟩ := List.cons_prefix_cons.1 hb
              rw [cp1251Utf8_cons, List.length_append] at hble
              have hshort := hlongest b hbegins (by omega)
              rw [List.length_cons, List.length_cons]
              omega
      · simp only [fitting, if_neg hfits]
        refine ⟨List.nil_prefix, Nat.zero_le _, fun b hb hble => ?_⟩
        cases b with
        | nil => exact Nat.le_refl _
        | cons d b =>
            obtain ⟨rfl, -⟩ := List.cons_prefix_cons.1 hb
            rw [cp1251Utf8_cons, List.length_append] at hble
            omega

theorem endsInInt_nil (written room : ℕ) : EndsInInt written [] room := by
  intro a c b h
  exact absurd h (by simp)

theorem endsInInt_cons_iff {written : ℕ} {c : UInt8} {s : Bytes} {room : ℕ} (h : written ≤ room) :
    EndsInInt written (c :: s) room ↔
      written + (ucToUtf (cp1251Utf16 c)).length ≤ intMax ∧
        (written + (ucToUtf (cp1251Utf16 c)).length ≤ room →
          EndsInInt (written + (ucToUtf (cp1251Utf16 c)).length) s room) := by
  constructor
  · intro hends
    refine ⟨by simpa using hends [] c s rfl h, fun hfits a d b hs hroom => ?_⟩
    have hend := hends (c :: a) d b (by rw [hs, List.cons_append])
    rw [List.cons_append, cp1251Utf8_cons, cp1251Utf8_cons, List.length_append,
      List.length_append, ← Nat.add_assoc, ← Nat.add_assoc] at hend
    exact hend hroom
  · rintro ⟨hfirst, hrest⟩ a d b hs hroom
    cases a with
    | nil =>
        cases hs
        simpa using hfirst
    | cons e a =>
        obtain ⟨rfl, htail⟩ := List.cons.inj hs
        rw [cp1251Utf8_cons, List.length_append, ← Nat.add_assoc] at hroom
        rw [List.cons_append, cp1251Utf8_cons, List.length_append, ← Nat.add_assoc]
        exact hrest (by omega) a d b htail hroom

/-- What the converter leaves after the bytes `a`. -/
def converted (a : Bytes) : Converted :=
  if a = [] then ⟨-1, [], -1, -1⟩
  else ⟨(cp1251Utf8 a).length, cp1251Utf8 a, (cp1251Utf8 a).length, a.length⟩

/-- The loop behind `done` writes what fits of the rest, if no sum is above `INT_MAX`. -/
theorem cp1251Utf8Loop_eq (outLength : ℕ) (input done : Bytes)
    (hroom : (cp1251Utf8 done).length ≤ outLength) :
    (EndsInInt (cp1251Utf8 done).length input outLength →
      cp1251Utf8Loop outLength input done.length (cp1251Utf8 done).length (cp1251Utf8 done)
          (converted done).outlen (converted done).inlen
        = some (converted (done ++ fitting input (outLength - (cp1251Utf8 done).length)))) ∧
    (¬EndsInInt (cp1251Utf8 done).length input outLength →
      cp1251Utf8Loop outLength input done.length (cp1251Utf8 done).length (cp1251Utf8 done)
          (converted done).outlen (converted done).inlen = none) := by
  have hdone : converted done = ⟨(converted done).outlen, cp1251Utf8 done,
      (converted done).outlen, (converted done).inlen⟩ := by
    unfold converted
    split
    · next hnil => rw [hnil]; rfl
    · rfl
  induction input generalizing done with
  | nil =>
      refine ⟨fun _ => ?_, fun h => absurd (endsInInt_nil _ _) h⟩
      rw [cp1251Utf8Loop, ← hdone, fitting, List.append_nil]
  | cons c input ih =>
      have hpos := length_cp1251Utf16_pos c
      rw [endsInInt_cons_iff hroom]
      simp only [cp1251Utf8Loop, if_neg (Nat.ne_of_gt hpos), fitting]
      by_cases hint : (cp1251Utf8 done).length + (ucToUtf (cp1251Utf16 c)).length ≤ intMax
      · by_cases hfits : (cp1251Utf8 done).length + (ucToUtf (cp1251Utf16 c)).length ≤ outLength
        · have hnext : cp1251Utf8 (done ++ [c])
              = cp1251Utf8 done ++ ucToUtf (cp1251Utf16 c) := by simp
          have hlen : (cp1251Utf8 (done ++ [c])).length
              = (cp1251Utf8 done).length + (ucToUtf (cp1251Utf16 c)).length := by
            rw [hnext, List.length_append]
          have hstate : converted (done ++ [c]) = ⟨(cp1251Utf8 (done ++ [c])).length,
              cp1251Utf8 (done ++ [c]), (cp1251Utf8 (done ++ [c])).length,
              (done ++ [c]).length⟩ := if_neg (by simp)
          have hrest := ih (done ++ [c]) (by omega) (by rw [hstate])
          rw [hstate, hlen, List.length_append, List.length_singleton, hnext] at hrest
          rw [if_neg (by omega), if_neg (by omega), if_pos (by omega)]
          simp only [hint, hfits, true_and, forall_true_left]
          rw [← Nat.sub_sub, List.append_assoc, List.singleton_append] at hrest
          exact hrest
        · rw [if_neg (by omega), if_pos (by omega), if_neg (by omega), List.append_nil, ← hdone]
          exact ⟨fun _ => rfl, fun h => absurd ⟨hint, fun h => absurd h hfits⟩ h⟩
      · rw [if_pos (by omega)]
        exact ⟨fun h => absurd h.1 hint, fun _ => rfl⟩

/-- One call. -/
theorem xmlConvertCP1251UTF8_eq (input : Bytes) (outLength : ℕ) :
    (EndsInInt 0 input outLength →
      xmlConvertCP1251UTF8 input outLength = some (converted (fitting input outLength))) ∧
    (¬EndsInInt 0 input outLength → xmlConvertCP1251UTF8 input outLength = none) :=
  cp1251Utf8Loop_eq outLength input [] (Nat.zero_le _)

theorem converted_nil : converted [] = ⟨-1, [], -1, -1⟩ := if_pos rfl

theorem converted_of_ne {a : Bytes} (h : a ≠ []) :
    converted a = ⟨(cp1251Utf8 a).length, cp1251Utf8 a, (cp1251Utf8 a).length, a.length⟩ := if_neg h

@[simp] theorem converted_out (a : Bytes) : (converted a).out = cp1251Utf8 a := by
  unfold converted
  split
  · next hnil => rw [hnil]; rfl
  · rfl

@[simp] theorem converted_inlen_toNat (a : Bytes) : (converted a).inlen.toNat = a.length := by
  unfold converted
  split
  · next hnil => rw [hnil]; rfl
  · rfl

theorem converted_ret_eq_neg_one {a : Bytes} : (converted a).ret = -1 ↔ a = [] := by
  constructor
  · intro hret
    by_contra hne
    rw [converted_of_ne hne] at hret
    simp only at hret
    omega
  · intro hnil
    rw [hnil, converted_nil]

theorem converted_ret_ne (a : Bytes) : (converted a).ret ≠ -2 := by
  intro hret
  cases a with
  | nil => exact absurd hret (by decide)
  | cons c a =>
      rw [converted_of_ne (List.cons_ne_nil c a)] at hret
      simp only at hret
      omega

/-- What a call on a non-empty block is for. -/
structure ConvertsLongest (input : Bytes) (outLength : ℕ) (r : Converted) : Prop where
  within : r.out.length ≤ outLength
  ret_eq_neg_one_iff : r.ret = -1 ↔
    ∃ c rest, input = c :: rest ∧ outLength < (ucToUtf (cp1251Utf16 c)).length
  nothing : r.ret = -1 → r.out = [] ∧ r.outlen = -1 ∧ r.inlen = -1
  longest : r.ret ≠ -1 → ∃ m ≤ input.length,
    r = ⟨(cp1251Utf8 (input.take m)).length, cp1251Utf8 (input.take m),
      (cp1251Utf8 (input.take m)).length, m⟩ ∧
    (cp1251Utf8 (input.take m)).length ≤ outLength ∧
    ∀ k ≤ input.length, (cp1251Utf8 (input.take k)).length ≤ outLength → k ≤ m

theorem fitting_eq_nil_iff {input : Bytes} {outLength : ℕ} (h : input ≠ []) :
    fitting input outLength = [] ↔
      ∃ c rest, input = c :: rest ∧ outLength < (ucToUtf (cp1251Utf16 c)).length := by
  cases input with
  | nil => exact absurd rfl h
  | cons c rest =>
      simp only [fitting, List.cons.injEq]
      split
      · next hfits =>
          refine ⟨fun hnil => absurd hnil (List.cons_ne_nil _ _), ?_⟩
          rintro ⟨d, s, ⟨hc, -⟩, hlong⟩
          rw [← hc] at hlong
          exact absurd hfits (Nat.not_le.2 hlong)
      · next hlong => exact ⟨fun _ => ⟨c, rest, ⟨rfl, rfl⟩, Nat.not_le.1 hlong⟩, fun _ => rfl⟩

theorem convertsLongest_fitting {input : Bytes} (outLength : ℕ) (h : input ≠ []) :
    ConvertsLongest input outLength (converted (fitting input outLength)) := by
  obtain ⟨hstart, hlen, hlongest⟩ := fitting_longest input outLength
  refine ⟨?_, ?_, ?_, ?_⟩
  · rw [converted_out]
    exact hlen
  · rw [converted_ret_eq_neg_one]
    exact fitting_eq_nil_iff h
  · intro hret
    rw [converted_ret_eq_neg_one.1 hret, converted_nil]
    exact ⟨rfl, rfl, rfl⟩
  · intro hret
    have htake : input.take (fitting input outLength).length = fitting input outLength :=
      (List.prefix_iff_eq_take.1 hstart).symm
    refine ⟨(fitting input outLength).length, hstart.length_le, ?_, ?_, fun k hk hfits => ?_⟩
    · rw [htake]
      exact converted_of_ne fun hnil => hret (converted_ret_eq_neg_one.2 hnil)
    · rw [htake]
      exact hlen
    · have hshort := hlongest (input.take k) (List.take_prefix k input) hfits
      rw [List.length_take, Nat.min_eq_left hk] at hshort
      exact hshort

/-! ## Call after call -/

/-- No call meets a sum above `INT_MAX`. -/
def CallsEndInInt : (s : Bytes) → List XmlCall → Prop
  | _, [] => True
  | s, call :: calls =>
      EndsInInt 0 (s.take call.inLength) call.outLength ∧
        CallsEndInInt (s.drop (fitting (s.take call.inLength) call.outLength).length) calls

/-- Calls that take the input from its beginning, and all of it if there are enough of them. -/
def CallsConvert (s : Bytes) (calls : List XmlCall) : Prop :=
  ∃ a rest, s = a ++ rest ∧
    convertCalls xmlConvertCP1251UTF8 s calls = some (cp1251Utf8 a, rest) ∧
    (s.length ≤ calls.length → rest = [])

/-- A call that has a byte and room for three takes a byte. -/
theorem length_fitting_pos {s : Bytes} {call : XmlCall} (h : s ≠ []) (hin : 1 ≤ call.inLength)
    (hout : 3 ≤ call.outLength) :
    0 < (fitting (s.take call.inLength) call.outLength).length := by
  cases s with
  | nil => exact absurd rfl h
  | cons c s =>
      have hshort := length_cp1251Utf16_le c
      obtain ⟨n, hn⟩ := Nat.exists_eq_add_of_le' hin
      rw [hn, List.take_succ_cons, fitting, if_pos (by omega)]
      exact Nat.succ_pos _

theorem convertCalls_cp1251 (calls : List XmlCall) (s : Bytes) :
    (CallsEndInInt s calls → ∃ a rest, s = a ++ rest ∧
      convertCalls xmlConvertCP1251UTF8 s calls = some (cp1251Utf8 a, rest) ∧
      ((∀ call ∈ calls, 1 ≤ call.inLength ∧ 3 ≤ call.outLength) → s.length ≤ calls.length →
        rest = [])) ∧
    (¬CallsEndInInt s calls → convertCalls xmlConvertCP1251UTF8 s calls = none) := by
  induction calls generalizing s with
  | nil =>
      refine ⟨fun _ => ⟨[], s, rfl, rfl, fun _ hlen => ?_⟩, fun h => absurd trivial h⟩
      exact List.length_eq_zero_iff.1 (Nat.le_zero.1 hlen)
  | cons call calls ih =>
      obtain ⟨hdone, hstuck⟩ := xmlConvertCP1251UTF8_eq (s.take call.inLength) call.outLength
      by_cases hint : EndsInInt 0 (s.take call.inLength) call.outLength
      · obtain ⟨hruns, hstops⟩ :=
          ih (s.drop (fitting (s.take call.inLength) call.outLength).length)
        simp only [CallsEndInInt, hint, true_and, convertCalls, hdone hint, Option.bind_some,
          if_neg (converted_ret_ne _), converted_inlen_toNat, converted_out]
        refine ⟨fun hrest => ?_, fun hrest => by rw [hstops hrest]; rfl⟩
        obtain ⟨a, rest, hs, hrun, hall⟩ := hruns hrest
        have hstart : fitting (s.take call.inLength) call.outLength <+: s :=
          (fitting_longest _ _).1.trans (List.take_prefix _ _)
        have hsplit : fitting (s.take call.inLength) call.outLength ++
            s.drop (fitting (s.take call.inLength) call.outLength).length = s :=
          List.prefix_iff_eq_append.1 hstart
        refine ⟨fitting (s.take call.inLength) call.outLength ++ a, rest, ?_, ?_,
          fun hcalls hlen => ?_⟩
        · rw [List.append_assoc, ← hs, hsplit]
        · rw [hrun, Option.map_some, cp1251Utf8_append]
        · obtain ⟨hin, hout⟩ := hcalls call List.mem_cons_self
          refine hall (fun c hc => hcalls c (List.mem_cons_of_mem _ hc)) ?_
          rw [List.length_drop]
          rw [List.length_cons] at hlen
          by_cases hnil : s = []
          · rw [hnil]
            simp
          · have hpos := length_fitting_pos hnil hin hout
            omega
      · refine ⟨fun h => absurd h.1 hint, fun _ => ?_⟩
        rw [convertCalls, hstuck hint]
        rfl

/-- The calls do what they are for if and only if no sum is above `INT_MAX`. -/
theorem xmlConvertCP1251UTF8_longest_iff {input : Bytes} (outLength : ℕ) (s : Bytes)
    {calls : List XmlCall} (hne : input ≠ [])
    (hcalls : ∀ call ∈ calls, 1 ≤ call.inLength ∧ 3 ≤ call.outLength) :
    ((∃ r, xmlConvertCP1251UTF8 input outLength = some r ∧ ConvertsLongest input outLength r) ↔
      EndsInInt 0 input outLength) ∧
    (CallsConvert s calls ↔ CallsEndInInt s calls) := by
  constructor
  · obtain ⟨hdone, hstuck⟩ := xmlConvertCP1251UTF8_eq input outLength
    constructor
    · rintro ⟨r, hr, -⟩
      by_contra hint
      rw [hstuck hint] at hr
      exact absurd hr (by simp)
    · intro hint
      exact ⟨_, hdone hint, convertsLongest_fitting outLength hne⟩
  · obtain ⟨hruns, hstops⟩ := convertCalls_cp1251 calls s
    constructor
    · rintro ⟨a, rest, -, hrun, -⟩
      by_contra hint
      rw [hstops hint] at hrun
      exact absurd hrun (by simp)
    · intro hint
      obtain ⟨a, rest, hs, hrun, hall⟩ := hruns hint
      exact ⟨a, rest, hs, hrun, hall hcalls⟩

/-- Three bytes in two calls, the first of which stops in front of the character of the second byte, which
takes three. -/
theorem xmlConvertCP1251UTF8_longest_numero :
    (∃ r, xmlConvertCP1251UTF8 [0xCF, 0xB9, 0x20] 4 = some r ∧
      ConvertsLongest [0xCF, 0xB9, 0x20] 4 r) ∧
    CallsConvert [0xCF, 0xB9, 0x20]
      [⟨3, 4, by decide, by decide⟩, ⟨2, 5, by decide, by decide⟩] := by
  have hint : ∀ (s : Bytes) (room : ℕ), s.length ≤ 3 → EndsInInt 0 s room := by
    intro s room hlen a c b hs _
    have hshort := length_cp1251Utf8_le (a ++ [c])
    have hle := congrArg List.length hs
    simp only [List.length_append, List.length_cons, List.length_nil] at hshort hle
    simp only [intMax]
    omega
  have hlong : ∀ call ∈ ([⟨3, 4, by decide, by decide⟩, ⟨2, 5, by decide, by decide⟩] :
      List XmlCall), 1 ≤ call.inLength ∧ 3 ≤ call.outLength := by decide
  obtain ⟨hone, hcalls⟩ := xmlConvertCP1251UTF8_longest_iff 4 [0xCF, 0xB9, 0x20]
    (List.cons_ne_nil 0xCF [0xB9, 0x20]) hlong
  exact ⟨hone.2 (hint _ _ (by decide)),
    hcalls.2 ⟨hint _ _ (by decide), hint _ _ (by decide), trivial⟩⟩

/-- `n` characters of three bytes fit in the room, and the sum with the next one, of two, is above
`INT_MAX`. -/
theorem xmlConvertCP1251UTF8_overflow {n outLength : ℕ} (hroom : n * 3 ≤ outLength)
    (hint : intMax < n * 3 + 2) :
    xmlConvertCP1251UTF8 (List.replicate n 0xB9 ++ [0xC0]) outLength = none := by
  refine (xmlConvertCP1251UTF8_eq _ _).2 fun hends => ?_
  have hfull : (cp1251Utf8 (List.replicate n 0xB9)).length = n * 3 :=
    length_cp1251Utf8_replicate n 0xB9
  have hlast : (cp1251Utf8 [0xC0]).length = 2 := by decide
  have hend := hends (List.replicate n 0xB9) 0xC0 [] rfl
  rw [cp1251Utf8_append, List.length_append, hfull, hlast] at hend
  have hle := hend (by omega)
  omega

/-- 715827882 characters of three bytes and one of two, with room for `INT_MAX` bytes. -/
theorem xmlConvertCP1251UTF8_longest_overflow :
    ¬∃ r, xmlConvertCP1251UTF8 (List.replicate 715827882 0xB9 ++ [0xC0]) intMax = some r ∧
      ConvertsLongest (List.replicate 715827882 0xB9 ++ [0xC0]) intMax r := by
  rintro ⟨r, hr, -⟩
  rw [xmlConvertCP1251UTF8_overflow (by decide) (by decide)] at hr
  exact absurd hr (Option.some_ne_none r).symm

end ImageProxy.Cpcl
