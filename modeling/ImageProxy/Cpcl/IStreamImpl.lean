import ImageProxy.Cpcl.IoStream

set_option autoImplicit false

/-! # Copying to an `IStream` (`istream_impl.cpp`, `file_istream.cpp`)

`IStreamImpl` and `FileIStream` have the same `CopyTo`. It counts in 64 bits, but what it asks the
source for is the smaller of the buffer size and the low 32 bits of what is still to copy, and it
counts what the destination took only if `Write` returned `S_OK`. -/

namespace ImageProxy

/-! ## The source -/

/-- `HRESULT`. -/
abbrev HResult := UInt32

def sOk : HResult := 0

def sFalse : HResult := 1

def eFail : HResult := 0x80004005

/-- `Write` of a class that implements `IStream`: the `HRESULT`, `*pcbWritten`, and the object
after. -/
abbrev IStreamWrite (τ : Type) := τ → Bytes → HResult × ℕ × τ

/-- What `CopyTo` returns and stores, and the two streams after. -/
structure CopyResult (σ τ : Type) where
  hr : HResult
  pcbRead : ℕ
  pcbWritten : ℕ
  source : σ
  pstm : τ

namespace IStream

variable {σ τ : Type}

/-- `min((unsigned long)to_read, sizeof(buf))`. -/
def toRead (n : ℕ) : ℕ := min (n % 2 ^ 32) 0x1000

/-- The loop of `CopyTo`, with `n` still to read; `none` if it takes more than `turns` turns. -/
def copyLoop (read : ReadMethod σ) (write : IStreamWrite τ) :
    (turns n totalRead totalWritten : ℕ) → σ → τ → Option (CopyResult σ τ)
  | 0, _, _, _, _, _ => none
  | turns + 1, n, totalRead, totalWritten, s, pstm =>
      let buf := (read s (.ofNat (toRead n))).1
      let s := (read s (.ofNat (toRead n))).2
      if buf.length > 0 then
        let totalRead := (totalRead + buf.length) % 2 ^ 64
        let r := write pstm buf
        if r.1 ≠ sOk then some ⟨r.1, totalRead, totalWritten, s, r.2.2⟩
        else
          let totalWritten := (totalWritten + r.2.1) % 2 ^ 64
          let n := (n + 2 ^ 64 - buf.length) % 2 ^ 64
          if n = 0 then some ⟨sOk, totalRead, totalWritten, s, r.2.2⟩
          else copyLoop read write turns n totalRead totalWritten s r.2.2
      else some ⟨sOk, totalRead, totalWritten, s, pstm⟩

end IStream

/-- `IStreamImpl::Write` on a stream with this `Write` and this `operator!`. -/
def IStreamImpl.write {τ : Type} (write : WriteMethod τ) (bad : τ → Bool) : IStreamWrite τ :=
  fun stream pv =>
    let r := write stream pv
    (if bad r.2 then eFail else if r.1 = pv.length then sOk else sFalse, r.1, r.2)

/-- `IStreamImpl::CopyTo`. -/
def IStreamImpl.copyTo {σ τ : Type} (read : ReadMethod σ) (write : IStreamWrite τ) (turns : ℕ)
    (stream : σ) (pstm : τ) (cb : UInt64) : Option (CopyResult σ τ) :=
  IStream.copyLoop read write turns cb.toNat 0 0 stream pstm

/-- `FileIStream::CopyTo`. -/
def FileIStream.copyTo {σ τ : Type} (read : ReadMethod σ) (write : IStreamWrite τ) (turns : ℕ)
    (streamImpl : σ) (pstm : τ) (cb : UInt64) : Option (CopyResult σ τ) :=
  IStream.copyLoop read write turns cb.toNat 0 0 streamImpl pstm

namespace IStream

variable {σ τ : Type}

/-! ## The two sides of a copy -/

/-- A destination whose `Write` takes a first part of what it is given and stores how much. -/
structure TakesPart (write : IStreamWrite τ) (received : τ → Bytes) : Prop where
  count_le : ∀ pstm data, (write pstm data).2.1 ≤ data.length
  received : ∀ pstm data, received (write pstm data).2.2
    = received pstm ++ data.take (write pstm data).2.1

/-- The buffers in which the next `n` bytes of the source are read. -/
def buffers (read : ReadMethod σ) : (turns n : ℕ) → σ → List Bytes
  | 0, _, _ => []
  | turns + 1, n, s =>
      let buf := (read s (.ofNat (min n 0x1000))).1
      if buf = [] then []
      else buf :: buffers read turns (n - buf.length) (read s (.ofNat (min n 0x1000))).2

/-- The destination takes nothing of the first buffer for which it does not return `S_OK`. -/
def TakesNothingElse (write : IStreamWrite τ) : τ → List Bytes → Prop
  | _, [] => True
  | pstm, buf :: bufs =>
      if (write pstm buf).1 = sOk then TakesNothingElse write (write pstm buf).2.2 bufs
      else (write pstm buf).2.1 = 0

/-- The destination takes all of the buffers. -/
def TakesAll (write : IStreamWrite τ) : τ → List Bytes → Prop
  | _, [] => True
  | pstm, buf :: bufs => (write pstm buf).1 = sOk ∧ (write pstm buf).2.1 = buf.length ∧
      TakesAll write (write pstm buf).2.2 bufs

/-! ## The loop -/

theorem toNat_toRead (n : ℕ) : (UInt32.ofNat (toRead n)).toNat = toRead n := by
  have hle : toRead n ≤ 0x1000 := Nat.min_le_right _ _
  rw [UInt32.toNat_ofNat', Nat.mod_eq_of_lt (by omega)]

/-- One turn that reads `buf`. -/
theorem copyLoop_turn {read : ReadMethod σ} {write : IStreamWrite τ} {received : τ → Bytes}
    (hdst : TakesPart write received) {turns n totalRead totalWritten : ℕ} {s s' : σ} {pstm : τ}
    {buf : Bytes} (hread : read s (.ofNat (toRead n)) = (buf, s')) (hle : buf.length ≤ n)
    (htotal : totalRead + n < 2 ^ 64) (hless : totalWritten ≤ totalRead) :
    copyLoop read write (turns + 1) n totalRead totalWritten s pstm
      = if buf = [] then some ⟨sOk, totalRead, totalWritten, s', pstm⟩
        else if (write pstm buf).1 ≠ sOk then
          some ⟨(write pstm buf).1, totalRead + buf.length, totalWritten, s', (write pstm buf).2.2⟩
        else if buf.length = n then
          some ⟨sOk, totalRead + buf.length, totalWritten + (write pstm buf).2.1, s',
            (write pstm buf).2.2⟩
        else copyLoop read write turns (n - buf.length) (totalRead + buf.length)
          (totalWritten + (write pstm buf).2.1) s' (write pstm buf).2.2 := by
  have hcount := hdst.count_le pstm buf
  have hsum : (totalRead + buf.length) % 2 ^ 64 = totalRead + buf.length :=
    Nat.mod_eq_of_lt (by omega)
  have hsum' : (totalWritten + (write pstm buf).2.1) % 2 ^ 64
      = totalWritten + (write pstm buf).2.1 := Nat.mod_eq_of_lt (by omega)
  have hleft : (n + 2 ^ 64 - buf.length) % 2 ^ 64 = n - buf.length := by
    rw [show n + 2 ^ 64 - buf.length = n - buf.length + 2 ^ 64 by omega, Nat.add_mod_right,
      Nat.mod_eq_of_lt (by omega)]
  simp only [copyLoop, hread, hsum, hsum', hleft, gt_iff_lt, List.length_pos_iff]
  by_cases hnil : buf = []
  · simp [hnil]
  · rw [if_pos hnil, if_neg hnil]
    split_ifs with hfailed hdone hall
    · rfl
    · rfl
    · omega
    · omega
    · rfl

theorem buffers_turn {read : ReadMethod σ} {turns n : ℕ} {s s' : σ} {buf : Bytes}
    (hread : read s (.ofNat (toRead n)) = (buf, s')) :
    buffers read (turns + 1) (n % 2 ^ 32) s
      = if buf = [] then [] else buf :: buffers read turns (n % 2 ^ 32 - buf.length) s' := by
  unfold toRead at hread
  simp only [buffers, hread]

theorem buffers_zero (src : ByteSource σ) (turns : ℕ) (s : σ) : buffers src.read turns 0 s = [] := by
  cases turns with
  | zero => rfl
  | succ turns =>
      have hlen := src.length_read_le s 0
      exact if_pos (List.length_eq_zero_iff.1 (Nat.le_zero.1 hlen))

/-- What the loop reads, what it counts as written, and what it leaves. -/
theorem copyLoop_counts (src : ByteSource σ) {write : IStreamWrite τ} {received : τ → Bytes}
    (hdst : TakesPart write received) {turns n totalRead totalWritten : ℕ} (s : σ) (pstm : τ)
    (htotal : totalRead + n < 2 ^ 64) (hless : totalWritten ≤ totalRead)
    (hturns : (src.rest s).length < turns) :
    ∃ hr k l s' pstm', copyLoop src.read write turns n totalRead totalWritten s pstm
        = some ⟨hr, totalRead + k, totalWritten + l, s', pstm'⟩ ∧
      k ≤ (src.rest s).length ∧ src.rest s' = (src.rest s).drop k ∧
      ((received pstm').length = (received pstm).length + l ↔
        TakesNothingElse write pstm (buffers src.read turns (n % 2 ^ 32) s)) ∧
      (TakesAll write pstm (buffers src.read turns (n % 2 ^ 32) s) →
        k = min (n % 2 ^ 32) (src.rest s).length ∧ l = k) := by
  induction turns generalizing n totalRead totalWritten s pstm with
  | zero => omega
  | succ turns ih =>
      rcases hread : src.read s (.ofNat (toRead n)) with ⟨buf, s'⟩
      obtain ⟨hrest, hlen⟩ := src.rest_of_read hread
      rw [toNat_toRead] at hlen
      have hlow : toRead n ≤ n % 2 ^ 32 := Nat.min_le_left _ _
      have hmod := Nat.mod_le n (2 ^ 32)
      have hlength := congrArg List.length hrest
      rw [List.length_append] at hlength
      have hcount := hdst.count_le pstm buf
      have hreceived := congrArg List.length (hdst.received pstm buf)
      rw [List.length_append, List.length_take, Nat.min_eq_left hcount] at hreceived
      rw [copyLoop_turn hdst hread (by omega) htotal hless, buffers_turn hread]
      by_cases hnil : buf = []
      · -- nothing was asked for, or nothing is left
        rw [hnil] at hread
        obtain ⟨hnext, hend⟩ := src.rest_of_read_nil hread
        rw [toNat_toRead, ← List.length_eq_zero_iff] at hend
        have hzero : n % 2 ^ 32 = 0 ∨ (src.rest s).length = 0 := by
          unfold toRead at hend
          omega
        rw [if_pos hnil, if_pos hnil]
        exact ⟨sOk, 0, 0, s', pstm, rfl, Nat.zero_le _, hnext, iff_of_true rfl trivial,
          fun _ => ⟨by omega, rfl⟩⟩
      · rw [if_neg hnil, if_neg hnil]
        simp only [TakesNothingElse, TakesAll]
        by_cases hok : (write pstm buf).1 = sOk
        · rw [if_neg (not_not_intro hok), if_pos hok]
          by_cases hall : buf.length = n
          · -- the low 32 bits of what is left are all of it
            have hlast : buffers src.read turns (n % 2 ^ 32 - buf.length) s' = [] := by
              rw [Nat.sub_eq_zero_of_le (by omega)]
              exact buffers_zero src _ _
            rw [if_pos hall, hlast]
            refine ⟨sOk, buf.length, (write pstm buf).2.1, s', _, rfl, by omega, ?_,
              iff_of_true hreceived trivial, fun h => ⟨by omega, h.2.1⟩⟩
            rw [← hrest, List.drop_left]
          · have hpos := List.length_pos_iff.2 hnil
            have hlow' : (n - buf.length) % 2 ^ 32 = n % 2 ^ 32 - buf.length := by omega
            obtain ⟨hr, k, l, s'', pstm'', hloop, hk, hdrop, hwritten, htakes⟩ :=
              ih s' (write pstm buf).2.2
                (by omega : totalRead + buf.length + (n - buf.length) < 2 ^ 64)
                (Nat.add_le_add hless hcount) (by omega)
            rw [hlow'] at hwritten htakes
            rw [if_neg hall, hloop]
            refine ⟨hr, buf.length + k, (write pstm buf).2.1 + l, s'', pstm'', ?_, by omega, ?_, ?_,
              fun h => ?_⟩
            · rw [Nat.add_assoc, Nat.add_assoc]
            · rw [hdrop, ← hrest, ← List.drop_drop, List.drop_left]
            · rw [← hwritten, hreceived, Nat.add_assoc]
            · obtain ⟨hk', hl'⟩ := htakes h.2.2
              have hfull := h.2.1
              omega
        · rw [if_pos hok, if_neg hok]
          refine ⟨_, buf.length, 0, s', _, rfl, by omega, ?_, by omega, fun h => absurd h.1 hok⟩
          rw [← hrest, List.drop_left]

/-! ## What it reports -/

/-- The copy ends and reports in `pcbRead` the bytes that are taken from the source and in
`pcbWritten` those that the destination took; if it takes all, both are as many as there are up to
`cb`. -/
def Reports (src : ByteSource σ) (write : IStreamWrite τ) (received : τ → Bytes) (turns : ℕ) (s : σ)
    (pstm : τ) (cb : UInt64) (result : Option (CopyResult σ τ)) : Prop :=
  ∃ r, result = some r ∧
    (r.pcbRead ≤ (src.rest s).length ∧ src.rest r.source = (src.rest s).drop r.pcbRead) ∧
    (received r.pstm).length = (received pstm).length + r.pcbWritten ∧
    (TakesAll write pstm (buffers src.read turns (cb.toNat % 2 ^ 32) s) →
      r.pcbRead = min cb.toNat (src.rest s).length ∧
      r.pcbWritten = min cb.toNat (src.rest s).length)

theorem reports_copyLoop_iff (src : ByteSource σ) {write : IStreamWrite τ} {received : τ → Bytes}
    (hdst : TakesPart write received) (s : σ) (pstm : τ) (cb : UInt64) {turns : ℕ}
    (hturns : (src.rest s).length < turns) :
    Reports src write received turns s pstm cb
        (copyLoop src.read write turns cb.toNat 0 0 s pstm) ↔
      TakesNothingElse write pstm (buffers src.read turns (cb.toNat % 2 ^ 32) s) ∧
      (TakesAll write pstm (buffers src.read turns (cb.toNat % 2 ^ 32) s) →
        cb.toNat < 2 ^ 32 ∨ (src.rest s).length ≤ cb.toNat % 2 ^ 32) := by
  have hcb := cb.toNat_lt
  obtain ⟨hr, k, l, s', pstm', hloop, hk, hdrop, hwritten, htakes⟩ :=
    copyLoop_counts src hdst s pstm (by omega : 0 + cb.toNat < 2 ^ 64) (Nat.le_refl 0) hturns
  rw [hloop, Nat.zero_add, Nat.zero_add]
  constructor
  · rintro ⟨r, hresult, -, hcount, hall⟩
    cases hresult
    refine ⟨hwritten.1 hcount, fun h => ?_⟩
    have hmin := (hall h).1
    have hlow := (htakes h).1
    simp only at hmin
    omega
  · rintro ⟨hnothing, hbound⟩
    refine ⟨_, rfl, ⟨hk, hdrop⟩, hwritten.2 hnothing, fun h => ?_⟩
    obtain ⟨hlow, hsame⟩ := htakes h
    have hmin : k = min cb.toNat (src.rest s).length := by
      have hbound := hbound h
      omega
    exact ⟨hmin, hsame.trans hmin⟩

/-- **`CopyTo` of the two classes.** They report what was read and written exactly if the destination
takes nothing of a buffer that it does not answer with `S_OK`, and, where it takes all, the low 32
bits of `cb` are enough for what is copied. -/
theorem reports_iff (src : ByteSource σ) {write : IStreamWrite τ} {received : τ → Bytes}
    (hdst : TakesPart write received) (s : σ) (pstm : τ) (cb : UInt64) {turns : ℕ}
    (hturns : (src.rest s).length < turns) :
    (Reports src write received turns s pstm cb
        (IStreamImpl.copyTo src.read write turns s pstm cb) ↔
      TakesNothingElse write pstm (buffers src.read turns (cb.toNat % 2 ^ 32) s) ∧
      (TakesAll write pstm (buffers src.read turns (cb.toNat % 2 ^ 32) s) →
        cb.toNat < 2 ^ 32 ∨ (src.rest s).length ≤ cb.toNat % 2 ^ 32)) ∧
    (Reports src write received turns s pstm cb
        (FileIStream.copyTo src.read write turns s pstm cb) ↔
      TakesNothingElse write pstm (buffers src.read turns (cb.toNat % 2 ^ 32) s) ∧
      (TakesAll write pstm (buffers src.read turns (cb.toNat % 2 ^ 32) s) →
        cb.toNat < 2 ^ 32 ∨ (src.rest s).length ≤ cb.toNat % 2 ^ 32)) :=
  ⟨reports_copyLoop_iff src hdst s pstm cb hturns, reports_copyLoop_iff src hdst s pstm cb hturns⟩

/-- An `IStreamImpl` takes what the stream behind it takes. -/
theorem takesPart_write {write : WriteMethod τ} {received : τ → Bytes} (bad : τ → Bool)
    (hcount : ∀ out data, (write out data).1 ≤ data.length)
    (hreceived : ∀ out data, received (write out data).2
      = received out ++ data.take (write out data).1) :
    TakesPart (IStreamImpl.write write bad) received :=
  ⟨hcount, hreceived⟩

/-- An `IStreamImpl` on a stream that takes half of what it is given. -/
def writeHalf : IStreamWrite Bytes := IStreamImpl.write IOStream.takeHalf fun _ => false

theorem takesPart_writeHalf : TakesPart writeHalf id :=
  takesPart_write _ (fun _ data => Nat.div_le_self data.length 2) fun _ _ => rfl

theorem reports_writeHalf_iff :
    (Reports .ofBytes writeHalf id 4 [1, 2, 3] [] 3
        (IStreamImpl.copyTo ByteSource.ofBytes.read writeHalf 4 [1, 2, 3] [] 3) ↔
      TakesNothingElse writeHalf [] (buffers ByteSource.ofBytes.read 4 3 [1, 2, 3]) ∧
      (TakesAll writeHalf [] (buffers ByteSource.ofBytes.read 4 3 [1, 2, 3]) →
        3 < 2 ^ 32 ∨ 3 ≤ 3)) ∧
    (Reports .ofBytes writeHalf id 4 [1, 2, 3] [] 3
        (FileIStream.copyTo ByteSource.ofBytes.read writeHalf 4 [1, 2, 3] [] 3) ↔
      TakesNothingElse writeHalf [] (buffers ByteSource.ofBytes.read 4 3 [1, 2, 3]) ∧
      (TakesAll writeHalf [] (buffers ByteSource.ofBytes.read 4 3 [1, 2, 3]) →
        3 < 2 ^ 32 ∨ 3 ≤ 3)) :=
  reports_iff .ofBytes takesPart_writeHalf [1, 2, 3] [] 3 (by decide)

/-- An `IStreamImpl` on a stream that takes all it is given. -/
def writeAll : IStreamWrite Bytes :=
  IStreamImpl.write (fun out data => (data.length, out ++ data)) fun _ => false

/-- Of three bytes one is taken and none is reported; of a request for 2 ^ 32 bytes none is read. -/
theorem not_reports :
    ¬Reports .ofBytes writeHalf id 4 [1, 2, 3] [] 3
      (IStreamImpl.copyTo ByteSource.ofBytes.read writeHalf 4 [1, 2, 3] [] 3) ∧
    ¬Reports .ofBytes writeAll id 4 [1, 2, 3] [] 0x100000000
      (FileIStream.copyTo ByteSource.ofBytes.read writeAll 4 [1, 2, 3] [] 0x100000000) := by
  have hhalf : copyLoop ByteSource.ofBytes.read writeHalf 4 3 0 0 [1, 2, 3] []
      = some ⟨sFalse, 3, 0, [], [1]⟩ := rfl
  have hall : copyLoop ByteSource.ofBytes.read writeAll 4 0x100000000 0 0 [1, 2, 3] []
      = some ⟨sOk, 0, 0, [1, 2, 3], []⟩ := rfl
  constructor
  · rintro ⟨r, hr, -, hcount, -⟩
    cases hr.symm.trans hhalf
    exact absurd hcount (by decide)
  · rintro ⟨r, hr, -, -, htakes⟩
    cases hr.symm.trans hall
    exact absurd (htakes trivial).1 (by decide)

end IStream

end ImageProxy
