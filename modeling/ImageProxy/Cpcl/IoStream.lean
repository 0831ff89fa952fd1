import Mathlib.Data.List.Basic
import Mathlib.Tactic.SplitIfs
import ImageProxy.Library.Ascii

set_option autoImplicit false

/-! # Streams (`io_stream.h`, `io_stream.cpp`)

`IOStream` is an interface: `Read` takes a `uint32` and gives back at most so many bytes, `Write` gives
back how many bytes it took. A class that implements it is the type of its objects with these two
methods. -/

namespace ImageProxy

/-- `Read` of a class with objects `σ`: the bytes read, and the object after. -/
abbrev ReadMethod (σ : Type) := σ → UInt32 → Bytes × σ

/-- `Write` of a class with objects `τ`: the number of bytes written, and the object after. -/
abbrev WriteMethod (τ : Type) := τ → Bytes → ℕ × τ

/-- A class whose `Read` delivers the bytes of the stream in order: as many as it likes, up to the
number asked for, and none only at the end. `rest` is what it still has to deliver. -/
structure ByteSource (σ : Type) where
  read : ReadMethod σ
  rest : σ → Bytes
  read_append_rest : ∀ s n, (read s n).1 ++ rest (read s n).2 = rest s
  length_read_le : ∀ s n, (read s n).1.length ≤ n.toNat
  rest_eq_nil : ∀ s n, 0 < n.toNat → (read s n).1 = [] → rest s = []

/-- What a `Read` gives is the beginning of the rest. -/
theorem ByteSource.rest_of_read {σ : Type} (src : ByteSource σ) {s s' : σ} {n : UInt32} {buf : Bytes}
    (h : src.read s n = (buf, s')) :
    buf ++ src.rest s' = src.rest s ∧ buf.length ≤ n.toNat := by
  have hrest := src.read_append_rest s n
  have hlen := src.length_read_le s n
  rw [h] at hrest hlen
  exact ⟨hrest, hlen⟩

/-- A `Read` of nothing is at the end, or nothing was asked for. -/
theorem ByteSource.rest_of_read_nil {σ : Type} (src : ByteSource σ) {s s' : σ} {n : UInt32}
    (h : src.read s n = ([], s')) :
    src.rest s' = src.rest s ∧ (n.toNat = 0 ∨ src.rest s = []) := by
  refine ⟨(src.rest_of_read h).1, ?_⟩
  rcases Nat.eq_zero_or_pos n.toNat with hzero | hpos
  · exact .inl hzero
  · refine .inr (src.rest_eq_nil s n hpos ?_)
    rw [h]

/-- The source fills each `Read` until the end of its data. -/
def ByteSource.Fills {σ : Type} (src : ByteSource σ) : Prop :=
  ∀ s n, (src.read s n).1 = (src.rest s).take n.toNat

/-- A string of bytes that is read from its start. -/
def ByteSource.ofBytes : ByteSource Bytes where
  read s n := (s.take n.toNat, s.drop n.toNat)
  rest s := s
  read_append_rest s n := List.take_append_drop _ s
  length_read_le s n := List.length_take_le _ s
  rest_eq_nil s n hn h := by
    rcases List.take_eq_nil_iff.1 h with h | h
    · omega
    · exact h

/-- A class whose `Write` takes all it is given; `received` is what an object has got. -/
structure AcceptsAll {τ : Type} (write : WriteMethod τ) (received : τ → Bytes) : Prop where
  count : ∀ out data, data.length < 2 ^ 32 → (write out data).1 = data.length
  received : ∀ out data, data.length < 2 ^ 32 →
    received (write out data).2 = received out ++ data

/-- A class whose `Write` takes a first part of what it is given and says how much. -/
structure AcceptsPart {τ : Type} (write : WriteMethod τ) (received : τ → Bytes) : Prop where
  count_le : ∀ out data, data.length < 2 ^ 32 → (write out data).1 ≤ data.length
  received : ∀ out data, data.length < 2 ^ 32 →
    received (write out data).2 = received out ++ data.take (write out data).1

theorem AcceptsAll.part {τ : Type} {write : WriteMethod τ} {received : τ → Bytes}
    (h : AcceptsAll write received) : AcceptsPart write received where
  count_le out data hlen := Nat.le_of_eq (h.count out data hlen)
  received out data hlen := by rw [h.received out data hlen, h.count out data hlen, List.take_length]

/-- The call returned the number of bytes of `data`, and the sink has got just these. -/
def Delivered {τ : Type} (received : τ → Bytes) (out : τ) (data : Bytes) (r : ℕ × τ) : Prop :=
  r.1 = data.length ∧ received r.2 = received out ++ data

/-! ## `IOStream::CopyTo` -/

namespace IOStream

variable {σ τ : Type}

/-- The size of the buffer that `CopyTo` reads into. -/
def copyBufferSize : ℕ := 0x1000

/-- The loop of `CopyTo`, with `size` still to copy and `totalWritten` copied; `none` if it takes more
than `turns` turns. -/
def copyLoop (read : ReadMethod σ) (write : WriteMethod τ) :
    (turns size totalWritten : ℕ) → σ → τ → Option (ℕ × σ × τ)
  | 0, _, _, _, _ => none
  | turns + 1, size, totalWritten, s, output =>
      let toRead := if size < copyBufferSize then size else copyBufferSize
      let buf := (read s (.ofNat toRead)).1
      let s := (read s (.ofNat toRead)).2
      if buf.length > 0 then
        let written := (write output buf).1
        let output := (write output buf).2
        let totalWritten := (totalWritten + written) % 2 ^ 32
        if written ≠ buf.length then some (totalWritten, s, output)
        else
          let size := (size + 2 ^ 32 - buf.length) % 2 ^ 32
          if size = 0 then some (totalWritten, s, output)
          else copyLoop read write turns size totalWritten s output
      else some (totalWritten, s, output)

/-- `IOStream::CopyTo`: the number of bytes written, the stream and the output after. -/
def copyTo (read : ReadMethod σ) (write : WriteMethod τ) (turns : ℕ) (s : σ) (output : τ)
    (size : ℕ) : Option (ℕ × σ × τ) :=
  copyLoop read write turns size 0 s output

/-- No `Write` that the loop makes takes less than it is given. -/
def NoShortWrite (read : ReadMethod σ) (write : WriteMethod τ) : (turns size : ℕ) → σ → τ → Prop
  | 0, _, _, _ => True
  | turns + 1, size, s, output =>
      let toRead := if size < copyBufferSize then size else copyBufferSize
      let buf := (read s (.ofNat toRead)).1
      let s := (read s (.ofNat toRead)).2
      0 < buf.length → (write output buf).1 = buf.length ∧
        (buf.length ≠ size →
          NoShortWrite read write turns (size - buf.length) s (write output buf).2)

/-- What one turn reads. -/
def toRead (size : ℕ) : ℕ := if size < copyBufferSize then size else copyBufferSize

theorem toRead_le (size : ℕ) : toRead size ≤ size ∧ toRead size ≤ copyBufferSize := by
  unfold toRead
  split <;> constructor <;> omega

theorem toNat_toRead (size : ℕ) : (UInt32.ofNat (toRead size)).toNat = toRead size := by
  have hle := (toRead_le size).2
  rw [copyBufferSize] at hle
  rw [UInt32.toNat_ofNat', Nat.mod_eq_of_lt (by omega)]

theorem toRead_eq_zero_iff (size : ℕ) : toRead size = 0 ↔ size = 0 := by
  unfold toRead copyBufferSize
  split <;> omega

/-- One turn that reads `buf`. -/
theorem copyLoop_turn_part {read : ReadMethod σ} {write : WriteMethod τ} {turns size total : ℕ}
    {s : σ} {output : τ} (htotal : total + size < 2 ^ 32) {buf : Bytes} {s' : σ}
    (hread : read s (.ofNat (toRead size)) = (buf, s')) (hle : buf.length ≤ toRead size)
    (hcount : (write output buf).1 ≤ buf.length) :
    copyLoop read write (turns + 1) size total s output
      = if buf = [] then some (total, s', output)
        else if (write output buf).1 ≠ buf.length then
          some (total + (write output buf).1, s', (write output buf).2)
        else if buf.length = size then some (total + size, s', (write output buf).2)
        else copyLoop read write turns (size - buf.length) (total + buf.length) s'
          (write output buf).2 := by
  have hbuf := Nat.le_trans hle (toRead_le size).1
  have hsum : (total + (write output buf).1) % 2 ^ 32 = total + (write output buf).1 :=
    Nat.mod_eq_of_lt (by omega)
  have hleft : (size + 2 ^ 32 - buf.length) % 2 ^ 32 = size - buf.length := by
    rw [show size + 2 ^ 32 - buf.length = size - buf.length + 2 ^ 32 by omega, Nat.add_mod_right,
      Nat.mod_eq_of_lt (by omega)]
  unfold toRead at hread
  simp only [copyLoop, hread, hsum, hleft, gt_iff_lt, List.length_pos_iff]
  by_cases hnil : buf = []
  · simp [hnil]
  · rw [if_pos hnil, if_neg hnil]
    split_ifs with hshort hdone hall
    · rfl
    · rw [Decidable.not_not.1 hshort, hall]
    · omega
    · omega
    · rw [Decidable.not_not.1 hshort]

/-- The same turn, into a sink that takes the buffer. -/
theorem copyLoop_turn {read : ReadMethod σ} {write : WriteMethod τ} {received : τ → Bytes}
    (hsink : AcceptsAll write received) {turns size total : ℕ} {s : σ} {output : τ}
    (htotal : total + size < 2 ^ 32) {buf : Bytes} {s' : σ}
    (hread : read s (.ofNat (toRead size)) = (buf, s')) (hle : buf.length ≤ toRead size) :
    copyLoop read write (turns + 1) size total s output
      = if buf = [] then some (total, s', output)
        else if buf.length = size then some (total + size, s', (write output buf).2)
        else copyLoop read write turns (size - buf.length) (total + buf.length) s'
          (write output buf).2 := by
  have hbuf := Nat.le_trans hle (toRead_le size).1
  have hcount := hsink.count output buf (by omega)
  rw [copyLoop_turn_part htotal hread hle (Nat.le_of_eq hcount), hcount]
  simp only [ne_eq, not_true_eq_false, if_false]

theorem noShortWrite_turn {read : ReadMethod σ} {write : WriteMethod τ} {turns size : ℕ} {s s' : σ}
    {output : τ} {buf : Bytes} (hread : read s (.ofNat (toRead size)) = (buf, s')) :
    NoShortWrite read write (turns + 1) size s output ↔ (0 < buf.length →
      (write output buf).1 = buf.length ∧ (buf.length ≠ size →
        NoShortWrite read write turns (size - buf.length) s' (write output buf).2)) := by
  unfold toRead at hread
  simp only [NoShortWrite, hread]

/-- Into a sink that takes all it is given, no `Write` is short. -/
theorem noShortWrite_of_acceptsAll (src : ByteSource σ) {write : WriteMethod τ}
    {received : τ → Bytes} (hsink : AcceptsAll write received) {turns size : ℕ} (s : σ) (output : τ)
    (hsize : size < 2 ^ 32) : NoShortWrite src.read write turns size s output := by
  induction turns generalizing size s output with
  | zero => trivial
  | succ turns ih =>
      rcases hread : src.read s (.ofNat (toRead size)) with ⟨buf, s'⟩
      have hlen := (src.rest_of_read hread).2
      rw [toNat_toRead] at hlen
      have hle : buf.length ≤ size := Nat.le_trans hlen (toRead_le size).1
      rw [noShortWrite_turn hread]
      exact fun _ => ⟨hsink.count output buf (by omega), fun _ => ih s' _ (by omega)⟩

/-- The loop ends with `accepted` taken by the sink, a beginning of what is left of the source. If no
`Write` is short, it is all of that up to `size` bytes, and the source is behind it. -/
theorem copyLoop_accepts (src : ByteSource σ) {write : WriteMethod τ} {received : τ → Bytes}
    (hsink : AcceptsPart write received) {turns size total : ℕ} (s : σ) (output : τ)
    (htotal : total + size < 2 ^ 32) (hturns : size < turns) :
    ∃ accepted s' output', copyLoop src.read write turns size total s output
        = some (total + accepted.length, s', output') ∧
      received output' = received output ++ accepted ∧ accepted <+: src.rest s ∧
      accepted.length ≤ size ∧
      (NoShortWrite src.read write turns size s output →
        accepted = (src.rest s).take size ∧ src.rest s' = (src.rest s).drop size) := by
  induction turns generalizing size total s output with
  | zero => omega
  | succ turns ih =>
      rcases hread : src.read s (.ofNat (toRead size)) with ⟨buf, s'⟩
      obtain ⟨hrest, hlen⟩ := src.rest_of_read hread
      rw [toNat_toRead] at hlen
      have hle : buf.length ≤ size := Nat.le_trans hlen (toRead_le size).1
      have hcount := hsink.count_le output buf (by omega)
      have hreceived := hsink.received output buf (by omega)
      have hstart : buf <+: src.rest s := ⟨_, hrest⟩
      rw [copyLoop_turn_part htotal hread hlen hcount, noShortWrite_turn hread]
      split_ifs with hnil hshort hall
      · -- nothing was read: nothing was asked for, or nothing is left
        subst hnil
        obtain ⟨hnext, hend⟩ := src.rest_of_read_nil hread
        rw [toNat_toRead, toRead_eq_zero_iff] at hend
        refine ⟨[], s', output, rfl, (List.append_nil _).symm, List.nil_prefix, Nat.zero_le _,
          fun _ => ?_⟩
        rw [hnext]
        rcases hend with hzero | hend
        · rw [hzero]
          exact ⟨rfl, rfl⟩
        · rw [hend, List.take_nil, List.drop_nil]
          exact ⟨rfl, rfl⟩
      · refine ⟨buf.take (write output buf).1, s', _, ?_, hreceived,
          (List.take_prefix _ _).trans hstart, ?_, fun hno => ?_⟩
        · rw [List.length_take, Nat.min_eq_left hcount]
        · rw [List.length_take]
          omega
        · exact absurd (hno (List.length_pos_iff.2 hnil)).1 hshort
      · have hfull := Decidable.not_not.1 hshort
        rw [hfull, List.take_length] at hreceived
        exact ⟨buf, s', _, by rw [hall], hreceived, hstart, hle, fun _ => by
          rw [← hrest, ← hall, List.take_left, List.drop_left]
          exact ⟨rfl, rfl⟩⟩
      · have hfull := Decidable.not_not.1 hshort
        have hpos := List.length_pos_iff.2 hnil
        rw [hfull, List.take_length] at hreceived
        have hnext : total + buf.length + (size - buf.length) < 2 ^ 32 := by omega
        obtain ⟨accepted, s'', output'', hloop, hmore, hpre, hless, hno⟩ :=
          ih s' (write output buf).2 hnext (by omega)
        refine ⟨buf ++ accepted, s'', output'', ?_, ?_, ?_, ?_, fun h => ?_⟩
        · rw [hloop, List.length_append, Nat.add_assoc]
        · rw [hmore, hreceived, List.append_assoc]
        · rw [← hrest]
          exact (List.prefix_append_right_inj _).2 hpre
        · rw [List.length_append]
          omega
        · obtain ⟨haccepted, hdrop⟩ := hno ((h hpos).2 hall)
          rw [haccepted, hdrop, ← hrest, List.take_append, List.drop_append,
            List.take_of_length_le hle, List.drop_of_length_le hle]
          exact ⟨rfl, rfl⟩

/-- The loop copies what is left of the source, up to `size` bytes. -/
theorem copyLoop_delivers (src : ByteSource σ) {write : WriteMethod τ} {received : τ → Bytes}
    (hsink : AcceptsAll write received) {turns size total : ℕ} (s : σ) (output : τ)
    (htotal : total + size < 2 ^ 32) (hturns : size < turns) :
    ∃ s' output', copyLoop src.read write turns size total s output
        = some (total + ((src.rest s).take size).length, s', output') ∧
      received output' = received output ++ (src.rest s).take size := by
  obtain ⟨accepted, s', output', hloop, hreceived, -, -, hall⟩ :=
    copyLoop_accepts src hsink.part s output htotal hturns
  obtain ⟨rfl, -⟩ := hall (noShortWrite_of_acceptsAll src hsink s output (by omega))
  exact ⟨s', output', hloop, hreceived⟩

/-- **`CopyTo` with a sink that may take less than it is given.** The copy ends, the sink has taken a
beginning of what was left of the source, and its length is returned. If no `Write` is short, that is
all there is up to `size` bytes, and the source is just behind it. -/
theorem copyTo_accepts (src : ByteSource σ) {write : WriteMethod τ} {received : τ → Bytes}
    (hsink : AcceptsPart write received) (s : σ) (output : τ) (size : UInt32) {turns : ℕ}
    (hturns : size.toNat < turns) :
    ∃ accepted s' output', copyTo src.read write turns s output size.toNat
        = some (accepted.length, s', output') ∧
      received output' = received output ++ accepted ∧ accepted <+: src.rest s ∧
      accepted.length ≤ size.toNat ∧
      (NoShortWrite src.read write turns size.toNat s output →
        accepted.length = min size.toNat (src.rest s).length ∧
        src.rest s' = (src.rest s).drop accepted.length) := by
  have hlt := size.toNat_lt
  obtain ⟨accepted, s', output', hloop, hreceived, hstart, hle, hall⟩ :=
    copyLoop_accepts src hsink s output (by omega : 0 + size.toNat < 2 ^ 32) hturns
  rw [Nat.zero_add] at hloop
  refine ⟨accepted, s', output', hloop, hreceived, hstart, hle, fun hno => ?_⟩
  obtain ⟨rfl, hdrop⟩ := hall hno
  refine ⟨List.length_take, ?_⟩
  rw [hdrop, List.length_take]
  rcases Nat.le_total size.toNat (src.rest s).length with h | h
  · rw [Nat.min_eq_left h]
  · rw [Nat.min_eq_right h, List.drop_length, List.drop_of_length_le h]

/-- A sink that takes half of what it is given. -/
def takeHalf : WriteMethod Bytes :=
  fun output data => (data.length / 2, output ++ data.take (data.length / 2))

theorem acceptsPart_takeHalf : AcceptsPart takeHalf id :=
  ⟨fun _ data _ => Nat.div_le_self data.length 2, fun _ _ _ => rfl⟩

theorem copyTo_accepts_takeHalf :
    ∃ accepted s' output', copyTo ByteSource.ofBytes.read takeHalf 4 [1, 2, 3] [] 3
        = some (accepted.length, s', output') ∧
      output' = accepted ∧ accepted <+: [1, 2, 3] ∧ accepted.length ≤ 3 ∧
      (NoShortWrite ByteSource.ofBytes.read takeHalf 4 3 [1, 2, 3] [] →
        accepted.length = 3 ∧ s' = List.drop accepted.length [1, 2, 3]) :=
  copyTo_accepts .ofBytes acceptsPart_takeHalf [1, 2, 3] [] 3 (by decide)

end IOStream

end ImageProxy
