import ImageProxy.Cpcl.DynamicMemoryStream
import ImageProxy.Cpcl.MemoryStream
import ImageProxy.Library.Memory

set_option autoImplicit false

/-! # The `int32` cursor of a `MemoryStream` (`memory_stream.cpp`)

`p_size` and `p_offset` are `int32`s, and every method has its own test of them: the byte methods
add one to the offset, `Read` and `Write` add an unsigned size and drop the sign bit, `Seek` adds in
64 bits. Here the numbers wrap as they do in the machine, and an access to the buffer that is not
below `p_size` has no result. -/

namespace ImageProxy.MemoryStream

/-! ## The source -/

/-- `INT_MAX`. -/
def intMax : ℤ := 0x7FFFFFFF

/-- A number as an `int32`. -/
def int32 (n : ℤ) : ℤ := n.bmod 0x100000000

/-- A number as an `int64`. -/
def int64 (n : ℤ) : ℤ := n.bmod 0x10000000000000000

/-- A number as a `uint32`. -/
def uint32 (n : ℤ) : ℕ := (n % 0x100000000).toNat

/-- A number as a `size_t`. -/
def sizeT (n : ℤ) : ℕ := (n % 0x10000000000000000).toNat

/-- The data members of a `MemoryStream`; `p` is an address. -/
structure Members where
  state : Bool
  p : ℕ
  pSize : ℤ
  pOffset : ℤ
  throwEofWrite : Bool
deriving DecidableEq, Repr

/-- `memory_limit_exceeded`. -/
structure MemoryLimitExceeded where
  memoryLimit : ℕ
  what : String
deriving DecidableEq, Repr

/-- `%08X`. -/
def hex (n : ℕ) : String :=
  let digits := (Nat.toDigits 16 (n % 0x100000000)).map Char.toUpper
  .ofList (List.replicate (8 - digits.length) '0' ++ digits)

namespace Members

/-- The `n` bytes from the index `off` on are bytes of the buffer. -/
def Inside (s : Members) (off : ℤ) (n : ℕ) : Prop := n = 0 ∨ 0 ≤ off ∧ off + n ≤ s.pSize

instance (s : Members) (off : ℤ) (n : ℕ) : Decidable (s.Inside off n) :=
  inferInstanceAs (Decidable (n = 0 ∨ 0 ≤ off ∧ off + n ≤ s.pSize))

/-- `MemoryStream::MemoryStream(p, p_size, throw_eof_write)`. -/
def new (p pSize : ℕ) (throwEofWrite : Bool) : Members :=
  ⟨true, p, (pSize % 0x80000000 : ℕ), 0, throwEofWrite⟩

/-- `MemoryStream::Assign`. -/
def assign (s : Members) (p pSize : ℕ) : Members :=
  { s with p := p, pSize := (pSize % 0x80000000 : ℕ), pOffset := 0, state := true }

/-- `MemoryStream::ReadByte`. -/
def readByte (mem : Memory UInt8) (s : Members) : Option (UInt8 × Members) :=
  if int32 (s.pOffset + 1) > s.pSize then some (0, { s with state := false })
  else if s.Inside s.pOffset 1 then
    some (mem (s.p + s.pOffset.toNat),
      { s with state := true, pOffset := int32 (s.pOffset + 1) })
  else none

/-- `MemoryStream::WriteByte`. -/
def writeByte (mem : Memory UInt8) (s : Members) (v : UInt8) :
    Option (Except MemoryLimitExceeded Unit × Memory UInt8 × Members) :=
  if int32 (s.pOffset + 1) > s.pSize then
    if s.throwEofWrite then
      some (.error ⟨sizeT s.pSize, "MemoryStream::WriteByte(): limit(" ++ toString s.pSize
        ++ " bytes) exceeded"⟩, mem, { s with state := false })
    else some (.ok (), mem, { s with state := false })
  else if s.Inside s.pOffset 1 then
    some (.ok (), mem.write (s.p + s.pOffset.toNat) [v],
      { s with state := true, pOffset := int32 (s.pOffset + 1) })
  else none

/-- `MemoryStream::Clone`. -/
def clone (s : Members) : Members :=
  { new s.p (sizeT s.pSize) s.throwEofWrite with pOffset := s.pOffset }

/-- `MemoryStream::CopyTo`. `write` is the call of `output->Write`, with a pointer and a size. -/
def copyTo {ρ : Type} (s : Members) (write : ℕ → UInt32 → Option ρ) (size : UInt32) : Option ρ :=
  let n := min size.toNat (uint32 (s.pSize - s.pOffset))
  if s.Inside s.pOffset n then write (s.p + s.pOffset.toNat) (.ofNat n) else none

/-- `(p_offset + size) & INT_MAX`, where `Read` and `Write` take a request to end. -/
def requestEnd (s : Members) (size : UInt32) : ℤ := (s.pOffset + size.toNat) % 0x80000000

/-- `min(p_size, p_offset_) - p_offset`, the number of bytes up to that end or to the end of the
buffer. -/
def count (s : Members) (size : UInt32) : ℤ := min s.pSize (s.requestEnd size) - s.pOffset

/-- `MemoryStream::Read`. The bytes at `data` are not those that are read, as `memcpy` asks. -/
def read (mem : Memory UInt8) (s : Members) (data : ℕ) (size : UInt32) :
    Option (ℕ × Memory UInt8 × Members) :=
  if s.requestEnd size < s.pOffset then some (0, mem, { s with state := false })
  else
    let r := int32 (s.count size)
    if r > 0 then
      if s.Inside s.pOffset r.toNat then
        some (uint32 r, mem.write data (mem.read (s.p + s.pOffset.toNat) r.toNat),
          { s with state := true, pOffset := int32 (s.pOffset + r) })
      else none
    else some (uint32 r, mem, s)

/-- `MemoryStream::Write`. -/
def write (mem : Memory UInt8) (s : Members) (data : ℕ) (size : UInt32) :
    Option (Except MemoryLimitExceeded ℕ × Memory UInt8 × Members) :=
  if s.requestEnd size < s.pOffset then some (.ok 0, mem, { s with state := false })
  else
    let r := int32 (s.count size)
    if s.throwEofWrite ∧ r < (size.toNat % 0x80000000 : ℕ) then
      some (.error ⟨sizeT s.pSize, "MemoryStream::Write(data = " ++ hex data ++ ", size = "
        ++ toString size.toNat ++ "): limit(" ++ toString s.pSize ++ " bytes) exceeded"⟩, mem, s)
    else if r > 0 then
      if s.Inside s.pOffset r.toNat then
        some (.ok (uint32 r), mem.write (s.p + s.pOffset.toNat) (mem.read data r.toNat),
          { s with state := true, pOffset := int32 (s.pOffset + r) })
      else none
    else some (.ok (uint32 r), mem, s)

/-- The tests of `Seek` on the place to go to. -/
def seekTo (s : Members) (moveTo : ℤ) : Bool × Members :=
  if moveTo < 0 then (false, s)
  else if moveTo > s.pSize then (false, s)
  else (true, { s with pOffset := int32 moveTo })

/-- `MemoryStream::Seek`: whether it succeeded, and the members after. -/
def seek (s : Members) (moveTo : ℤ) : SeekMethod → Bool × Members
  | .cur => s.seekTo (int64 (s.pOffset + moveTo))
  | .«end» => s.seekTo (int64 (s.pSize + moveTo))
  | .set => s.seekTo moveTo
  | .other => (false, s)

/-! ## An offset in the buffer -/

/-- The offset is in the buffer or at its end. -/
structure InRange (s : Members) : Prop where
  offset_nonneg : 0 ≤ s.pOffset
  offset_le : s.pOffset ≤ s.pSize
  size_le : s.pSize ≤ intMax

/-- The members after a transfer of `r` bytes. -/
def advance (s : Members) (r : ℤ) : Members :=
  { s with state := if r > 0 then true else s.state, pOffset := s.pOffset + r }

end Members

theorem int32_of_range {n : ℤ} (hlo : -0x80000000 ≤ n) (hhi : n < 0x80000000) : int32 n = n :=
  Int.bmod_eq_of_le (by omega) (by omega)

theorem uint32_of_range {n : ℤ} (hlo : 0 ≤ n) (hhi : n < 0x100000000) : uint32 n = n.toNat := by
  rw [uint32, Int.emod_eq_of_lt hlo hhi]

namespace Members

theorem InRange.size_lt {s : Members} (hs : s.InRange) : s.pSize < 0x80000000 := by
  have hle := hs.size_le
  rw [intMax] at hle
  omega

theorem InRange.bounds {s : Members} (hs : s.InRange) :
    0 ≤ s.pOffset ∧ s.pOffset ≤ s.pSize ∧ s.pSize < 0x80000000 :=
  ⟨hs.offset_nonneg, hs.offset_le, hs.size_lt⟩

/-- The test of the byte methods holds at the end, unless the offset plus one is no `int32`. -/
theorem InRange.byte_test {s : Members} (hs : s.InRange) :
    int32 (s.pOffset + 1) > s.pSize ↔ s.pOffset = s.pSize ∧ s.pOffset ≠ intMax := by
  obtain ⟨hlo, hle, hsize⟩ := hs.bounds
  by_cases hmax : s.pOffset = intMax
  · have hwrap : int32 (s.pOffset + 1) = -0x80000000 := by
      rw [hmax]
      decide
    rw [hwrap]
    omega
  · have hmax' := hmax
    rw [intMax] at hmax'
    rw [int32_of_range (by omega) (by omega)]
    omega

/-- The access that the byte methods make behind their test. -/
theorem InRange.byte_inside {s : Members} (hs : s.InRange) :
    s.Inside s.pOffset 1 ↔ s.pOffset < s.pSize := by
  have hlo := hs.offset_nonneg
  unfold Inside
  omega

/-- The offset after a byte that is in the buffer. -/
theorem InRange.int32_succ {s : Members} (hs : s.InRange) (h : s.pOffset < s.pSize) :
    int32 (s.pOffset + 1) = s.pOffset + 1 := by
  have hlo := hs.offset_nonneg
  have hsize := hs.size_lt
  exact int32_of_range (by omega) (by omega)

/-- What a byte method does: a byte is left, or the offset plus one is no `int32`, or the test
holds. -/
theorem InRange.byte_if {s : Members} (hs : s.InRange) {ρ : Type} (failed : Option ρ)
    (done : Members → Option ρ) :
    (if int32 (s.pOffset + 1) > s.pSize then failed
      else if s.Inside s.pOffset 1 then
        done { s with state := true, pOffset := int32 (s.pOffset + 1) }
      else none)
      = if s.pOffset < s.pSize then done (s.advance 1)
        else if s.pOffset = intMax then none
        else failed := by
  have hle := hs.offset_le
  simp only [hs.byte_test, hs.byte_inside]
  by_cases hleft : s.pOffset < s.pSize
  · rw [if_neg (by omega), if_pos hleft, if_pos hleft, hs.int32_succ hleft]
    rfl
  · rw [if_neg hleft, if_neg hleft]
    by_cases hmax : s.pOffset = intMax
    · rw [if_neg (by simp [hmax]), if_pos hmax]
    · rw [if_pos ⟨by omega, hmax⟩, if_neg hmax]

theorem readByte_eq (mem : Memory UInt8) {s : Members} (hs : s.InRange) :
    s.readByte mem = if s.pOffset < s.pSize then
        some (mem (s.p + s.pOffset.toNat), s.advance 1)
      else if s.pOffset = intMax then none
      else some (0, { s with state := false }) := by
  unfold readByte
  exact hs.byte_if _ fun s' => some (mem (s.p + s.pOffset.toNat), s')

theorem writeByte_eq (mem : Memory UInt8) {s : Members} (hs : s.InRange) (v : UInt8) :
    s.writeByte mem v = if s.pOffset < s.pSize then
        some (.ok (), mem.write (s.p + s.pOffset.toNat) [v], s.advance 1)
      else if s.pOffset = intMax then none
      else if s.throwEofWrite then
        some (.error ⟨sizeT s.pSize, "MemoryStream::WriteByte(): limit(" ++ toString s.pSize
          ++ " bytes) exceeded"⟩, mem, { s with state := false })
      else some (.ok (), mem, { s with state := false }) := by
  unfold writeByte
  exact hs.byte_if _ fun s' => some (Except.ok (), mem.write (s.p + s.pOffset.toNat) [v], s')

/-! ## The end of a request -/

theorem InRange.int32_count {s : Members} (hs : s.InRange) {size : UInt32}
    (h : s.pOffset ≤ s.requestEnd size) :
    0 ≤ s.count size ∧ s.pOffset + s.count size ≤ s.pSize ∧
      int32 (s.count size) = s.count size ∧ uint32 (s.count size) = (s.count size).toNat ∧
      int32 (s.pOffset + s.count size) = s.pOffset + s.count size := by
  obtain ⟨hlo, hle, hsize⟩ := hs.bounds
  have hnonneg : 0 ≤ s.count size := by
    rw [count]
    omega
  have hend : s.pOffset + s.count size ≤ s.pSize := by
    rw [count]
    omega
  exact ⟨hnonneg, hend, int32_of_range (by omega) (by omega),
    uint32_of_range hnonneg (by omega), int32_of_range (by omega) (by omega)⟩

theorem InRange.inside_count {s : Members} (hs : s.InRange) {size : UInt32}
    (h : s.pOffset ≤ s.requestEnd size) : s.Inside s.pOffset (s.count size).toNat := by
  obtain ⟨hnonneg, hend, -⟩ := hs.int32_count h
  have hlo := hs.offset_nonneg
  exact .inr ⟨hlo, by omega⟩

/-- The number of bytes that a request moves: none if it ends before it begins. -/
def transferred (s : Members) (size : UInt32) : ℕ :=
  if s.requestEnd size < s.pOffset then 0 else (s.count size).toNat

/-- The members after a request. -/
def after (s : Members) (size : UInt32) : Members :=
  { s with
    state := if s.requestEnd size < s.pOffset then false
      else if 0 < s.transferred size then true else s.state
    pOffset := s.pOffset + s.transferred size }

/-- `Read` moves these bytes from the buffer to `data`. -/
theorem read_eq (mem : Memory UInt8) {s : Members} (hs : s.InRange) (data : ℕ) (size : UInt32) :
    s.read mem data size = some (s.transferred size,
      mem.write data (mem.read (s.p + s.pOffset.toNat) (s.transferred size)), s.after size) := by
  unfold read after transferred
  split
  · simp
  · next hend =>
      have hge : s.pOffset ≤ s.requestEnd size := Int.not_lt.1 hend
      obtain ⟨hnonneg, -, hcount, hreturn, hoffset⟩ := hs.int32_count hge
      simp only [hcount, hreturn, hoffset, if_pos (hs.inside_count hge)]
      by_cases hpos : s.count size > 0
      · rw [if_pos hpos, if_pos (by omega), Int.toNat_of_nonneg hnonneg]
      · have hzero : s.count size = 0 := by omega
        simp [hzero]

/-- `Write` moves them in the other direction; with `throw_eof_write` it throws if they are fewer
than the size without its sign bit. -/
theorem write_eq (mem : Memory UInt8) {s : Members} (hs : s.InRange) (data : ℕ) (size : UInt32) :
    s.write mem data size =
      if s.throwEofWrite ∧ s.pOffset ≤ s.requestEnd size ∧
          s.transferred size < size.toNat % 0x80000000 then
        some (.error ⟨sizeT s.pSize, "MemoryStream::Write(data = " ++ hex data ++ ", size = "
          ++ toString size.toNat ++ "): limit(" ++ toString s.pSize ++ " bytes) exceeded"⟩, mem, s)
      else some (.ok (s.transferred size),
        mem.write (s.p + s.pOffset.toNat) (mem.read data (s.transferred size)),
        s.after size) := by
  unfold write after transferred
  split
  · next hend => simp [Int.not_le.2 hend]
  · next hend =>
      have hge : s.pOffset ≤ s.requestEnd size := Int.not_lt.1 hend
      obtain ⟨hnonneg, -, hcount, hreturn, hoffset⟩ := hs.int32_count hge
      have htest : (s.count size).toNat < size.toNat % 0x80000000 ↔
          s.count size < (size.toNat % 0x80000000 : ℕ) := by omega
      simp only [hcount, hreturn, hoffset, if_pos (hs.inside_count hge), hge, true_and, htest]
      split
      · rfl
      · by_cases hpos : s.count size > 0
        · rw [if_pos hpos, if_pos (by omega), Int.toNat_of_nonneg hnonneg]
        · have hzero : s.count size = 0 := by omega
          simp [hzero]

/-! ## As many bytes as there are -/

/-- `min(size, p_size - p_offset)`. -/
def fits (s : Members) (size : UInt32) : ℕ := min size.toNat (s.pSize - s.pOffset).toNat

/-- `Read` copies as many bytes as there are, up to `size`, and moves behind them. -/
def ReadsFits (mem : Memory UInt8) (s : Members) (data : ℕ) (size : UInt32) : Prop :=
  ∃ state, s.read mem data size = some (s.fits size,
    mem.write data (mem.read (s.p + s.pOffset.toNat) (s.fits size)),
    { s with state := state, pOffset := s.pOffset + s.fits size })

/-- `Write` does so in the other direction. -/
def WritesFits (mem : Memory UInt8) (s : Members) (data : ℕ) (size : UInt32) : Prop :=
  ∃ state, s.write mem data size = some (.ok (s.fits size),
    mem.write (s.p + s.pOffset.toNat) (mem.read data (s.fits size)),
    { s with state := state, pOffset := s.pOffset + s.fits size })

/-- The request ends below 2 ^ 31, or what its end wraps to is behind the buffer, or nothing is
left. -/
def EndsRight (s : Members) (size : UInt32) : Prop :=
  s.pOffset + size.toNat < 0x80000000 ∨ s.pSize ≤ (s.pOffset + size.toNat) % 0x80000000 ∨
    s.pOffset = s.pSize

/-- Such requests are those that move as many bytes as there are. -/
theorem InRange.endsRight_iff {s : Members} (hs : s.InRange) (size : UInt32) :
    s.EndsRight size ↔ s.transferred size = s.fits size := by
  obtain ⟨hlo, hle, hsize⟩ := hs.bounds
  have hlt := size.toNat_lt
  unfold EndsRight transferred fits count requestEnd
  split <;> omega

/-- `Read` gives `min(size, p_size - p_offset)` bytes exactly for the requests that end where they
should, and so does `Write` if it does not throw. -/
theorem read_write_fits_iff (mem : Memory UInt8) {s : Members} (hs : s.InRange) (data : ℕ)
    (size : UInt32) : (s.ReadsFits mem data size ↔ s.EndsRight size) ∧
      (s.throwEofWrite = false → (s.WritesFits mem data size ↔ s.EndsRight size)) := by
  rw [hs.endsRight_iff]
  refine ⟨⟨?_, ?_⟩, fun hthrow => ⟨?_, ?_⟩⟩
  · rintro ⟨state, hread⟩
    rw [read_eq mem hs] at hread
    exact congrArg Prod.fst (Option.some.inj hread)
  · intro hfits
    exact ⟨_, by rw [read_eq mem hs, after, hfits]⟩
  · rintro ⟨state, hwrite⟩
    rw [write_eq mem hs, if_neg (by simp [hthrow])] at hwrite
    exact Except.ok.inj (congrArg Prod.fst (Option.some.inj hwrite))
  · intro hfits
    exact ⟨_, by rw [write_eq mem hs, if_neg (by simp [hthrow]), after, hfits]⟩

/-- One byte of four is read, three are left, and a request for 2 ^ 31 - 1 gives none. -/
theorem not_readsFits : ∃ (mem : Memory UInt8) (s : Members) (data : ℕ) (size : UInt32),
    s.InRange ∧ ¬s.ReadsFits mem data size := by
  refine ⟨fun _ => 0, ⟨true, 0x1000, 4, 1, false⟩, 0x2000, 0x7FFFFFFF,
    ⟨by decide, by decide, by decide⟩, ?_⟩
  rintro ⟨state, hread⟩
  have hcount : (read (fun _ => 0) ⟨true, 0x1000, 4, 1, false⟩ 0x2000 0x7FFFFFFF).map Prod.fst
      = some 3 := congrArg (Option.map Prod.fst) hread
  exact absurd hcount (by decide)

theorem read_write_fits_iff_four :
    (ReadsFits (fun _ => 0) ⟨true, 0x1000, 4, 1, false⟩ 0x2000 0x7FFFFFFF ↔
      EndsRight ⟨true, 0x1000, 4, 1, false⟩ 0x7FFFFFFF) ∧
    (WritesFits (fun _ => 0) ⟨true, 0x1000, 4, 1, false⟩ 0x2000 0x7FFFFFFF ↔
      EndsRight ⟨true, 0x1000, 4, 1, false⟩ 0x7FFFFFFF) := by
  have hiff := read_write_fits_iff (fun _ => 0)
    (⟨by decide, by decide, by decide⟩ : InRange ⟨true, 0x1000, 4, 1, false⟩) 0x2000 0x7FFFFFFF
  exact ⟨hiff.1, hiff.2 rfl⟩

/-! ## All of the bytes, or an exception -/

/-- `Write` stores all of the bytes and moves behind them, or throws `memory_limit_exceeded` and
leaves the buffer and the offset. -/
def WritesAllOrThrows (mem : Memory UInt8) (s : Members) (data : ℕ) (size : UInt32) : Prop :=
  (∃ state, s.write mem data size = some (.ok size.toNat,
    mem.write (s.p + s.pOffset.toNat) (mem.read data size.toNat),
    { s with state := state, pOffset := s.pOffset + size.toNat })) ∨
  ∃ e state, s.write mem data size = some (.error e, mem, { s with state := state })

/-- The request ends below 2 ^ 31, or what its end wraps to is behind the buffer. -/
def EndsSeen (s : Members) (size : UInt32) : Prop :=
  s.pOffset + size.toNat < 0x80000000 ∨ s.pSize < (s.pOffset + size.toNat) % 0x80000000

/-- Such requests are those that `Write` refuses or moves as a whole. -/
theorem InRange.endsSeen_iff {s : Members} (hs : s.InRange) (size : UInt32) :
    s.EndsSeen size ↔ s.transferred size = size.toNat ∨
      s.pOffset ≤ s.requestEnd size ∧ s.transferred size < size.toNat % 0x80000000 := by
  obtain ⟨hlo, hle, hsize⟩ := hs.bounds
  have hlt := size.toNat_lt
  unfold EndsSeen transferred count requestEnd
  split <;> omega

theorem InRange.writesAllOrThrows_iff (mem : Memory UInt8) {s : Members} (hs : s.InRange)
    (hthrow : s.throwEofWrite = true) (data : ℕ) (size : UInt32) :
    s.WritesAllOrThrows mem data size ↔ s.EndsSeen size := by
  rw [hs.endsSeen_iff, WritesAllOrThrows, write_eq mem hs]
  by_cases hless : s.pOffset ≤ s.requestEnd size ∧ s.transferred size < size.toNat % 0x80000000
  · rw [if_pos ⟨hthrow, hless⟩]
    exact ⟨fun _ => .inr hless, fun _ => .inr ⟨_, s.state, rfl⟩⟩
  · rw [if_neg fun h => hless h.2]
    constructor
    · rintro (⟨state, hwrite⟩ | ⟨e, state, hwrite⟩)
      · exact .inl (Except.ok.inj (congrArg Prod.fst (Option.some.inj hwrite)))
      · exact absurd (congrArg Prod.fst (Option.some.inj hwrite)) (by simp)
    · rintro (hall | hless')
      · exact .inl ⟨_, by rw [after, hall]⟩
      · exact absurd hless' hless

/-! ## The other methods -/

theorem InRange.seekTo {s : Members} (hs : s.InRange) (moveTo : ℤ) :
    (s.seekTo moveTo).2.InRange := by
  have hsize := hs.size_lt
  unfold Members.seekTo
  split_ifs with hneg hbeyond
  · exact hs
  · exact hs
  · have hin : int32 moveTo = moveTo := int32_of_range (by omega) (by omega)
    rw [hin]
    exact ⟨Int.not_lt.1 hneg, Int.not_lt.1 hbeyond, hs.size_le⟩

/-- `Seek` keeps the offset in the buffer. -/
theorem InRange.seek {s : Members} (hs : s.InRange) (moveTo : ℤ) (moveMethod : SeekMethod) :
    (s.seek moveTo moveMethod).2.InRange := by
  cases moveMethod with
  | set => exact hs.seekTo _
  | cur => exact hs.seekTo _
  | «end» => exact hs.seekTo _
  | other => exact hs

/-- `CopyTo` hands over bytes of the buffer, as many as there are up to `size`. -/
theorem InRange.copyTo {ρ : Type} {s : Members} (hs : s.InRange) (write : ℕ → UInt32 → Option ρ)
    (size : UInt32) : s.copyTo write size = write (s.p + s.pOffset.toNat) (.ofNat (s.fits size)) := by
  obtain ⟨hlo, hle, hsize⟩ := hs.bounds
  have hcount : min size.toNat (uint32 (s.pSize - s.pOffset)) = s.fits size := by
    rw [uint32_of_range (by omega) (by omega), fits]
  have hinside : s.Inside s.pOffset (s.fits size) := by
    unfold Inside fits
    omega
  simp only [Members.copyTo, hcount, if_pos hinside]

theorem InRange.clone {s : Members} (hs : s.InRange) : s.clone = { s with state := true } := by
  obtain ⟨hlo, hle, hsize⟩ := hs.bounds
  have hmask : ((sizeT s.pSize % 0x80000000 : ℕ) : ℤ) = s.pSize := by
    unfold sizeT
    omega
  simp only [Members.clone, new, hmask]

theorem inRange_new (p pSize : ℕ) (throwEofWrite : Bool) : (new p pSize throwEofWrite).InRange := by
  refine ⟨Int.le_refl _, ?_, ?_⟩
  · show (0 : ℤ) ≤ (pSize % 0x80000000 : ℕ)
    omega
  · show ((pSize % 0x80000000 : ℕ) : ℤ) ≤ 0x7FFFFFFF
    omega

/-! ## A stream whose offset is right -/

/-- The data members of a stream with its bytes at `p`. -/
def ofStream (p : ℕ) (m : MemoryStream) : Members :=
  ⟨m.state, p, m.pSize, m.pOffset, m.throwEofWrite⟩

theorem inRange_ofStream (p : ℕ) (m : MemoryStream) : (ofStream p m).InRange := by
  have hle := m.offset_le
  have hlt := m.size_lt
  refine ⟨Int.natCast_nonneg _, Int.ofNat_le.2 hle, ?_⟩
  show (m.pSize : ℤ) ≤ 0x7FFFFFFF
  omega

theorem requestEnd_ofStream (p : ℕ) (m : MemoryStream) (size : UInt32) :
    (ofStream p m).requestEnd size = ((m.pOffset + size.toNat) % 2 ^ 31 : ℕ) := by
  show ((m.pOffset : ℤ) + size.toNat) % 0x80000000 = _
  omega

theorem transferred_ofStream (p : ℕ) (m : MemoryStream) (size : UInt32) :
    (ofStream p m).transferred size = if (m.pOffset + size.toNat) % 2 ^ 31 < m.pOffset then 0
      else min m.pSize ((m.pOffset + size.toNat) % 2 ^ 31) - m.pOffset := by
  rw [transferred, count, requestEnd_ofStream]
  show (if ((_ : ℕ) : ℤ) < (m.pOffset : ℤ) then 0 else (min (m.pSize : ℤ) _ - m.pOffset).toNat) = _
  split_ifs <;> omega

/-- `Read` on the members is `Read` of the stream, if the bytes of the stream are at `p`. -/
theorem read_ofStream {mem : Memory UInt8} {p : ℕ} {m : MemoryStream}
    (hmem : mem.read p m.pSize = m.content) (data : ℕ) (size : UInt32) :
    (ofStream p m).read mem data size = some ((m.read size).1.length,
      mem.write data (m.read size).1, ofStream p (m.read size).2) := by
  have hsize := m.size_le
  have hmoved := transferred_ofStream p m size
  have hend := requestEnd_ofStream p m size
  have hbytes : ∀ r, m.pOffset + r ≤ m.pSize →
      mem.read (p + m.pOffset) r = (m.p.drop m.pOffset).take r := by
    intro r hr
    rw [← mem.take_drop_read hr, hmem, MemoryStream.content, List.drop_take, List.take_take,
      Nat.min_eq_left (by omega)]
  rw [read_eq mem (inRange_ofStream p m), after, hend]
  unfold MemoryStream.read
  by_cases hlt : (m.pOffset + size.toNat) % 2 ^ 31 < m.pOffset
  · rw [if_pos hlt] at hmoved
    have hcast : (((m.pOffset + size.toNat) % 2 ^ 31 : ℕ) : ℤ) < (ofStream p m).pOffset :=
      Int.ofNat_lt.2 hlt
    simp only [hmoved, if_pos hlt, if_pos hcast, Memory.read_zero, Memory.write_nil]
    rfl
  · rw [if_neg hlt] at hmoved
    have hcast : ¬(((m.pOffset + size.toNat) % 2 ^ 31 : ℕ) : ℤ) < (ofStream p m).pOffset :=
      fun h => hlt (Int.ofNat_lt.1 h)
    simp only [hmoved, if_neg hlt, if_neg hcast]
    have hle := m.offset_le
    have hread := hbytes (min m.pSize ((m.pOffset + size.toNat) % 2 ^ 31) - m.pOffset) (by omega)
    by_cases hpos : min m.pSize ((m.pOffset + size.toNat) % 2 ^ 31) - m.pOffset > 0
    · simp only [if_pos hpos, ← hread, Memory.length_read]
      rfl
    · have hzero := Nat.eq_zero_of_not_pos hpos
      simp only [hzero, Memory.read_zero, Memory.write_nil, if_neg (Nat.lt_irrefl 0),
        Int.natCast_zero, Int.add_zero]
      rfl

end Members

end ImageProxy.MemoryStream
