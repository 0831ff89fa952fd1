import Mathlib.Data.List.TakeDrop
import ImageProxy.Cpcl.DynamicMemoryStream
import ImageProxy.Cpcl.MemoryStream

set_option autoImplicit false

/-! # Three ways to copy a stream

`IOStream::CopyTo` reads and writes in turn. The two streams that are in memory copy straight from it:
`MemoryStream` in one `Write`, `DynamicMemoryStream` block by block. The latter walks the blocks to
their end: unlike `Read` it never looks at `p_size`. -/

namespace ImageProxy

variable {τ : Type}

/-! ## The source -/

namespace DynamicMemoryStream

/-- The loop of `DynamicMemoryStream::CopyTo` over the blocks from `Block(p_offset)` on. -/
def copyBlocks (write : WriteMethod τ) (N : ℕ) :
    (pad size written : ℕ) → τ → List Bytes → ℕ × τ
  | _, _, written, output, [] => (written, output)
  | pad, size, written, output, block :: blocks =>
      let n := min (N - pad) size
      let r := write output ((block.drop pad).take n)
      let written := (written + r.1) % 2 ^ 32
      if r.1 ≠ n then (written, r.2)
      else if size - n = 0 then (written, r.2)
      else copyBlocks write N 0 (size - n) written r.2 blocks

/-- `DynamicMemoryStream::CopyTo`. -/
def copyTo (s : DynamicMemoryStream) (write : WriteMethod τ) (output : τ) (size : ℕ) : ℕ × τ :=
  copyBlocks write s.memoryStorage.N (s.pOffset % s.memoryStorage.N) size 0 output
    (s.memoryStorage.blocks.drop (s.pOffset / s.memoryStorage.N))

/-! ## A `DynamicMemoryStream` -/

/-- What is left from the cursor on. -/
def rest (s : DynamicMemoryStream) : Bytes := s.content.drop s.pOffset

theorem length_rest (s : DynamicMemoryStream) : s.rest.length = s.pSize - s.pOffset := by
  rw [rest, List.length_drop, length_content]

/-- What reading to the end delivers: `Read` cuts the number of bytes that are left to 32 bits. -/
def readable (s : DynamicMemoryStream) : Bytes := s.rest.take (s.rest.length % 2 ^ 32)

/-- 32 bits are enough for what is left. -/
theorem readable_eq_rest_iff {s : DynamicMemoryStream} :
    s.readable = s.rest ↔ s.pSize - s.pOffset < 2 ^ 32 := by
  rw [readable, List.take_eq_self_iff, s.length_rest]
  omega

theorem read_readable (s : DynamicMemoryStream) (n : UInt32) :
    (s.read n.toNat).1 = s.readable.take n.toNat := by
  rw [read_content, Nat.mod_eq_of_lt n.toNat_lt, ← length_rest, readable, List.take_take]
  rfl

theorem readable_read (s : DynamicMemoryStream) (n : UInt32) :
    (s.read n.toNat).2.readable = s.readable.drop n.toNat := by
  have hlen := s.length_rest
  have hread := congrArg List.length (s.read_readable n)
  have hmod := Nat.mod_le s.rest.length (2 ^ 32)
  have hrest : (s.read n.toNat).2.rest = s.rest.drop (s.read n.toNat).1.length := by
    rw [rest, content_read, pOffset_read, rest, List.drop_drop]
  rw [readable, List.length_take, List.length_take] at hread
  have hleft : (s.rest.length - (s.read n.toNat).1.length) % 2 ^ 32
      = s.rest.length % 2 ^ 32 - (s.read n.toNat).1.length := by omega
  rw [readable, hrest, List.length_drop, hleft, readable, ← List.drop_take]
  rcases Nat.le_total n.toNat (s.rest.length % 2 ^ 32) with h | h
  · rw [hread, Nat.min_eq_left (by omega)]
  · rw [List.drop_eq_nil_of_le (by rw [List.length_take]; omega),
      List.drop_eq_nil_of_le (by rw [List.length_take]; omega)]

theorem read_append_readable (s : DynamicMemoryStream) (n : UInt32) :
    (s.read n.toNat).1 ++ (s.read n.toNat).2.readable = s.readable := by
  rw [read_readable, readable_read, List.take_append_drop]

theorem length_read_le (s : DynamicMemoryStream) (n : UInt32) :
    (s.read n.toNat).1.length ≤ n.toNat := by
  rw [read_readable]
  exact List.length_take_le _ _

theorem readable_eq_nil (s : DynamicMemoryStream) (n : UInt32) (hn : 0 < n.toNat)
    (h : (s.read n.toNat).1 = []) : s.readable = [] := by
  rw [read_readable] at h
  rcases List.take_eq_nil_iff.1 h with h | h
  · omega
  · exact h

/-- A stream fills each `Read` from what it can read. -/
def source : ByteSource DynamicMemoryStream where
  read s n := s.read n.toNat
  rest := readable
  read_append_rest := read_append_readable
  length_read_le := length_read_le
  rest_eq_nil := readable_eq_nil

/-- The walk over the blocks writes what is in them, to a sink that takes it. -/
theorem copyBlocks_delivers {write : WriteMethod τ} {received : τ → Bytes}
    (hsink : AcceptsAll write received) {N : ℕ} {blocks : List Bytes}
    (hblocks : ∀ b ∈ blocks, b.length = N) {pad size written : ℕ} (output : τ) (hpad : pad ≤ N)
    (hsize : written + size < 2 ^ 32) :
    (copyBlocks write N pad size written output blocks).1
        = written + (MemoryStorage.readBlocks N pad size blocks).length ∧
      received (copyBlocks write N pad size written output blocks).2
        = received output ++ MemoryStorage.readBlocks N pad size blocks := by
  induction blocks generalizing pad size written output with
  | nil => exact ⟨rfl, (List.append_nil _).symm⟩
  | cons b blocks ih =>
      have hb : b.length = N := hblocks b (by simp)
      have hlen : ((b.drop pad).take (min (N - pad) size)).length = min (N - pad) size := by
        rw [List.length_take, List.length_drop, hb]
        omega
      have hcount := hsink.count output ((b.drop pad).take (min (N - pad) size)) (by omega)
      have hreceived := hsink.received output ((b.drop pad).take (min (N - pad) size)) (by omega)
      rw [hlen] at hcount
      have hsum : (written + min (N - pad) size) % 2 ^ 32 = written + min (N - pad) size :=
        Nat.mod_eq_of_lt (by omega)
      simp only [copyBlocks, MemoryStorage.readBlocks, hcount, hsum, ne_eq, not_true_eq_false,
        if_false]
      split_ifs with hdone
      · exact ⟨by rw [hlen], hreceived⟩
      · have hrest : ∀ b' ∈ blocks, b'.length = N := fun b' hb' => hblocks b' (by simp [hb'])
        have hless : written + min (N - pad) size + (size - min (N - pad) size) < 2 ^ 32 := by omega
        obtain ⟨hrestCount, hrestReceived⟩ :=
          ih hrest (write output ((b.drop pad).take (min (N - pad) size))).2 (Nat.zero_le N) hless
        refine ⟨?_, ?_⟩
        · rw [hrestCount, List.length_append, hlen, Nat.add_assoc]
        · rw [hrestReceived, hreceived, List.append_assoc]

/-- `CopyTo` delivers what is in the blocks from the cursor on, up to `size` bytes. -/
theorem copyTo_delivers (s : DynamicMemoryStream) {write : WriteMethod τ} {received : τ → Bytes}
    (hsink : AcceptsAll write received) (output : τ) {size : ℕ} (hsize : size < 2 ^ 32) :
    Delivered received output ((s.memoryStorage.bytes.drop s.pOffset).take size)
      (s.copyTo write output size) := by
  have hblocks : ∀ b ∈ s.memoryStorage.blocks.drop (s.pOffset / s.memoryStorage.N),
      b.length = s.memoryStorage.N :=
    fun b hb => s.memoryStorage.length_block b (List.mem_of_mem_drop hb)
  have hpad := Nat.mod_lt s.pOffset s.memoryStorage.N_pos
  have hwalk := copyBlocks_delivers hsink hblocks output (Nat.le_of_lt hpad)
    (by omega : 0 + size < 2 ^ 32)
  rw [Nat.zero_add] at hwalk
  have hread := s.memoryStorage.read_eq s.pOffset size
  rw [MemoryStorage.read] at hread
  rw [← hread]
  exact hwalk

end DynamicMemoryStream

/-! ## A `MemoryStream` -/

namespace MemoryStream

/-- How many of `size` bytes `IOStream::CopyTo` gets from a `MemoryStream` that has so many left: the
first read that would go past 2 ^ 31 reads nothing. -/
def copyable (m : MemoryStream) (size : ℕ) : ℕ :=
  if m.pOffset + size < 2 ^ 31 then size
  else IOStream.copyBufferSize * ((2 ^ 31 - 1 - m.pOffset) / IOStream.copyBufferSize)

theorem copyable_of_lt {m : MemoryStream} {size : ℕ} (h : m.pOffset + size < 2 ^ 31) :
    m.copyable size = size := if_pos h

/-- Not one read is possible. -/
theorem copyable_eq_zero {m : MemoryStream} {size : ℕ} (hsize : ¬m.pOffset + size < 2 ^ 31)
    (hread : ¬m.pOffset + 0x1000 < 2 ^ 31) : m.copyable size = 0 := by
  rw [copyable, if_neg hsize, IOStream.copyBufferSize]
  omega

theorem toRead_eq (size : ℕ) : IOStream.toRead size = min size 0x1000 := by
  unfold IOStream.toRead IOStream.copyBufferSize
  split <;> omega

/-- What a turn that does not end the loop reads, and what the turns behind it do. -/
theorem take_copyable_turn {m m' : MemoryStream} {size : ℕ}
    (hrest : m'.rest = m.rest.drop (IOStream.toRead size))
    (hnext : m'.pOffset = m.pOffset + (m.rest.take (IOStream.toRead size)).length)
    (hlow : m.pOffset + IOStream.toRead size < 2 ^ 31) :
    m.rest.take (m.copyable size) = m.rest.take (IOStream.toRead size)
      ++ m'.rest.take (m'.copyable (size - (m.rest.take (IOStream.toRead size)).length)) := by
  have hmin := toRead_eq size
  have hlen := m.length_rest
  have hoffset := m.offset_le
  rw [hrest]
  rcases Nat.lt_or_ge m.rest.length (IOStream.toRead size) with hshort | hfull
  · -- the stream ended in this buffer
    have hlt := m.size_lt
    have hcopyable : m.rest.length ≤ m.copyable size := by
      unfold copyable IOStream.copyBufferSize
      split <;> omega
    rw [List.take_of_length_le hcopyable, List.drop_eq_nil_of_le (by omega), List.take_nil,
      List.append_nil, List.take_of_length_le (by omega)]
  · have hcopyable : m.copyable size
        = IOStream.toRead size + m'.copyable (size - IOStream.toRead size) := by
      unfold copyable IOStream.copyBufferSize
      rw [hnext, List.length_take, Nat.min_eq_left hfull]
      split_ifs <;> omega
    rw [List.length_take, Nat.min_eq_left hfull, hcopyable, List.take_add]

/-- The loop copies what is left of the stream, up to `copyable size` bytes. -/
theorem copyLoop_delivers {write : WriteMethod τ} {received : τ → Bytes}
    (hsink : AcceptsAll write received) {turns size total : ℕ} (m : MemoryStream) (output : τ)
    (htotal : total + size < 2 ^ 32) (hturns : size < turns) :
    ∃ m' output', IOStream.copyLoop read write turns size total m output
        = some (total + (m.rest.take (m.copyable size)).length, m', output') ∧
      received output' = received output ++ m.rest.take (m.copyable size) := by
  induction turns generalizing size total m output with
  | zero => omega
  | succ turns ih =>
      have ht := IOStream.toNat_toRead size
      have hle := IOStream.toRead_le size
      have hmin := toRead_eq size
      have hlen := m.length_rest
      have hoffset := m.offset_le
      by_cases hlow : m.pOffset + IOStream.toRead size < 2 ^ 31
      · obtain ⟨hdata, hrest, hnext, hsame⟩ :=
          m.read_of_lt (n := .ofNat (IOStream.toRead size)) (by rw [ht]; exact hlow)
        rcases hread : m.read (.ofNat (IOStream.toRead size)) with ⟨buf, m'⟩
        rw [hread, ht] at hdata hrest hnext
        simp only at hdata hrest hnext
        have hbuf := congrArg List.length hdata
        rw [List.length_take] at hbuf
        rw [IOStream.copyLoop_turn hsink htotal hread (by omega)]
        split_ifs with hnil hall
        · -- nothing was asked for, or nothing is left
          have htake : m.rest.take (m.copyable size) = [] := by
            rw [hnil, List.length_nil] at hbuf
            rcases Nat.eq_zero_or_pos size with hzero | hpos
            · rw [copyable_of_lt (by omega), hzero, List.take_zero]
            · rw [List.length_eq_zero_iff.1 (by omega : m.rest.length = 0), List.take_nil]
          exact ⟨m', output, by rw [htake]; rfl, by rw [htake, List.append_nil]⟩
        · have hcopyable : m.copyable size = IOStream.toRead size := by
            rw [copyable_of_lt (by omega)]
            omega
          refine ⟨m', _, by rw [hcopyable, ← hdata, hall], ?_⟩
          rw [hcopyable, ← hdata, hsink.received output buf (by omega)]
        · have hpos := List.length_pos_iff.2 hnil
          have hless : total + buf.length + (size - buf.length) < 2 ^ 32 := by omega
          obtain ⟨m'', output'', hloop, hreceived⟩ := ih m' (write output buf).2 hless (by omega)
          have htake := take_copyable_turn hrest hnext hlow
          rw [← hdata] at htake
          refine ⟨m'', output'', ?_, ?_⟩
          · rw [hloop, htake, List.length_append, Nat.add_assoc]
          · rw [hreceived, hsink.received output buf (by omega), htake, List.append_assoc]
      · have hread := m.read_of_ge (n := .ofNat (IOStream.toRead size)) (by rw [ht]; omega)
          (by rw [ht]; omega)
        rw [IOStream.copyLoop_turn hsink htotal hread (by simp), if_pos rfl,
          copyable_eq_zero (by omega) (by omega), List.take_zero, List.append_nil]
        exact ⟨_, output, rfl, rfl⟩

/-- `CopyTo` writes what is left of the stream, up to `size` bytes. -/
theorem copyTo_delivers (m : MemoryStream) {write : WriteMethod τ} {received : τ → Bytes}
    (hsink : AcceptsAll write received) (output : τ) {size : ℕ} (hsize : size < 2 ^ 32) :
    Delivered received output (m.rest.take size) (m.copyTo write output size) := by
  have hlt := m.size_lt
  have hleft : (m.pSize - m.pOffset) % 2 ^ 32 = m.pSize - m.pOffset := Nat.mod_eq_of_lt (by omega)
  have hlen : (m.rest.take size).length < 2 ^ 32 := by
    rw [List.length_take]
    omega
  rw [copyTo, hleft, ← take_rest]
  exact ⟨hsink.count output _ hlen, hsink.received output _ hlen⟩

end MemoryStream

/-! ## When they agree -/

/-- All of the copies deliver what is left of the stream, up to `size` bytes, and nothing else: the
generic one and the own one of a `DynamicMemoryStream`, the generic one and the own one of a
`MemoryStream`. -/
structure CopiesAgree (write : WriteMethod τ) (received : τ → Bytes) (output : τ) (size turns : ℕ)
    (s : DynamicMemoryStream) (m : MemoryStream) : Prop where
  generic : ∃ count s' output', IOStream.copyTo (fun s n => s.read n.toNat) write turns s output size
      = some (count, s', output') ∧
    Delivered received output (s.rest.take size) (count, output')
  dynamicMemory : Delivered received output (s.rest.take size) (s.copyTo write output size)
  genericMemory : ∃ count m' output', IOStream.copyTo MemoryStream.read write turns m output size
      = some (count, m', output') ∧
    Delivered received output (m.rest.take size) (count, output')
  memory : Delivered received output (m.rest.take size) (m.copyTo write output size)

/-- Two runs that end the same way delivered the same. -/
theorem delivered_iff {received : τ → Bytes} {output : τ} {r : ℕ × τ} {x y : Bytes}
    (h : Delivered received output x r) : Delivered received output y r ↔ x = y := by
  constructor
  · intro h'
    exact List.append_cancel_left (h.2.symm.trans h'.2)
  · rintro rfl
    exact h

/-- The generic copy of a `DynamicMemoryStream` sees 32 bits of the number of bytes that are left. -/
theorem take_readable_iff (s : DynamicMemoryStream) (size : ℕ) :
    s.readable.take size = s.rest.take size ↔
      s.pSize - s.pOffset < 2 ^ 32 ∨ size ≤ (s.pSize - s.pOffset) % 2 ^ 32 := by
  rw [DynamicMemoryStream.readable, List.take_take, List.take_eq_take_iff, s.length_rest]
  omega

/-- Its own copy sees the blocks to their end. -/
theorem take_blocks_iff (s : DynamicMemoryStream) (size : ℕ) :
    (s.memoryStorage.bytes.drop s.pOffset).take size = s.rest.take size ↔
      size ≤ s.pSize - s.pOffset ∨ s.pSize = s.memoryStorage.capacity := by
  have hoffset := s.offset_le
  have hsize := s.size_le
  have hlen := s.memoryStorage.length_bytes
  rw [DynamicMemoryStream.rest, DynamicMemoryStream.content, List.drop_take, List.take_take,
    List.take_eq_take_iff, List.length_drop, hlen]
  omega

/-- The generic copy of a `MemoryStream` stops before 2 ^ 31. -/
theorem take_copyable_iff (m : MemoryStream) (size : ℕ) :
    m.rest.take (m.copyable size) = m.rest.take size ↔
      m.pOffset + size < 2 ^ 31 ∨ m.pSize ≤ m.pOffset + IOStream.copyBufferSize
        * ((2 ^ 31 - 1 - m.pOffset) / IOStream.copyBufferSize) := by
  have hoffset := m.offset_le
  have hlt := m.size_lt
  rw [List.take_eq_take_iff, m.length_rest]
  unfold MemoryStream.copyable IOStream.copyBufferSize
  split <;> omega

/-- **When the copies agree.** A `DynamicMemoryStream` copies itself rightly only within its size, or
if its last block is full. The generic copy is right within the widths that `Read` computes with:
`uint32` for what a `DynamicMemoryStream` has left, `INT_MAX` for where a `MemoryStream` reads to. A
`MemoryStream` always copies itself rightly. -/
theorem copiesAgree_iff {write : WriteMethod τ} {received : τ → Bytes}
    (hsink : AcceptsAll write received) (output : τ) (s : DynamicMemoryStream) (m : MemoryStream)
    {size turns : ℕ} (hsize : size < 2 ^ 32) (hturns : size < turns) :
    CopiesAgree write received output size turns s m ↔
      (size ≤ s.pSize - s.pOffset ∨ s.pSize = s.memoryStorage.capacity) ∧
      (s.pSize - s.pOffset < 2 ^ 32 ∨ size ≤ (s.pSize - s.pOffset) % 2 ^ 32) ∧
      (m.pOffset + size < 2 ^ 31 ∨ m.pSize ≤ m.pOffset + IOStream.copyBufferSize
        * ((2 ^ 31 - 1 - m.pOffset) / IOStream.copyBufferSize)) := by
  have htotal : 0 + size < 2 ^ 32 := by omega
  obtain ⟨s', output₁, hgeneric, hreceived₁⟩ :=
    IOStream.copyLoop_delivers DynamicMemoryStream.source hsink s output htotal hturns
  obtain ⟨m', output₂, hmemory, hreceived₂⟩ :=
    MemoryStream.copyLoop_delivers hsink m output htotal hturns
  rw [Nat.zero_add] at hgeneric hmemory
  rw [← take_blocks_iff, ← take_readable_iff, ← take_copyable_iff]
  constructor
  · rintro ⟨⟨count₁, t, out₁, hrun₁, hdelivered₁⟩, hblocks, ⟨count₂, t', out₂, hrun₂, hdelivered₂⟩, -⟩
    cases hrun₁.symm.trans hgeneric
    cases hrun₂.symm.trans hmemory
    exact ⟨(delivered_iff (s.copyTo_delivers hsink output hsize)).1 hblocks,
      (delivered_iff ⟨rfl, hreceived₁⟩).1 hdelivered₁, (delivered_iff ⟨rfl, hreceived₂⟩).1 hdelivered₂⟩
  · rintro ⟨hblocks, hreadable, hcopyable⟩
    exact ⟨⟨_, s', output₁, hgeneric, (delivered_iff ⟨rfl, hreceived₁⟩).2 hreadable⟩,
      (delivered_iff (s.copyTo_delivers hsink output hsize)).2 hblocks,
      ⟨_, m', output₂, hmemory, (delivered_iff ⟨rfl, hreceived₂⟩).2 hcopyable⟩,
      m.copyTo_delivers hsink output hsize⟩

/-! ### Three bytes in blocks of two -/

/-- A sink that keeps what it is given. -/
def collect : WriteMethod Bytes := fun output data => (data.length, output ++ data)

theorem acceptsAll_collect : AcceptsAll collect id :=
  ⟨fun _ _ _ => rfl, fun _ _ _ => rfl⟩

def threeBytes : DynamicMemoryStream :=
  (((DynamicMemoryStream.new 2 (by decide)).write [1, 2, 3]).2.seek 0 .set).2

theorem copiesAgree_threeBytes :
    CopiesAgree collect id [] 3 4 threeBytes (.new [1, 2, 3] 3 false (by decide)) :=
  (copiesAgree_iff acceptsAll_collect [] threeBytes (.new [1, 2, 3] 3 false (by decide))
    (by decide) (by decide)).2 (by decide +kernel)

/-- One byte too many is asked for, and one too many is delivered. -/
theorem not_copiesAgree_threeBytes :
    ¬ CopiesAgree collect id [] 4 5 threeBytes (.new [1, 2, 3] 3 false (by decide)) :=
  fun h => absurd h.dynamicMemory.1 (by decide +kernel)

end ImageProxy
