import Mathlib.Data.List.Basic
import Mathlib.Data.Int.Notation
import ImageProxy.Library.Ascii

set_option autoImplicit false

/-! # The in-memory stream (`dynamic_memory_stream.h`, `dynamic_memory_stream.cpp`)

A `DynamicMemoryStream` keeps its bytes in blocks of `N` bytes. `p_size` says how many of them are
the stream's, `p_offset` is the cursor; writing is possible only with the cursor at the end.

A fresh block is filled with zeros here. In the source its bytes are whatever the allocator left,
and no operation reads a byte that was not written before: the stream never looks past `p_size`.
The sizes of `Read` and `Write` are `uint32`, so both cut what they are given to 32 bits. -/

namespace ImageProxy

/-! ## The block storage -/

/-- `DynamicMemoryStream::MemoryStorage`: the block size `N` and the blocks, all of this size. -/
structure MemoryStorage where
  N : ℕ
  blocks : List Bytes
  N_pos : 0 < N
  length_block : ∀ b ∈ blocks, b.length = N

namespace MemoryStorage

/-- The loop of `MemoryStorage::Read` over the blocks from `Block(offset)` on. -/
def readBlocks (N : ℕ) : (pad size : ℕ) → List Bytes → Bytes
  | _, _, [] => []
  | pad, size, block :: blocks =>
      let n := min (N - pad) size
      let readed := (block.drop pad).take n
      if size - n = 0 then readed else readed ++ readBlocks N 0 (size - n) blocks

/-- The first loop of `MemoryStorage::Write`: the blocks with `data` copied over them from `pad` on,
and the part of `data` that did not fit. -/
def writeBlocks (N : ℕ) : (pad : ℕ) → Bytes → List Bytes → List Bytes × Bytes
  | _, data, [] => ([], data)
  | pad, data, block :: blocks =>
      let n := min (N - pad) data.length
      let block' := block.take pad ++ data.take n ++ block.drop (pad + n)
      if data.length - n = 0 then (block' :: blocks, [])
      else
        let (blocks', rest) := writeBlocks N 0 (data.drop n) blocks
        (block' :: blocks', rest)

/-- The second loop of `MemoryStorage::Write`: new blocks for `data`. Each turn takes at least one
byte, so the number of bytes bounds the number of turns. -/
def newBlocks (N : ℕ) : (turns : ℕ) → Bytes → List Bytes
  | 0, _ => []
  | turns + 1, data =>
      if data.isEmpty then []
      else
        let n := min N data.length
        (data.take n ++ List.replicate (N - n) 0) :: newBlocks N turns (data.drop n)

/-- The bytes the blocks have room for. -/
def capacity (m : MemoryStorage) : ℕ := m.blocks.length * m.N

/-- All bytes of the blocks in order. -/
def bytes (m : MemoryStorage) : Bytes := m.blocks.flatten

/-- `MemoryStorage::Read`. -/
def read (m : MemoryStorage) (offset size : ℕ) : Bytes :=
  readBlocks m.N (offset % m.N) size (m.blocks.drop (offset / m.N))

/-! ### Blocks as one string of bytes -/

theorem length_flatten {N : ℕ} {bs : List Bytes} (h : ∀ b ∈ bs, b.length = N) :
    bs.flatten.length = bs.length * N := by
  induction bs with
  | nil => simp
  | cons b bs ih =>
      have hb : b.length = N := h b (by simp)
      have hbs := ih fun b' hb' => h b' (by simp [hb'])
      simp only [List.flatten_cons, List.length_append, List.length_cons, hb, hbs]
      rw [Nat.succ_mul, Nat.add_comm]

theorem flatten_drop {N : ℕ} {bs : List Bytes} (h : ∀ b ∈ bs, b.length = N) (i : ℕ) :
    (bs.drop i).flatten = bs.flatten.drop (i * N) := by
  induction bs generalizing i with
  | nil => simp
  | cons b bs ih =>
      cases i with
      | zero => simp
      | succ i =>
          have hb : b.length = N := h b (by simp)
          have hle : N ≤ (i + 1) * N := Nat.le_mul_of_pos_left N (by omega)
          have hfirst : b.drop ((i + 1) * N) = [] := List.drop_eq_nil_of_le (by omega)
          rw [List.drop_succ_cons, ih (fun b' hb' => h b' (by simp [hb'])) i, List.flatten_cons,
            List.drop_append, hfirst, hb, List.nil_append, Nat.succ_mul, Nat.add_sub_cancel]

theorem flatten_take {N : ℕ} {bs : List Bytes} (h : ∀ b ∈ bs, b.length = N) (i : ℕ) :
    (bs.take i).flatten = bs.flatten.take (i * N) := by
  induction bs generalizing i with
  | nil => simp
  | cons b bs ih =>
      cases i with
      | zero => simp
      | succ i =>
          have hb : b.length = N := h b (by simp)
          have hle : N ≤ (i + 1) * N := Nat.le_mul_of_pos_left N (by omega)
          have hfirst : b.take ((i + 1) * N) = b := List.take_of_length_le (by omega)
          rw [List.take_succ_cons, List.flatten_cons, ih (fun b' hb' => h b' (by simp [hb'])) i,
            List.flatten_cons, List.take_append, hfirst, hb, Nat.succ_mul, Nat.add_sub_cancel]

/-- Reading block by block is reading from the flat string. -/
theorem readBlocks_eq {N : ℕ} {bs : List Bytes} (h : ∀ b ∈ bs, b.length = N) (pad size : ℕ)
    (hpad : pad ≤ N) : readBlocks N pad size bs = (bs.flatten.drop pad).take size := by
  induction bs generalizing pad size with
  | nil => simp [readBlocks]
  | cons b bs ih =>
      have hb : b.length = N := h b (by simp)
      have htail := ih (fun b' hb' => h b' (by simp [hb']))
      have hdrop : (b ++ bs.flatten).drop pad = b.drop pad ++ bs.flatten :=
        List.drop_append_of_le_length (by omega)
      simp only [readBlocks, List.flatten_cons, hdrop]
      split
      · next hdone =>
          have hsize : size ≤ (b.drop pad).length := by
            rw [List.length_drop]
            omega
          rw [List.take_append_of_le_length hsize, Nat.min_eq_right (by omega)]
      · next hmore =>
          have hlen : (b.drop pad).length = N - pad := by rw [List.length_drop, hb]
          rw [htail 0 _ (Nat.zero_le _), List.drop_zero, Nat.min_eq_left (by omega),
            List.take_append, hlen, List.take_of_length_le (i := N - pad) (by omega),
            List.take_of_length_le (i := size) (by omega)]

theorem read_eq (m : MemoryStorage) (offset size : ℕ) :
    m.read offset size = (m.bytes.drop offset).take size := by
  have hdrop : ∀ b ∈ m.blocks.drop (offset / m.N), b.length = m.N :=
    fun b hb => m.length_block b (List.mem_of_mem_drop hb)
  rw [read, readBlocks_eq hdrop _ _ (Nat.le_of_lt (Nat.mod_lt _ m.N_pos)),
    flatten_drop m.length_block, List.drop_drop, bytes, Nat.mul_comm, Nat.div_add_mod]

theorem length_read_le (m : MemoryStorage) (offset size : ℕ) : (m.read offset size).length ≤ size := by
  rw [read_eq]
  exact List.length_take_le _ _

/-- What the first loop of `Write` leaves: `data` over the bytes from `pad` on, as far as the blocks
go, and the rest of it. -/
theorem writeBlocks_eq {N : ℕ} {bs : List Bytes} (h : ∀ b ∈ bs, b.length = N) (pad : ℕ)
    (data : Bytes) (hpad : pad ≤ N) (hne : bs ≠ [] ∨ pad = 0) :
    ((writeBlocks N pad data bs).1.flatten = bs.flatten.take pad
        ++ data.take (bs.flatten.length - pad) ++ bs.flatten.drop (pad + data.length)) ∧
      (writeBlocks N pad data bs).2 = data.drop (bs.flatten.length - pad) ∧
      (∀ b ∈ (writeBlocks N pad data bs).1, b.length = N) ∧
      (writeBlocks N pad data bs).1.length = bs.length := by
  induction bs generalizing pad data with
  | nil => simp [writeBlocks]
  | cons b bs ih =>
      have hb : b.length = N := h b (by simp)
      have hbs : ∀ b' ∈ bs, b'.length = N := fun b' hb' => h b' (by simp [hb'])
      have hlen := length_flatten hbs
      have htake : (b ++ bs.flatten).take pad = b.take pad :=
        List.take_append_of_le_length (by omega)
      simp only [writeBlocks, List.flatten_cons, htake, List.length_append, hb]
      split
      · next hdone =>
          have hn : min (N - pad) data.length = data.length := by omega
          simp only [hn, List.take_length]
          refine ⟨?_, ?_, ?_, by simp⟩
          · have hall : data.take (N + bs.flatten.length - pad) = data :=
              List.take_of_length_le (by omega)
            have hend : (b ++ bs.flatten).drop (pad + data.length)
                = b.drop (pad + data.length) ++ bs.flatten :=
              List.drop_append_of_le_length (by omega)
            rw [hall, hend]
            simp only [List.flatten_cons, List.append_assoc]
          · rw [List.drop_eq_nil_of_le (by omega)]
          · intro b' hb'
            rcases List.mem_cons.1 hb' with rfl | hb'
            · simp only [List.length_append, List.length_take, List.length_drop]
              omega
            · exact hbs b' hb'
      · next hmore =>
          have hn : min (N - pad) data.length = N - pad := by omega
          obtain ⟨hflat, hrest, hblocks, hcount⟩ :=
            ih hbs 0 (data.drop (N - pad)) (Nat.zero_le _) (Or.inr rfl)
          simp only [hn]
          refine ⟨?_, ?_, ?_, ?_⟩
          · simp only [List.flatten_cons, hflat, List.take_zero, List.nil_append, Nat.sub_zero,
              Nat.zero_add, List.length_drop]
            have hdrop : ∀ n, N ≤ n → b.drop n = [] := fun n hle =>
              List.drop_eq_nil_of_le (by omega)
            rw [hdrop _ (by omega), List.append_nil, List.drop_append, hdrop _ (by omega),
              List.nil_append, hb]
            have hsplit : data.take (N + bs.flatten.length - pad)
                = data.take (N - pad) ++ (data.drop (N - pad)).take bs.flatten.length := by
              rw [show N + bs.flatten.length - pad = (N - pad) + bs.flatten.length by omega,
                List.take_add]
            rw [hsplit, show pad + data.length - N = data.length - (N - pad) by omega]
            simp [List.append_assoc]
          · rw [hrest, List.drop_drop, Nat.sub_zero]
            congr 1
            omega
          · intro b' hb'
            rcases List.mem_cons.1 hb' with rfl | hb'
            · simp only [List.length_append, List.length_take, List.length_drop]
              omega
            · exact hblocks b' hb'
          · simp [hcount]

/-- The second loop of `Write` stores all of `data`, followed by filler. -/
theorem newBlocks_eq {N : ℕ} (hN : 0 < N) (turns : ℕ) (data : Bytes)
    (hturns : data.length ≤ turns) :
    (newBlocks N turns data).flatten.take data.length = data ∧
      ∀ b ∈ newBlocks N turns data, b.length = N := by
  induction turns generalizing data with
  | zero =>
      have hnil : data = [] := List.length_eq_zero_iff.1 (by omega)
      simp [hnil, newBlocks]
  | succ turns ih =>
      simp only [newBlocks]
      split
      · next hnil => simp [List.isEmpty_iff.1 hnil]
      · next hne =>
          have hpos : 0 < data.length :=
            List.length_pos_iff.2 fun hnil => hne (List.isEmpty_iff.2 hnil)
          obtain ⟨hflat, hblocks⟩ := ih (data.drop (min N data.length)) (by
            rw [List.length_drop]
            omega)
          constructor
          · rcases Nat.lt_or_ge data.length N with hlt | hge
            · rw [Nat.min_eq_right (by omega), List.take_length, List.flatten_cons,
                List.append_assoc, List.take_left]
            · rw [Nat.min_eq_left hge] at hflat ⊢
              rw [List.length_drop] at hflat
              have hlen : (data.take N).length = N := by
                rw [List.length_take]
                omega
              simp only [Nat.sub_self, List.replicate_zero, List.append_nil, List.flatten_cons]
              rw [List.take_append, hlen, List.take_of_length_le (l := data.take N) (by omega),
                hflat, List.take_append_drop]
          · intro b hb
            rcases List.mem_cons.1 hb with rfl | hb
            · simp only [List.length_append, List.length_take, List.length_replicate]
              omega
            · exact hblocks b hb

/-- The blocks at the time of the first loop of `Write`: one more at the exact end of the storage. -/
def grown (m : MemoryStorage) (offset : ℕ) : List Bytes :=
  if m.blocks.length * m.N = offset then m.blocks ++ [List.replicate m.N 0] else m.blocks

theorem length_grown (m : MemoryStorage) (offset : ℕ) : ∀ b ∈ m.grown offset, b.length = m.N := by
  intro b hb
  simp only [grown] at hb
  split at hb
  · rcases List.mem_append.1 hb with hb | hb
    · exact m.length_block b hb
    · rw [List.mem_singleton] at hb
      simp [hb]
  · exact m.length_block b hb

/-- The blocks `MemoryStorage::Write` leaves, and the number of bytes it stored. -/
def written (m : MemoryStorage) (offset : ℕ) (data : Bytes) : ℕ × List Bytes :=
  let blocks := m.grown offset
  let (blocks', rest) := writeBlocks m.N (offset % m.N) data (blocks.drop (offset / m.N))
  if data.length - rest.length = 0 ∧ rest ≠ [] then (0, blocks)
  else (data.length, blocks.take (offset / m.N) ++ blocks' ++ newBlocks m.N rest.length rest)

theorem length_written (m : MemoryStorage) (offset : ℕ) (data : Bytes) :
    ∀ b ∈ (m.written offset data).2, b.length = m.N := by
  have hgrown := m.length_grown offset
  have hdrop : ∀ b ∈ (m.grown offset).drop (offset / m.N), b.length = m.N :=
    fun b hb => hgrown b (List.mem_of_mem_drop hb)
  simp only [written]
  split
  · exact hgrown
  · intro b hb
    simp only [List.mem_append] at hb
    rcases hb with (hb | hb) | hb
    · exact hgrown b (List.mem_of_mem_take hb)
    · cases hcase : (m.grown offset).drop (offset / m.N) with
      | nil => simp [hcase, writeBlocks] at hb
      | cons c cs =>
          have hspec := writeBlocks_eq hdrop (offset % m.N) data
            (Nat.le_of_lt (Nat.mod_lt _ m.N_pos)) (Or.inl (by simp [hcase]))
          exact hspec.2.2.1 b hb
    · exact (newBlocks_eq m.N_pos _ _ (Nat.le_refl _)).2 b hb

/-- `MemoryStorage::Write`. -/
def write (m : MemoryStorage) (offset : ℕ) (data : Bytes) : ℕ × MemoryStorage :=
  ((m.written offset data).1,
    ⟨m.N, (m.written offset data).2, m.N_pos, m.length_written offset data⟩)

theorem length_bytes (m : MemoryStorage) : m.bytes.length = m.capacity :=
  length_flatten m.length_block

theorem take_grown (m : MemoryStorage) (offset : ℕ) (h : offset ≤ m.capacity) :
    (m.grown offset).flatten.take offset = m.bytes.take offset := by
  have hlen := m.length_bytes
  simp only [grown, bytes] at hlen ⊢
  split
  · rw [List.flatten_append, List.take_append_of_le_length (by omega)]
  · rfl

theorem lt_length_grown (m : MemoryStorage) (offset : ℕ) (h : offset ≤ m.capacity) :
    offset < (m.grown offset).flatten.length := by
  have hlen := m.length_bytes
  have hpos := m.N_pos
  simp only [grown, bytes, capacity] at h hlen ⊢
  split
  · simp only [List.flatten_append, List.length_append, List.flatten_cons, List.flatten_nil,
      List.length_replicate, List.append_nil]
    omega
  · omega

/-- The blocks at the time of the first loop hold the bytes of the storage, and filler. -/
theorem grown_eq (m : MemoryStorage) (offset : ℕ) :
    ∃ filler, (m.grown offset).flatten = m.bytes ++ filler := by
  unfold grown
  split
  · exact ⟨List.replicate m.N 0, by simp [bytes]⟩
  · exact ⟨[], by simp [bytes]⟩

/-- What both loops of `Write` leave; `room` is what there is from `offset` to the end of the blocks. -/
theorem written_eq (m : MemoryStorage) (offset : ℕ) (data : Bytes) (hne : data ≠ [])
    (h : offset ≤ m.capacity) {room : ℕ} (hroom : room = (m.grown offset).flatten.length - offset) :
    (m.written offset data).1 = data.length ∧
      (m.written offset data).2.flatten = m.bytes.take offset ++ data.take room
        ++ (m.grown offset).flatten.drop (offset + data.length)
        ++ (newBlocks m.N (data.drop room).length (data.drop room)).flatten := by
  have hgrown := m.length_grown offset
  have hlt := m.lt_length_grown offset h
  have hmod := Nat.mod_lt offset m.N_pos
  have hdivmod := Nat.div_add_mod offset m.N
  rw [Nat.mul_comm] at hdivmod
  have hdrop : ∀ b ∈ (m.grown offset).drop (offset / m.N), b.length = m.N :=
    fun b hb => hgrown b (List.mem_of_mem_drop hb)
  have hflat := flatten_drop hgrown (offset / m.N)
  have hblocks : (m.grown offset).drop (offset / m.N) ≠ [] := by
    intro hnil
    rw [hnil] at hflat
    have hlen := congrArg List.length hflat
    simp only [List.flatten_nil, List.length_nil, List.length_drop] at hlen
    omega
  obtain ⟨hw, hrest, -, -⟩ := writeBlocks_eq hdrop (offset % m.N) data (Nat.le_of_lt hmod)
    (Or.inl hblocks)
  have hsame : ((m.grown offset).drop (offset / m.N)).flatten.length - offset % m.N = room := by
    rw [hroom, hflat, List.length_drop]
    omega
  rw [hsame] at hw hrest
  have hpos : 0 < data.length := List.length_pos_iff.2 hne
  have hstored : ¬ (data.length - (data.drop room).length = 0 ∧ data.drop room ≠ []) := by
    rintro ⟨hzero, -⟩
    rw [List.length_drop] at hzero
    omega
  have hresult : m.written offset data = (data.length, (m.grown offset).take (offset / m.N)
      ++ (writeBlocks m.N (offset % m.N) data ((m.grown offset).drop (offset / m.N))).1
      ++ newBlocks m.N (data.drop room).length (data.drop room)) := by
    simp only [written]
    rw [hrest, if_neg hstored]
  have hbefore : (m.grown offset).flatten.take (offset / m.N * m.N)
      ++ ((m.grown offset).drop (offset / m.N)).flatten.take (offset % m.N)
      = m.bytes.take offset := by
    rw [hflat, ← List.take_add, hdivmod, m.take_grown offset h]
  have hbehind : ((m.grown offset).drop (offset / m.N)).flatten.drop (offset % m.N + data.length)
      = (m.grown offset).flatten.drop (offset + data.length) := by
    rw [hflat, List.drop_drop, ← Nat.add_assoc, hdivmod]
  refine ⟨congrArg Prod.fst hresult, ?_⟩
  rw [hresult, List.flatten_append, List.flatten_append, hw, flatten_take hgrown, hbehind, ← hbefore]
  simp only [List.append_assoc]

/-- **A write inside the storage or at its end stores everything**: `data` replaces the bytes from
`offset` on, and every other byte stays where it is. -/
theorem bytes_write (m : MemoryStorage) (offset : ℕ) (data : Bytes) (hne : data ≠ [])
    (h : offset ≤ m.capacity) :
    (m.write offset data).1 = data.length ∧ ∃ filler, (m.write offset data).2.bytes
      = m.bytes.take offset ++ data ++ m.bytes.drop (offset + data.length) ++ filler := by
  obtain ⟨room, hroom⟩ : ∃ room, room = (m.grown offset).flatten.length - offset := ⟨_, rfl⟩
  obtain ⟨hcount, hwritten⟩ := m.written_eq offset data hne h hroom
  refine ⟨hcount, ?_⟩
  have hlt := m.lt_length_grown offset h
  obtain ⟨filler, hfiller⟩ := m.grown_eq offset
  have hlen := congrArg List.length hfiller
  rw [List.length_append] at hlen
  show ∃ filler, (m.written offset data).2.flatten = _
  rcases Nat.lt_or_ge room data.length with hmore | hfits
  · -- the data runs over the last block into new ones
    have hnew := (newBlocks_eq m.N_pos _ (data.drop room) (Nat.le_refl _)).1
    rw [hwritten, List.drop_eq_nil_of_le (by omega : (m.grown offset).flatten.length ≤ _),
      List.drop_eq_nil_of_le (by omega : m.bytes.length ≤ offset + data.length), List.append_nil,
      List.append_nil]
    generalize (newBlocks m.N _ _).flatten = new at hnew ⊢
    refine ⟨new.drop (data.drop room).length, ?_⟩
    conv_lhs => rw [← List.take_append_drop (data.drop room).length new, hnew]
    simp only [← List.append_assoc]
    rw [List.append_assoc (m.bytes.take offset), List.take_append_drop]
  · -- the data ends inside the blocks
    have hnone : data.drop room = [] := List.drop_eq_nil_of_le hfits
    rw [hwritten, hnone, List.take_of_length_le hfits, hfiller, List.drop_append]
    exact ⟨filler.drop (offset + data.length - m.bytes.length), by simp [newBlocks]⟩

/-- The bytes before `offset` stay, and `data` follows them. -/
theorem write_spec (m : MemoryStorage) (offset : ℕ) (data : Bytes) (hne : data ≠ [])
    (h : offset ≤ m.capacity) :
    (m.write offset data).1 = data.length ∧
      (m.write offset data).2.bytes.take (offset + data.length) = m.bytes.take offset ++ data := by
  obtain ⟨hstored, filler, hbytes⟩ := m.bytes_write offset data hne h
  have hlen : (m.bytes.take offset ++ data).length = offset + data.length := by
    rw [List.length_append, List.length_take, m.length_bytes]
    omega
  refine ⟨hstored, ?_⟩
  rw [hbytes, List.append_assoc (_ ++ data), ← hlen, List.take_left]

theorem le_capacity_write (m : MemoryStorage) (offset : ℕ) (data : Bytes) (hne : data ≠ [])
    (h : offset ≤ m.capacity) :
    (m.write offset data).1 + offset ≤ (m.write offset data).2.capacity := by
  obtain ⟨hstored, hbytes⟩ := m.write_spec offset data hne h
  have hlen := congrArg List.length hbytes
  rw [List.length_take, List.length_append, List.length_take, length_bytes, length_bytes] at hlen
  omega

end MemoryStorage

/-! ## The stream -/

/-- `DynamicMemoryStream`. The cursor never leaves the stream, and the storage holds all of it. -/
structure DynamicMemoryStream where
  state : Bool
  memoryStorage : MemoryStorage
  pSize : ℕ
  pOffset : ℕ
  offset_le : pOffset ≤ pSize
  size_le : pSize ≤ memoryStorage.capacity

/-- The `move_method` of `Seek`. -/
inductive SeekMethod where
  | set
  | cur
  | «end»
  | other
deriving DecidableEq, Repr

namespace DynamicMemoryStream

/-- `DynamicMemoryStream::DynamicMemoryStream`. -/
def new (blockSize : ℕ) (h : 0 < blockSize) : DynamicMemoryStream where
  state := true
  memoryStorage := ⟨blockSize, [], h, by simp⟩
  pSize := 0
  pOffset := 0
  offset_le := Nat.le_refl _
  size_le := Nat.zero_le _

/-- The block size a stream has by default. -/
def defaultBlockSize : ℕ := 0x1000

/-- `new DynamicMemoryStream()`. -/
def fresh : DynamicMemoryStream := new defaultBlockSize (by decide)

/-- The bytes of the stream. -/
def content (s : DynamicMemoryStream) : Bytes := s.memoryStorage.bytes.take s.pSize

/-- `DynamicMemoryStream::Read`: the bytes read, and the stream after. -/
def read (s : DynamicMemoryStream) (size : ℕ) : Bytes × DynamicMemoryStream :=
  let size := min (size % 2 ^ 32) ((s.pSize - s.pOffset) % 2 ^ 32)
  if size > 0 then
    let r := s.memoryStorage.read s.pOffset size
    (r, { s with
      state := true
      pOffset := s.pOffset + r.length
      offset_le := by
        have hle : r.length ≤ size := s.memoryStorage.length_read_le s.pOffset size
        have hmod := Nat.mod_le (s.pSize - s.pOffset) (2 ^ 32)
        have hoffset := s.offset_le
        omega })
  else ([], s)

/-- `DynamicMemoryStream::Write`: the number of bytes written, and the stream after. -/
def write (s : DynamicMemoryStream) (data : Bytes) : ℕ × DynamicMemoryStream :=
  let data := data.take (data.length % 2 ^ 32)
  if s.pSize ≠ s.pOffset then (0, { s with state := false })
  else if hne : data ≠ [] then
    let r := s.memoryStorage.write s.pSize data
    (r.1,
      { state := true
        memoryStorage := r.2
        pSize := r.1 + s.pSize
        pOffset := r.1 + s.pSize
        offset_le := Nat.le_refl _
        size_le := s.memoryStorage.le_capacity_write s.pSize data hne s.size_le })
  else (0, s)

/-- `DynamicMemoryStream::Seek`: whether it succeeded, and the stream after. -/
def seek (s : DynamicMemoryStream) (moveTo : ℤ) (moveMethod : SeekMethod) :
    Bool × DynamicMemoryStream :=
  let target : Option ℤ := match moveMethod with
    | .set => some moveTo
    | .cur => some (s.pOffset + moveTo)
    | .«end» => some (s.pSize + moveTo)
    | .other => none
  match target with
  | none => (false, s)
  | some moveTo =>
      if moveTo < 0 then (false, s)
      else if h : moveTo > s.pSize then (false, s)
      else (true, { s with pOffset := moveTo.toNat, offset_le := by omega })

/-- `DynamicMemoryStream::Clear`. The blocks stay, to be written again. -/
def clear (s : DynamicMemoryStream) : DynamicMemoryStream :=
  { s with
    state := true
    pSize := 0
    pOffset := 0
    offset_le := Nat.le_refl _
    size_le := Nat.zero_le _ }

/-- `DynamicMemoryStream::Tell`. -/
def tell (s : DynamicMemoryStream) : ℤ := s.pOffset

/-- `DynamicMemoryStream::Size`. -/
def size (s : DynamicMemoryStream) : ℤ := s.pSize

/-! ### What the operations do to the content -/

theorem length_content (s : DynamicMemoryStream) : s.content.length = s.pSize := by
  have hsize := s.size_le
  rw [content, List.length_take, MemoryStorage.length_bytes]
  omega

@[simp] theorem content_fresh : fresh.content = [] := rfl

@[simp] theorem pOffset_fresh : fresh.pOffset = 0 := rfl

@[simp] theorem pSize_fresh : fresh.pSize = 0 := rfl

@[simp] theorem content_read (s : DynamicMemoryStream) (n : ℕ) :
    (s.read n).2.content = s.content := by
  simp only [read]
  split <;> rfl

@[simp] theorem pSize_read (s : DynamicMemoryStream) (n : ℕ) : (s.read n).2.pSize = s.pSize := by
  simp only [read]
  split <;> rfl

theorem read_fst (s : DynamicMemoryStream) (n : ℕ) :
    (s.read n).1 = s.memoryStorage.read s.pOffset
      (min (n % 2 ^ 32) ((s.pSize - s.pOffset) % 2 ^ 32)) := by
  simp only [read]
  split
  · rfl
  · next hzero =>
      rw [Nat.eq_zero_of_not_pos hzero, MemoryStorage.read_eq]
      rfl

/-- A read returns what is left, up to the requested size, the two numbers being cut to 32 bits. -/
theorem read_content (s : DynamicMemoryStream) (n : ℕ) : (s.read n).1
    = (s.content.drop s.pOffset).take (min (n % 2 ^ 32) ((s.pSize - s.pOffset) % 2 ^ 32)) := by
  have hle := Nat.mod_le (s.pSize - s.pOffset) (2 ^ 32)
  have hmin : min (min (n % 2 ^ 32) ((s.pSize - s.pOffset) % 2 ^ 32)) (s.pSize - s.pOffset)
      = min (n % 2 ^ 32) ((s.pSize - s.pOffset) % 2 ^ 32) := Nat.min_eq_left (by omega)
  rw [read_fst, MemoryStorage.read_eq, content, List.drop_take, List.take_take, hmin]

/-- Below 2 ^ 32 bytes, a read returns what is left, up to the requested size. -/
theorem read_eq (s : DynamicMemoryStream) (n : ℕ) (hn : n < 2 ^ 32) (hsize : s.pSize < 2 ^ 32) :
    (s.read n).1 = (s.content.drop s.pOffset).take n := by
  have hlen : (s.content.drop s.pOffset).length = s.pSize - s.pOffset := by
    rw [List.length_drop, length_content]
  rw [read_content, Nat.mod_eq_of_lt hn, Nat.mod_eq_of_lt (by omega), ← hlen, ← List.take_take,
    List.take_length]

theorem pOffset_read (s : DynamicMemoryStream) (n : ℕ) :
    (s.read n).2.pOffset = s.pOffset + (s.read n).1.length := by
  simp only [read]
  split <;> simp

/-- Writing at the end appends. -/
theorem write_atEnd (s : DynamicMemoryStream) (data : Bytes) (hlen : data.length < 2 ^ 32)
    (h : s.pOffset = s.pSize) :
    (s.write data).1 = data.length ∧ (s.write data).2.content = s.content ++ data ∧
      (s.write data).2.pOffset = (s.write data).2.pSize := by
  have htake : data.take (data.length % 2 ^ 32) = data := by
    rw [Nat.mod_eq_of_lt hlen, List.take_length]
  simp only [write, htake, h, ne_eq, not_true_eq_false, if_false]
  by_cases hne : data = []
  · simp [hne, h]
  · obtain ⟨hstored, hbytes⟩ := s.memoryStorage.write_spec s.pSize data hne s.size_le
    simp only [hne, not_false_eq_true, dif_pos, content, hstored, and_true, true_and]
    rw [Nat.add_comm, hbytes]

/-- Writing elsewhere only clears the flag. -/
theorem write_notAtEnd (s : DynamicMemoryStream) (data : Bytes) (h : s.pOffset ≠ s.pSize) :
    s.write data = (0, { s with state := false }) := by
  simp only [write, if_pos h.symm]

@[simp] theorem content_seek (s : DynamicMemoryStream) (moveTo : ℤ) (moveMethod : SeekMethod) :
    (s.seek moveTo moveMethod).2.content = s.content := by
  cases moveMethod <;> simp only [seek] <;> first | rfl | (split_ifs <;> rfl)

/-- `Seek(0, SEEK_SET)` always succeeds. -/
theorem seek_zero (s : DynamicMemoryStream) :
    s.seek 0 .set = (true, { s with pOffset := 0, offset_le := Nat.zero_le _ }) := by
  have hsize : ¬ (0 : ℤ) > s.pSize := by omega
  simp [seek, hsize]

end DynamicMemoryStream

end ImageProxy
