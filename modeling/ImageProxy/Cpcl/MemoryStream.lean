import ImageProxy.Cpcl.IoStream

set_option autoImplicit false

/-! # Streams over a chunk of memory (`memory_stream.h`, `memory_stream.cpp`)

A `MemoryStream` reads the memory it was given in place. Its size and cursor are `int32`, so it has
fewer than 2 ^ 31 bytes; `Read` adds the size it is asked for to the cursor and drops the sign bit. -/

namespace ImageProxy

/-- `MemoryStream`: `p` are the bytes of the memory. -/
structure MemoryStream where
  state : Bool
  p : Bytes
  pSize : ℕ
  pOffset : ℕ
  throwEofWrite : Bool
  offset_le : pOffset ≤ pSize
  size_le : pSize ≤ p.length
  size_lt : pSize < 2 ^ 31

namespace MemoryStream

/-- `MemoryStream::MemoryStream(p, p_size, throw_eof_write)`: the size is cut to `INT_MAX`. -/
def new (p : Bytes) (pSize : ℕ) (throwEofWrite : Bool) (h : pSize ≤ p.length) : MemoryStream where
  state := true
  p := p
  pSize := pSize % 2 ^ 31
  pOffset := 0
  throwEofWrite := throwEofWrite
  offset_le := Nat.zero_le _
  size_le := Nat.le_trans (Nat.mod_le _ _) h
  size_lt := Nat.mod_lt _ (by decide)

/-- The bytes of the stream. -/
def content (m : MemoryStream) : Bytes := m.p.take m.pSize

/-- `MemoryStream::Read`. -/
def read (m : MemoryStream) (size : UInt32) : Bytes × MemoryStream :=
  let pOffset := (m.pOffset + size.toNat) % 2 ^ 31
  if pOffset < m.pOffset then ([], { m with state := false })
  else
    let r := min m.pSize pOffset - m.pOffset
    if r > 0 then
      ((m.p.drop m.pOffset).take r, { m with
        state := true
        pOffset := m.pOffset + r
        offset_le := by
          have hle := m.offset_le
          omega })
    else ([], m)

/-- `MemoryStream::Tell`. -/
def tell (m : MemoryStream) : ℤ := m.pOffset

/-- `MemoryStream::Size`. -/
def size (m : MemoryStream) : ℤ := m.pSize

/-- `MemoryStream::CopyTo`. -/
def copyTo {τ : Type} (m : MemoryStream) (write : WriteMethod τ) (output : τ) (size : ℕ) : ℕ × τ :=
  write output ((m.p.drop m.pOffset).take (min size ((m.pSize - m.pOffset) % 2 ^ 32)))

theorem length_content (m : MemoryStream) : m.content.length = m.pSize := by
  rw [content, List.length_take, Nat.min_eq_left m.size_le]

/-- What is left from the cursor on. -/
def rest (m : MemoryStream) : Bytes := m.content.drop m.pOffset

theorem length_rest (m : MemoryStream) : m.rest.length = m.pSize - m.pOffset := by
  rw [rest, List.length_drop, length_content]

theorem take_rest (m : MemoryStream) (n : ℕ) :
    m.rest.take n = (m.p.drop m.pOffset).take (min n (m.pSize - m.pOffset)) := by
  rw [rest, content, List.drop_take, List.take_take]

/-- A read that stays below 2 ^ 31 reads what is left, up to the requested size. -/
theorem read_of_lt {m : MemoryStream} {n : UInt32} (h : m.pOffset + n.toNat < 2 ^ 31) :
    (m.read n).1 = m.rest.take n.toNat ∧ (m.read n).2.rest = m.rest.drop n.toNat ∧
      (m.read n).2.pOffset = m.pOffset + (m.rest.take n.toNat).length ∧
      (m.read n).2.pSize = m.pSize := by
  have hle := m.offset_le
  have hlen := m.length_rest
  have hr : min m.pSize (m.pOffset + n.toNat) - m.pOffset = min n.toNat (m.pSize - m.pOffset) := by
    omega
  simp only [read, Nat.mod_eq_of_lt h, if_neg (Nat.not_lt.2 (Nat.le_add_right m.pOffset n.toNat)),
    hr]
  split
  · refine ⟨(m.take_rest _).symm, ?_, ?_, rfl⟩
    · show (m.p.take m.pSize).drop (m.pOffset + min n.toNat (m.pSize - m.pOffset)) = _
      rw [← List.drop_drop]
      show m.rest.drop _ = _
      rcases Nat.le_total n.toNat (m.pSize - m.pOffset) with hn | hn
      · rw [Nat.min_eq_left hn]
      · rw [Nat.min_eq_right hn, List.drop_eq_nil_of_le (by omega), List.drop_eq_nil_of_le (by omega)]
    · rw [List.length_take, hlen]
  · next hzero =>
      have hnone : m.rest.take n.toNat = [] := by
        rw [m.take_rest, Nat.eq_zero_of_not_pos hzero, List.take_zero]
      refine ⟨hnone.symm, ?_, by rw [hnone]; rfl, rfl⟩
      show m.rest = _
      conv_lhs => rw [← List.take_append_drop n.toNat m.rest, hnone, List.nil_append]

/-- A read past 2 ^ 31 reads nothing. -/
theorem read_of_ge {m : MemoryStream} {n : UInt32} (h : 2 ^ 31 ≤ m.pOffset + n.toNat)
    (hn : n.toNat < 2 ^ 31) : m.read n = ([], { m with state := false }) := by
  have hlt := m.size_lt
  have hle := m.offset_le
  have hmod : (m.pOffset + n.toNat) % 2 ^ 31 = m.pOffset + n.toNat - 2 ^ 31 := by
    rw [Nat.mod_eq_sub_mod h, Nat.mod_eq_of_lt (by omega)]
  simp only [read, hmod, if_pos (by omega : m.pOffset + n.toNat - 2 ^ 31 < m.pOffset)]

end MemoryStream

end ImageProxy
