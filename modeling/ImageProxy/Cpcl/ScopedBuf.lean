import ImageProxy.Library.Ascii
import ImageProxy.Library.Memory

set_option autoImplicit false

/-! # A buffer that grows (`scoped_buf.hpp`)

`Alloc` takes a new block only if the one it has is too small: otherwise the bytes of the last use
stay where they are. -/

namespace ImageProxy

/-- `ScopedBuf<unsigned char, 0>` with its own block. -/
structure ScopedBuf where
  p : Memory UInt8
  size : ℕ
  capacity : ℕ

namespace ScopedBuf

/-- `ScopedBuf()`. -/
def empty (p : Memory UInt8) : ScopedBuf := ⟨p, 0, 0⟩

/-- `Alloc`. `fresh` is what `new` leaves in the block. -/
def alloc (fresh : Memory UInt8) (v : ℕ) (buf : ScopedBuf) : ScopedBuf :=
  if buf.capacity < v then ⟨fresh, v, v⟩ else { buf with size := v }

/-- `Data`, the offset 0; `none` if the check ends the process. -/
def data (buf : ScopedBuf) : Option ℕ :=
  if buf.size = 0 then none else some 0

/-- What a caller stores at an offset; `none` if it does not fit. -/
def store (off : ℕ) (bytes : Bytes) (buf : ScopedBuf) : Option ScopedBuf :=
  if off + bytes.length ≤ buf.size then some { buf with p := buf.p.write off bytes } else none

@[simp] theorem size_alloc (fresh : Memory UInt8) (v : ℕ) (buf : ScopedBuf) :
    (buf.alloc fresh v).size = v := by
  unfold alloc
  split <;> rfl

theorem data_of_pos {buf : ScopedBuf} (h : 0 < buf.size) : buf.data = some 0 :=
  if_neg (Nat.ne_of_gt h)

theorem eq_zero_of_data {buf : ScopedBuf} {p : ℕ} (h : buf.data = some p) : p = 0 := by
  unfold data at h
  split at h
  · exact absurd h (by simp)
  · exact (Option.some.inj h).symm

theorem store_of_le {buf : ScopedBuf} {off : ℕ} {bytes : Bytes}
    (h : off + bytes.length ≤ buf.size) :
    buf.store off bytes = some { buf with p := buf.p.write off bytes } :=
  if_pos h

theorem size_of_store {buf buf' : ScopedBuf} {off : ℕ} {bytes : Bytes}
    (h : buf.store off bytes = some buf') : buf'.size = buf.size := by
  unfold store at h
  split at h
  · cases h
    rfl
  · exact absurd h (by simp)

end ScopedBuf

/-! ## With a buffer inside -/

/-- `ScopedBuf<T, Count>` with its own blocks: `buf` is inside of it, `p` is the block it has taken,
if any. -/
structure StaticScopedBuf (T : Type) (Count : ℕ) where
  buf : Memory T
  p : Option (Memory T)
  pSize : ℕ
  pCapacity : ℕ
  size_le : pSize ≤ pCapacity
  count_le : Count ≤ pCapacity
  capacity_eq : p = none → pCapacity = Count

namespace StaticScopedBuf

variable {T : Type} {Count : ℕ}

/-- `ScopedBuf()`. -/
def empty (buf : Memory T) : StaticScopedBuf T Count where
  buf := buf
  p := none
  pSize := 0
  pCapacity := Count
  size_le := Nat.zero_le _
  count_le := Nat.le_refl _
  capacity_eq _ := rfl

/-- `Alloc` before it returns `Data()`. `fresh` is what `new` leaves in the block. -/
def reserve (fresh : Memory T) (v : ℕ) (b : StaticScopedBuf T Count) : StaticScopedBuf T Count :=
  if hless : b.pCapacity < v then
    -- `Count` is no more than `p_capacity`, so that `v > Count` holds behind `Release`
    { buf := b.buf
      p := some fresh
      pSize := v
      pCapacity := v
      size_le := Nat.le_refl _
      count_le := Nat.le_trans b.count_le (Nat.le_of_lt hless)
      capacity_eq := fun h => absurd h (by simp) }
  else { b with pSize := v, size_le := Nat.not_lt.1 hless }

/-- `Data`, the block in use; `none` if the check ends the process. -/
def data (b : StaticScopedBuf T Count) : Option (Memory T) :=
  if b.pSize = 0 then none else some (b.p.getD b.buf)

/-- `Alloc`. -/
def alloc (fresh : Memory T) (v : ℕ) (b : StaticScopedBuf T Count) :
    Option (StaticScopedBuf T Count) :=
  (b.reserve fresh v).data.map fun _ => b.reserve fresh v

/-- What a caller stores at an offset from `Data()`; `none` if it does not fit. -/
def store (off : ℕ) (cells : List T) (b : StaticScopedBuf T Count) :
    Option (StaticScopedBuf T Count) :=
  if off + cells.length ≤ b.pSize then
    some (match b.p with
      | none => { b with buf := b.buf.write off cells }
      | some p => { b with
          p := some (p.write off cells), capacity_eq := fun h => absurd h (by simp) })
  else none

/-- The first `n` elements from `Data()` on; `none` if the buffer has not so many. -/
def load (n : ℕ) (b : StaticScopedBuf T Count) : Option (List T) :=
  if n ≤ b.pSize then b.data.map fun p => p.read 0 n else none

@[simp] theorem pSize_reserve (fresh : Memory T) (v : ℕ) (b : StaticScopedBuf T Count) :
    (b.reserve fresh v).pSize = v := by
  unfold reserve
  split <;> rfl

/-- Nothing can be allocated with no size. -/
theorem alloc_zero (fresh : Memory T) (b : StaticScopedBuf T Count) : b.alloc fresh 0 = none := by
  rw [alloc, data, pSize_reserve, if_pos rfl, Option.map_none]

theorem alloc_of_pos (fresh : Memory T) {v : ℕ} (hv : 0 < v) (b : StaticScopedBuf T Count) :
    b.alloc fresh v = some (b.reserve fresh v) := by
  rw [alloc, data, pSize_reserve, if_neg (Nat.ne_of_gt hv), Option.map_some]

theorem exists_data {b : StaticScopedBuf T Count} (h : 0 < b.pSize) : ∃ m, b.data = some m :=
  ⟨_, if_neg (Nat.ne_of_gt h)⟩

/-- What fits is stored in the block in use. -/
theorem exists_store {off : ℕ} {cells : List T} {b : StaticScopedBuf T Count} {m : Memory T}
    (hdata : b.data = some m) (hfits : off + cells.length ≤ b.pSize) :
    ∃ b', b.store off cells = some b' ∧ b'.pSize = b.pSize ∧ b'.data = some (m.write off cells) := by
  have hpos : b.pSize ≠ 0 := by
    intro hzero
    rw [data, if_pos hzero] at hdata
    exact absurd hdata (by simp)
  rw [data, if_neg hpos] at hdata
  rw [store, if_pos hfits]
  refine ⟨_, rfl, ?_, ?_⟩
  · split <;> rfl
  · split
    · next hp =>
        rw [hp] at hdata
        cases hdata
        simp only [data, if_neg hpos, hp, Option.getD_none]
    · next p hp =>
        rw [hp] at hdata
        cases hdata
        exact if_neg hpos

theorem load_of_le {n : ℕ} {b : StaticScopedBuf T Count} {m : Memory T} (hdata : b.data = some m)
    (h : n ≤ b.pSize) : b.load n = some (m.read 0 n) := by
  rw [load, if_pos h, hdata, Option.map_some]

end StaticScopedBuf

end ImageProxy
