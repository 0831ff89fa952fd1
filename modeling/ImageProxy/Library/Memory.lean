import Mathlib.Data.List.GetD

set_option autoImplicit false

/-! # A block of memory

A block is a function from offsets to cells, so that a cell nobody has written has a value too. Two
rules are enough for what follows: what is written can be read back, and a write leaves the ranges
that it does not meet as they are. Rows of one length, one behind the other, do not meet. -/

/-- The cells of a block. -/
def Memory (α : Type) : Type := ℕ → α

namespace Memory

variable {α : Type}

/-- `n` cells from `off` on. -/
def read (m : Memory α) (off n : ℕ) : List α :=
  (List.range n).map fun i => m (off + i)

/-- `m` with `cells` from `off` on. -/
def write (m : Memory α) (off : ℕ) (cells : List α) : Memory α :=
  fun i => if off ≤ i then cells.getD (i - off) (m i) else m i

@[simp] theorem length_read (m : Memory α) (off n : ℕ) : (m.read off n).length = n := by
  rw [read, List.length_map, List.length_range]

@[simp] theorem read_zero (m : Memory α) (off : ℕ) : m.read off 0 = [] := rfl

@[simp] theorem write_nil (m : Memory α) (off : ℕ) : m.write off [] = m := by
  funext i
  show (if off ≤ i then [].getD (i - off) (m i) else m i) = m i
  split <;> rfl

theorem read_add (m : Memory α) (off n k : ℕ) :
    m.read off (n + k) = m.read off n ++ m.read (off + n) k := by
  simp only [read, List.range_add, List.map_append, List.map_map, Function.comp_def, Nat.add_assoc]

/-- A part of what was read. -/
theorem take_drop_read (m : Memory α) {off n k l : ℕ} (h : k + l ≤ n) :
    ((m.read off n).drop k).take l = m.read (off + k) l := by
  apply List.ext_getElem
  · rw [List.length_take, List.length_drop, length_read, length_read]
    omega
  · intro i _ _
    simp only [read, List.getElem_take, List.getElem_drop, List.getElem_map, List.getElem_range,
      Nat.add_assoc]

theorem take_read (m : Memory α) (off : ℕ) {n k : ℕ} (h : k ≤ n) :
    (m.read off n).take k = m.read off k := by
  have hfits : 0 + k ≤ n := by omega
  have hpart : ((m.read off n).drop 0).take k = m.read (off + 0) k := m.take_drop_read hfits
  rwa [List.drop_zero, Nat.add_zero] at hpart

theorem read_write_self (m : Memory α) (off : ℕ) (cells : List α) :
    (m.write off cells).read off cells.length = cells := by
  apply List.ext_getElem
  · rw [length_read]
  · intro i _ hi
    simp only [read, write, List.getElem_map, List.getElem_range]
    rw [if_pos (Nat.le_add_right off i), Nat.add_sub_cancel_left]
    exact List.getD_eq_getElem _ _ hi

theorem write_of_outside (m : Memory α) {off p : ℕ} {cells : List α}
    (h : p < off ∨ off + cells.length ≤ p) : m.write off cells p = m p := by
  show (if off ≤ p then cells.getD (p - off) (m p) else m p) = m p
  split
  · -- behind the cells that are written
    exact List.getD_eq_default _ _ (by omega)
  · rfl

theorem read_write_of_disjoint (m : Memory α) {off off' n : ℕ} {cells : List α}
    (h : off' + n ≤ off ∨ off + cells.length ≤ off') :
    (m.write off cells).read off' n = m.read off' n := by
  apply List.map_congr_left
  intro i hi
  have hlt : i < n := List.mem_range.1 hi
  exact m.write_of_outside (by omega)

/-- Two writes, the second behind the first. -/
theorem read_write_write (m : Memory α) (off : ℕ) (cells cells' : List α) :
    ((m.write off cells).write (off + cells.length) cells').read off
      (cells.length + cells'.length) = cells ++ cells' := by
  have hfirst : ((m.write off cells).write (off + cells.length) cells').read off cells.length
      = (m.write off cells).read off cells.length :=
    read_write_of_disjoint _ (.inl (Nat.le_refl _))
  rw [read_add, read_write_self, hfirst, read_write_self]

/-! ## Inside of a range -/

/-- The cells of `[first, last)`; `none` if they are not all in `[lo, hi)`. -/
def readIn (lo hi : ℕ) (m : Memory α) (first last : ℕ) : Option (List α) :=
  if lo ≤ first ∧ first ≤ last ∧ last ≤ hi then some (m.read first (last - first)) else none

/-- `m` with `cells` from `off` on; `none` if they are not all in `[lo, hi)`. -/
def writeIn (lo hi : ℕ) (m : Memory α) (off : ℕ) (cells : List α) : Option (Memory α) :=
  if lo ≤ off ∧ off + cells.length ≤ hi then some (m.write off cells) else none

theorem readIn_of_le {lo hi first n : ℕ} (m : Memory α) (hlo : lo ≤ first) (hhi : first + n ≤ hi) :
    readIn lo hi m first (first + n) = some (m.read first n) := by
  rw [readIn, if_pos ⟨hlo, Nat.le_add_right first n, hhi⟩, Nat.add_sub_cancel_left]

theorem writeIn_of_le {lo hi off : ℕ} (m : Memory α) {cells : List α} (hlo : lo ≤ off)
    (hhi : off + cells.length ≤ hi) : writeIn lo hi m off cells = some (m.write off cells) :=
  if_pos ⟨hlo, hhi⟩

/-! ## Terminated strings -/

/-- A string that ends at `z` is no longer than another one that is read there. -/
theorem length_le_of_terminated {m : Memory α} {off : ℕ} {z : α} {a b : List α}
    (ha : m.read off (a.length + 1) = a ++ [z]) (hb : m.read off (b.length + 1) = b ++ [z])
    (hz : z ∉ b) : b.length ≤ a.length := by
  refine Nat.le_of_not_lt fun hlong => ?_
  have hcut : (m.read off (b.length + 1)).take (a.length + 1) = m.read off (a.length + 1) :=
    m.take_read off (by omega)
  rw [ha, hb, List.take_append_of_le_length (by omega)] at hcut
  have hmem : z ∈ b.take (a.length + 1) := by
    rw [hcut]
    exact List.mem_append_right a (List.mem_singleton.2 rfl)
  exact hz (List.mem_of_mem_take hmem)

/-- At one place there is only one string that ends at `z`. -/
theorem terminated_unique {m : Memory α} {off : ℕ} {z : α} {a b : List α}
    (ha : m.read off (a.length + 1) = a ++ [z]) (hza : z ∉ a)
    (hb : m.read off (b.length + 1) = b ++ [z]) (hzb : z ∉ b) : a = b := by
  have hlen : a.length = b.length :=
    Nat.le_antisymm (length_le_of_terminated hb ha hza) (length_le_of_terminated ha hb hzb)
  rw [hlen, hb] at ha
  exact (List.append_cancel_right ha).symm

/-! ## Rows -/

theorem row_fits {y h n : ℕ} (hy : y < h) : y * n + n ≤ h * n := by
  rw [← Nat.succ_mul]
  exact Nat.mul_le_mul_right n hy

/-- Two rows do not meet. -/
theorem rows_disjoint {y y' n : ℕ} (h : y' ≠ y) : y' * n + n ≤ y * n ∨ y * n + n ≤ y' * n := by
  rcases Nat.lt_or_gt_of_ne h with hlt | hgt
  · exact .inl (row_fits hlt)
  · exact .inr (row_fits hgt)

end Memory
