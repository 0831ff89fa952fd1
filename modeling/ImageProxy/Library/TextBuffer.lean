import ImageProxy.Library.Memory
import ImageProxy.Library.Pieces

set_option autoImplicit false

/-! # A text that grows in a local array

The array has a size, and a write that leaves it has no result. What is known of the array is the
text that it holds from some offset on: a write behind the text makes it longer, and a write that
does not meet it leaves it as it is. -/

namespace TextBuffer

variable {α : Type}

/-- `cells` written at `off` in an array of `size` cells; `none` if they are not all in it. -/
def store (size : ℕ) (m : Memory α) (off : ℕ) (cells : List α) : Option (Memory α) :=
  if off + cells.length ≤ size then some (m.write off cells) else none

/-- The text that is in the array from `off` on. -/
def Holds (m : Memory α) (off : ℕ) (text : List α) : Prop := m.read off text.length = text

variable {size off : ℕ} {m : Memory α} {text cells : List α}

@[simp] theorem store_of_le (h : off + cells.length ≤ size) :
    store size m off cells = some (m.write off cells) := if_pos h

theorem holds_nil : Holds m off [] := rfl

theorem holds_append :
    Holds m off (text ++ cells) ↔ Holds m off text ∧ Holds m (off + text.length) cells := by
  unfold Holds
  rw [List.length_append, Memory.read_add]
  constructor
  · intro h
    exact List.append_inj h (Memory.length_read m off text.length)
  · rintro ⟨htext, hcells⟩
    rw [htext, hcells]

theorem holds_write (m : Memory α) (off : ℕ) (cells : List α) : Holds (m.write off cells) off cells :=
  m.read_write_self off cells

/-- What is written elsewhere is not in the text. -/
theorem Holds.write {off' : ℕ} (h : Holds m off text)
    (hdisjoint : off + text.length ≤ off' ∨ off' + cells.length ≤ off) :
    Holds (m.write off' cells) off text := by
  have hsame : (m.write off' cells).read off text.length = m.read off text.length :=
    Memory.read_write_of_disjoint m hdisjoint
  exact hsame.trans h

/-- What is written behind the text is a part of it. -/
theorem Holds.write_behind (h : Holds m off text) (cells : List α) :
    Holds (m.write (off + text.length) cells) off (text ++ cells) :=
  holds_append.2 ⟨h.write (.inl (Nat.le_refl _)), holds_write m _ cells⟩

/-! ## Strings that end -/

variable [DecidableEq α]

/-- The number of cells from `off` to the first `z`, if there is one in the array. -/
def terminatedLength (z : α) (size : ℕ) (m : Memory α) (off : ℕ) : Option ℕ :=
  let cells := m.read off (size - off)
  if z ∈ cells then some (cells.takeWhile (· ≠ z)).length else none

theorem terminatedLength_of_holds {z : α} (h : Holds m off (text ++ [z])) (hz : z ∉ text)
    (hsize : off + text.length < size) : terminatedLength z size m off = some text.length := by
  obtain ⟨rest, hrest⟩ : ∃ rest, m.read off (size - off) = text ++ z :: rest := by
    have hlen : size - off = (text ++ [z]).length + (size - off - (text.length + 1)) := by
      rw [List.length_append, List.length_singleton]
      omega
    refine ⟨m.read (off + (text ++ [z]).length) (size - off - (text.length + 1)), ?_⟩
    rw [hlen, Memory.read_add, h, List.append_assoc, List.singleton_append, ← hlen]
  rw [terminatedLength, hrest, if_pos (List.mem_append_right _ List.mem_cons_self),
    Pieces.takeWhile_separator hz]

end TextBuffer
