import Mathlib.Data.List.Basic
import Mathlib.Data.Int.Notation

set_option autoImplicit false

/-! # Append-only streams

A list of items and an offset in it. Items are read from the offset on and appended at the end; the
offset can be moved anywhere in the list. Nothing that is in the list is ever changed, short of
clearing it. -/

/-- The items and the offset. -/
@[ext] structure AppendStream (α : Type) where
  content : List α
  offset : ℕ
  offset_le : offset ≤ content.length

namespace AppendStream

variable {α : Type}

theorem zero_le_length_nil : 0 ≤ ([] : List α).length := Nat.zero_le _

def empty : AppendStream α := ⟨[], 0, zero_le_length_nil⟩

/-- The number of items. -/
def size (s : AppendStream α) : ℕ := s.content.length

/-- What is left from the offset on. -/
def rest (s : AppendStream α) : List α := s.content.drop s.offset

/-- Append `x` if the offset is at the end, nothing otherwise: the number of items appended, and the
stream after. -/
def append (s : AppendStream α) (x : List α) : ℕ × AppendStream α :=
  if s.offset = s.size then
    (x.length, ⟨s.content ++ x, s.offset + x.length, by
      rw [List.length_append]
      exact Nat.add_le_add_right s.offset_le _⟩)
  else (0, s)

/-- The next `n` items, or as many as are left, and the stream with the offset behind them. -/
def read (s : AppendStream α) (n : ℕ) : List α × AppendStream α :=
  (s.rest.take n, ⟨s.content, s.offset + (s.rest.take n).length, by
    have hle := s.offset_le
    simp only [rest, List.length_take, List.length_drop]
    omega⟩)

/-- Move the offset to `target`, which has to be in the stream or at its end. -/
def seek (s : AppendStream α) (target : ℤ) : Option (AppendStream α) :=
  if h : 0 ≤ target ∧ target ≤ s.size then
    some ⟨s.content, target.toNat, by
      rw [size] at h
      omega⟩
  else none

def clear (_ : AppendStream α) : AppendStream α := empty

end AppendStream
