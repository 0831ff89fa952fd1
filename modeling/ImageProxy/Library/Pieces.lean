import Mathlib.Data.List.TakeWhile

set_option autoImplicit false

/-! # What is between separators

A list is the last piece, or a piece, the separator and a list. `List.splitOn` gives the pieces, and
`List.intercalate_splitOn` joins them again. -/

namespace Pieces

variable {α : Type} [DecidableEq α] {sep : α}

theorem not_mem_takeWhile_ne (sep : α) (s : List α) : sep ∉ s.takeWhile (· ≠ sep) := by
  intro hmem
  simpa using List.mem_takeWhile_imp hmem

theorem head_dropWhile_ne {sep c : α} {s rest : List α} (h : s.dropWhile (· ≠ sep) = c :: rest) :
    c = sep := by
  have hhead := List.head?_dropWhile_not (· ≠ sep) s
  rw [h] at hhead
  simpa using hhead

theorem all_ne_of_not_mem {s : List α} (h : sep ∉ s) : ∀ c ∈ s, decide (c ≠ sep) = true := by
  intro c hc
  exact decide_eq_true fun heq => h (heq ▸ hc)

theorem takeWhile_of_not_mem {s : List α} (h : sep ∉ s) : s.takeWhile (· ≠ sep) = s :=
  List.takeWhile_eq_self_iff.2 (all_ne_of_not_mem h)

theorem dropWhile_of_not_mem {s : List α} (h : sep ∉ s) : s.dropWhile (· ≠ sep) = [] :=
  List.dropWhile_eq_nil_iff.2 (all_ne_of_not_mem h)

theorem takeWhile_separator {piece : List α} (h : sep ∉ piece) (behind : List α) :
    (piece ++ sep :: behind).takeWhile (· ≠ sep) = piece := by
  rw [List.takeWhile_append_of_pos (all_ne_of_not_mem h), List.takeWhile_cons_of_neg (by simp),
    List.append_nil]

theorem dropWhile_separator {piece : List α} (h : sep ∉ piece) (behind : List α) :
    (piece ++ sep :: behind).dropWhile (· ≠ sep) = sep :: behind := by
  rw [List.dropWhile_append_of_pos (all_ne_of_not_mem h), List.dropWhile_cons_of_neg (by simp)]

/-- A list up to its first separator, if it has one. -/
theorem first_separator (sep : α) (s : List α) :
    sep ∉ s ∨ ∃ piece behind, s = piece ++ sep :: behind ∧ sep ∉ piece := by
  have hsplit := List.takeWhile_append_dropWhile (p := (· ≠ sep)) (l := s)
  have hnot := not_mem_takeWhile_ne sep s
  cases hrest : s.dropWhile (· ≠ sep) with
  | nil =>
      rw [hrest, List.append_nil] at hsplit
      exact Or.inl (hsplit ▸ hnot)
  | cons c behind =>
      obtain rfl := head_dropWhile_ne hrest
      rw [hrest] at hsplit
      exact Or.inr ⟨_, behind, hsplit.symm, hnot⟩

/-! ## All the pieces -/

/-- A list by its pieces, from the last one on. -/
theorem induction (sep : α) {P : List α → Prop} (last : ∀ piece, sep ∉ piece → P piece)
    (more : ∀ piece behind, sep ∉ piece → P behind → P (piece ++ sep :: behind)) (s : List α) :
    P s := by
  induction hlen : s.length using Nat.strongRecOn generalizing s with
  | ind n ih =>
      rcases first_separator sep s with hnot | ⟨piece, behind, rfl, hnot⟩
      · exact last s hnot
      · have hshort : behind.length < n := by
          rw [← hlen, List.length_append, List.length_cons]
          omega
        exact more piece behind hnot (ih behind.length hshort behind rfl)

theorem length_splitOn (sep : α) (s : List α) : (s.splitOn sep).length = s.count sep + 1 := by
  induction s using induction sep with
  | last piece hnot =>
      rw [List.splitOn_eq_singleton hnot, List.count_eq_zero_of_not_mem hnot, List.length_singleton]
  | more piece behind hnot ih =>
      rw [List.splitOn_append_cons_self_of_not_mem hnot, List.length_cons, ih, List.count_append,
        List.count_cons_self, List.count_eq_zero_of_not_mem hnot, Nat.zero_add]

/-- No piece has a separator. -/
theorem not_mem_of_mem_splitOn {s piece : List α} (h : piece ∈ s.splitOn sep) : sep ∉ piece := by
  induction s using induction sep with
  | last only hnot =>
      rw [List.splitOn_eq_singleton hnot, List.mem_singleton] at h
      exact h ▸ hnot
  | more first behind hnot ih =>
      rw [List.splitOn_append_cons_self_of_not_mem hnot, List.mem_cons] at h
      rcases h with rfl | h
      · exact hnot
      · exact ih h

end Pieces
