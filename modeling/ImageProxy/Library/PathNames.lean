import Mathlib.Data.List.DropRight

set_option autoImplicit false

/-! # What a path names

A path is cut at its delimiters. Empty pieces, and the one that stands for the directory itself, say
nothing; the others, and whether the search starts at the root, say where a path leads. -/

namespace PathNames

variable {α : Type} [DecidableEq α]

/-- What is between the delimiters. -/
def pieces (delimiter : α) : List α → List (List α)
  | [] => [[]]
  | c :: p =>
      if c = delimiter then [] :: pieces delimiter p
      else (pieces delimiter p).modifyHead (c :: ·)

/-- The pieces that are names. -/
def names (delimiter : α) (here : List α) (p : List α) : List (List α) :=
  (pieces delimiter p).filter fun name => name ≠ [] ∧ name ≠ here

/-- Where a path leads: whether it starts at the root, and its names. -/
def location (delimiter : α) (here : List α) (p : List α) : Bool × List (List α) :=
  (p.head? = some delimiter, names delimiter here p)

variable {delimiter : α} {here : List α}

theorem pieces_ne_nil (delimiter : α) (p : List α) : pieces delimiter p ≠ [] := by
  induction p with
  | nil => exact List.cons_ne_nil _ _
  | cons c p ih =>
      rw [pieces]
      split
      · exact List.cons_ne_nil _ _
      · rwa [Ne, List.modifyHead_eq_nil_iff]

theorem pieces_concat (p : List α) :
    pieces delimiter (p ++ [delimiter]) = pieces delimiter p ++ [[]] := by
  induction p with
  | nil => simp [pieces]
  | cons c p ih =>
      rw [List.cons_append, pieces, pieces, ih]
      split
      · rfl
      · obtain ⟨q, qs, hq⟩ := List.exists_cons_of_ne_nil (pieces_ne_nil delimiter p)
        rw [hq]
        rfl

/-- A delimiter at the end says nothing. -/
theorem names_concat (p : List α) :
    names delimiter here (p ++ [delimiter]) = names delimiter here p := by
  rw [names, pieces_concat, List.filter_append]
  simp [names]

theorem names_rdropWhile (p : List α) :
    names delimiter here (p.rdropWhile (· = delimiter)) = names delimiter here p := by
  induction p using List.reverseRecOn with
  | nil => rfl
  | append_singleton p c ih =>
      rw [List.rdropWhile_concat]
      by_cases hc : c = delimiter
      · rw [if_pos (decide_eq_true hc), ih, hc, names_concat]
      · rw [if_neg (by simpa using hc)]

/-- A path leads where it leads with one delimiter at its end, unless there is nothing but that
delimiter. -/
theorem location_rdropWhile_concat {p : List α} (h : p ≠ []) :
    location delimiter here (p.rdropWhile (· = delimiter) ++ [delimiter])
      = location delimiter here p := by
  unfold location
  rw [names_concat, names_rdropWhile, Prod.mk.injEq]
  refine ⟨?_, rfl⟩
  rw [decide_eq_decide]
  by_cases hnil : p.rdropWhile (· = delimiter) = []
  · obtain ⟨c, q, rfl⟩ := List.exists_cons_of_ne_nil h
    have hc := List.rdropWhile_eq_nil_iff.1 hnil c List.mem_cons_self
    rw [hnil, List.nil_append, List.head?_cons, List.head?_cons]
    exact iff_of_true rfl (congrArg some (of_decide_eq_true hc))
  · rw [List.head?_append_of_ne_nil _ hnil]
    obtain ⟨q, hq⟩ := List.rdropWhile_prefix (· = delimiter) p
    conv_rhs => rw [← hq, List.head?_append_of_ne_nil _ hnil]

/-- Every element but the delimiter is in a piece. -/
theorem mem_pieces {p : List α} {c : α} (hc : c ≠ delimiter) :
    (∃ name ∈ pieces delimiter p, c ∈ name) ↔ c ∈ p := by
  induction p with
  | nil => simp [pieces]
  | cons d p ih =>
      obtain ⟨q, qs, hq⟩ := List.exists_cons_of_ne_nil (pieces_ne_nil delimiter p)
      rw [pieces, List.mem_cons, ← ih, hq]
      split
      · next hd => simp [hd, hc]
      · simp [or_assoc]

/-- An element that is in no delimiter and not in `here` is in a name exactly if it is in the path. -/
theorem mem_names {p : List α} {c : α} (hc : c ≠ delimiter) (hhere : c ∉ here) :
    (∃ name ∈ names delimiter here p, c ∈ name) ↔ c ∈ p := by
  rw [← mem_pieces hc]
  constructor
  · rintro ⟨name, hname, hmem⟩
    exact ⟨name, (List.mem_filter.1 hname).1, hmem⟩
  · rintro ⟨name, hname, hmem⟩
    refine ⟨name, List.mem_filter.2 ⟨hname, decide_eq_true ⟨?_, ?_⟩⟩, hmem⟩
    · exact List.ne_nil_of_mem hmem
    · exact fun h => hhere (h ▸ hmem)

end PathNames
