import Mathlib.Tactic.SplitIfs
import ImageProxy.Library.Pieces

set_option autoImplicit false

/-! # Splitting at separators outside of quotes

A list is cut at the separators that have an even number of quotes before them. `cut` looks for the
first of these and can go on where another list begins; `split` makes all the pieces. -/

namespace QuotedSplit

open Pieces (first_separator)

variable {α : Type} [DecidableEq α]

/-- Whether the number of quotes is odd after `c`, too. -/
def toggle (quote : α) (odd : Bool) (c : α) : Bool := if c = quote then !odd else odd

/-- Whether the number of quotes is odd after `s`. -/
def oddAfter (quote : α) (odd : Bool) (s : List α) : Bool := s.foldl (toggle quote) odd

/-- What is before the first separator outside of quotes, and what is behind it. -/
def cut (quote sep : α) : (odd : Bool) → List α → Option (List α × List α)
  | _, [] => none
  | odd, c :: s =>
      if c = sep ∧ odd = false then some ([], s)
      else (cut quote sep (toggle quote odd c) s).map fun p => (c :: p.1, p.2)

variable {quote sep : α}

theorem oddAfter_append (odd : Bool) (s t : List α) :
    oddAfter quote odd (s ++ t) = oddAfter quote (oddAfter quote odd s) t := List.foldl_append

/-- Counting the quotes gives the same. -/
theorem oddAfter_count (quote : α) (n : ℕ) (s : List α) :
    oddAfter quote (decide (n % 2 = 1)) s = decide ((n + s.count quote) % 2 = 1) := by
  induction s generalizing n with
  | nil => rfl
  | cons c s ih =>
      have htoggle : toggle quote (decide (n % 2 = 1)) c
          = decide ((n + if c = quote then 1 else 0) % 2 = 1) := by
        unfold toggle
        split_ifs
        · rw [← decide_not, decide_eq_decide]
          omega
        · rfl
      show oddAfter quote (toggle quote (decide (n % 2 = 1)) c) s = _
      rw [htoggle, ih, List.count_cons, decide_eq_decide]
      simp only [beq_iff_eq]
      omega

/-! ## Cutting -/

theorem cut_cons_eq_none {odd : Bool} {c : α} {s : List α} :
    cut quote sep odd (c :: s) = none ↔
      ¬(c = sep ∧ odd = false) ∧ cut quote sep (toggle quote odd c) s = none := by
  by_cases hsep : c = sep ∧ odd = false
  · rw [cut, if_pos hsep]
    exact iff_of_false (Option.some_ne_none _) fun h => h.1 hsep
  · rw [cut, if_neg hsep, Option.map_eq_none_iff]
    exact (and_iff_right hsep).symm

theorem cut_of_not_mem {odd : Bool} {s : List α} (h : sep ∉ s) : cut quote sep odd s = none := by
  induction s generalizing odd with
  | nil => rfl
  | cons c s ih =>
      simp only [List.mem_cons, not_or] at h
      exact cut_cons_eq_none.2 ⟨fun hsep => h.1 hsep.1.symm, ih h.2⟩

/-- A cut is at the head or behind it. -/
theorem cut_cons_eq_some {odd : Bool} {c : α} {s a b : List α}
    (h : cut quote sep odd (c :: s) = some (a, b)) :
    (c = sep ∧ odd = false) ∧ a = [] ∧ b = s ∨ ¬(c = sep ∧ odd = false) ∧
      ∃ a', a = c :: a' ∧ cut quote sep (toggle quote odd c) s = some (a', b) := by
  rw [cut] at h
  split_ifs at h with hsep
  · cases h
    exact .inl ⟨hsep, rfl, rfl⟩
  · obtain ⟨p, hp, heq⟩ := Option.map_eq_some_iff.1 h
    cases heq
    exact .inr ⟨hsep, p.1, rfl, hp⟩

/-- What a cut says about the list. -/
theorem eq_of_cut {odd : Bool} {s a b : List α} (h : cut quote sep odd s = some (a, b)) :
    s = a ++ sep :: b ∧ cut quote sep odd a = none ∧ oddAfter quote odd a = false := by
  induction s generalizing odd a with
  | nil => exact absurd h (by simp [cut])
  | cons c s ih =>
      rcases cut_cons_eq_some h with ⟨hsep, rfl, rfl⟩ | ⟨hsep, a, rfl, ha⟩
      · exact ⟨by rw [hsep.1]; rfl, rfl, hsep.2⟩
      · obtain ⟨hs, hnone, hodd⟩ := ih ha
        exact ⟨by rw [hs]; rfl, cut_cons_eq_none.2 ⟨hsep, hnone⟩, hodd⟩

/-- A list without a cut leaves the search to what comes behind it. -/
theorem cut_append {odd : Bool} {s : List α} (h : cut quote sep odd s = none) (t : List α) :
    cut quote sep odd (s ++ t)
      = (cut quote sep (oddAfter quote odd s) t).map fun p => (s ++ p.1, p.2) := by
  induction s generalizing odd with
  | nil => simp [oddAfter]
  | cons c s ih =>
      obtain ⟨hsep, hnone⟩ := cut_cons_eq_none.1 h
      rw [List.cons_append, cut, if_neg hsep, ih hnone, Option.map_map]
      rfl

/-- A cut is not moved by what comes behind the list. -/
theorem cut_append_of_some {odd : Bool} {s a b : List α} (h : cut quote sep odd s = some (a, b))
    (t : List α) : cut quote sep odd (s ++ t) = some (a, b ++ t) := by
  obtain ⟨rfl, hnone, hodd⟩ := eq_of_cut h
  rw [List.append_assoc, cut_append hnone, hodd, List.cons_append, cut, if_pos ⟨rfl, rfl⟩]
  simp

/-- At the first separator the list is cut, or the search goes on in quotes. -/
theorem cut_first {odd : Bool} (hne : sep ≠ quote) {piece : List α} (h : sep ∉ piece)
    (behind : List α) : cut quote sep odd (piece ++ sep :: behind) =
      if oddAfter quote odd piece then
        (cut quote sep true behind).map fun p => (piece ++ sep :: p.1, p.2)
      else some (piece, behind) := by
  have htoggle : ∀ b : Bool, toggle quote b sep = b := fun b => if_neg hne
  rw [cut_append (cut_of_not_mem h)]
  cases hodd : oddAfter quote odd piece with
  | true =>
      rw [cut, if_neg (by simp), htoggle, Option.map_map]
      rfl
  | false => simp [cut]

/-- **The cut of a loop** that goes from separator to separator and counts the quotes before each. -/
theorem cut_induction (hne : sep ≠ quote) {P : ℕ → List α → Option (List α × List α) → Prop}
    (last : ∀ n s, sep ∉ s → P n s none)
    (found : ∀ n piece behind, sep ∉ piece → (n + piece.count quote) % 2 = 0 →
      P n (piece ++ sep :: behind) (some (piece, behind)))
    (inside : ∀ n piece behind r, sep ∉ piece → (n + piece.count quote) % 2 ≠ 0 →
      P (n + piece.count quote) behind r →
      P n (piece ++ sep :: behind) (r.map fun p => (piece ++ sep :: p.1, p.2)))
    (n : ℕ) (s : List α) : P n s (cut quote sep (decide (n % 2 = 1)) s) := by
  induction hlen : s.length using Nat.strongRecOn generalizing n s with
  | ind len ih =>
      rcases first_separator sep s with hnot | ⟨piece, behind, rfl, hnot⟩
      · rw [cut_of_not_mem hnot]
        exact last n s hnot
      · rw [cut_first hne hnot, oddAfter_count]
        by_cases heven : (n + piece.count quote) % 2 = 0
        · rw [decide_eq_false (by omega), if_neg (by simp)]
          exact found n piece behind hnot heven
        · -- the separator is in quotes, and the count stays odd behind it
          have hodd : (n + piece.count quote) % 2 = 1 := by omega
          have hrest := ih behind.length (by simp at hlen; omega) (n + piece.count quote) behind rfl
          rw [decide_eq_true hodd] at hrest ⊢
          rw [if_pos rfl]
          exact inside n piece behind _ hnot heven hrest

/-- A list that is neither cut nor leaves a quote open: it can stand as a piece. -/
structure Solid (quote sep : α) (s : List α) : Prop where
  uncut : cut quote sep false s = none
  even : oddAfter quote false s = false

theorem Solid.cut_at {s : List α} (h : Solid quote sep s) (b : List α) :
    cut quote sep false (s ++ sep :: b) = some (s, b) := by
  rw [cut_append h.uncut, h.even, cut, if_pos ⟨rfl, rfl⟩]
  simp

theorem Solid.of_cut {s a b : List α} (h : cut quote sep false s = some (a, b)) :
    Solid quote sep a := ⟨(eq_of_cut h).2.1, (eq_of_cut h).2.2⟩

theorem Solid.append {s t : List α} (hs : Solid quote sep s) (ht : Solid quote sep t) :
    Solid quote sep (s ++ t) where
  uncut := by rw [cut_append hs.uncut, hs.even, ht.uncut]; rfl
  even := by rw [oddAfter_append, hs.even, ht.even]

theorem Solid.of_not_mem {s : List α} (hquote : quote ∉ s) (hsep : sep ∉ s) :
    Solid quote sep s where
  uncut := cut_of_not_mem hsep
  even := by
    have hcount := oddAfter_count quote 0 s
    rw [List.count_eq_zero_of_not_mem hquote] at hcount
    simpa using hcount

/-! ## Quoting -/

/-- Every quote twice. -/
def double (quote : α) (s : List α) : List α :=
  s.flatMap fun c => if c = quote then [quote, quote] else [c]

theorem cut_double (hne : sep ≠ quote) (s : List α) :
    cut quote sep true (double quote s) = none ∧ oddAfter quote true (double quote s) = true := by
  induction s with
  | nil => exact ⟨rfl, rfl⟩
  | cons c s ih =>
      unfold double at ih ⊢
      rw [List.flatMap_cons]
      split_ifs with hc
      · -- two quotes close the string and open it again
        have hpair : cut quote sep true [quote, quote] = none := by
          simp [cut, toggle, hne.symm]
        have hodd : oddAfter quote true [quote, quote] = true := by simp [oddAfter, toggle]
        exact ⟨by rw [cut_append hpair, hodd, ih.1]; rfl, by rw [oddAfter_append, hodd, ih.2]⟩
      · have hone : cut quote sep true [c] = none := by simp [cut]
        have hodd : oddAfter quote true [c] = true := by simp [oddAfter, toggle, hc]
        exact ⟨by rw [cut_append hone, hodd, ih.1]; rfl, by rw [oddAfter_append, hodd, ih.2]⟩

/-- In quotes, with its own quotes doubled, a list is a piece. -/
theorem Solid.quoted (hne : sep ≠ quote) (s : List α) :
    Solid quote sep (quote :: (double quote s ++ [quote])) := by
  obtain ⟨hnone, hodd⟩ := cut_double hne s
  have hopen : toggle quote false quote = true := by simp [toggle]
  refine ⟨?_, ?_⟩
  · rw [cut, if_neg fun h => hne h.1.symm, hopen, cut_append hnone, hodd]
    simp [cut]
  · show oddAfter quote (toggle quote false quote) _ = false
    rw [hopen, oddAfter_append, hodd]
    simp [oddAfter, toggle]

/-! ## All the pieces -/

/-- The pieces and whether a separator ends them; every turn takes a byte. -/
def pieces (quote sep : α) : (turns : ℕ) → List α → List (List α × Bool)
  | 0, _ => []
  | turns + 1, s =>
      match cut quote sep false s with
      | some p => (p.1, true) :: pieces quote sep turns p.2
      | none => if s.isEmpty then [] else [(s, false)]

/-- The pieces of `s`; there is none behind a last separator. -/
def split (quote sep : α) (s : List α) : List (List α × Bool) := pieces quote sep (s.length + 1) s

theorem length_of_cut {s a b : List α} (h : cut quote sep false s = some (a, b)) :
    s.length = a.length + b.length + 1 := by
  rw [(eq_of_cut h).1, List.length_append, List.length_cons]
  omega

theorem pieces_eq (turns : ℕ) (s : List α) (h : s.length < turns) :
    pieces quote sep turns s = split quote sep s := by
  have hany : ∀ (n m : ℕ) (s : List α), s.length < n → s.length < m →
      pieces quote sep n s = pieces quote sep m s := by
    intro n
    induction n with
    | zero => intro m s hn; omega
    | succ n ih =>
        intro m s hn hm
        cases m with
        | zero => omega
        | succ m =>
            unfold pieces
            cases hcut : cut quote sep false s with
            | none => rfl
            | some p =>
                have hlen := length_of_cut (a := p.1) (b := p.2) hcut
                simp only [ih m p.2 (by omega) (by omega)]
  exact hany turns (s.length + 1) s h (by omega)

theorem split_of_some {s a b : List α} (h : cut quote sep false s = some (a, b)) :
    split quote sep s = (a, true) :: split quote sep b := by
  have hlen := length_of_cut h
  rw [split, pieces, h]
  simp only
  rw [pieces_eq _ _ (by omega)]

theorem split_of_none {s : List α} (h : cut quote sep false s = none) :
    split quote sep s = if s.isEmpty then [] else [(s, false)] := by
  rw [split, pieces, h]

/-- What is behind the last cut. -/
def openEnd (quote sep : α) : (turns : ℕ) → List α → List α
  | 0, s => s
  | turns + 1, s =>
      match cut quote sep false s with
      | some p => openEnd quote sep turns p.2
      | none => s

/-- The pieces before the last cut stay whatever comes behind `s`. -/
theorem split_append (quote sep : α) (s : List α) : ∃ done,
    (∀ t, split quote sep (s ++ t)
      = done ++ split quote sep (openEnd quote sep (s.length + 1) s ++ t)) ∧
    cut quote sep false (openEnd quote sep (s.length + 1) s) = none := by
  have hany : ∀ (turns : ℕ) (s : List α), s.length < turns → ∃ done,
      (∀ t, split quote sep (s ++ t)
        = done ++ split quote sep (openEnd quote sep turns s ++ t)) ∧
      cut quote sep false (openEnd quote sep turns s) = none := by
    intro turns
    induction turns with
    | zero => intro s h; omega
    | succ turns ih =>
        intro s h
        cases hcut : cut quote sep false s with
        | none => exact ⟨[], by simp [openEnd, hcut], by simp [openEnd, hcut]⟩
        | some p =>
            -- the first piece is done, whatever comes behind `s`
            have hlen := length_of_cut (a := p.1) (b := p.2) hcut
            obtain ⟨done, hdone, hnone⟩ := ih p.2 (by omega)
            have hopen : openEnd quote sep (turns + 1) s = openEnd quote sep turns p.2 := by
              simp [openEnd, hcut]
            refine ⟨(p.1, true) :: done, fun t => ?_, by rw [hopen]; exact hnone⟩
            rw [hopen, split_of_some (cut_append_of_some (a := p.1) (b := p.2) hcut t), hdone,
              List.cons_append]
  exact hany _ s (by omega)

/-! ## All the parts -/

/-- What is between the cuts, also in front of the first one and behind the last one. -/
def parts (quote sep : α) : (odd : Bool) → List α → List (List α)
  | _, [] => [[]]
  | odd, c :: s =>
      if c = sep ∧ odd = false then [] :: parts quote sep false s
      else (parts quote sep (toggle quote odd c) s).modifyHead (c :: ·)

theorem parts_of_none {odd : Bool} {s : List α} (h : cut quote sep odd s = none) :
    parts quote sep odd s = [s] := by
  induction s generalizing odd with
  | nil => rfl
  | cons c s ih =>
      obtain ⟨hsep, hnone⟩ := cut_cons_eq_none.1 h
      rw [parts, if_neg hsep, ih hnone]
      rfl

theorem parts_of_some {odd : Bool} {s a b : List α} (h : cut quote sep odd s = some (a, b)) :
    parts quote sep odd s = a :: parts quote sep false b := by
  induction s generalizing odd a with
  | nil => exact absurd h (by simp [cut])
  | cons c s ih =>
      rcases cut_cons_eq_some h with ⟨hsep, rfl, rfl⟩ | ⟨hsep, a, rfl, ha⟩
      · rw [parts, if_pos hsep]
      · rw [parts, if_neg hsep, ih ha]
        rfl

/-- No part is cut, and only in the last one a quote may be left open. -/
theorem uncut_of_mem_parts {s p : List α} (h : p ∈ parts quote sep false s) :
    cut quote sep false p = none := by
  induction hlen : s.length using Nat.strongRecOn generalizing s with
  | ind len ih =>
      cases hcut : cut quote sep false s with
      | none =>
          rw [parts_of_none hcut, List.mem_singleton] at h
          rw [h, hcut]
      | some r =>
          obtain ⟨a, b⟩ := r
          rw [parts_of_some hcut, List.mem_cons] at h
          rcases h with rfl | h
          · exact (eq_of_cut hcut).2.1
          · exact ih b.length (by rw [← hlen, length_of_cut hcut]; omega) h rfl

/-- A separator at the end of a part is in quotes. -/
theorem oddAfter_of_uncut_concat {s : List α} (hne : sep ≠ quote)
    (h : cut quote sep false (s ++ [sep]) = none) :
    oddAfter quote false (s ++ [sep]) = true := by
  have hodd : oddAfter quote false s = true := by
    by_contra heven
    rw [Bool.not_eq_true] at heven
    have hs : cut quote sep false s = none := by
      by_contra hsome
      obtain ⟨r, hr⟩ := Option.ne_none_iff_exists'.1 hsome
      rw [cut_append_of_some (a := r.1) (b := r.2) hr] at h
      exact absurd h (by simp)
    rw [cut_append hs, heven, cut, if_pos ⟨rfl, rfl⟩] at h
    exact absurd h (by simp)
  rw [oddAfter_append, hodd]
  exact if_neg hne

end QuotedSplit
