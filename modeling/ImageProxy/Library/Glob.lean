import Mathlib.Data.List.TakeWhile

set_option autoImplicit false

/-! # Globs

A glob is a list of letters in which one letter, the star, stands for any sequence of letters and
every other letter for itself. `Glob star m s` says that all of `s` matches all of `m`. -/

variable {α : Type}

inductive Glob (star : α) : List α → List α → Prop where
  | nil : Glob star [] []
  | letter {c : α} {m s : List α} : c ≠ star → Glob star m s → Glob star (c :: m) (c :: s)
  | star {m s : List α} (skipped : List α) : Glob star m s → Glob star (star :: m) (skipped ++ s)

namespace Glob

variable {star : α} {m s l g : List α}

/-- Nothing but stars, or nothing. -/
def OnlyStars (star : α) (m : List α) : Prop := ∀ c ∈ m, c = star

theorem not_onlyStars_cons {c : α} (hc : c ≠ star) : ¬OnlyStars star (c :: m) := fun h =>
  hc (h c List.mem_cons_self)

/-! ## One letter -/

theorem nil_iff : Glob star [] s ↔ s = [] := by
  constructor
  · rintro ⟨⟩
    rfl
  · rintro rfl
    exact .nil

theorem letter_iff {c : α} (hc : c ≠ star) :
    Glob star (c :: m) s ↔ ∃ t, s = c :: t ∧ Glob star m t := by
  constructor
  · intro h
    cases h with
    | letter _ h => exact ⟨_, rfl, h⟩
    | star skipped h => exact absurd rfl hc
  · rintro ⟨t, rfl, h⟩
    exact .letter hc h

theorem star_iff : Glob star (star :: m) s ↔ ∃ t, t <:+ s ∧ Glob star m t := by
  constructor
  · intro h
    cases h with
    | letter hc h => exact absurd rfl hc
    | star skipped h => exact ⟨_, List.suffix_append _ _, h⟩
  · rintro ⟨t, ⟨skipped, rfl⟩, h⟩
    exact .star skipped h

/-! ## Runs of letters and of stars -/

theorem append_iff (hl : star ∉ l) : Glob star (l ++ m) s ↔ ∃ t, s = l ++ t ∧ Glob star m t := by
  induction l generalizing s with
  | nil => simp
  | cons c l ih =>
      rw [List.mem_cons, not_or] at hl
      rw [List.cons_append, letter_iff fun h => hl.1 h.symm]
      constructor
      · rintro ⟨t, rfl, h⟩
        obtain ⟨u, rfl, hu⟩ := (ih hl.2).1 h
        exact ⟨u, rfl, hu⟩
      · rintro ⟨t, rfl, h⟩
        exact ⟨l ++ t, rfl, (ih hl.2).2 ⟨t, rfl, h⟩⟩

theorem append_append_iff (hl : star ∉ l) : Glob star (l ++ m) (l ++ s) ↔ Glob star m s := by
  rw [append_iff hl]
  constructor
  · rintro ⟨t, ht, h⟩
    rwa [List.append_cancel_left ht]
  · exact fun h => ⟨s, rfl, h⟩

theorem not_differ {n : List α} {a b : α} (hl : star ∉ l) (ha : a ≠ star) (hab : a ≠ b) :
    ¬Glob star (l ++ a :: m) (l ++ b :: n) := by
  rw [append_append_iff hl, letter_iff ha]
  rintro ⟨t, ht, -⟩
  exact hab (List.cons.inj ht).1.symm

/-- A mask without a star matches itself only. -/
theorem literal_iff (hl : star ∉ l) : Glob star l s ↔ s = l := by
  have happend := append_iff (m := []) (s := s) hl
  rw [List.append_nil] at happend
  rw [happend]
  simp [nil_iff]

/-- Stars behind a star make no difference. -/
theorem stars_append_iff {k : List α} (hk : OnlyStars star k) :
    Glob star (star :: (k ++ m)) s ↔ Glob star (star :: m) s := by
  induction k with
  | nil => rfl
  | cons c k ih =>
      obtain rfl := hk c List.mem_cons_self
      rw [← ih fun d hd => hk d (List.mem_cons_of_mem _ hd), List.cons_append, star_iff]
      constructor
      · rintro ⟨t, ht, h⟩
        obtain ⟨u, hu, h⟩ := star_iff.1 h
        exact star_iff.2 ⟨u, hu.trans ht, h⟩
      · exact fun h => ⟨s, List.suffix_rfl, h⟩

/-- Stars match everything. -/
theorem onlyStars (hm : OnlyStars star m) (hne : m ≠ []) : Glob star m s := by
  cases m with
  | nil => exact absurd rfl hne
  | cons c m =>
      obtain rfl := hm c List.mem_cons_self
      have hstars := stars_append_iff (m := []) (s := s) fun d hd => hm d (List.mem_cons_of_mem _ hd)
      rw [List.append_nil] at hstars
      rw [hstars, star_iff]
      exact ⟨[], List.nil_suffix, .nil⟩

/-- Behind a star a text has to end the string. -/
theorem star_literal_iff (hg : star ∉ g) : Glob star (star :: g) s ↔ g <:+ s := by
  rw [star_iff]
  constructor
  · rintro ⟨t, ht, h⟩
    rw [← (literal_iff hg).1 h]
    exact ht
  · exact fun h => ⟨g, h, (literal_iff hg).2 rfl⟩

/-- Between stars it may stand anywhere. -/
theorem star_literal_stars_iff (hg : star ∉ g) (hm : OnlyStars star m) (hne : m ≠ []) :
    Glob star (star :: (g ++ m)) s ↔ g <:+: s := by
  rw [star_iff, List.infix_iff_prefix_suffix]
  constructor
  · rintro ⟨t, ht, h⟩
    obtain ⟨u, rfl, -⟩ := (append_iff hg).1 h
    exact ⟨_, List.prefix_append _ _, ht⟩
  · rintro ⟨_, ⟨u, rfl⟩, ht⟩
    exact ⟨_, ht, (append_iff hg).2 ⟨u, rfl, onlyStars hm hne⟩⟩

end Glob
