import ImageProxy.Library.Glob
import ImageProxy.Library.Pieces

set_option autoImplicit false

/-! # File masks (`MaskMatch` in `file_iterator_posix.cpp`)

An iterator is given by the letters from it to the end. `Misjudged` lists the masks and names for
which `operator()` does not say whether the name matches the mask as a glob: it stops at the first
letter that differs but has moved both iterators past it, it does not ask for the end of the name,
and it looks for one text behind a star only. -/

namespace ImageProxy.Cpcl

open Glob (OnlyStars not_onlyStars_cons)

/-- `NAME_MAX`. -/
def nameMax : ℕ := 255

/-- `MaskMatch`: the mask in its storage. -/
structure MaskMatch (α : Type) where
  mask : List α
  stored : mask.length ≤ nameMax

namespace MaskMatch

variable {α : Type} [DecidableEq α] (star : α)

/-- `MaskMatch(mask)`. -/
def new (mask : List α) : MaskMatch α := ⟨mask.take nameMax, List.length_take_le _ _⟩

/-! ## The matcher -/

/-- `SkipTo`: the next `c`, or the end. -/
def skipTo (c : α) (it : List α) : List α := it.dropWhile (· ≠ c)

/-- The loop of `TryMatch`; `none` if two letters differ. -/
def compare : (mask it : List α) → Option (List α × List α)
  | [], it => some ([], it)
  | mask, [] => some (mask, [])
  | m :: mask, c :: it =>
      if m = star then some (m :: mask, c :: it) else if m ≠ c then none else compare mask it

/-- `TryMatch`: the result, and both iterators after it. -/
def tryMatch (mask it : List α) : Bool × List α × List α :=
  match compare star mask it with
  | none => (false, mask, it)
  | some (mask, it) => (mask.isEmpty, mask, it)

/-- `++it`, and on to the next `*mask_it`. -/
def advance (mask it : List α) : List α :=
  match mask with
  | [] => it.tail
  | d :: _ => skipTo d it.tail

/-- The inner loop: try where `it` is, and go on until there is a match or the name ends. -/
def search : (turns : ℕ) → (mask it : List α) → List α × List α
  | 0, mask, it => (mask, it)
  | turns + 1, mask, it =>
      if it.isEmpty then (mask, it)
      else
        match tryMatch star mask it with
        | (true, mask, it) => (mask, it)
        | (false, mask, it) => search turns mask (advance mask it)

def skipStars (mask : List α) : List α := mask.dropWhile (· = star)

/-- The loop of `operator()`: `mask_it` behind it. -/
def loop : (turns : ℕ) → (mask it : List α) → List α
  | 0, mask, _ => mask
  | _ + 1, [], _ => []
  | _ + 1, mask, [] => mask
  | turns + 1, m :: mask, c :: it =>
      if m = star then
        match skipStars star (m :: mask) with
        | [] => []
        | d :: rest =>
            let (mask, it) := search star (it.length + 1) (d :: rest) (skipTo d (c :: it))
            loop turns mask it
      else if c ≠ m then mask
      else loop turns mask it

/-- `MaskMatch::operator()`. -/
def apply (matcher : MaskMatch α) (s : List α) : Bool :=
  if matcher.mask.isEmpty then true
  else (skipStars star (loop star (matcher.mask.length + 1) matcher.mask s)).isEmpty

/-! ## `TryMatch` -/

variable {star} {l m g r s t : List α}

theorem compare_append (hg : star ∉ g) (hr : ∀ c ∈ r.head?, c = star) :
    compare star (g ++ r) (g ++ t) = some (r, t) := by
  induction g with
  | nil =>
      cases r with
      | nil => rfl
      | cons c r =>
          obtain rfl := hr c rfl
          cases t with
          | nil => rfl
          | cons d t => exact if_pos rfl
  | cons c g ih =>
      rw [List.mem_cons, not_or] at hg
      rw [List.cons_append, List.cons_append, compare, if_neg fun h => hg.1 h.symm,
        if_neg (not_not.2 rfl)]
      exact ih hg.2

theorem compare_differ {p n : List α} {a b : α} (hp : star ∉ p) (ha : a ≠ star) (hab : a ≠ b) :
    compare star (p ++ a :: m) (p ++ b :: n) = none := by
  induction p with
  | nil => rw [List.nil_append, List.nil_append, compare, if_neg ha, if_pos hab]
  | cons c p ih =>
      rw [List.mem_cons, not_or] at hp
      rw [List.cons_append, List.cons_append, compare, if_neg fun h => hp.1 h.symm,
        if_neg (not_not.2 rfl)]
      exact ih hp.2

/-- The name ends first. -/
theorem compare_short (hs : star ∉ s) : compare star (s ++ m) s = some (m, []) := by
  induction s with
  | nil => cases m <;> rfl
  | cons c s ih =>
      rw [List.mem_cons, not_or] at hs
      rw [List.cons_append, compare, if_neg fun h => hs.1 h.symm, if_neg (not_not.2 rfl)]
      exact ih hs.2

/-- A text against a string: the string goes on behind it, they differ, or the string ends first. -/
theorem text_cases (l s : List α) : (∃ t, s = l ++ t) ∨
    (∃ p a m b n, l = p ++ a :: m ∧ s = p ++ b :: n ∧ a ≠ b) ∨ ∃ c m, l = s ++ c :: m := by
  induction l generalizing s with
  | nil => exact .inl ⟨s, rfl⟩
  | cons c l ih =>
      cases s with
      | nil => exact .inr (.inr ⟨c, l, rfl⟩)
      | cons d s =>
          by_cases hcd : c = d
          · subst hcd
            rcases ih s with ⟨t, rfl⟩ | ⟨p, a, m, b, n, rfl, rfl, hab⟩ | ⟨e, m, rfl⟩
            · exact .inl ⟨t, rfl⟩
            · exact .inr (.inl ⟨c :: p, a, m, b, n, rfl, rfl, hab⟩)
            · exact .inr (.inr ⟨e, m, rfl⟩)
          · exact .inr (.inl ⟨[], c, l, d, s, rfl, rfl, hcd⟩)

/-! ## The search behind a star -/

theorem length_skipTo_le (c : α) (s : List α) : (skipTo c s).length ≤ s.length :=
  (List.dropWhile_suffix _).length_le

theorem length_advance_le (mask s : List α) : (advance mask s).length ≤ s.length - 1 := by
  rw [← List.length_tail]
  cases mask with
  | nil => exact le_rfl
  | cons d mask => exact length_skipTo_le d s.tail

/-- Nothing that begins with `d` is skipped. -/
theorem infix_skipTo (d : α) (g s : List α) : d :: g <:+: skipTo d s ↔ d :: g <:+: s := by
  induction s with
  | nil => rfl
  | cons c s ih =>
      by_cases hcd : c = d
      · rw [skipTo, List.dropWhile_cons_of_neg (by simpa using hcd)]
      · rw [skipTo, List.dropWhile_cons_of_pos (by simpa using hcd), List.infix_cons_iff]
        have hnot : ¬d :: g <+: c :: s := fun h => hcd (List.cons_prefix_cons.1 h).1.symm
        rw [or_iff_right hnot]
        exact ih

/-- With a star before it the search goes to the end of the name. -/
theorem search_star (star : α) (turns : ℕ) (m s : List α) (hlen : s.length ≤ turns) :
    search star turns (star :: m) s = (star :: m, []) := by
  induction turns generalizing s with
  | zero => rw [List.length_eq_zero_iff.1 (Nat.le_zero.1 hlen), search]
  | succ turns ih =>
      cases s with
      | nil => rfl
      | cons c s =>
          have htry : tryMatch star (star :: m) (c :: s) = (false, star :: m, c :: s) := by
            rw [tryMatch, compare, if_pos rfl]
            rfl
          rw [search, if_neg (by simp), htry]
          have hle := length_advance_le (star :: m) (c :: s)
          rw [List.length_cons] at hle hlen
          exact ih _ (by omega)

/-- The search for the text `d :: g` that stands before `r`. It ends the matching, and what is left
of the mask are stars exactly when the text was found and `r` are stars. -/
theorem search_text {d : α} (hg : star ∉ d :: g) (hr : ∀ c ∈ r.head?, c = star) (turns : ℕ)
    (s : List α) (hlen : s.length ≤ turns) :
    ((search star turns (d :: g ++ r) s).1 = [] ∨ (search star turns (d :: g ++ r) s).2 = []) ∧
      (OnlyStars star (search star turns (d :: g ++ r) s).1 ↔
        d :: g <:+: s ∧ OnlyStars star r) := by
  have hd : d ≠ star := fun h => hg (h ▸ List.mem_cons_self)
  induction turns generalizing s with
  | zero =>
      rw [List.length_eq_zero_iff.1 (Nat.le_zero.1 hlen), search]
      simp [not_onlyStars_cons hd]
  | succ turns ih =>
      cases s with
      | nil => simp [search, not_onlyStars_cons hd]
      | cons c s =>
          have hle : s.length ≤ turns := by simpa using hlen
          rw [search, if_neg (by simp)]
          rcases text_cases (d :: g) (c :: s) with
            ⟨t, hs⟩ | ⟨p, a, m, b, n, hmask, hs, hab⟩ | ⟨e, m, hmask⟩
          · -- found here
            have hfound : d :: g <:+: c :: s := hs ▸ (List.prefix_append _ _).isInfix
            have htry : tryMatch star (d :: g ++ r) (c :: s) = (r.isEmpty, r, t) := by
              rw [tryMatch, hs, compare_append hg hr]
            rw [htry]
            cases r with
            | nil => simpa [OnlyStars] using hfound
            | cons e r =>
                obtain rfl := hr e rfl
                have ht : t.length ≤ s.length := by
                  have hboth := congrArg List.length hs
                  simp only [List.length_append, List.length_cons] at hboth
                  omega
                have hle' := length_advance_le (e :: r) t
                have hsearch := search_star e turns r (advance (e :: r) t) (by omega)
                simp [hsearch, hfound]
          · -- two letters differ: it goes on behind the first letter of the name
            rw [hmask, List.mem_append, List.mem_cons, not_or, not_or] at hg
            have htry : tryMatch star (d :: g ++ r) (c :: s) = (false, d :: g ++ r, c :: s) := by
              rw [tryMatch, hmask, hs, List.append_assoc, List.cons_append,
                compare_differ hg.1 (fun h => hg.2.1 h.symm) hab]
            have hnot : ¬d :: g <+: c :: s := by
              rw [hmask, hs, List.prefix_append_right_inj]
              exact fun h => hab (List.cons_prefix_cons.1 h).1
            rw [htry, List.infix_cons_iff, or_iff_right hnot, ← infix_skipTo d g s]
            exact ih _ ((length_skipTo_le d s).trans hle)
          · -- the name ends before the text does, so there is no room for it
            have hname : star ∉ c :: s := fun h => hg (hmask ▸ List.mem_append_left _ h)
            have he : e ≠ star := fun h => hg (hmask ▸ by simp [h])
            have htry : tryMatch star (d :: g ++ r) (c :: s) = (false, e :: (m ++ r), []) := by
              rw [tryMatch, hmask, List.append_assoc, compare_short hname]
              rfl
            have hlong : ¬d :: g <:+: c :: s := fun h => by
              have hroom := h.length_le
              simp only [hmask, List.length_append, List.length_cons] at hroom
              omega
            rw [htry]
            have hstop : search star turns (e :: (m ++ r)) (advance (e :: (m ++ r)) [])
                = (e :: (m ++ r), []) := by
              cases turns <;> rfl
            simp [hstop, hlong, not_onlyStars_cons he]

/-! ## The loop -/

theorem loop_nil_right (turns : ℕ) (m : List α) : loop star turns m [] = m := by
  cases turns <;> cases m <;> rfl

theorem loop_nil_left (turns : ℕ) (s : List α) : loop star turns [] s = [] := by
  cases turns <;> rfl

/-- Letters that agree are passed. -/
theorem loop_append (turns : ℕ) (hl : star ∉ l) :
    loop star (l.length + turns) (l ++ m) (l ++ t) = loop star turns m t := by
  induction l with
  | nil => rw [List.length_nil, Nat.zero_add, List.nil_append, List.nil_append]
  | cons c l ih =>
      rw [List.mem_cons, not_or] at hl
      rw [List.length_cons, Nat.add_right_comm, List.cons_append, List.cons_append, loop,
        if_neg fun h => hl.1 h.symm, if_neg (not_not.2 rfl)]
      exact ih hl.2

theorem skipStars_append {k : List α} (hk : OnlyStars star k) :
    skipStars star (k ++ m) = skipStars star m :=
  List.dropWhile_append_of_pos fun c hc => by simpa using hk c hc

theorem isEmpty_skipStars : (skipStars star m).isEmpty = true ↔ OnlyStars star m := by
  rw [List.isEmpty_iff, skipStars, List.dropWhile_eq_nil_iff]
  simp [OnlyStars]

variable (star) in
/-- What is left of the mask are stars. -/
def Accepts (mask s : List α) : Prop := OnlyStars star (loop star (mask.length + 1) mask s)

theorem apply_new_iff {mask : List α} (hlen : mask.length ≤ nameMax) (s : List α) :
    (new mask).apply star s = true ↔ mask = [] ∨ Accepts star mask s := by
  have hmask : (new mask).mask = mask := List.take_of_length_le hlen
  rw [apply, hmask, Accepts]
  cases mask with
  | nil => simp
  | cons c mask => simpa using isEmpty_skipStars

theorem accepts_append (hl : star ∉ l) (m t : List α) :
    Accepts star (l ++ m) (l ++ t) ↔ Accepts star m t := by
  rw [Accepts, List.length_append, Nat.add_assoc, loop_append _ hl, Accepts]

theorem accepts_nil (s : List α) : Accepts star [] s := by
  rw [Accepts, loop_nil_left]
  exact fun c hc => absurd hc (List.not_mem_nil)

/-- At the first letter that differs, what counts is what is behind it. -/
theorem accepts_differ {a b : α} {n : List α} (ha : a ≠ star) (hab : a ≠ b) :
    Accepts star (a :: m) (b :: n) ↔ OnlyStars star m := by
  rw [Accepts, List.length_cons, loop, if_neg ha, if_pos fun h => hab h.symm]

theorem accepts_nil_right (m : List α) : Accepts star m [] ↔ OnlyStars star m := by
  rw [Accepts, loop_nil_right]

theorem accepts_stars {k : List α} (hk : OnlyStars star k) (s : List α) :
    Accepts star (star :: k) s := by
  have hstars : OnlyStars star (star :: k) := List.forall_mem_cons.2 ⟨rfl, hk⟩
  cases s with
  | nil => exact (accepts_nil_right _).2 hstars
  | cons c s =>
      have hskip : skipStars star (star :: k) = [] := List.isEmpty_iff.1 (isEmpty_skipStars.2 hstars)
      rw [Accepts, List.length_cons, loop, if_pos rfl, hskip]
      exact fun c hc => absurd hc (List.not_mem_nil)

/-- Behind stars the text `d :: g` is searched for, and then there may be stars only. -/
theorem accepts_text {k : List α} {d : α} (hk : OnlyStars star k) (hg : star ∉ d :: g)
    (hr : ∀ c ∈ r.head?, c = star) (s : List α) :
    Accepts star (star :: (k ++ (d :: g ++ r))) s ↔ d :: g <:+: s ∧ OnlyStars star r := by
  have hd : d ≠ star := fun h => hg (h ▸ List.mem_cons_self)
  cases s with
  | nil =>
      rw [accepts_nil_right]
      constructor
      · intro h
        exact absurd (h d (by simp)) hd
      · rintro ⟨h, -⟩
        exact absurd (List.eq_nil_of_infix_nil h) (by simp)
  | cons c s =>
      have hskip : skipStars star (star :: (k ++ (d :: g ++ r))) = d :: (g ++ r) := by
        have hstars : OnlyStars star (star :: k) := List.forall_mem_cons.2 ⟨rfl, hk⟩
        have happend := skipStars_append (m := d :: g ++ r) hstars
        rw [List.cons_append] at happend
        rw [happend, List.cons_append, skipStars, List.dropWhile_cons_of_neg (by simpa using hd)]
      have hsearch := search_text hg hr (s.length + 1) (skipTo d (c :: s))
        (length_skipTo_le d (c :: s))
      rw [infix_skipTo] at hsearch
      rw [Accepts, List.length_cons, loop, if_pos rfl, hskip]
      obtain ⟨hend, hfound⟩ := hsearch
      rw [← hfound, List.cons_append]
      -- the search has used up the mask or the name, so the loop ends
      rcases hend with hend | hend
      · rw [List.cons_append] at hend
        simp only [hend, loop_nil_left]
      · rw [List.cons_append] at hend
        simp only [hend, loop_nil_right]

/-! ## Where it is wrong -/

/-- The masks and names for which the result is not what the glob says. -/
inductive Misjudged (star : α) : List α → List α → Prop where
  /-- The first letter that differs is the last one of the mask but for stars. -/
  | differ {p m n : List α} {a b : α} : star ∉ p → a ≠ star → a ≠ b → OnlyStars star m →
      Misjudged star (p ++ a :: m) (p ++ b :: n)
  /-- The mask has no star, and the name goes on behind it. -/
  | longer {l t : List α} : star ∉ l → l ≠ [] → t ≠ [] → Misjudged star l (l ++ t)
  /-- The mask ends with its only text behind a star, which is in the name, but not at the end. -/
  | inside {l k g t : List α} : star ∉ l → OnlyStars star k → star ∉ g → g ≠ [] → g <:+: t →
      ¬g <:+ t → Misjudged star (l ++ star :: (k ++ g)) (l ++ t)
  /-- Two texts stand behind stars, and the name matches. -/
  | texts {l k g r t : List α} : star ∉ l → OnlyStars star k → star ∉ g → g ≠ [] →
      ¬OnlyStars star r → Glob star (l ++ star :: (k ++ (g ++ star :: r))) (l ++ t) →
      Misjudged star (l ++ star :: (k ++ (g ++ star :: r))) (l ++ t)

/-- The result is what the glob says. -/
def Judges (star : α) (mask s : List α) : Prop := Accepts star mask s ↔ Glob star mask s

theorem Misjudged.not_judges {mask s : List α} (h : Misjudged star mask s) :
    ¬Judges star mask s := by
  cases h with
  | differ hp ha hab hm =>
      intro h
      exact Glob.not_differ hp ha hab (h.1 ((accepts_append hp _ _).2 ((accepts_differ ha hab).2 hm)))
  | @longer l t hl hne ht =>
      intro h
      have haccepts := (accepts_append hl [] t).2 (accepts_nil t)
      rw [List.append_nil] at haccepts
      exact ht (by simpa using (Glob.literal_iff hl).1 (h.1 haccepts))
  | @inside l k g t hl hk hg hne hin hend =>
      obtain ⟨d, g, rfl⟩ := List.exists_cons_of_ne_nil hne
      intro h
      have haccepts := (accepts_text hk hg (r := []) (by simp) t).2 ⟨hin, by simp [OnlyStars]⟩
      rw [List.append_nil] at haccepts
      have hglob := h.1 ((accepts_append hl _ _).2 haccepts)
      rw [Glob.append_append_iff hl, Glob.stars_append_iff hk, Glob.star_literal_iff hg] at hglob
      exact hend hglob
  | @texts l k g r t hl hk hg hne hr hglob =>
      obtain ⟨d, g, rfl⟩ := List.exists_cons_of_ne_nil hne
      intro h
      have haccepts := (accepts_append hl _ _).1 (h.2 hglob)
      rw [accepts_text hk hg (by simp)] at haccepts
      exact hr (List.forall_mem_cons.1 haccepts.2).2

/-- What is behind the letters: nothing, or stars, or stars and a text, with nothing or a star behind
it. -/
inductive Rest (star : α) : List α → Prop where
  | none : Rest star []
  | stars {k : List α} : OnlyStars star k → Rest star (star :: k)
  | text {k g r : List α} {d : α} : OnlyStars star k → star ∉ d :: g →
      (∀ c ∈ r.head?, c = star) → Rest star (star :: (k ++ (d :: g ++ r)))

/-- A text is before its first star. -/
theorem exists_text {d : α} (hd : d ≠ star) (m : List α) : ∃ g r, d :: m = d :: g ++ r ∧
    star ∉ d :: g ∧ ∀ c ∈ r.head?, c = star := by
  rcases Pieces.first_separator star (d :: m) with hm | ⟨piece, r, hm, hpiece⟩
  · exact ⟨m, [], (List.append_nil _).symm, hm, by simp⟩
  · cases piece with
    | nil => exact absurd (List.cons.inj hm).1 hd
    | cons e piece =>
        obtain rfl := (List.cons.inj hm).1
        exact ⟨piece, star :: r, hm, hpiece, by simp⟩

theorem rest_star (star : α) (m : List α) : Rest star (star :: m) := by
  have hk : OnlyStars star (m.takeWhile (· = star)) := fun c hc => by
    simpa using List.mem_takeWhile_imp hc
  have hm := List.takeWhile_append_dropWhile (p := (· = star)) (l := m)
  cases htext : m.dropWhile (· = star) with
  | nil =>
      rw [htext, List.append_nil] at hm
      exact .stars (hm ▸ hk)
  | cons d m' =>
      have hd : d ≠ star := by
        have hhead := List.head?_dropWhile_not (· = star) m
        rw [htext] at hhead
        simpa using hhead
      obtain ⟨g, r, hsplit, hg, hr⟩ := exists_text hd m'
      rw [← hm, htext, hsplit]
      exact .text hk hg hr

theorem exists_rest (star : α) (mask : List α) : ∃ l rest, mask = l ++ rest ∧ star ∉ l ∧
    Rest star rest := by
  rcases Pieces.first_separator star mask with hmask | ⟨l, m, rfl, hl⟩
  · exact ⟨mask, [], (List.append_nil _).symm, hmask, .none⟩
  · exact ⟨l, _, rfl, hl, rest_star star m⟩

/-- The name begins with the letters. -/
theorem judges_rest {rest : List α} (hl : star ∉ l) (hne : l ++ rest ≠ []) (hrest : Rest star rest)
    (h : ¬Misjudged star (l ++ rest) (l ++ t)) : Accepts star rest t ↔ Glob star rest t := by
  cases hrest with
  | none =>
      rw [List.append_nil] at h hne
      have ht : t = [] := by
        by_contra ht
        exact h (.longer hl hne ht)
      exact ⟨fun _ => Glob.nil_iff.2 ht, fun _ => accepts_nil t⟩
  | stars hk =>
      have hstars : OnlyStars star (star :: _) := List.forall_mem_cons.2 ⟨rfl, hk⟩
      exact ⟨fun _ => Glob.onlyStars hstars (by simp), fun _ => accepts_stars hk t⟩
  | @text k g r d hk hg hr =>
      rw [accepts_text hk hg hr, Glob.stars_append_iff hk]
      cases r with
      | nil =>
          rw [List.append_nil] at h ⊢
          rw [Glob.star_literal_iff hg]
          constructor
          · rintro ⟨hin, -⟩
            by_contra hend
            exact h (.inside hl hk hg (by simp) hin hend)
          · exact fun hend => ⟨hend.isInfix, by simp [OnlyStars]⟩
      | cons c r =>
          obtain rfl := hr c rfl
          by_cases hstars : OnlyStars c r
          · have hall : OnlyStars c (c :: r) := List.forall_mem_cons.2 ⟨rfl, hstars⟩
            rw [Glob.star_literal_stars_iff hg hall (by simp)]
            exact and_iff_left hall
          · -- a second text: never accepted
            constructor
            · rintro ⟨-, hall⟩
              exact absurd (List.forall_mem_cons.1 hall).2 hstars
            · intro hglob
              refine absurd (.texts hl hk hg (by simp) hstars ?_) h
              rw [Glob.append_append_iff hl, Glob.stars_append_iff hk]
              exact hglob

/-- It is wrong there only. -/
theorem judges_of_not_misjudged {mask s : List α} (hne : mask ≠ [])
    (h : ¬Misjudged star mask s) : Judges star mask s := by
  obtain ⟨l, rest, rfl, hl, hrest⟩ := exists_rest star mask
  rcases text_cases l s with ⟨t, rfl⟩ | ⟨p, a, m, b, n, rfl, rfl, hab⟩ | ⟨c, m, rfl⟩
  · rw [Judges, accepts_append hl, Glob.append_append_iff hl]
    exact judges_rest hl hne hrest h
  · -- the name differs from the letters
    rw [List.mem_append, List.mem_cons, not_or, not_or] at hl
    have ha : a ≠ star := fun h => hl.2.1 h.symm
    rw [List.append_assoc, List.cons_append] at h ⊢
    have hnot := Glob.not_differ (m := m ++ rest) (n := n) hl.1 ha hab
    rw [Judges, accepts_append hl.1, accepts_differ ha hab]
    exact ⟨fun hm => absurd (.differ hl.1 ha hab hm) h, fun hglob => absurd hglob hnot⟩
  · -- it ends before them
    rw [List.mem_append, List.mem_cons, not_or, not_or] at hl
    have hc : c ≠ star := fun h => hl.2.1 h.symm
    have happend := accepts_append (t := []) hl.1 (c :: m ++ rest)
    have hglob := Glob.append_append_iff (m := c :: m ++ rest) (s := []) hl.1
    rw [List.append_nil] at happend hglob
    rw [Judges, List.append_assoc, happend, hglob, accepts_nil_right, List.cons_append]
    constructor
    · exact fun hstars => absurd hstars (not_onlyStars_cons hc)
    · intro hletter
      obtain ⟨t, ht, -⟩ := (Glob.letter_iff hc).1 hletter
      cases ht

omit [DecidableEq α] in
theorem Misjudged.ne_nil {mask s : List α} (h : Misjudged star mask s) : mask ≠ [] := by
  rintro rfl
  generalize hmask : ([] : List α) = mask at h
  cases h with
  | differ => exact absurd hmask (by simp)
  | longer _ hne => exact hne hmask.symm
  | inside => exact absurd hmask (by simp)
  | texts => exact absurd hmask (by simp)

/-- **Where `operator()` says whether the name matches.** For a mask that fits in the storage, exactly
on the masks and names that are not `Misjudged`. -/
theorem apply_iff_glob {mask : List α} (hlen : mask.length < nameMax) (s : List α) :
    ((new mask).apply star s = true ↔ mask = [] ∨ Glob star mask s) ↔ ¬Misjudged star mask s := by
  rw [apply_new_iff hlen.le]
  by_cases hne : mask = []
  · simp only [hne, true_or, true_iff]
    exact fun h => h.ne_nil rfl
  · simp only [hne, false_or]
    exact ⟨fun h hwrong => hwrong.not_judges h, judges_of_not_misjudged hne⟩

theorem apply_iff_glob_so : ((new "*.so".toList).apply '*' "libm.so".toList = true ↔
      "*.so".toList = [] ∨ Glob '*' "*.so".toList "libm.so".toList) ↔
    ¬Misjudged '*' "*.so".toList "libm.so".toList :=
  apply_iff_glob (by decide) _

/-- `*.so` takes a name that goes on behind `.so`. -/
theorem not_glob_of_apply_so : ¬((new "*.so".toList).apply '*' "libm.so.6".toList = true ↔
    "*.so".toList = [] ∨ Glob '*' "*.so".toList "libm.so.6".toList) := by
  intro h
  have hglob := (h.1 (by decide)).resolve_left (by decide)
  have hend := (Glob.star_literal_iff (g := ".so".toList) (by decide)).1 hglob
  exact absurd hend (by decide)

end MaskMatch

end ImageProxy.Cpcl
