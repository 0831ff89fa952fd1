import Mathlib.Logic.Function.Basic
import ImageProxy.Library.StepSystem

set_option autoImplicit false

/-! # Buffers that are swapped (`scoped_buf.hpp`)

`swap` exchanges everything but the static arrays, and the two may differ in length. The capacity is
exchanged too, also where it stands for the static array. -/

namespace ImageProxy

/-! ## The source -/

/-- The members of a `ScopedBuf<T, Count>`, also of the one with `Count` 0, which has no array. For
`p` stands the number of elements behind it. -/
structure ScopedBufMembers where
  count : ℕ
  p : Option ℕ
  pOwner : Bool
  pSize : ℕ
  pCapacity : ℕ
deriving DecidableEq

namespace ScopedBufMembers

/-- `ScopedBuf()`. -/
def new (count : ℕ) : ScopedBufMembers := ⟨count, none, true, 0, count⟩

/-- `Release`. -/
def release (b : ScopedBufMembers) : ScopedBufMembers :=
  { b with p := none, pCapacity := b.count, pSize := 0, pOwner := true }

/-- `Alloc` before it returns `Data()`. -/
def reserve (v : ℕ) (b : ScopedBufMembers) : ScopedBufMembers :=
  if b.pCapacity < v then
    if v > b.count then { b.release with p := some v, pCapacity := v, pSize := v }
    else { b.release with pSize := v }
  else { b with pSize := v }

/-- `Alloc`; `none` if the check in `Data` ends the process. -/
def alloc (v : ℕ) (b : ScopedBufMembers) : Option ScopedBufMembers :=
  if (b.reserve v).pSize = 0 then none else some (b.reserve v)

/-- `Alloc` when its `new` throws; `none` if it gets to no `new`. -/
def allocThrows (v : ℕ) (b : ScopedBufMembers) : Option ScopedBufMembers :=
  if b.pCapacity < v ∧ v > b.count then some b.release else none

/-- `Attach` with a pointer to `pSize` elements, or with `NULL`. -/
def attach (null : Bool) (pSize : ℕ) (b : ScopedBufMembers) : ScopedBufMembers :=
  { b.release with
    p := if null then none else some pSize, pCapacity := pSize, pSize := pSize, pOwner := false }

/-- The check in `l.swap(r)`. With `Count` 0 a buffer does not look at itself. -/
def SwapCheck (l r : ScopedBufMembers) : Prop :=
  (l.count = 0 ∨ l.p ≠ none ∨ l.pSize = 0) ∧ (r.p ≠ none ∨ r.pSize = 0)

instance (l r : ScopedBufMembers) : Decidable (l.SwapCheck r) :=
  inferInstanceAs (Decidable ((l.count = 0 ∨ l.p ≠ none ∨ l.pSize = 0) ∧ (r.p ≠ none ∨ r.pSize = 0)))

/-- What `b` is after an exchange with `other`. -/
def exchanged (b other : ScopedBufMembers) : ScopedBufMembers :=
  { b with p := other.p, pOwner := other.pOwner, pSize := other.pSize, pCapacity := other.pCapacity }

/-- The number of elements behind `Data()`. -/
def elements (b : ScopedBufMembers) : ℕ := b.p.getD b.count

end ScopedBufMembers

/-! ## Several buffers -/

open ScopedBufMembers

variable {ι : Type} [DecidableEq ι]

/-- A call on one of the buffers, or on two of them. -/
inductive ScopedBufCall (ι : Type)
  | alloc (i : ι) (v : ℕ)
  | allocThrows (i : ι) (v : ℕ)
  | attach (i : ι) (null : Bool) (pSize : ℕ)
  | release (i : ι)
  | swap (i j : ι)

namespace ScopedBufs

/-- A call; `none` if a check ends the process. -/
def step (bufs : ι → ScopedBufMembers) : ScopedBufCall ι → Option (ι → ScopedBufMembers)
  | .alloc i v => ((bufs i).alloc v).map (Function.update bufs i)
  | .allocThrows i v => ((bufs i).allocThrows v).map (Function.update bufs i)
  | .attach i null pSize => some (Function.update bufs i ((bufs i).attach null pSize))
  | .release i => some (Function.update bufs i (bufs i).release)
  | .swap i j =>
      if (bufs i).SwapCheck (bufs j) then
        some (Function.update (Function.update bufs i ((bufs i).exchanged (bufs j))) j
          ((bufs j).exchanged (bufs i)))
      else none

/-- Buffers with the static counts. -/
def new (count : ι → ℕ) : ι → ScopedBufMembers := fun i => .new (count i)

/-- `Size()` is no more than what is behind `Data()`, and without a block the capacity is the buffer's
own `Count`. -/
def WellSized (bufs : ι → ScopedBufMembers) : Prop :=
  ∀ i, (bufs i).pSize ≤ (bufs i).elements ∧ ((bufs i).p = none → (bufs i).pCapacity = (bufs i).count)

/-- `swap` has two blocks, or static arrays of one length; `Attach` has a pointer, or as many elements
as the static array. -/
def KeepsCapacity (bufs : ι → ScopedBufMembers) : ScopedBufCall ι → Prop
  | .swap i j => (bufs i).SwapCheck (bufs j) → (bufs i).p = none ∨ (bufs j).p = none →
      (bufs i).count = (bufs j).count
  | .attach i null pSize => null → pSize = (bufs i).count
  | .alloc _ _ | .allocThrows _ _ | .release _ => True

/-! ## The capacity is what is there -/

end ScopedBufs

namespace ScopedBufMembers

/-- The capacity is the number of elements behind `Data()`, and the size is no more. -/
structure Sound (b : ScopedBufMembers) : Prop where
  capacity_eq : b.pCapacity = b.elements
  size_le : b.pSize ≤ b.pCapacity

theorem sound_new (count : ℕ) : (new count).Sound := ⟨rfl, Nat.zero_le _⟩

theorem sound_release (b : ScopedBufMembers) : b.release.Sound := ⟨rfl, Nat.zero_le _⟩

theorem Sound.reserve {b : ScopedBufMembers} (h : b.Sound) (v : ℕ) : (b.reserve v).Sound := by
  unfold ScopedBufMembers.reserve
  split
  · split
    · exact ⟨rfl, Nat.le_refl _⟩
    · next hcount => exact ⟨rfl, Nat.not_lt.1 hcount⟩
  · next hcapacity => exact ⟨h.capacity_eq, Nat.not_lt.1 hcapacity⟩

/-- With `NULL` it takes the static array, and the length has to be that of the array. -/
theorem sound_attach {null : Bool} {pSize : ℕ} {b : ScopedBufMembers}
    (h : null → pSize = b.count) : (b.attach null pSize).Sound := by
  cases null with
  | false => exact ⟨rfl, Nat.le_refl _⟩
  | true => exact ⟨h rfl, Nat.le_refl _⟩

/-- What is taken over is as good as it was, unless it was the length of a static array. -/
theorem Sound.exchanged {other : ScopedBufMembers} (h : other.Sound) {b : ScopedBufMembers}
    (hcount : other.p = none → other.count = b.count) : (b.exchanged other).Sound := by
  refine ⟨?_, h.size_le⟩
  have hcapacity := h.capacity_eq
  unfold elements at hcapacity
  unfold ScopedBufMembers.exchanged elements
  cases hp : other.p with
  | none =>
      rw [hp] at hcapacity
      exact hcapacity.trans (hcount hp)
  | some n =>
      rw [hp] at hcapacity
      exact hcapacity

end ScopedBufMembers

namespace ScopedBufs

omit [DecidableEq ι] in
theorem wellSized_of_sound {bufs : ι → ScopedBufMembers} (h : ∀ i, (bufs i).Sound) :
    WellSized bufs := by
  intro i
  refine ⟨(h i).capacity_eq ▸ (h i).size_le, fun hp => ?_⟩
  rw [(h i).capacity_eq, elements, hp, Option.getD_none]

theorem sound_update {bufs : ι → ScopedBufMembers} (h : ∀ i, (bufs i).Sound) {i : ι}
    {b : ScopedBufMembers} (hb : b.Sound) : ∀ j, (Function.update bufs i b j).Sound := by
  intro j
  by_cases hij : j = i
  · rw [hij, Function.update_self]
    exact hb
  · rw [Function.update_of_ne hij]
    exact h j

theorem sound_step (bufs : ι → ScopedBufMembers) (call : ScopedBufCall ι)
    (bufs' : ι → ScopedBufMembers) (h : ∀ i, (bufs i).Sound) (hkeeps : KeepsCapacity bufs call)
    (hstep : step bufs call = some bufs') : ∀ i, (bufs' i).Sound := by
  cases call with
  | alloc i v =>
      obtain ⟨b, hb, rfl⟩ := Option.map_eq_some_iff.1 hstep
      unfold ScopedBufMembers.alloc at hb
      split at hb
      · exact absurd hb (by simp)
      · cases hb
        exact sound_update h ((h i).reserve v)
  | allocThrows i v =>
      obtain ⟨b, hb, rfl⟩ := Option.map_eq_some_iff.1 hstep
      unfold ScopedBufMembers.allocThrows at hb
      split at hb
      · cases hb
        exact sound_update h (sound_release _)
      · exact absurd hb (by simp)
  | attach i null pSize =>
      cases hstep
      exact sound_update h (sound_attach hkeeps)
  | release i =>
      cases hstep
      exact sound_update h (sound_release _)
  | swap i j =>
      rw [step] at hstep
      split at hstep
      · next hcheck =>
          cases hstep
          have hcounts := hkeeps hcheck
          exact sound_update
            (sound_update h ((h j).exchanged fun hp => (hcounts (.inr hp)).symm))
            ((h i).exchanged fun hp => hcounts (.inl hp))
      · exact absurd hstep (by simp)

/-- A swap that takes over the length of another static array is seen at once. -/
theorem keepsCapacity_of_wellSized (bufs : ι → ScopedBufMembers) (call : ScopedBufCall ι)
    (bufs' : ι → ScopedBufMembers) (h : ∀ i, (bufs i).Sound) (hstep : step bufs call = some bufs')
    (hsized : WellSized bufs') : KeepsCapacity bufs call := by
  cases call with
  | alloc i v | allocThrows i v | release i => trivial
  | attach i null pSize =>
      cases hstep
      intro hnull
      have hcapacity := (hsized i).2
      rw [Function.update_self, attach, if_pos hnull] at hcapacity
      exact hcapacity rfl
  | swap i j =>
      intro hcheck hnone
      rw [step, if_pos hcheck] at hstep
      cases hstep
      have hlength : ∀ k, (bufs k).p = none → (bufs k).pCapacity = (bufs k).count := by
        intro k hp
        rw [(h k).capacity_eq, elements, hp, Option.getD_none]
      by_cases hij : i = j
      · rw [hij]
      rcases hnone with hp | hp
      · have hcapacity := (hsized j).2
        rw [Function.update_self] at hcapacity
        exact (hlength i hp).symm.trans (hcapacity hp)
      · have hcapacity := (hsized i).2
        rw [Function.update_of_ne hij, Function.update_self] at hcapacity
        exact (hcapacity hp).symm.trans (hlength j hp)

theorem keepsCapacity_of_none (bufs : ι → ScopedBufMembers) (call : ScopedBufCall ι)
    (hstep : step bufs call = none) : KeepsCapacity bufs call := by
  cases call with
  | alloc i v | allocThrows i v | release i => trivial
  | attach i null pSize => exact absurd hstep (by simp [step])
  | swap i j =>
      intro hcheck
      rw [step, if_pos hcheck] at hstep
      exact absurd hstep (by simp)

/-- No buffer is ever longer than what is behind it exactly if every `swap` has two blocks or static
arrays of one length, and every `Attach` a block. -/
theorem wellSized_iff (count : ι → ℕ) (calls : List (ScopedBufCall ι)) :
    StepSystem.EveryState step WellSized (new count) calls
      ↔ StepSystem.EveryStep step KeepsCapacity (new count) calls :=
  StepSystem.everyState_iff_everyStep (fun _ => wellSized_of_sound) sound_step
    keepsCapacity_of_wellSized keepsCapacity_of_none fun i => sound_new (count i)

/-- `FillBuf` allocates `tmp`, which has no static array, releases `line_buf` and swaps the two: `tmp`
is left with the capacity of the array that it does not have. -/
theorem swap_of_fillBuf {n v : ℕ} (hn : 0 < n) (hv : 0 < v) :
    ∃ bufs, StepSystem.run step (new fun line : Bool => if line then n else 0)
        [.alloc true n, .alloc false v, .release true, .swap true false] = some bufs ∧
      bufs true = ⟨n, some v, true, v, v⟩ ∧ bufs false = ⟨0, none, true, 0, n⟩ := by
  simp [StepSystem.run, step, new, ScopedBufMembers.new, ScopedBufMembers.alloc, reserve, release,
    SwapCheck, ScopedBufMembers.exchanged, Nat.ne_of_gt hn, Nat.ne_of_gt hv, hv, Function.update]

/-- Two empty buffers of 8 and 4 elements are swapped; the smaller one then has room for 8. -/
theorem not_wellSized_swap :
    ¬StepSystem.EveryState step WellSized (new fun big : Bool => if big then 8 else 4)
      [.swap true false, .alloc false 8] := by
  intro h
  have hlast := (h.2 _ rfl).2 _ rfl
  exact absurd (hlast false).1 (by decide)

end ScopedBufs

end ImageProxy
