import Mathlib.Data.List.Basic
import Mathlib.Data.List.Induction

set_option autoImplicit false

/-! # Machines that answer

A machine takes an input, gives a result and goes to its next state: `step : σ → ι → ο × σ`. What a
user sees of it are the results of a list of inputs. Two machines that a relation holds together give
equal results, which is how an implementation is compared with a reference.

The relation need not be kept everywhere: `P` says in which states the implementation promises to keep
it, and the rule asks for `P` along the run. -/

namespace Transducer

variable {σ τ ι ο : Type}

/-- The results of the inputs in order, and the state after them. -/
def run (step : σ → ι → ο × σ) : σ → List ι → List ο × σ
  | s, [] => ([], s)
  | s, i :: is => ((step s i).1 :: (run step (step s i).2 is).1, (run step (step s i).2 is).2)

/-- `P` holds of every state the run goes through, the first and the last one included. -/
def EveryState (step : σ → ι → ο × σ) (P : σ → Prop) : σ → List ι → Prop
  | s, [] => P s
  | s, i :: is => P s ∧ EveryState step P (step s i).2 is

instance EveryState.decidable (step : σ → ι → ο × σ) (P : σ → Prop) [DecidablePred P] :
    (s : σ) → (is : List ι) → Decidable (EveryState step P s is)
  | s, [] => inferInstanceAs (Decidable (P s))
  | s, i :: is =>
      have := EveryState.decidable step P (step s i).2 is
      inferInstanceAs (Decidable (P s ∧ EveryState step P (step s i).2 is))

variable {step : σ → ι → ο × σ} {step' : τ → ι → ο × τ}

@[simp] theorem run_nil (s : σ) : run step s [] = ([], s) := rfl

@[simp] theorem run_cons (s : σ) (i : ι) (is : List ι) : run step s (i :: is)
    = ((step s i).1 :: (run step (step s i).2 is).1, (run step (step s i).2 is).2) := rfl

/-- Machines in related states give the same results, as long as one step from related states gives
the same result and leads to related states. -/
theorem run_eq_of_simulation {R : σ → τ → Prop} {P : σ → Prop}
    (hstep : ∀ s t i, R s t → P s →
      (step s i).1 = (step' t i).1 ∧ R (step s i).2 (step' t i).2)
    {s : σ} {t : τ} (hR : R s t) {is : List ι} (hP : EveryState step P s is) :
    (run step s is).1 = (run step' t is).1 ∧ R (run step s is).2 (run step' t is).2 := by
  induction is generalizing s t with
  | nil => exact ⟨rfl, hR⟩
  | cons i is ih =>
      obtain ⟨hresult, hR'⟩ := hstep s t i hR hP.1
      obtain ⟨hresults, hlast⟩ := ih hR' hP.2
      exact ⟨by simp only [run_cons, hresult, hresults], hlast⟩

/-! ## Several users of one machine

Each input comes from a user, and each user looks at the results of its own inputs; `view` says what it
looks at in a result. It sees what it would see alone exactly if every single input finds a state that
answers it as the state would that the user's own inputs lead to. -/

section Users

variable {H ω : Type}

/-- A step of the machine, with the user it was made for. -/
def stepFor (step : σ → ι → ο × σ) (s : σ) (e : H × ι) : (H × ο) × σ :=
  ((e.1, (step s e.2).1), (step s e.2).2)

/-- The state after the inputs, whoever they come from. -/
def after (step : σ → ι → ο × σ) (s : σ) (events : List (H × ι)) : σ :=
  (run step s (events.map Prod.snd)).2

theorem run_snoc_fst {σ ι ο : Type} (step : σ → ι → ο × σ) (s : σ) (is : List ι) (i : ι) :
    (run step s (is ++ [i])).1 = (run step s is).1 ++ [(step (run step s is).2 i).1] := by
  induction is generalizing s with
  | nil => rfl
  | cons j is ih =>
      simp only [List.cons_append, run_cons]
      rw [ih]

theorem run_stepFor_snd (s : σ) (events : List (H × ι)) :
    (run (stepFor step) s events).2 = after step s events := by
  induction events generalizing s with
  | nil => rfl
  | cons e events ih => exact ih (step s e.2).2

theorem append_toList_inj {a b : List ω} {x y : Option ω} (hxy : x.isSome = y.isSome) :
    a ++ x.toList = b ++ y.toList ↔ a = b ∧ x = y := by
  cases x <;> cases y <;> simp at hxy ⊢

variable [DecidableEq H]

/-- What the user `h` sees of the results. -/
def seenBy (view : ο → Option ω) (h : H) (results : List (H × ο)) : List ω :=
  results.filterMap fun r => if r.1 = h then view r.2 else none

/-- The inputs of the user `h`. -/
def inputsOf (h : H) (events : List (H × ι)) : List (H × ι) := events.filter fun e => e.1 = h

/-- Every user sees what it would see alone. -/
def SeenAlone (step : σ → ι → ο × σ) (view : ο → Option ω) (s : σ) (events : List (H × ι)) : Prop :=
  ∀ h, seenBy view h (run (stepFor step) s events).1
    = seenBy view h (run (stepFor step) s (inputsOf h events)).1

theorem seenBy_snoc (view : ο → Option ω) (h : H) (s : σ) (events : List (H × ι)) (e : H × ι) :
    seenBy view h (run (stepFor step) s (events ++ [e])).1
      = seenBy view h (run (stepFor step) s events).1
        ++ if e.1 = h then (view (step (after step s events) e.2).1).toList else [] := by
  rw [run_snoc_fst, run_stepFor_snd, seenBy, List.filterMap_append, seenBy]
  congr 1
  by_cases he : e.1 = h
  · cases hv : view (step (after step s events) e.2).1 <;> simp [stepFor, he, hv]
  · simp [stepFor, he]

/-- One more input. -/
theorem seenAlone_snoc {view : ο → Option ω}
    (hview : ∀ s t i, (view (step s i).1).isSome = (view (step t i).1).isSome) (s : σ)
    (events : List (H × ι)) (e : H × ι) :
    SeenAlone step view s (events ++ [e]) ↔ SeenAlone step view s events ∧
      view (step (after step s events) e.2).1
        = view (step (after step s (inputsOf e.1 events)) e.2).1 := by
  have hown : ∀ h, seenBy view h (run (stepFor step) s (inputsOf h (events ++ [e]))).1
      = seenBy view h (run (stepFor step) s (inputsOf h events)).1
        ++ if e.1 = h then (view (step (after step s (inputsOf h events)) e.2).1).toList else [] := by
    intro h
    rw [inputsOf, List.filter_append, ← inputsOf]
    by_cases he : e.1 = h
    · have hlast : [e].filter (fun e => e.1 = h) = [e] := by simp [he]
      rw [hlast, seenBy_snoc]
    · have hlast : [e].filter (fun e => e.1 = h) = [] := by simp [he]
      rw [hlast, List.append_nil, if_neg he, List.append_nil]
  constructor
  · intro hall
    have hself := hall e.1
    rw [seenBy_snoc, hown, if_pos rfl, if_pos rfl, append_toList_inj (hview ..)] at hself
    refine ⟨fun h => ?_, hself.2⟩
    by_cases he : e.1 = h
    · exact he ▸ hself.1
    · have hh := hall h
      rwa [seenBy_snoc, hown, if_neg he, if_neg he, List.append_nil, List.append_nil] at hh
  · rintro ⟨hall, hlast⟩ h
    rw [seenBy_snoc, hown, hall h]
    by_cases he : e.1 = h
    · subst he
      rw [if_pos rfl, if_pos rfl, hlast]
    · rw [if_neg he, if_neg he]

/-- Every user sees what it would see alone exactly if each input is answered as after the user's own
inputs. -/
theorem seenAlone_iff {view : ο → Option ω}
    (hview : ∀ s t i, (view (step s i).1).isSome = (view (step t i).1).isSome) (s : σ)
    (events : List (H × ι)) : SeenAlone step view s events ↔
      ∀ pre h i post, events = pre ++ (h, i) :: post →
        view (step (after step s pre) i).1 = view (step (after step s (inputsOf h pre)) i).1 := by
  induction events using List.reverseRecOn with
  | nil => simp [SeenAlone, inputsOf]
  | append_singleton events e ih =>
      rw [seenAlone_snoc hview, ih]
      constructor
      · rintro ⟨hbefore, hlast⟩ pre h i post heq
        rcases List.eq_nil_or_concat' post with rfl | ⟨post, e', rfl⟩
        · obtain ⟨rfl, he⟩ := List.append_inj' heq rfl
          cases he
          exact hlast
        · rw [← List.cons_append, ← List.append_assoc] at heq
          exact hbefore pre h i post (List.append_inj' heq rfl).1
      · intro hall
        exact ⟨fun pre h i post heq => hall pre h i (post ++ [e]) (by rw [heq]; simp),
          hall events e.1 e.2 [] rfl⟩

end Users

end Transducer
