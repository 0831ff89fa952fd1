import Mathlib.Data.List.Lex
import ImageProxy.Library.Ascii

set_option autoImplicit false

/-! # Numbers in fields of fixed width

Numbers with as many digits as their fields are wide are in the order of the texts, one number or
several of them one behind the other, and can be read back from the text. -/

namespace FixedWidth

open Ascii (digit lastDigits)

theorem append_lt_append {a b : Bytes} (hlen : a.length = b.length) (h : a < b) (x y : Bytes) :
    a ++ x < b ++ y := by
  induction a generalizing b with
  | nil =>
      rw [List.length_nil] at hlen
      rw [List.length_eq_zero_iff.1 hlen.symm] at h
      exact absurd h (List.lt_irrefl _)
  | cons c a ih =>
      cases b with
      | nil => exact absurd hlen (Nat.succ_ne_zero _)
      | cons d b =>
          rw [List.cons_append, List.cons_append, List.cons_lt_cons_iff]
          rcases List.cons_lt_cons_iff.1 h with hlt | ⟨heq, hlt⟩
          · exact .inl hlt
          · exact .inr ⟨heq, ih (Nat.succ.inj hlen) hlt⟩

theorem digit_lt {d e : ℕ} (h : d < e) (he : e < 10) : digit d < digit e := by
  revert d
  revert e
  decide

theorem lastDigits_lt {k n m : ℕ} (h : n < m) (hm : m < 10 ^ k) :
    lastDigits 10 k n < lastDigits 10 k m := by
  induction k generalizing n m with
  | zero =>
      rw [Nat.pow_zero] at hm
      omega
  | succ k ih =>
      rw [lastDigits, lastDigits]
      rcases Nat.lt_or_eq_of_le (Nat.div_le_div_right (c := 10) (Nat.le_of_lt h)) with hlt | heq
      · refine append_lt_append (by simp) (ih hlt ?_) _ _
        rw [Nat.pow_succ] at hm
        omega
      · rw [heq]
        refine List.append_left_lt (List.cons_lt_cons_iff.2 (.inl (digit_lt ?_ ?_)))
        · omega
        · omega

/-- The last of several numbers may be replaced by a monotone function of it. -/
theorem concat_le_of_monotone {f : ℕ → ℕ} (hf : ∀ u v, u ≤ v → f u ≤ f v) {ns ms : List ℕ}
    (hlen : ns.length = ms.length) {u v : ℕ} (h : ns ++ [u] ≤ ms ++ [v]) :
    ns ++ [f u] ≤ ms ++ [f v] := by
  rcases lt_or_eq_of_le h with hlt | heq
  · induction ns generalizing ms with
    | nil =>
        rw [List.length_eq_zero_iff.1 hlen.symm] at hlt ⊢
        rcases List.cons_lt_cons_iff.1 hlt with huv | ⟨-, hnil⟩
        · rcases Nat.lt_or_eq_of_le (hf u v (Nat.le_of_lt huv)) with hless | heq
          · exact le_of_lt (List.cons_lt_cons_iff.2 (.inl hless))
          · rw [heq]
        · exact absurd hnil (List.lt_irrefl _)
    | cons n ns ih =>
        cases ms with
        | nil => exact absurd hlen (Nat.succ_ne_zero _)
        | cons m ms =>
            rcases List.cons_lt_cons_iff.1 hlt with hnm | ⟨rfl, hrest⟩
            · exact le_of_lt (List.cons_lt_cons_iff.2 (.inl hnm))
            · rcases lt_or_eq_of_le (ih (Nat.succ.inj hlen) (le_of_lt hrest) hrest) with hless | heq
              · exact le_of_lt (List.cons_lt_cons_iff.2 (.inr ⟨rfl, hless⟩))
              · rw [List.cons_append, heq, List.cons_append]
  · obtain ⟨hns, huv⟩ := List.append_inj' heq rfl
    rw [hns, (List.cons.inj huv).1]

/-- The numbers, each in its field and with a text behind it. -/
def fields : (widths : List (ℕ × Bytes)) → List ℕ → Bytes
  | (width, behind) :: widths, n :: ns => lastDigits 10 width n ++ behind ++ fields widths ns
  | _, _ => []

/-- There is a number for each field, and it fits. -/
def Fits (widths : List (ℕ × Bytes)) (ns : List ℕ) : Prop :=
  List.Forall₂ (fun width n => n < 10 ^ width.1) widths ns

theorem fields_lt {widths : List (ℕ × Bytes)} {ns ms : List ℕ} (hns : Fits widths ns)
    (hms : Fits widths ms) (h : ns < ms) : fields widths ns < fields widths ms := by
  induction hns generalizing ms with
  | nil =>
      cases hms
      exact absurd h (List.lt_irrefl _)
  | @cons width n widths ns hn _ ih =>
      cases hms with
      | @cons _ m _ ms hm hrest =>
          rw [fields, fields]
          rcases List.cons_lt_cons_iff.1 h with hlt | ⟨rfl, hlt⟩
          · rw [List.append_assoc, List.append_assoc]
            exact append_lt_append (by simp) (lastDigits_lt hlt hm) _ _
          · exact List.append_left_lt (ih hrest hlt)

theorem fields_le {widths : List (ℕ × Bytes)} {ns ms : List ℕ} (hns : Fits widths ns)
    (hms : Fits widths ms) (h : ns ≤ ms) : fields widths ns ≤ fields widths ms := by
  rcases lt_or_eq_of_le h with hlt | rfl
  · exact List.le_of_lt (fields_lt hns hms hlt)
  · exact List.le_refl _

theorem fields_injective {widths : List (ℕ × Bytes)} {ns ms : List ℕ} (hns : Fits widths ns)
    (hms : Fits widths ms) (h : fields widths ns = fields widths ms) : ns = ms := by
  rcases lt_trichotomy ns ms with hlt | heq | hgt
  · have hless := fields_lt hns hms hlt
    rw [h] at hless
    exact absurd hless (List.lt_irrefl _)
  · exact heq
  · have hless := fields_lt hms hns hgt
    rw [h] at hless
    exact absurd hless (List.lt_irrefl _)

end FixedWidth
