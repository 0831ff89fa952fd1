import ImageProxy.Cpcl.CsvFields

set_option autoImplicit false

/-! # Any line, split (`CsvReader::FieldIteratorImpl`)

The iterator knows from the start whether the line ends in a comma, and takes that for an empty field
behind it. If the comma is in quotes, the part that it ends is not given to `Trim`. -/

namespace ImageProxy.Cpcl

open Ascii QuotedSplit
open Pieces (first_separator dropWhile_separator)

namespace FieldIterator

/-- `Next` gives the fields, and then nothing. -/
inductive Enumerates : FieldIterator → List Bytes → Prop
  | done {it : FieldIterator} : it.next = none → Enumerates it []
  | field {it it' : FieldIterator} {field : Bytes} {fields : List Bytes} :
      it.next = some (field, it') → Enumerates it' fields → Enumerates it (field :: fields)

theorem Enumerates.unique {it : FieldIterator} {fields fields' : List Bytes}
    (h : Enumerates it fields) (h' : Enumerates it fields') : fields = fields' := by
  induction h generalizing fields' with
  | done hnext =>
      cases h' with
      | done => rfl
      | field hnext' => rw [hnext] at hnext'; exact absurd hnext' (by simp)
  | field hnext _ ih =>
      cases h' with
      | done hnext' => rw [hnext] at hnext'; exact absurd hnext' (by simp)
      | field hnext' hrest =>
          rw [hnext, Option.some.injEq, Prod.mk.injEq] at hnext'
          obtain ⟨rfl, rfl⟩ := hnext'
          rw [ih hrest]

/-- The field for a part: none of it if it ends in a comma. -/
def fieldOf (replace : Bool) (part : Bytes) : Bytes :=
  if part.getLast? = some (asc ',') then [] else trim replace part

/-- A part that is followed by a cut does not end in a comma. -/
theorem getLast?_of_cut {s a b : Bytes} (h : cut (asc '"') (asc ',') false s = some (a, b)) :
    a.getLast? ≠ some (asc ',') := by
  intro hlast
  obtain ⟨q, rfl⟩ := List.getLast?_eq_some_iff.1 hlast
  obtain ⟨-, hnone, heven⟩ := eq_of_cut h
  rw [oddAfter_of_uncut_concat (by decide) hnone] at heven
  exact absurd heven (by simp)

/-- A comma in quotes at the end: the empty field comes, and the part is passed over. -/
theorem next_of_uncut_comma {it : FieldIterator}
    (h : cut (asc '"') (asc ',') false it.unread = none)
    (hlast : it.unread.getLast? = some (asc ',')) :
    it.next = if it.emptyField then some ([], { it with emptyField := false }) else none := by
  have hscan := (scan_eq (it.unread.length + 1) [] 0 it.unread (by omega)).2 h
  rw [if_pos (by simp [hlast])] at hscan
  unfold next
  rw [hscan]

/-- What the iterator gives for any line. -/
theorem enumerates_fieldOf (line : Bytes) (replace : Bool) :
    Enumerates (new line replace) ((parts (asc '"') (asc ',') false line).map (fieldOf replace)) := by
  induction hlen : line.length using Nat.strongRecOn generalizing line with
  | ind len ih =>
      cases hcut : cut (asc '"') (asc ',') false line with
      | some p =>
          obtain ⟨a, b⟩ := p
          have hnext : (new line replace).next
              = some (trim replace a, { new line replace with unread := b }) := next_of_cut hcut
          have hbehind := new_behind a b replace
          rw [← (eq_of_cut hcut).1] at hbehind
          rw [hbehind] at hnext
          rw [parts_of_some hcut, List.map_cons, fieldOf, if_neg (getLast?_of_cut hcut)]
          exact .field hnext (ih b.length (by rw [← hlen, length_of_cut hcut]; omega) b rfl)
      | none =>
          rw [parts_of_none hcut, List.map_singleton, fieldOf]
          by_cases hlast : line.getLast? = some (asc ',')
          · rw [if_pos hlast]
            have hflag : (new line replace).emptyField = true := by simp [new, hlast]
            have hnext : (new line replace).next = if (new line replace).emptyField then
                some ([], { new line replace with emptyField := false }) else none :=
              next_of_uncut_comma hcut hlast
            rw [if_pos hflag] at hnext
            refine .field hnext (.done ?_)
            rw [next_of_uncut_comma hcut hlast]
            rfl
          · rw [if_neg hlast]
            cases line with
            | nil => exact .field (next_of_nil replace true) (.done (next_of_nil replace false))
            | cons c line =>
                have hnext : (new (c :: line) replace).next = some
                    (trim replace (c :: line), { new (c :: line) replace with unread := [] }) :=
                  next_of_uncut hcut (List.cons_ne_nil _ _) hlast
                have hflag : (new (c :: line) replace).emptyField = false := by simp [new, hlast]
                refine .field hnext (.done ?_)
                show (FieldIterator.mk [] replace (new (c :: line) replace).emptyField).next = none
                rw [hflag]
                exact next_of_nil replace false

theorem beforeLastQuote_eq_nil {s : Bytes} : beforeLastQuote s = [] ↔ asc '"' ∉ s.tail := by
  cases s with
  | nil => exact iff_of_true rfl List.not_mem_nil
  | cons c s =>
      rw [beforeLastQuote, List.tail_cons]
      split
      · next hmem => exact iff_of_false (List.cons_ne_nil _ _) fun h => h (by simpa using hmem)
      · next hmem => exact iff_of_true rfl (by simpa using hmem)

theorem replaceDoubleQuotes_eq_nil {s : Bytes} : Cpcl.replaceDoubleQuotes s = [] ↔ s = [] := by
  constructor
  · intro h
    match s with
    | [] => rfl
    | [c] => exact absurd h (List.cons_ne_nil _ _)
    | c :: d :: s =>
        rw [Cpcl.replaceDoubleQuotes] at h
        split at h
        · exact absurd h (List.cons_ne_nil _ _)
        · exact absurd h (List.cons_ne_nil _ _)
  · rintro rfl
    rfl

/-- Of a part that leaves a quote open, `Trim` leaves nothing only if that is its one quote. -/
theorem trim_eq_nil_iff {part : Bytes} (replace : Bool) (hodd : part.count (asc '"') % 2 = 1) :
    trim replace part = [] ↔ part.count (asc '"') ≤ 1 := by
  rcases first_separator (asc '"') part with hnot | ⟨piece, behind, rfl, hnot⟩
  · rw [List.count_eq_zero_of_not_mem hnot] at hodd
    omega
  · have hcount : (piece ++ asc '"' :: behind).count (asc '"') = behind.count (asc '"') + 1 := by
      rw [List.count_append, List.count_eq_zero_of_not_mem hnot, List.count_cons_self, Nat.zero_add]
    have htrim : trim replace (piece ++ asc '"' :: behind) = []
        ↔ asc '"' ∉ (if behind.isEmpty then [asc '"'] else behind).tail := by
      rw [trim, dropWhile_separator hnot]
      simp only
      split
      · rw [replaceDoubleQuotes_eq_nil, beforeLastQuote_eq_nil]
      · rw [beforeLastQuote_eq_nil]
    rw [htrim, hcount]
    rw [hcount] at hodd
    cases behind with
    | nil => exact iff_of_true List.not_mem_nil (Nat.le_refl _)
    | cons c behind =>
        simp only [List.isEmpty_cons, Bool.false_eq_true, if_false, List.tail_cons]
        rw [List.count_cons] at hodd ⊢
        by_cases hmem : asc '"' ∈ behind
        · have hpos : 0 < behind.count (asc '"') := List.count_pos_iff.2 hmem
          exact iff_of_false (not_not_intro hmem) (by omega)
        · rw [List.count_eq_zero_of_not_mem hmem] at hodd ⊢
          refine iff_of_true hmem ?_
          by_cases hc : (c == asc '"') = true
          · rw [if_pos hc] at hodd
            omega
          · rw [if_neg hc]

/-- A part that ends in a comma leaves a quote open. -/
theorem count_of_mem_parts {line part : Bytes}
    (hpart : part ∈ parts (asc '"') (asc ',') false line)
    (hlast : part.getLast? = some (asc ',')) : part.count (asc '"') % 2 = 1 := by
  obtain ⟨q, rfl⟩ := List.getLast?_eq_some_iff.1 hlast
  have hodd := oddAfter_of_uncut_concat (by decide) (uncut_of_mem_parts hpart)
  have hcount := oddAfter_count (asc '"') 0 (q ++ [asc ','])
  rw [Nat.zero_add] at hcount
  exact of_decide_eq_true (hcount.symm.trans hodd)

/-- The iterator gives some fields and ends, and they are those of the split line if and only if no
part that ends in a comma has more than one quote. -/
theorem enumerates_split_iff (line : Bytes) (replace : Bool) :
    (∃ fields, Enumerates (new line replace) fields) ∧
    (Enumerates (new line replace) ((parts (asc '"') (asc ',') false line).map (trim replace)) ↔
      ∀ part ∈ parts (asc '"') (asc ',') false line,
        part.getLast? = some (asc ',') → part.count (asc '"') ≤ 1) := by
  have hfields := enumerates_fieldOf line replace
  refine ⟨⟨_, hfields⟩, fun h part hpart hlast => ?_, fun h => ?_⟩
  · have hsame := List.map_inj_left.1 (hfields.unique h) part hpart
    rw [fieldOf, if_pos hlast] at hsame
    exact (trim_eq_nil_iff replace (count_of_mem_parts hpart hlast)).1 hsame.symm
  · have hsame : (parts (asc '"') (asc ',') false line).map (fieldOf replace)
        = (parts (asc '"') (asc ',') false line).map (trim replace) := by
      refine List.map_congr_left fun part hpart => ?_
      unfold fieldOf
      split
      · next hlast =>
          exact ((trim_eq_nil_iff replace (count_of_mem_parts hpart hlast)).2
            (h part hpart hlast)).symm
      · rfl
    rw [← hsame]
    exact hfields

/-- The line `"a"b",`: it is one part, and `Trim` makes `a"b` of it. -/
theorem not_enumerates_split_comma :
    parts (asc '"') (asc ',') false (lit "\"a\"b\",") = [lit "\"a\"b\","] ∧
    trim true (lit "\"a\"b\",") = lit "a\"b" ∧
    Enumerates (new (lit "\"a\"b\",") true) [[]] ∧
    ¬Enumerates (new (lit "\"a\"b\",") true) [lit "a\"b"] := by
  have hfields : Enumerates (new (lit "\"a\"b\",") true) [[]] :=
    enumerates_fieldOf (lit "\"a\"b\",") true
  exact ⟨by decide, by decide, hfields, fun h => absurd (hfields.unique h) (by decide)⟩

end FieldIterator

end ImageProxy.Cpcl
