import Mathlib.Data.List.TakeWhile
import ImageProxy.Library.Ascii
import ImageProxy.Library.QuotedSplit

set_option autoImplicit false

/-! # The fields of a record (`CsvReader::FieldIteratorImpl`)

A line is split at the commas with an even number of quotes before them. What is in quotes is taken
out of them, and with `replace_double_quotes` every pair of quotes in it becomes one. -/

namespace ImageProxy.Cpcl

open Ascii

/-- `CountChar`. -/
def countChar (s : Bytes) (c : UInt8) : ℕ := s.count c

/-- `ReplaceDoubleQuotes`: from the left, each pair of quotes is overwritten by one quote, behind
which the scan goes on. -/
def replaceDoubleQuotes : Bytes → Bytes
  | c :: d :: s =>
      if c = asc '"' ∧ d = asc '"' then c :: replaceDoubleQuotes s
      else c :: replaceDoubleQuotes (d :: s)
  | s => s

/-- `FieldIteratorImpl`: the bytes in `[head, tail)`. -/
structure FieldIterator where
  unread : Bytes
  replaceDoubleQuotes : Bool
  emptyField : Bool
deriving DecidableEq, Repr

namespace FieldIterator

/-- `FieldIteratorImpl(head, tail, replace_double_quotes)`. -/
def new (line : Bytes) (replaceDoubleQuotes : Bool) : FieldIterator where
  unread := line
  replaceDoubleQuotes := replaceDoubleQuotes
  emptyField := line.isEmpty || line.getLast? == some (asc ',')

/-- `for (i = tail - 1; i != head; --i) if ('"' == *i) break;`: what is before `i`. -/
def beforeLastQuote : Bytes → Bytes
  | [] => []
  | c :: s =>
      -- `i` stops at `head` if there is no quote behind it
      if s.contains (asc '"') then c :: (s.reverse.dropWhile (· ≠ asc '"')).tail.reverse else []

/-- `Trim`. -/
def trim (replace : Bool) (s : Bytes) : Bytes :=
  match s.dropWhile (· ≠ asc '"') with
  | [] => s
  | quote :: behind =>
      let s := beforeLastQuote (if behind.isEmpty then [quote] else behind)
      if replace then Cpcl.replaceDoubleQuotes s else s

/-- The loop of `Next`, with `i` before `rest` and `before` in `[head, i)`: the bytes for `Trim`, and
what is in `[head, tail)` after. `none` if `i` comes to `tail`. -/
def scan : (turns : ℕ) → (before : Bytes) → (quoteChars : ℕ) → (rest : Bytes) → Option (Bytes × Bytes)
  | 0, _, _, _ => none
  | turns + 1, before, quoteChars, rest =>
      if rest.isEmpty then none
      else
        let piece := rest.takeWhile (· ≠ asc ',')
        match rest.dropWhile (· ≠ asc ',') with
        | [] => some (before ++ rest, [])
        | comma :: rest =>
            let quoteChars := quoteChars + countChar piece (asc '"')
            if quoteChars % 2 = 0 then some (before ++ piece, rest)
            else scan turns (before ++ piece ++ [comma]) quoteChars rest

/-- `Next`: the field, and the iterator after; `none` if there is no more. -/
def next (it : FieldIterator) : Option (Bytes × FieldIterator) :=
  match scan (it.unread.length + 1) [] 0 it.unread with
  | some (piece, rest) => some (trim it.replaceDoubleQuotes piece, { it with unread := rest })
  | none => if it.emptyField then some ([], { it with emptyField := false }) else none

/-- What `Next` gives until it gives nothing. -/
def fieldsLoop : (turns : ℕ) → FieldIterator → List Bytes
  | 0, _ => []
  | turns + 1, it =>
      match it.next with
      | none => []
      | some (field, it) => field :: fieldsLoop turns it

/-- The fields of a line; every call but one takes a byte. -/
def fields (it : FieldIterator) : List Bytes := fieldsLoop (it.unread.length + 2) it

/-! ## Where the loop of `Next` stops -/

open QuotedSplit Pieces

theorem scan_of_not_mem {rest : Bytes} (h : asc ',' ∉ rest) (turns : ℕ) (before : Bytes)
    (quoteChars : ℕ) : scan (turns + 1) before quoteChars rest
      = if rest.isEmpty || rest.getLast? == some (asc ',') then none
        else some (before ++ rest, []) := by
  have hlast : (rest.getLast? == some (asc ',')) = false :=
    beq_eq_false_iff_ne.2 fun heq => h (List.mem_of_getLast? heq)
  simp only [scan, dropWhile_of_not_mem h, hlast, Bool.or_false]

theorem scan_comma {piece : Bytes} (h : asc ',' ∉ piece) (turns : ℕ) (before : Bytes)
    (quoteChars : ℕ) (behind : Bytes) :
    scan (turns + 1) before quoteChars (piece ++ asc ',' :: behind)
      = if (quoteChars + piece.count (asc '"')) % 2 = 0 then some (before ++ piece, behind)
        else scan turns (before ++ piece ++ [asc ','])
          (quoteChars + piece.count (asc '"')) behind := by
  have hne : (piece ++ asc ',' :: behind).isEmpty = false := by simp
  simp only [scan, countChar, hne, dropWhile_separator h, takeWhile_separator h, Bool.false_eq_true,
    if_false]

/-- The loop stops at the first comma outside of quotes. Behind the last byte it gives nothing, which
it does behind a comma in quotes, too. -/
theorem scan_eq (turns : ℕ) (before : Bytes) (quoteChars : ℕ) (rest : Bytes)
    (h : rest.length < turns) :
    (∀ p, cut (asc '"') (asc ',') (decide (quoteChars % 2 = 1)) rest = some p →
      scan turns before quoteChars rest = some (before ++ p.1, p.2)) ∧
    (cut (asc '"') (asc ',') (decide (quoteChars % 2 = 1)) rest = none →
      scan turns before quoteChars rest
        = if rest.isEmpty || rest.getLast? == some (asc ',') then none
          else some (before ++ rest, [])) := by
  refine cut_induction (P := fun quoteChars rest found => ∀ turns before, rest.length < turns →
    (∀ p, found = some p → scan turns before quoteChars rest = some (before ++ p.1, p.2)) ∧
    (found = none → scan turns before quoteChars rest
      = if rest.isEmpty || rest.getLast? == some (asc ',') then none
        else some (before ++ rest, [])))
    (by decide) ?last ?found ?inside quoteChars rest turns before h
  case last =>
    -- no comma: `Trim` gets all there is
    intro quoteChars rest hnot turns before h
    obtain ⟨turns, rfl⟩ : ∃ t, turns = t + 1 := ⟨turns - 1, by omega⟩
    rw [scan_of_not_mem hnot]
    exact ⟨fun p hp => absurd hp (by simp), fun _ => rfl⟩
  case found =>
    intro quoteChars piece behind hnot heven turns before h
    obtain ⟨turns, rfl⟩ : ∃ t, turns = t + 1 := ⟨turns - 1, by omega⟩
    rw [scan_comma hnot, if_pos heven]
    refine ⟨fun p hp => ?_, fun hnone => absurd hnone (by simp)⟩
    cases hp
    rfl
  case inside =>
    -- the comma is in quotes and goes to `before`
    intro quoteChars piece behind r hnot hodd ih turns before h
    obtain ⟨turns, rfl⟩ : ∃ t, turns = t + 1 := ⟨turns - 1, by omega⟩
    rw [List.length_append, List.length_cons] at h
    obtain ⟨hsome, hnone⟩ := ih turns (before ++ piece ++ [asc ',']) (by omega)
    rw [scan_comma hnot, if_neg hodd]
    constructor
    · intro p hp
      obtain ⟨q, hq, rfl⟩ := Option.map_eq_some_iff.1 hp
      rw [hsome q hq]
      simp
    · intro hr
      rw [hnone (Option.map_eq_none_iff.1 hr)]
      cases behind with
      | nil => simp
      | cons c behind => simp [List.getLast?_append]

end FieldIterator

/-! ## RFC 4180 -/

open QuotedSplit

/-- A field in quotes, with its own quotes doubled. -/
def quoted (field : Bytes) : Bytes := asc '"' :: (double (asc '"') field ++ [asc '"'])

/-- What a field may be written as: in quotes, or bare if nothing in it needs them. -/
inductive FieldText (field : Bytes) : Bytes → Prop
  | quoted : FieldText field (quoted field)
  | bare (h : ∀ c ∈ [asc '"', asc ',', asc '\r', asc '\n'], c ∉ field) : FieldText field field

/-- What a record may be written as, without its end of line. -/
inductive RecordText : List Bytes → Bytes → Prop
  | one {field text : Bytes} : FieldText field text → RecordText [field] text
  | more {field text : Bytes} {fields : List Bytes} {texts : Bytes} : FieldText field text →
      RecordText fields texts → RecordText (field :: fields) (text ++ asc ',' :: texts)

theorem FieldText.solid {field text : Bytes} (h : FieldText field text) {sep : UInt8}
    (hsep : sep = asc ',' ∨ sep = asc '\n') : Solid (asc '"') sep text := by
  have hne : sep ≠ asc '"' := by
    rcases hsep with rfl | rfl <;> decide
  cases h with
  | quoted => exact Solid.quoted hne field
  | bare h =>
      refine Solid.of_not_mem (h _ (by simp)) ?_
      rcases hsep with rfl | rfl
      · exact h _ (by simp)
      · exact h _ (by simp)

/-- A record has no end of line outside of quotes. -/
theorem RecordText.solid {fields : List Bytes} {text : Bytes} (h : RecordText fields text) :
    Solid (asc '"') (asc '\n') text := by
  induction h with
  | one h => exact h.solid (Or.inr rfl)
  | more h _ ih =>
      have hcomma : Solid (asc '"') (asc '\n') [asc ','] := Solid.of_not_mem (by decide) (by decide)
      exact (h.solid (Or.inr rfl)).append (hcomma.append ih)

/-! ## Reading it -/

theorem replaceDoubleQuotes_double (s : Bytes) :
    replaceDoubleQuotes (double (asc '"') s) = s := by
  induction s with
  | nil => rfl
  | cons c s ih =>
      unfold double at ih ⊢
      rw [List.flatMap_cons]
      split_ifs with hc
      · -- the pair becomes one quote, and the scan goes on behind it
        rw [hc, List.cons_append, List.singleton_append, replaceDoubleQuotes, if_pos ⟨rfl, rfl⟩, ih]
      · rw [List.singleton_append]
        cases hs : s.flatMap (fun c => if c = asc '"' then [asc '"', asc '"'] else [c]) with
        | nil =>
            rw [hs] at ih
            rw [← ih]
            rfl
        | cons d t =>
            rw [hs] at ih
            rw [replaceDoubleQuotes, if_neg fun h => hc h.1, ih]

namespace FieldIterator

theorem beforeLastQuote_append (s : Bytes) : beforeLastQuote (s ++ [asc '"']) = s := by
  cases s with
  | nil => rfl
  | cons c s => simp [beforeLastQuote]

/-- `Trim` gives back the field. -/
theorem trim_written {field text : Bytes} (h : FieldText field text) : trim true text = field := by
  cases h with
  | quoted =>
      have hquote : (quoted field).dropWhile (· ≠ asc '"')
          = asc '"' :: (double (asc '"') field ++ [asc '"']) := by
        simp [quoted]
      have hne : (double (asc '"') field ++ [asc '"']).isEmpty = false := by simp
      unfold trim
      rw [hquote]
      simp only [hne, Bool.false_eq_true, if_false, if_true, beforeLastQuote_append,
        replaceDoubleQuotes_double]
  | bare h =>
      have hnone : field.dropWhile (· ≠ asc '"') = [] :=
        Pieces.dropWhile_of_not_mem (h _ List.mem_cons_self)
      unfold trim
      rw [hnone]

theorem getLast?_written {field text : Bytes} (h : FieldText field text) {c : UInt8}
    (hc : c ∈ [asc ',', asc '\r', asc '\n']) : text.getLast? ≠ some c := by
  cases h with
  | quoted =>
      have hlast : (quoted field).getLast? = some (asc '"') := by
        rw [quoted, ← List.cons_append]
        exact List.getLast?_concat
      rw [hlast]
      intro heq
      cases heq
      exact absurd hc (by decide)
  | bare h => exact fun heq => h c (List.mem_cons_of_mem _ hc) (List.mem_of_getLast? heq)

/-- A comma at the end of a line is the comma before its last field. -/
theorem new_behind (text texts : Bytes) (replace : Bool) :
    { new (text ++ asc ',' :: texts) replace with unread := texts } = new texts replace := by
  cases texts with
  | nil => simp [new]
  | cons c texts =>
      have hlast : (text ++ asc ',' :: c :: texts).getLast? = (c :: texts).getLast? := by
        rw [List.getLast?_append, List.getLast?_cons_cons]
        rw [List.getLast?_eq_some_getLast (by simp), Option.some_or]
      have hne : (text ++ asc ',' :: c :: texts).isEmpty = false := by simp
      simp [new, hlast, hne]

/-- `Next` where a field ends at a comma. -/
theorem next_of_cut {it : FieldIterator} {a b : Bytes}
    (h : cut (asc '"') (asc ',') false it.unread = some (a, b)) :
    it.next = some (trim it.replaceDoubleQuotes a, { it with unread := b }) := by
  have hscan := (scan_eq (it.unread.length + 1) [] 0 it.unread (by omega)).1 (a, b) h
  unfold next
  rw [hscan]
  rfl

/-- `Next` in the last field. -/
theorem next_of_uncut {it : FieldIterator} (h : cut (asc '"') (asc ',') false it.unread = none)
    (hne : it.unread ≠ []) (hlast : it.unread.getLast? ≠ some (asc ',')) :
    it.next = some (trim it.replaceDoubleQuotes it.unread, { it with unread := [] }) := by
  have hscan := (scan_eq (it.unread.length + 1) [] 0 it.unread (by omega)).2 h
  rw [if_neg (by simp [hne, hlast]), List.nil_append] at hscan
  unfold next
  rw [hscan]

/-- `Next` behind the last byte. -/
theorem next_of_nil (replace emptyField : Bool) :
    next ⟨[], replace, emptyField⟩ = if emptyField then some ([], ⟨[], replace, false⟩) else none := rfl

/-- The fields of a line that is written as a record. -/
theorem fieldsLoop_written {fields : List Bytes} {text : Bytes} (h : RecordText fields text)
    {turns : ℕ} (hturns : text.length + 1 < turns) :
    fieldsLoop turns (new text true) = fields := by
  induction h generalizing turns with
  | @one field text h =>
      obtain ⟨turns, rfl⟩ : ∃ t, turns = t + 2 := ⟨turns - 2, by omega⟩
      have htrim := trim_written h
      cases text with
      | nil =>
          -- an empty line is one empty field
          have hfield : field = [] := htrim.symm
          rw [hfield]
          rfl
      | cons c text =>
          -- a written field does not end in a comma, so there is no empty field behind it
          have hlast := getLast?_written h (c := asc ',') (by simp)
          have hflag : (new (c :: text) true).emptyField = false := by
            simp [new, hlast]
          have huncut : cut (asc '"') (asc ',') false (new (c :: text) true).unread = none :=
            (h.solid (Or.inl rfl)).uncut
          have hnext := next_of_uncut huncut (by simp [new]) hlast
          have hend : { new (c :: text) true with unread := [] } = ⟨[], true, false⟩ := by
            rw [← hflag]
            rfl
          rw [hend] at hnext
          rw [fieldsLoop, hnext]
          show trim true (c :: text) :: fieldsLoop (turns + 1) _ = _
          rw [htrim, fieldsLoop, next_of_nil]
          rfl
  | @more field text fields texts h hrest ih =>
      obtain ⟨turns, rfl⟩ : ∃ t, turns = t + 1 := ⟨turns - 1, by omega⟩
      have hcut : cut (asc '"') (asc ',') false (new (text ++ asc ',' :: texts) true).unread
          = some (text, texts) := (h.solid (Or.inl rfl)).cut_at texts
      have hnext := next_of_cut hcut
      rw [new_behind] at hnext
      rw [List.length_append, List.length_cons] at hturns
      rw [fieldsLoop, hnext]
      show trim true text :: fieldsLoop turns (new texts true) = _
      rw [trim_written h, ih (by omega)]

theorem fields_written {fields : List Bytes} {text : Bytes} (h : RecordText fields text) :
    (new text true).fields = fields := fieldsLoop_written h (by simp [new])

end FieldIterator

end ImageProxy.Cpcl
