import ImageProxy.Cpcl.CsvBuffers

set_option autoImplicit false

/-! # Reading what was written

A file as RFC 4180 has it, with any field in quotes and any end of line, gives back its fields, as long
as the reader gets to its last line. -/

namespace ImageProxy.Cpcl

open Ascii QuotedSplit

/-- What a list of records may be written as: each record ends with `\n` or `\r\n`. -/
inductive FileText : List (List Bytes) → Bytes → Prop
  | nil : FileText [] []
  | record {fields : List Bytes} {text eol : Bytes} {rs : List (List Bytes)} {content : Bytes} :
      RecordText fields text → eol ∈ [[asc '\n'], [asc '\r', asc '\n']] → FileText rs content →
      FileText (fields :: rs) (text ++ eol ++ content)

/-! ## The lines of a file -/

theorem RecordText.getLast?_ne {fields : List Bytes} {text : Bytes} (h : RecordText fields text) :
    text.getLast? ≠ some (asc '\r') := by
  induction h with
  | one h => exact FieldIterator.getLast?_written h (by simp)
  | @more field text fields texts h hrest ih =>
      cases texts with
      | nil =>
          rw [List.getLast?_concat]
          decide
      | cons c texts =>
          rw [List.getLast?_append, List.getLast?_cons_cons,
            List.getLast?_eq_some_getLast (by simp), Option.some_or]
          rwa [List.getLast?_eq_some_getLast (by simp)] at ih

/-- A written record is the first line of what it begins, without its end of line. -/
theorem RecordText.first_line {fields : List Bytes} {text eol : Bytes} (h : RecordText fields text)
    (heol : eol ∈ [[asc '\n'], [asc '\r', asc '\n']]) (content : Bytes) : ∃ line,
      cut (asc '"') (asc '\n') false (text ++ eol ++ content) = some (line, content) ∧
      recordLine (line, true) = text := by
  simp only [List.mem_cons, List.not_mem_nil, or_false] at heol
  rcases heol with rfl | rfl
  · refine ⟨text, ?_, ?_⟩
    · rw [List.append_assoc]
      exact h.solid.cut_at content
    · exact if_neg fun hcr => h.getLast?_ne hcr.2
  · have hcr : Solid (asc '"') (asc '\n') [asc '\r'] := Solid.of_not_mem (by decide) (by decide)
    refine ⟨text ++ [asc '\r'], ?_, ?_⟩
    · have hline := (h.solid.append hcr).cut_at content
      simpa using hline
    · unfold recordLine
      rw [if_pos ⟨rfl, List.getLast?_concat⟩]
      exact List.dropLast_concat

/-- The records of a file are its lines. -/
theorem fieldsOf_written {rs : List (List Bytes)} {content : Bytes} (h : FileText rs content) :
    fieldsOf true content = rs := by
  induction h with
  | nil => rfl
  | @record fields text eol rs content hrecord heol _ ih =>
      obtain ⟨line, hcut, hline⟩ := hrecord.first_line heol content
      unfold fieldsOf at ih ⊢
      rw [CsvReader.recordsOf_of_cut hcut, List.map_cons, ih, hline, FieldIterator.fields_written hrecord]

namespace CsvReader

variable {σ : Type} {N : ℕ} {src : ByteSource σ}

/-- `Read` is asked for the free part of the buffer, or the bytes that are not asked for leave the
last line as it is. -/
def Harmless (N : ℕ) (src : ByteSource σ) (replaceDoubleQuotes : Bool) (f : CsvReader σ) : Prop :=
  f.free N < 2 ^ 32 ∨
    Unchanged replaceDoubleQuotes (f.unread ++ (src.rest f.stream).take (f.free N % 2 ^ 32))
      ((src.rest f.stream).drop (f.free N % 2 ^ 32))

/-- Where the input is lost, that is what the bytes that are left say. -/
theorem harmless_iff (hfills : src.Fills) {replaceDoubleQuotes : Bool} {f : CsvReader σ}
    (hinput : f.input = true) (hshort : (f.fillBuf N src).input = false) :
    Harmless N src replaceDoubleQuotes f ↔ Unchanged replaceDoubleQuotes (f.fillBuf N src).unread
      (src.rest (f.fillBuf N src).stream) := by
  obtain ⟨hunread, hleft, -⟩ := fillBuf_of_fills (N := N) hfills hinput
  rw [hunread, hleft]
  unfold Harmless
  constructor
  · rintro (hsmall | hunchanged)
    · have hgone := ((asked_iff hfills hinput).1 (Or.inl hsmall)).resolve_left (by simp [hshort])
      rw [← hleft, hgone]
      exact Or.inl rfl
    · exact hunchanged
  · exact Or.inr

/-- **A written file is read back** exactly if each call of `FillBuf` is harmless. -/
theorem fieldsRead_written_iff (hfills : src.Fills) (hN : 2 ≤ N) {s : σ} {rs : List (List Bytes)}
    (h : FileText rs (src.rest s)) :
    fieldsRead N src s true = some rs ↔ ∀ f, Fills N src s true f → Harmless N src true f := by
  have hwritten := fieldsOf_written h
  -- the call that loses the input decides
  have hlost : ∀ f, Fills N src s true f → (f.fillBuf N src).input = false →
      (fieldsRead N src s true = some rs ↔ Harmless N src true f) := by
    intro f hf hshort
    obtain ⟨D, hD, hread, hunchanged⟩ := fieldsRead_at hN hf hshort
    rw [harmless_iff hfills (hf.room hN).1 hshort, ← hunchanged, ← hD, hwritten, hread,
      Option.some_inj]
    exact eq_comm
  constructor
  · intro hrun f hf
    cases hfull : (f.fillBuf N src).input with
    | false => exact (hlost f hf hfull).1 hrun
    | true =>
        have hinput := (hf.room hN).1
        exact Or.inl ((fillBuf_of_fills hfills hinput).2.2.1 hfull).1
  · intro hall
    obtain ⟨f, hf, hshort⟩ := exists_fills_short hN src s true
    exact (hlost f hf hshort).2 (hall f hf)

/-- A bare field, an empty one and one in quotes with a line break. -/
def sampleFile : Bytes :=
  [asc 'a', asc ',', asc ',', asc '"', asc '\n', asc '"', asc '"', asc '"', asc '\r', asc '\n']

theorem sampleFile_text : FileText [[[asc 'a'], [], [asc '\n', asc '"']]] sampleFile := by
  have ha : FieldText [asc 'a'] [asc 'a'] := .bare (by simp [asc])
  have hempty : FieldText [] [] := .bare (by simp)
  have hquoted : FieldText [asc '\n', asc '"'] (quoted [asc '\n', asc '"']) := .quoted
  have hrecord := RecordText.more ha (.more hempty (.one hquoted))
  have heol : [asc '\r', asc '\n'] ∈ [[asc '\n'], [asc '\r', asc '\n']] := by simp
  exact .record hrecord heol .nil

/-- It is read back through a buffer of two bytes. -/
theorem fieldsRead_sampleFile : FileText [[[asc 'a'], [], [asc '\n', asc '"']]] sampleFile ∧
    fieldsRead 2 .ofBytes sampleFile true = some [[[asc 'a'], [], [asc '\n', asc '"']]] := by
  refine ⟨sampleFile_text, ?_⟩
  refine (fieldsRead_written_iff (s := sampleFile) ofBytes_fills (by decide) sampleFile_text).2 ?_
  intro f hf
  have hbound := (hf.room (by decide)).2.bound
  have hlen : (ByteSource.ofBytes.rest sampleFile).length = 10 := rfl
  left
  unfold free
  omega

/-- It is not through a buffer of 2 ^ 32 bytes. -/
theorem not_fieldsRead_max : ByteSource.ofBytes.Fills ∧
    FileText [[[asc 'a'], [], [asc '\n', asc '"']]] sampleFile ∧
    fieldsRead (2 ^ 32) .ofBytes sampleFile true ≠ some [[[asc 'a'], [], [asc '\n', asc '"']]] :=
  ⟨ofBytes_fills, sampleFile_text, by decide +kernel⟩

end CsvReader

end ImageProxy.Cpcl
