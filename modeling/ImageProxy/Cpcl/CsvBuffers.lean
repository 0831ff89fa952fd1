import ImageProxy.Cpcl.CsvRun

set_option autoImplicit false

/-! # The size of the buffer does not change the records

With a stream that fills each `Read`, the reader loses nothing as long as the free part of its buffer
is below 2 ^ 32, or the truncated size still covers what is left. So two readers with buffers of
different sizes give the same records. -/

namespace ImageProxy.Cpcl

open Ascii QuotedSplit

namespace CsvReader

variable {σ : Type} {N L : ℕ} {src : ByteSource σ}

/-! ## One call of `FillBuf` on a stream that fills each `Read` -/

/-- `Read` is asked for the free part of the buffer, or for all that is left at least. -/
def Asked (N : ℕ) (src : ByteSource σ) (f : CsvReader σ) : Prop :=
  f.free N < 2 ^ 32 ∨ (src.rest f.stream).length ≤ f.free N % 2 ^ 32

/-- What `FillBuf` reads, and what it leaves. -/
theorem fillBuf_of_fills (hfills : src.Fills) {f : CsvReader σ} (hinput : f.input = true) :
    (f.fillBuf N src).unread = f.unread ++ (src.rest f.stream).take (f.free N % 2 ^ 32) ∧
      src.rest (f.fillBuf N src).stream = (src.rest f.stream).drop (f.free N % 2 ^ 32) ∧
      ((f.fillBuf N src).input = true ↔
        f.free N < 2 ^ 32 ∧ f.free N ≤ (src.rest f.stream).length) := by
  have hread := hfills f.stream (.ofNat (f.free N))
  have hrest := src.read_append_rest f.stream (.ofNat (f.free N))
  rw [UInt32.toNat_ofNat'] at hread
  have hleft : src.rest (src.read f.stream (.ofNat (f.free N))).2
      = (src.rest f.stream).drop (f.free N % 2 ^ 32) := by
    rw [hread] at hrest
    exact List.append_cancel_left (hrest.trans (List.take_append_drop _ _).symm)
  rw [fillBuf_of_input hinput]
  refine ⟨by rw [hread], hleft, ?_⟩
  show decide ((src.read f.stream (.ofNat (f.free N))).1.length = f.free N) = true ↔ _
  rw [decide_eq_true_iff, hread, List.length_take]
  have hlt := Nat.mod_lt (f.free N) (by decide : 0 < 2 ^ 32)
  constructor
  · intro h
    omega
  · rintro ⟨hsmall, hle⟩
    rw [Nat.mod_eq_of_lt hsmall, Nat.min_eq_left hle]

/-- A call with the whole free part asked for fills the buffer or ends the stream. -/
theorem asked_iff (hfills : src.Fills) {f : CsvReader σ} (hinput : f.input = true) :
    Asked N src f ↔
      (f.fillBuf N src).input = true ∨ src.rest (f.fillBuf N src).stream = [] := by
  obtain ⟨-, hleft, hfull⟩ := fillBuf_of_fills (N := N) hfills hinput
  rw [hfull, hleft, List.drop_eq_nil_iff]
  unfold Asked
  constructor
  · rintro (hsmall | hle)
    · rw [Nat.mod_eq_of_lt hsmall]
      omega
    · exact Or.inr hle
  · rintro (⟨hsmall, -⟩ | hle)
    · exact Or.inl hsmall
    · exact Or.inr hle

/-! ## Every state between two calls of `Next` -/

/-- The states after the constructor and after each call of `Next`, also behind the end. -/
inductive Between (N : ℕ) (src : ByteSource σ) (s : σ) (replaceDoubleQuotes : Bool) :
    CsvReader σ → Prop
  | new : Between N src s replaceDoubleQuotes (new N src s replaceDoubleQuotes)
  | next {r r' : CsvReader σ} {o : Option FieldIterator} : Between N src s replaceDoubleQuotes r →
      r.next N src = some (o, r') → Between N src s replaceDoubleQuotes r'

variable {s : σ} {replaceDoubleQuotes : Bool}

theorem Between.inv (hN : 2 ≤ N) {r : CsvReader σ} (h : Between N src s replaceDoubleQuotes r) :
    Inv N src (src.rest s).length r := by
  induction h with
  | new => exact inv_new hN src s replaceDoubleQuotes
  | next _ hnext ih =>
      obtain ⟨o, r', u, hnext', hinv, -⟩ := next_spec ih
      rw [hnext] at hnext'
      cases hnext'
      exact hinv

/-- As long as there is an input, the next calls are calls of the run from the constructor. -/
theorem Between.fills (hN : 2 ≤ N) {r f : CsvReader σ} (h : Between N src s replaceDoubleQuotes r)
    (hf : FillsFrom N src r f) : Fills N src s replaceDoubleQuotes f := by
  induction h generalizing f with
  | new => exact .next hf
  | @next r r' o h hnext ih =>
      obtain ⟨o, r', u, hnext', -, hleaves, -⟩ := next_spec (h.inv hN)
      rw [hnext] at hnext'
      cases hnext'
      -- a call that keeps the input has returned a record
      have hinput := hf.input
      cases hleaves with
      | record hcut hunread => exact ih (.later hnext hf)
      | last hcut hne hunread hend => exact absurd (hinput.symm.trans hend) (by simp)
      | eof hu hunread hend => exact absurd (hinput.symm.trans hend) (by simp)

/-- Once the input is lost, nothing is left of the stream. -/
theorem Between.rest_eq_nil (hfills : src.Fills) (hN : 2 ≤ N)
    (hasked : ∀ f, Fills N src s replaceDoubleQuotes f → Asked N src f) {r : CsvReader σ}
    (h : Between N src s replaceDoubleQuotes r) (hend : r.input = false) :
    src.rest r.stream = [] := by
  induction h with
  | new =>
      have hcases := (asked_iff hfills rfl).1 (hasked _ .new)
      have hshort : ((alloc N s replaceDoubleQuotes).fillBuf N src).input = false := hend
      exact hcases.resolve_left (by simp [hshort])
  | @next r r' o h hnext ih =>
      cases hinput : r.input with
      | false =>
          rw [(next_of_no_input hinput hnext).1]
          exact ih hinput
      | true =>
          -- the call that loses the input was asked for what was left
          obtain ⟨f, hf, hshort⟩ := exists_refills_next hnext hinput hend
          obtain ⟨-, hin, -, hcases⟩ := refills_next hf (h.inv hN) hnext
          have hgone := (asked_iff hfills hin).1 (hasked f (h.fills hN (.now hf)))
          rw [(hcases.resolve_left (by simp [hshort])).2]
          exact hgone.resolve_left (by simp [hshort])

/-- The call that reports the end. -/
theorem Between.exists_finish {r e : CsvReader σ} {its : List FieldIterator}
    (h : Between N src s replaceDoubleQuotes r) (hrun : Run N src r its e) :
    ∃ r', Between N src s replaceDoubleQuotes r' ∧ r'.next N src = some (none, e) := by
  induction hrun with
  | stop hnext => exact ⟨_, h, hnext⟩
  | record hnext _ ih => exact ih (.next h hnext)

/-! ## Every byte is taken -/

/-- What may end a record: nothing at the end of the stream, `\n` or `\r\n`. -/
def endsOfLine : List Bytes := [[], [asc '\n'], [asc '\r', asc '\n']]

/-- A record and what ends it are the line and its `\n`. -/
theorem recordLine_append (line : Bytes) : ∃ e ∈ endsOfLine,
    line ++ [asc '\n'] = recordLine (line, true) ++ e := by
  unfold recordLine
  split_ifs with hcr
  · refine ⟨[asc '\r', asc '\n'], by simp [endsOfLine], ?_⟩
    have hline : line.dropLast ++ [asc '\r'] = line :=
      List.dropLast_append_getLast? (asc '\r') hcr.2
    show line ++ [asc '\n'] = line.dropLast ++ ([asc '\r'] ++ [asc '\n'])
    rw [← List.append_assoc, hline]
  · exact ⟨[asc '\n'], by simp [endsOfLine], rfl⟩

/-- The calls of `Next` end, `FillBuf` has room and keeps the unread bytes, and each byte of the stream
is taken once, by the call for its record. -/
structure ReadsAll (N : ℕ) (src : ByteSource σ) (s : σ) (replaceDoubleQuotes : Bool) : Prop where
  terminates : ∀ r, Between N src s replaceDoubleQuotes r → ∃ o r', r.next N src = some (o, r')
  room : ∀ f, Fills N src s replaceDoubleQuotes f → f.unread.length < (f.fillBuf N src).size
  grows : ∀ f, Fills N src s replaceDoubleQuotes f →
    if f.unread ≠ [] ∧ f.head = 0 then f.size < (f.fillBuf N src).size
    else (f.fillBuf N src).size = f.size
  keeps : ∀ f, Fills N src s replaceDoubleQuotes f → f.unread <+: (f.fillBuf N src).unread
  start : pending src (new N src s replaceDoubleQuotes) = src.rest s
  record : ∀ r it r', Between N src s replaceDoubleQuotes r → r.next N src = some (some it, r') →
    ∃ e ∈ endsOfLine, pending src r = it.unread ++ e ++ pending src r'
  finish : ∀ r r', Between N src s replaceDoubleQuotes r → r.next N src = some (none, r') →
    pending src r = []

theorem size_fillBuf {f : CsvReader σ} (hinput : f.input = true) :
    (f.fillBuf N src).size = f.sizeToFill N := by
  rw [fillBuf_of_input hinput]

theorem Between.record (hN : 2 ≤ N) {r r' : CsvReader σ} {it : FieldIterator}
    (h : Between N src s replaceDoubleQuotes r) (hnext : r.next N src = some (some it, r')) :
    ∃ e ∈ endsOfLine, pending src r = it.unread ++ e ++ pending src r' := by
  obtain ⟨o, r₁, u, hnext₁, -, hleaves, hpending, -⟩ := next_spec (h.inv hN)
  rw [hnext] at hnext₁
  cases hnext₁
  cases hleaves with
  | @record line behind r' hcut hunread =>
      obtain ⟨e, he, hline⟩ := recordLine_append line
      refine ⟨e, he, ?_⟩
      show pending src r = recordLine (line, true) ++ e ++ pending src r'
      rw [← hline, hpending, (eq_of_cut hcut).1, pending, hunread]
      simp
  | last hcut hne hunread hend =>
      refine ⟨[], by simp [endsOfLine], ?_⟩
      show pending src r = u ++ [] ++ pending src r'
      rw [hpending, pending, hunread]
      simp

theorem readsAll (hfills : src.Fills) (hN : 2 ≤ N)
    (hasked : ∀ f, Fills N src s replaceDoubleQuotes f → Asked N src f) :
    ReadsAll N src s replaceDoubleQuotes where
  terminates r h := by
    obtain ⟨o, r', u, hnext, -⟩ := next_spec (h.inv hN)
    exact ⟨o, r', hnext⟩
  room f hf := by
    obtain ⟨hinput, hroom⟩ := hf.room hN
    rw [size_fillBuf hinput]
    exact hroom.free
  grows f hf := by
    obtain ⟨hinput, hroom⟩ := hf.room hN
    rw [size_fillBuf hinput]
    split_ifs with hgrow
    · exact hroom.grows hgrow
    · exact if_neg hgrow
  keeps f hf := by
    rw [fillBuf_of_input (hf.room hN).1]
    exact List.prefix_append _ _
  start := pending_fillBuf src _
  record r it r' h hnext := h.record hN hnext
  finish r r' h hnext := by
    obtain ⟨o, r₁, u, hnext₁, -, hleaves, hpending, -⟩ := next_spec (h.inv hN)
    rw [hnext] at hnext₁
    cases hnext₁
    cases hleaves with
    | eof hu hunread hend =>
        rw [hpending, hu, (Between.next h hnext).rest_eq_nil hfills hN hasked hend]
        rfl

/-- A reader that takes every byte has asked for what was left of the stream. -/
theorem ReadsAll.asked (h : ReadsAll N src s replaceDoubleQuotes) (hfills : src.Fills) (hN : 2 ≤ N)
    {f : CsvReader σ} (hf : Fills N src s replaceDoubleQuotes f) : Asked N src f := by
  obtain ⟨its, e, D, hrun, -⟩ := records_spec hN src s replaceDoubleQuotes
  obtain ⟨hinput, -, -, hcases⟩ := hf.spec hN hrun
  refine (asked_iff hfills hinput).2 (hcases.imp id fun hlast => ?_)
  obtain ⟨r, hr, hnext⟩ := Between.new.exists_finish (recordsLoop_run hrun)
  obtain ⟨o, r₁, u, hnext₁, -, -, hpending, -⟩ := next_spec (hr.inv hN)
  rw [hnext] at hnext₁
  cases hnext₁
  -- nothing is pending when the end is reported, so nothing is left of the stream
  rw [h.finish r e hr hnext] at hpending
  rw [← hlast]
  exact (List.append_eq_nil_iff.1 hpending.symm).2

/-- With nothing left, the records are those of the whole stream. -/
theorem records_of_asked (hfills : src.Fills) (hN : 2 ≤ N)
    (hasked : ∀ f, Fills N src s replaceDoubleQuotes f → Asked N src f) :
    (records N src s replaceDoubleQuotes).map Prod.fst
      = some (recordsOf replaceDoubleQuotes (src.rest s)) := by
  obtain ⟨its, e, D, hrun, hD, hits⟩ := records_spec hN src s replaceDoubleQuotes
  obtain ⟨f, hf, hshort⟩ := exists_fills_short hN src s replaceDoubleQuotes
  obtain ⟨hinput, -, -, hcases⟩ := hf.spec hN hrun
  have hgone := ((asked_iff hfills hinput).1 (hasked f hf)).resolve_left (by simp [hshort])
  have hlast := hcases.resolve_left (by simp [hshort])
  rw [hlast, hgone, List.append_nil] at hD
  rw [hrun, hD, ← hits]
  rfl

/-- On a stream that is small enough, the free part stays below 2 ^ 32. -/
theorem asked_of_small (hN : 2 ≤ N) (hsmall : N + 2 * (src.rest s).length < 2 ^ 32)
    {f : CsvReader σ} (hf : Fills N src s replaceDoubleQuotes f) : Asked N src f := by
  have hbound := (hf.room hN).2.bound
  left
  unfold free
  omega

/-- **Two sizes of the buffer** give the same records, and with each of them every byte is taken. -/
def ReadsAlike (src : ByteSource σ) (s : σ) (replaceDoubleQuotes : Bool) (N M : ℕ) : Prop :=
  (∃ its, (records N src s replaceDoubleQuotes).map Prod.fst = some its ∧
    (records M src s replaceDoubleQuotes).map Prod.fst = some its) ∧
  ReadsAll N src s replaceDoubleQuotes ∧ ReadsAll M src s replaceDoubleQuotes

/-- They do exactly if each call of `FillBuf` asks for the free part of the buffer or for all that is
left: the size that `Read` gets is cut to 32 bits. -/
theorem readsAlike_iff {M : ℕ} (hfills : src.Fills) (hN : 2 ≤ N) (hM : 2 ≤ M) (s : σ)
    (replaceDoubleQuotes : Bool) : ReadsAlike src s replaceDoubleQuotes N M ↔
      (∀ f, Fills N src s replaceDoubleQuotes f → Asked N src f) ∧
      (∀ f, Fills M src s replaceDoubleQuotes f → Asked M src f) := by
  constructor
  · rintro ⟨-, hallN, hallM⟩
    exact ⟨fun f hf => hallN.asked hfills hN hf, fun f hf => hallM.asked hfills hM hf⟩
  · rintro ⟨haskedN, haskedM⟩
    exact ⟨⟨_, records_of_asked hfills hN haskedN, records_of_asked hfills hM haskedM⟩,
      readsAll hfills hN haskedN, readsAll hfills hM haskedM⟩

theorem ofBytes_fills : ByteSource.ofBytes.Fills := fun _ _ => rfl

/-- A record and a line break in buffers of two and three bytes. -/
theorem readsAlike_two_three :
    ByteSource.ofBytes.Fills ∧ ReadsAlike .ofBytes [asc 'a', asc '\n'] true 2 3 := by
  refine ⟨ofBytes_fills, ?_⟩
  refine (readsAlike_iff ofBytes_fills (by decide) (by decide) _ _).2 ⟨fun f hf => ?_, fun f hf => ?_⟩
  · exact asked_of_small (by decide) (by decide) hf
  · exact asked_of_small (by decide) (by decide) hf

/-- A buffer of 2 ^ 32 bytes reads nothing. -/
theorem not_readsAlike_max : ByteSource.ofBytes.Fills ∧
    ¬ReadsAlike .ofBytes [asc 'a', asc '\n'] true (2 ^ 32) 2 := by
  refine ⟨ofBytes_fills, ?_⟩
  rintro ⟨-, hall, -⟩
  have hasked := hall.asked ofBytes_fills (by decide) .new
  unfold Asked at hasked
  revert hasked
  decide

end CsvReader

end ImageProxy.Cpcl
