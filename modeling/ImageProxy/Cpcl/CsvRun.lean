import ImageProxy.Cpcl.CsvReader

set_option autoImplicit false

/-! # What `CsvReader` makes of a stream

Between two calls of `Next` the unread bytes begin a record. A call reads until they have the end of
that record or the stream is taken for ended. So the records are those of the bytes that were read,
whatever the size of the buffer and of the reads. -/

namespace ImageProxy.Cpcl

open Ascii QuotedSplit

/-- The line of a record, without the `\r` before its end. -/
def recordLine (p : Bytes × Bool) : Bytes :=
  if p.2 = true ∧ p.1.getLast? = some (asc '\r') then p.1.dropLast else p.1

/-- The records of a string: its pieces at the ends of line outside of quotes. -/
def recordsOf (replaceDoubleQuotes : Bool) (s : Bytes) : List FieldIterator :=
  (split (asc '"') (asc '\n') s).map fun p => .new (recordLine p) replaceDoubleQuotes

namespace CsvReader

variable {σ : Type} {N L : ℕ} {src : ByteSource σ}

/-! ## One call of `Next` -/

theorem Inv.search {r : CsvReader σ} (h : Inv N src L r) (skip : ℕ) : Inv N src L (r.search skip).2 :=
  ⟨h.fits, h.full, h.bounds, h.filled, h.left⟩

/-- `Next` before its loop only counts quotes. -/
theorem enter_same (r : CsvReader σ) : r.enter.2.stream = r.stream ∧ r.enter.2.input = r.input ∧
    r.enter.2.replaceDoubleQuotes = r.replaceDoubleQuotes ∧ r.enter.2.unread = r.unread := by
  unfold enter
  simp only
  split_ifs <;> exact ⟨rfl, rfl, rfl, rfl⟩

theorem pending_enter (src : ByteSource σ) (r : CsvReader σ) :
    pending src r.enter.2 = pending src r := by
  obtain ⟨hstream, -, -, hunread⟩ := enter_same r
  rw [pending, pending, hstream, hunread]

theorem Inv.enter {r : CsvReader σ} (h : Inv N src L r) : Inv N src L r.enter.2 := by
  unfold CsvReader.enter
  simp only
  split_ifs <;> exact ⟨h.fits, h.full, h.bounds, h.filled, h.left⟩

/-- The quotes counted before `FillBuf` are those of the bytes `Find` skips. -/
theorem refill_searched {r : CsvReader σ} (h : Searched none r) :
    Searched (r.refill N src).1 (r.refill N src).2 := by
  obtain ⟨hcut, hquotes⟩ := h.none rfl
  have hunread : ∃ data, (r.fillBuf N src).unread = r.unread ++ data ∧
      (r.fillBuf N src).quoteChars = r.quoteChars := by
    cases hinput : r.input with
    | false => exact ⟨[], by simp [fillBuf, hinput], by simp [fillBuf, hinput]⟩
    | true =>
        rw [fillBuf_of_input hinput]
        exact ⟨_, rfl, rfl⟩
  obtain ⟨data, hunread, hcount⟩ := hunread
  -- `FillBuf` sets `skip` to the number of bytes that have been searched
  have htake : (r.fillBuf N src).unread.take r.unread.length = r.unread := by
    rw [hunread, List.take_left]
  refine search_searched ?_ (by rw [htake]; exact hcut) (by rw [htake, hcount]; exact hquotes)
  rw [hunread, List.length_append]
  exact Nat.le_add_right _ _

/-- `r'` is `r` after some calls of `FillBuf` in one call of `Next`. -/
structure Ahead (N : ℕ) (src : ByteSource σ) (L : ℕ) (r r' : CsvReader σ) : Prop where
  inv : Inv N src L r'
  pending : pending src r' = pending src r
  replace : r'.replaceDoubleQuotes = r.replaceDoubleQuotes
  input : r.input = false → r'.input = false

theorem Ahead.refill {r : CsvReader σ} (h : Inv N src L r) (hinput : r.input = true) :
    Ahead N src L r (r.refill N src).2 where
  inv := (h.fillBuf hinput).search _
  pending := pending_fillBuf src r
  replace := by
    show (r.fillBuf N src).replaceDoubleQuotes = _
    rw [fillBuf_of_input hinput]
  input := fun hfalse => absurd (hinput.symm.trans hfalse) (by simp)

theorem Ahead.trans {r r' r'' : CsvReader σ} (h : Ahead N src L r r') (h' : Ahead N src L r' r'') :
    Ahead N src L r r'' :=
  ⟨h'.inv, h'.pending.trans h.pending, h'.replace.trans h.replace, fun hf => h'.input (h.input hf)⟩

/-- The turns the loop of `Next` may take. -/
def turnsLeft (src : ByteSource σ) (r : CsvReader σ) : ℕ :=
  if r.input then (src.rest r.stream).length + 2 else 1

theorem turnsLeft_refill {r : CsvReader σ} (h : Inv N src L r) (hinput : r.input = true) :
    turnsLeft src (r.refill N src).2 < turnsLeft src r := by
  unfold turnsLeft
  rw [hinput, if_pos rfl]
  show (if (r.fillBuf N src).input then (src.rest (r.fillBuf N src).stream).length + 2 else 1) < _
  split_ifs with hfull
  · have hlt := h.length_rest_fillBuf hinput hfull
    omega
  · omega

/-- The loop of `Next` ends, with the end of a line or without an input. -/
theorem nextLoop_spec {turns : ℕ} {eol : Option ℕ} {r : CsvReader σ} (h : Inv N src L r)
    (hsearched : Searched eol r) (hturns : turnsLeft src r ≤ turns) :
    ∃ eol' r', nextLoop N src turns (eol, r) = some (eol', r') ∧ Ahead N src L r r' ∧
      Searched eol' r' ∧ (eol' = none → r'.input = false) := by
  induction turns generalizing eol r with
  | zero =>
      unfold turnsLeft at hturns
      split_ifs at hturns <;> omega
  | succ turns ih =>
      unfold nextLoop
      split_ifs with hloop
      · -- a turn reads a byte or loses the input
        obtain ⟨rfl, hinput⟩ := hloop
        have hlt := turnsLeft_refill h hinput
        have hstep := Ahead.refill h hinput
        obtain ⟨eol', r', hrun, hahead, hs, hend⟩ :=
          ih hstep.inv (refill_searched hsearched) (by omega)
        exact ⟨eol', r', hrun, hstep.trans hahead, hs, hend⟩
      · refine ⟨eol, r, rfl, ⟨h, rfl, rfl, id⟩, hsearched, fun hnone => ?_⟩
        simpa [hnone] using hloop

/-- What a call of `Next` returns and leaves unread, of the bytes `u` in `[head, tail)`. -/
inductive Leaves (replaceDoubleQuotes : Bool) (u : Bytes) : Option FieldIterator → CsvReader σ → Prop
  | record {line behind : Bytes} {r : CsvReader σ} :
      cut (asc '"') (asc '\n') false u = some (line, behind) → r.unread = behind →
      Leaves replaceDoubleQuotes u (some (.new (recordLine (line, true)) replaceDoubleQuotes)) r
  | last {r : CsvReader σ} : cut (asc '"') (asc '\n') false u = none → u ≠ [] → r.unread = [] →
      r.input = false → Leaves replaceDoubleQuotes u (some (.new u replaceDoubleQuotes)) r
  | eof {r : CsvReader σ} : u = [] → r.unread = [] → r.input = false →
      Leaves replaceDoubleQuotes u none r

theorem leave_found {r : CsvReader σ} {line behind : Bytes}
    (hcut : cut (asc '"') (asc '\n') false r.unread = some (line, behind)) :
    leave (some line.length) r = (some (.new (recordLine (line, true)) r.replaceDoubleQuotes),
      { r with head := r.head + line.length + 1, unread := behind }) := by
  have hu := (eq_of_cut hcut).1
  have hlen := length_of_cut hcut
  have hne : r.unread ≠ [] := by
    rw [hu]
    simp
  have hunread : r.unread.drop (line.length + 1) = behind := by
    rw [hu, ← List.drop_drop, List.drop_left, List.drop_succ_cons, List.drop_zero]
  -- `eol` is not `tail`, so a `\r` is taken off, if it is not `head` either
  have hbefore : line.length ≠ r.unread.length := by omega
  have hline : r.fieldIt line.length = .new (recordLine (line, true)) r.replaceDoubleQuotes := by
    have htake : r.unread.take line.length = line := by rw [hu, List.take_left]
    unfold fieldIt recordLine
    rw [htake]
    cases line with
    | nil => rfl
    | cons c line =>
        rw [List.length_cons] at hbefore
        simp [hbefore]
  unfold leave
  rw [if_neg hne]
  simp only [Option.getD_some, hline, hunread, if_pos hbefore]

theorem leave_last {r : CsvReader σ} (hne : r.unread ≠ []) :
    leave none r = (some (.new r.unread r.replaceDoubleQuotes),
      { r with head := r.head + r.unread.length, unread := [] }) := by
  have hline : r.fieldIt r.unread.length = .new r.unread r.replaceDoubleQuotes := by
    simp [fieldIt]
  have hunread : r.unread.drop (r.unread.length + 1) = [] := List.drop_of_length_le (by omega)
  unfold leave
  rw [if_neg hne]
  simp only [Option.getD_none, hline, hunread, ne_eq, not_true_eq_false, if_false]

theorem leave_spec {eol : Option ℕ} {r : CsvReader σ} (h : Inv N src L r) (hsearched : Searched eol r)
    (hend : eol = none → r.input = false) :
    Leaves r.replaceDoubleQuotes r.unread (leave eol r).1 (leave eol r).2 ∧
      Inv N src L (leave eol r).2 ∧ (leave eol r).2.stream = r.stream ∧
      (leave eol r).2.input = r.input ∧
      (leave eol r).2.replaceDoubleQuotes = r.replaceDoubleQuotes := by
  have hfits := h.fits
  have hleft := h.left
  unfold pending at hleft
  rw [List.length_append] at hleft
  cases eol with
  | some e =>
      obtain ⟨⟨line, behind⟩, hcut, rfl⟩ := hsearched.found e rfl
      have hlen := length_of_cut hcut
      rw [leave_found hcut]
      refine ⟨.record hcut rfl, ⟨?_, fun hi => ?_, h.bounds, h.filled, ?_⟩, rfl, rfl, rfl⟩
      · show r.head + line.length + 1 + behind.length ≤ r.size
        omega
      · have hfull := h.full hi
        show r.head + line.length + 1 + behind.length = r.size
        omega
      · show (behind ++ src.rest r.stream).length ≤ L
        rw [List.length_append]
        omega
  | none =>
      have hinput := hend rfl
      by_cases hnil : r.unread = []
      · have hleave : leave none r = (none, r) := if_pos hnil
        rw [hleave]
        exact ⟨.eof hnil hnil hinput, h, rfl, rfl, rfl⟩
      · have hno : ¬r.input = true := by simp [hinput]
        rw [leave_last hnil]
        refine ⟨.last (hsearched.none rfl).1 hnil rfl hinput, ⟨hfits, fun hi => absurd hi hno,
          fun hi => absurd hi hno, fun hi => absurd hi hno, ?_⟩, rfl, rfl, rfl⟩
        show ([] ++ src.rest r.stream).length ≤ L
        rw [List.nil_append]
        omega

/-- **One call of `Next`** ends, and takes the first record of what it has read. -/
theorem next_spec {r : CsvReader σ} (h : Inv N src L r) : ∃ o r' u, r.next N src = some (o, r') ∧
    Inv N src L r' ∧ Leaves r.replaceDoubleQuotes u o r' ∧ pending src r = u ++ src.rest r'.stream ∧
    r'.replaceDoubleQuotes = r.replaceDoubleQuotes ∧ (r.input = false → r'.input = false) := by
  have hinv := h.enter
  obtain ⟨hstream, hinput, hreplace, -⟩ := enter_same r
  have hpending := pending_enter src r
  have hturns : turnsLeft src r.enter.2 ≤ (src.rest r.stream).length + 2 := by
    unfold turnsLeft
    rw [hstream]
    split_ifs <;> omega
  obtain ⟨eol, r', hloop, hahead, hsearched, hend⟩ :=
    nextLoop_spec hinv (enter_searched r) hturns
  obtain ⟨hleft, hinv', hstream', hinput', hreplace'⟩ := leave_spec hahead.inv hsearched hend
  have hsame : r'.replaceDoubleQuotes = r.replaceDoubleQuotes := hahead.replace.trans hreplace
  refine ⟨(leave eol r').1, (leave eol r').2, r'.unread, ?_, hinv', ?_, ?_, ?_, fun hf => ?_⟩
  · unfold next
    rw [hloop]
    rfl
  · rw [← hsame]
    exact hleft
  · rw [hstream', ← hpending, ← hahead.pending]
    rfl
  · rw [hreplace', hsame]
  · rw [hinput']
    exact hahead.input (hinput.trans hf)

/-- Behind the end `Next` reports the end. -/
theorem next_of_ended {r : CsvReader σ} (hunread : r.unread = []) (hinput : r.input = false) :
    r.next N src = some (none, { r with quoteChars := 0 }) := by
  have henter : r.enter = (none, { r with quoteChars := 0 }) := by
    simp [enter, hunread]
  have hloop : nextLoop N src ((src.rest r.stream).length + 2) r.enter = some r.enter := by
    rw [henter]
    unfold nextLoop
    rw [if_neg (by simp [hinput])]
  unfold next
  rw [hloop, henter, Option.map_some, leave, if_pos hunread]

/-! ## All the calls -/

theorem recordsOf_of_cut {replaceDoubleQuotes : Bool} {s line behind : Bytes}
    (h : cut (asc '"') (asc '\n') false s = some (line, behind)) :
    recordsOf replaceDoubleQuotes s
      = .new (recordLine (line, true)) replaceDoubleQuotes :: recordsOf replaceDoubleQuotes behind := by
  rw [recordsOf, split_of_some h]
  rfl

theorem recordsOf_of_uncut {replaceDoubleQuotes : Bool} {s : Bytes}
    (h : cut (asc '"') (asc '\n') false s = none) (hne : s ≠ []) :
    recordsOf replaceDoubleQuotes s = [.new s replaceDoubleQuotes] := by
  rw [recordsOf, split_of_none h, if_neg (by simpa using hne)]
  rfl

/-- The calls of `Next` from `r` on give the records of what is read from there on. -/
theorem recordsLoop_spec {turns : ℕ} {r : CsvReader σ} (h : Inv N src L r)
    (hturns : (pending src r).length < turns) :
    ∃ its r' D, recordsLoop N src turns r = some (its, r') ∧
      pending src r = D ++ src.rest r'.stream ∧ its = recordsOf r.replaceDoubleQuotes D := by
  induction turns generalizing r with
  | zero => omega
  | succ turns ih =>
      obtain ⟨o, r₁, u, hnext, hinv, hleaves, hpending, hreplace, hinput⟩ := next_spec h
      unfold recordsLoop
      rw [hnext]
      cases hleaves with
      | @record line behind r₁ hcut hunread =>
          -- the run behind the record, with the record in front of what it reads
          obtain ⟨hu, hnone, heven⟩ := eq_of_cut hcut
          have hsolid : Solid (asc '"') (asc '\n') line := ⟨hnone, heven⟩
          have hrest : pending src r₁ = behind ++ src.rest r₁.stream := by rw [pending, hunread]
          have hwhole : pending src r = line ++ asc '\n' :: pending src r₁ := by
            rw [hpending, hu, hrest]
            simp
          have hlen : (pending src r₁).length < turns := by
            rw [hwhole, List.length_append, List.length_cons] at hturns
            omega
          obtain ⟨its, r', D, hrun, hD, hits⟩ := ih hinv hlen
          refine ⟨.new (recordLine (line, true)) r.replaceDoubleQuotes :: its, r',
            line ++ asc '\n' :: D, ?_, ?_, ?_⟩
          · simp only [hrun, Option.map_some]
          · rw [hwhole, hD]
            simp
          · rw [recordsOf_of_cut (hsolid.cut_at D), hits, hreplace]
      | last hcut hne hunread hend =>
          -- the next call reports the end
          have hpos : 0 < turns := by
            have hlen := List.length_pos_iff.2 hne
            rw [hpending, List.length_append] at hturns
            omega
          obtain ⟨turns, rfl⟩ : ∃ t, turns = t + 1 := ⟨turns - 1, by omega⟩
          refine ⟨[.new u r.replaceDoubleQuotes], { r₁ with quoteChars := 0 }, u, ?_, hpending,
            (recordsOf_of_uncut hcut hne).symm⟩
          simp only [recordsLoop, next_of_ended hunread hend, Option.map_some]
      | eof hu hunread hend =>
          refine ⟨[], _, [], rfl, ?_, rfl⟩
          rw [hpending, hu]

theorem records_spec (hN : 2 ≤ N) (src : ByteSource σ) (s : σ) (replaceDoubleQuotes : Bool) :
    ∃ its e D, records N src s replaceDoubleQuotes = some (its, e) ∧
      src.rest s = D ++ src.rest e.stream ∧ its = recordsOf replaceDoubleQuotes D := by
  have hpending : pending src (new N src s replaceDoubleQuotes) = src.rest s := pending_fillBuf src _
  have hreplace : (new N src s replaceDoubleQuotes).replaceDoubleQuotes = replaceDoubleQuotes := rfl
  have hturns : (pending src (new N src s replaceDoubleQuotes)).length < (src.rest s).length + 1 := by
    rw [hpending]
    omega
  obtain ⟨its, e, D, hrun, hD, hits⟩ :=
    recordsLoop_spec (inv_new hN src s replaceDoubleQuotes) hturns
  rw [hpending] at hD
  rw [hreplace] at hits
  exact ⟨its, e, D, hrun, hD, hits⟩

/-! ## The calls of `FillBuf` -/

/-- The states in which the loop of `Next` calls `FillBuf`. -/
inductive Refills (N : ℕ) (src : ByteSource σ) : Option ℕ × CsvReader σ → CsvReader σ → Prop
  | here {r : CsvReader σ} : r.input = true → Refills N src (none, r) r
  | later {r f : CsvReader σ} : r.input = true → Refills N src (r.refill N src) f →
      Refills N src (none, r) f

/-- The states in which the calls of `Next` from `r` on call `FillBuf`. -/
inductive FillsFrom (N : ℕ) (src : ByteSource σ) : CsvReader σ → CsvReader σ → Prop
  | now {r f : CsvReader σ} : Refills N src r.enter f → FillsFrom N src r f
  | later {r r' f : CsvReader σ} {it : FieldIterator} : r.next N src = some (some it, r') →
      FillsFrom N src r' f → FillsFrom N src r f

/-- The states in which the constructor and the calls of `Next` call `FillBuf`. -/
inductive Fills (N : ℕ) (src : ByteSource σ) (s : σ) (replaceDoubleQuotes : Bool) :
    CsvReader σ → Prop
  | new : Fills N src s replaceDoubleQuotes (alloc N s replaceDoubleQuotes)
  | next {f : CsvReader σ} : FillsFrom N src (new N src s replaceDoubleQuotes) f →
      Fills N src s replaceDoubleQuotes f

/-! ## The runs of the loops -/

/-- A run of the loop of `Next`. -/
inductive LoopRun (N : ℕ) (src : ByteSource σ) :
    Option ℕ × CsvReader σ → Option ℕ × CsvReader σ → Prop
  | stop {eol : Option ℕ} {r : CsvReader σ} : (eol = none → r.input = false) →
      LoopRun N src (eol, r) (eol, r)
  | turn {r : CsvReader σ} {s : Option ℕ × CsvReader σ} : r.input = true →
      LoopRun N src (r.refill N src) s → LoopRun N src (none, r) s

theorem nextLoop_run {turns : ℕ} {start s : Option ℕ × CsvReader σ}
    (h : nextLoop N src turns start = some s) : LoopRun N src start s := by
  induction turns generalizing start with
  | zero => exact absurd h (by simp [nextLoop])
  | succ turns ih =>
      obtain ⟨eol, r⟩ := start
      unfold nextLoop at h
      split_ifs at h with hagain
      · obtain ⟨rfl, hinput⟩ := hagain
        exact .turn hinput (ih h)
      · cases h
        exact .stop fun hnone => by simpa [hnone] using hagain

/-- Without an input the loop stops. -/
theorem LoopRun.eq_of_ended {start s : Option ℕ × CsvReader σ} (h : LoopRun N src start s)
    (hend : start.2.input = false) : s = start := by
  cases h with
  | stop => rfl
  | turn hinput => exact absurd (hinput.symm.trans hend) (by simp)

theorem LoopRun.refill {r : CsvReader σ} {s : Option ℕ × CsvReader σ}
    (h : LoopRun N src (none, r) s) (hinput : r.input = true) :
    LoopRun N src (r.refill N src) s := by
  cases h with
  | stop hend => exact absurd (hinput.symm.trans (hend rfl)) (by simp)
  | turn _ hrest => exact hrest

/-- The calls of `Next` up to the one that reports the end, and the reader after it. -/
inductive Run (N : ℕ) (src : ByteSource σ) : CsvReader σ → List FieldIterator → CsvReader σ → Prop
  | stop {r e : CsvReader σ} : r.next N src = some (none, e) → Run N src r [] e
  | record {r r' e : CsvReader σ} {it : FieldIterator} {its : List FieldIterator} :
      r.next N src = some (some it, r') → Run N src r' its e → Run N src r (it :: its) e

theorem recordsLoop_run {turns : ℕ} {r e : CsvReader σ} {its : List FieldIterator}
    (h : recordsLoop N src turns r = some (its, e)) : Run N src r its e := by
  induction turns generalizing r its with
  | zero => exact absurd h (by simp [recordsLoop])
  | succ turns ih =>
      unfold recordsLoop at h
      cases hnext : r.next N src with
      | none => simp [hnext] at h
      | some p =>
          obtain ⟨o, r'⟩ := p
          rw [hnext] at h
          cases o with
          | none =>
              cases h
              exact .stop hnext
          | some it =>
              obtain ⟨p, hrest, heq⟩ := Option.map_eq_some_iff.1 h
              cases heq
              exact .record hnext (ih hrest)

/-- The run behind a record. -/
theorem Run.tail {r r' e : CsvReader σ} {it : FieldIterator} {its : List FieldIterator}
    (h : Run N src r its e) (hnext : r.next N src = some (some it, r')) :
    ∃ its', its = it :: its' ∧ Run N src r' its' e := by
  cases h with
  | stop hstop =>
      rw [hnext] at hstop
      cases hstop
  | record hrecord hrest =>
      rw [hnext] at hrecord
      cases hrecord
      exact ⟨_, rfl, hrest⟩

theorem leave_stream (eol : Option ℕ) (r : CsvReader σ) :
    (leave eol r).2.stream = r.stream ∧ (leave eol r).2.input = r.input := by
  unfold leave
  split_ifs <;> exact ⟨rfl, rfl⟩

/-- A call of `Next` is a run of its loop. -/
theorem next_run {r r' : CsvReader σ} {o : Option FieldIterator} (h : r.next N src = some (o, r')) :
    ∃ s, LoopRun N src r.enter s ∧ r'.stream = s.2.stream ∧ r'.input = s.2.input := by
  unfold next at h
  obtain ⟨⟨eol, r₁⟩, hloop, hleave⟩ := Option.map_eq_some_iff.1 h
  obtain ⟨hstream, hinput⟩ := leave_stream eol r₁
  rw [hleave] at hstream hinput
  exact ⟨(eol, r₁), nextLoop_run hloop, hstream, hinput⟩

/-- Without an input nothing is read. -/
theorem next_of_no_input {r r' : CsvReader σ} {o : Option FieldIterator} (hinput : r.input = false)
    (h : r.next N src = some (o, r')) : r'.stream = r.stream ∧ r'.input = false := by
  obtain ⟨s, hloop, hstream, hinput'⟩ := next_run h
  obtain ⟨hs, hi, -⟩ := enter_same r
  obtain rfl := hloop.eq_of_ended (hi.trans hinput)
  exact ⟨hstream.trans hs, hinput'.trans (hi.trans hinput)⟩

theorem Run.stream_of_no_input {r e : CsvReader σ} {its : List FieldIterator}
    (h : Run N src r its e) (hinput : r.input = false) : e.stream = r.stream := by
  induction h with
  | stop hnext => exact (next_of_no_input hinput hnext).1
  | record hnext _ ih =>
      obtain ⟨hstream, hinput'⟩ := next_of_no_input hinput hnext
      exact (ih hinput').trans hstream

/-! ## One call of `FillBuf` among them -/

/-- A call of `FillBuf` in the loop of `Next`: it fills the buffer, or it is the last one. -/
theorem refills_spec {start s : Option ℕ × CsvReader σ} {f : CsvReader σ} (hf : Refills N src start f)
    (h : Inv N src L start.2) (hloop : LoopRun N src start s) :
    Inv N src L f ∧ f.input = true ∧ pending src f = pending src start.2 ∧
      ((f.fillBuf N src).input = true ∨
        (s.2.input = false ∧ s.2.stream = (f.fillBuf N src).stream)) := by
  induction hf with
  | @here r hinput =>
      refine ⟨h, hinput, rfl, ?_⟩
      cases hfull : (r.fillBuf N src).input with
      | true => exact Or.inl rfl
      | false =>
          -- the loop ends here
          obtain rfl := (hloop.refill hinput).eq_of_ended hfull
          exact Or.inr ⟨hfull, rfl⟩
  | later hinput _ ih =>
      have hstep := Ahead.refill h hinput
      obtain ⟨hinv, hf, hpending, hcases⟩ := ih hstep.inv (hloop.refill hinput)
      exact ⟨hinv, hf, hpending.trans hstep.pending, hcases⟩

/-- The same of a call of `Next`. -/
theorem refills_next {r r' f : CsvReader σ} {o : Option FieldIterator}
    (hf : Refills N src r.enter f) (h : Inv N src L r) (hnext : r.next N src = some (o, r')) :
    Inv N src L f ∧ f.input = true ∧ pending src f = pending src r ∧
      ((f.fillBuf N src).input = true ∨
        (r'.input = false ∧ r'.stream = (f.fillBuf N src).stream)) := by
  obtain ⟨s, hloop, hstream, hinput⟩ := next_run hnext
  obtain ⟨hinv, hin, hpending, hcases⟩ := refills_spec hf h.enter hloop
  rw [hstream, hinput]
  exact ⟨hinv, hin, hpending.trans (pending_enter src r), hcases⟩

/-- A loop that loses its input has called `FillBuf` where it was lost. -/
theorem exists_refills {start s : Option ℕ × CsvReader σ} (hloop : LoopRun N src start s)
    (hinput : start.2.input = true) (hend : s.2.input = false) :
    ∃ f, Refills N src start f ∧ (f.fillBuf N src).input = false := by
  induction hloop with
  | stop => exact absurd (hinput.symm.trans hend) (by simp)
  | @turn r s hin _ ih =>
      cases hfull : (r.fillBuf N src).input with
      | false => exact ⟨r, .here hin, hfull⟩
      | true =>
          obtain ⟨f, hf, hshort⟩ := ih hfull hend
          exact ⟨f, .later hin hf, hshort⟩

theorem exists_refills_next {r r' : CsvReader σ} {o : Option FieldIterator}
    (hnext : r.next N src = some (o, r')) (hinput : r.input = true) (hend : r'.input = false) :
    ∃ f, Refills N src r.enter f ∧ (f.fillBuf N src).input = false := by
  obtain ⟨s, hloop, -, hin⟩ := next_run hnext
  exact exists_refills hloop ((enter_same r).2.1.trans hinput) (hin.symm.trans hend)

theorem Refills.input {start : Option ℕ × CsvReader σ} {f : CsvReader σ}
    (h : Refills N src start f) : start.2.input = true := by
  cases h <;> assumption

theorem FillsFrom.input {r f : CsvReader σ} (h : FillsFrom N src r f) : r.input = true := by
  induction h with
  | @now r f hf => exact (enter_same r).2.1.symm.trans hf.input
  | @later r r' f it hnext _ ih =>
      cases hinput : r.input with
      | true => rfl
      | false =>
          have hfalse := (next_of_no_input hinput hnext).2
          exact absurd (ih.symm.trans hfalse) (by simp)

/-! ## The one that loses the input -/

/-- The records up to a call of `FillBuf` do not depend on what is read later. -/
def After (src : ByteSource σ) (replaceDoubleQuotes : Bool) (content : Bytes) (f : CsvReader σ) :
    Prop :=
  ∃ done its, content = done ++ pending src f ∧
    ∀ x, recordsOf replaceDoubleQuotes (done ++ x) = its ++ recordsOf replaceDoubleQuotes x

/-- A record that was taken, and the bytes behind it. -/
theorem pending_of_record {r r' : CsvReader σ} {it : FieldIterator} (h : Inv N src L r)
    (hnext : r.next N src = some (some it, r')) (hinput : r'.input = true) :
    ∃ line, Solid (asc '"') (asc '\n') line ∧ pending src r = line ++ asc '\n' :: pending src r' ∧
      it = .new (recordLine (line, true)) r.replaceDoubleQuotes ∧ Inv N src L r' ∧
      r'.replaceDoubleQuotes = r.replaceDoubleQuotes := by
  obtain ⟨o, r₁, u, hnext₁, hinv, hleaves, hpending, hreplace, -⟩ := next_spec h
  rw [hnext] at hnext₁
  cases hnext₁
  cases hleaves with
  | @record line behind r' hcut hunread =>
      refine ⟨line, Solid.of_cut hcut, ?_, rfl, hinv, hreplace⟩
      have hrest : pending src r' = behind ++ src.rest r'.stream := by rw [pending, hunread]
      rw [hpending, (eq_of_cut hcut).1, hrest]
      simp
  | last hcut hne hunread hend => exact absurd (hinput.symm.trans hend) (by simp)

/-- A call of `FillBuf`: it fills the buffer, or the stream stays as it is then. -/
theorem fillsFrom_spec {r f e : CsvReader σ} (hf : FillsFrom N src r f) (h : Inv N src L r)
    {its : List FieldIterator} (hrun : Run N src r its e) :
    Inv N src L f ∧ f.input = true ∧ After src r.replaceDoubleQuotes (pending src r) f ∧
      ((f.fillBuf N src).input = true ∨ e.stream = (f.fillBuf N src).stream) := by
  induction hf generalizing its with
  | now hf =>
      cases hrun with
      | stop hnext =>
          obtain ⟨hinv, hin, hpending, hcases⟩ := refills_next hf h hnext
          exact ⟨hinv, hin, ⟨[], [], hpending.symm, fun x => rfl⟩, hcases.imp_right And.right⟩
      | record hnext hrest =>
          obtain ⟨hinv, hin, hpending, hcases⟩ := refills_next hf h hnext
          refine ⟨hinv, hin, ⟨[], [], hpending.symm, fun x => rfl⟩, hcases.imp_right fun hlast => ?_⟩
          rw [hrest.stream_of_no_input hlast.1, hlast.2]
  | @later r r' f it hnext hlater ih =>
      -- the record before the call ends at its `\n`, so nothing behind it can change it
      obtain ⟨line, hsolid, hpending, hit, hinv, hreplace⟩ :=
        pending_of_record h hnext hlater.input
      obtain ⟨its', -, hrest⟩ := hrun.tail hnext
      obtain ⟨hinvf, hin, ⟨done, its, hdone, hsplit⟩, hcases⟩ := ih hinv hrest
      refine ⟨hinvf, hin, ⟨line ++ asc '\n' :: done, it :: its, ?_, fun x => ?_⟩, hcases⟩
      · rw [hpending, hdone]
        simp
      · have hcut := hsolid.cut_at (done ++ x)
        rw [List.append_assoc, List.cons_append, recordsOf_of_cut hcut, hit, ← hreplace, hsplit]
        rfl

/-- The run ends because a call of `FillBuf` did not fill the buffer. -/
theorem exists_fillsFrom {r e : CsvReader σ} {its : List FieldIterator} (hrun : Run N src r its e)
    (h : Inv N src L r) (hinput : r.input = true) :
    ∃ f, FillsFrom N src r f ∧ (f.fillBuf N src).input = false := by
  induction hrun with
  | @stop r e hnext =>
      obtain ⟨o, r', u, hnext', -, hleaves, -⟩ := next_spec h
      rw [hnext] at hnext'
      cases hnext'
      cases hleaves with
      | eof hu hunread hend =>
          obtain ⟨f, hf, hshort⟩ := exists_refills_next hnext hinput hend
          exact ⟨f, .now hf, hshort⟩
  | @record r r' e it its hnext _ ih =>
      cases hin : r'.input with
      | false =>
          obtain ⟨f, hf, hshort⟩ := exists_refills_next hnext hinput hin
          exact ⟨f, .now hf, hshort⟩
      | true =>
          obtain ⟨line, -, -, -, hinv, -⟩ := pending_of_record h hnext hin
          obtain ⟨f, hf, hshort⟩ := ih hinv hin
          exact ⟨f, .later hnext hf, hshort⟩

/-- A call of `FillBuf` has room: `line_buf` is larger than what it keeps, by growing if need be. -/
structure Room (N L : ℕ) (f : CsvReader σ) : Prop where
  free : f.unread.length < f.sizeToFill N
  grows : f.unread ≠ [] ∧ f.head = 0 → f.size < f.sizeToFill N
  bound : f.sizeToFill N ≤ N + 2 * L

theorem Inv.room {r : CsvReader σ} (h : Inv N src L r) (hinput : r.input = true) : Room N L r := by
  obtain ⟨hfree, hsize⟩ := h.sizeToFill hinput
  have hfilled := h.filled hinput
  have hfull := h.full hinput
  exact ⟨hfree, fun hgrow => by omega, by omega⟩

/-- **A call of `FillBuf` in a whole run** has room in the buffer. It fills the buffer, or the stream
stays as it is then. -/
theorem Fills.spec (hN : 2 ≤ N) {s : σ} {replaceDoubleQuotes : Bool} {f e : CsvReader σ}
    (hf : Fills N src s replaceDoubleQuotes f) {its : List FieldIterator}
    (hrun : records N src s replaceDoubleQuotes = some (its, e)) :
    f.input = true ∧ Room N (src.rest s).length f ∧ After src replaceDoubleQuotes (src.rest s) f ∧
      ((f.fillBuf N src).input = true ∨ e.stream = (f.fillBuf N src).stream) := by
  have hrun := recordsLoop_run hrun
  cases hf with
  | new =>
      -- the constructor: the buffer has its `N` bytes and is empty
      have hsize : (alloc N s replaceDoubleQuotes).sizeToFill N = N := rfl
      have hroom : Room N (src.rest s).length (alloc N s replaceDoubleQuotes) := by
        refine ⟨?_, fun hgrow => absurd rfl hgrow.1, ?_⟩
        · show 0 < N
          omega
        · rw [hsize]
          omega
      refine ⟨rfl, hroom, ⟨[], [], rfl, fun x => rfl⟩, ?_⟩
      cases hfull : ((alloc N s replaceDoubleQuotes).fillBuf N src).input with
      | true => exact Or.inl rfl
      | false => exact Or.inr (hrun.stream_of_no_input hfull)
  | next hf =>
      obtain ⟨hinv, hin, hafter, hcases⟩ :=
        fillsFrom_spec hf (inv_new hN src s replaceDoubleQuotes) hrun
      have hpending : pending src (CsvReader.new N src s replaceDoubleQuotes) = src.rest s :=
        pending_fillBuf src _
      rw [hpending] at hafter
      exact ⟨hin, hinv.room hin, hafter, hcases⟩

theorem Fills.room (hN : 2 ≤ N) {s : σ} {replaceDoubleQuotes : Bool} {f : CsvReader σ}
    (hf : Fills N src s replaceDoubleQuotes f) : f.input = true ∧ Room N (src.rest s).length f := by
  obtain ⟨its, e, D, hrun, -⟩ := records_spec hN src s replaceDoubleQuotes
  obtain ⟨hinput, hroom, -⟩ := hf.spec hN hrun
  exact ⟨hinput, hroom⟩

/-- One of the calls loses the input. -/
theorem exists_fills_short (hN : 2 ≤ N) (src : ByteSource σ) (s : σ) (replaceDoubleQuotes : Bool) :
    ∃ f, Fills N src s replaceDoubleQuotes f ∧ (f.fillBuf N src).input = false := by
  obtain ⟨its, e, D, hrun, -⟩ := records_spec hN src s replaceDoubleQuotes
  cases hfull : ((alloc N s replaceDoubleQuotes).fillBuf N src).input with
  | false => exact ⟨_, .new, hfull⟩
  | true =>
      obtain ⟨f, hf, hshort⟩ :=
        exists_fillsFrom (recordsLoop_run hrun) (inv_new hN src s replaceDoubleQuotes) hfull
      exact ⟨f, .next hf, hshort⟩

end CsvReader

/-! ## What lost bytes change -/

/-- The fields of the records of a string. -/
def fieldsOf (replaceDoubleQuotes : Bool) (s : Bytes) : List (List Bytes) :=
  (recordsOf replaceDoubleQuotes s).map FieldIterator.fields

/-- What is behind the last end of line outside of quotes. -/
def lastLine (s : Bytes) : Bytes := openEnd (asc '"') (asc '\n') (s.length + 1) s

/-- The bytes `lost` behind `s` only go on with its last line, and leave its fields as they are. -/
def Unchanged (replaceDoubleQuotes : Bool) (s lost : Bytes) : Prop :=
  lost = [] ∨ (lastLine s ≠ [] ∧ ∃ p, split (asc '"') (asc '\n') (lastLine s ++ lost) = [p] ∧
    (FieldIterator.new (recordLine p) replaceDoubleQuotes).fields
      = (FieldIterator.new (lastLine s) replaceDoubleQuotes).fields)

theorem split_ne_nil {s : Bytes} (hne : s ≠ []) : split (asc '"') (asc '\n') s ≠ [] := by
  cases hcut : cut (asc '"') (asc '\n') false s with
  | none => simp [split_of_none hcut, hne]
  | some p => simp [split_of_some (a := p.1) (b := p.2) hcut]

theorem fieldsOf_append_iff (replaceDoubleQuotes : Bool) (s lost : Bytes) :
    fieldsOf replaceDoubleQuotes (s ++ lost) = fieldsOf replaceDoubleQuotes s
      ↔ Unchanged replaceDoubleQuotes s lost := by
  obtain ⟨done, hdone, hnone⟩ := split_append (asc '"') (asc '\n') s
  have hself := hdone []
  rw [List.append_nil, List.append_nil] at hself
  have hlast : openEnd (asc '"') (asc '\n') (s.length + 1) s = lastLine s := rfl
  rw [hlast] at hdone hnone hself
  have hline : recordLine (lastLine s, false) = lastLine s := by simp [recordLine]
  -- the records before the last line are the same
  have hcancel : fieldsOf replaceDoubleQuotes (s ++ lost) = fieldsOf replaceDoubleQuotes s ↔
      (split (asc '"') (asc '\n') (lastLine s ++ lost)).map
          (fun p => (FieldIterator.new (recordLine p) replaceDoubleQuotes).fields)
        = (split (asc '"') (asc '\n') (lastLine s)).map
          (fun p => (FieldIterator.new (recordLine p) replaceDoubleQuotes).fields) := by
    unfold fieldsOf recordsOf
    rw [List.map_map, List.map_map, hdone, hself, List.map_append, List.map_append,
      List.append_right_inj]
    exact Iff.rfl
  rw [hcancel, split_of_none hnone]
  unfold Unchanged
  by_cases hlost : lost = []
  · rw [hlost, List.append_nil, split_of_none hnone]
    exact ⟨fun _ => Or.inl rfl, fun _ => rfl⟩
  · by_cases hnil : lastLine s = []
    · rw [hnil, List.nil_append]
      have hne := split_ne_nil hlost
      constructor
      · intro h
        exact absurd (List.map_eq_nil_iff.1 h) hne
      · rintro (h | ⟨h, -⟩)
        · exact absurd h hlost
        · exact absurd rfl h
    · rw [if_neg (by simpa using hnil), List.map_singleton, hline]
      -- the last line is one record before, so it has to be one after
      constructor
      · intro h
        obtain ⟨p, hp, heq⟩ := List.map_eq_singleton_iff.1 h
        exact Or.inr ⟨hnil, p, hp, heq⟩
      · rintro (h | ⟨-, p, hp, heq⟩)
        · exact absurd h hlost
        · rw [hp, List.map_singleton, heq]

namespace CsvReader

variable {σ : Type} {N : ℕ} {src : ByteSource σ}

/-- The fields of the records of a stream. -/
def fieldsRead (N : ℕ) (src : ByteSource σ) (s : σ) (replaceDoubleQuotes : Bool) :
    Option (List (List Bytes)) :=
  (records N src s replaceDoubleQuotes).map fun p => p.1.map FieldIterator.fields

/-- The reader gives the fields of what was read up to the call of `FillBuf` that loses the input. What
is left changes nothing exactly if it leaves the last line as it is. -/
theorem fieldsRead_at (hN : 2 ≤ N) {s : σ} {replaceDoubleQuotes : Bool} {f : CsvReader σ}
    (hf : Fills N src s replaceDoubleQuotes f) (hshort : (f.fillBuf N src).input = false) : ∃ D,
      src.rest s = D ++ src.rest (f.fillBuf N src).stream ∧
      fieldsRead N src s replaceDoubleQuotes = some (fieldsOf replaceDoubleQuotes D) ∧
      ∀ z, fieldsOf replaceDoubleQuotes (D ++ z) = fieldsOf replaceDoubleQuotes D ↔
        Unchanged replaceDoubleQuotes (f.fillBuf N src).unread z := by
  obtain ⟨its, e, D, hrun, hD, hits⟩ := records_spec hN src s replaceDoubleQuotes
  obtain ⟨-, -, ⟨done, before, hdone, hsplit⟩, hcases⟩ := hf.spec hN hrun
  have hstream := hcases.resolve_left (by simp [hshort])
  have hread : D = done ++ (f.fillBuf N src).unread := by
    have hpending := pending_fillBuf (N := N) src f
    have hwhole : D ++ src.rest e.stream
        = (done ++ (f.fillBuf N src).unread) ++ src.rest e.stream := by
      rw [← hD, hdone, ← hpending, hstream, List.append_assoc]
      rfl
    exact List.append_cancel_right hwhole
  refine ⟨D, by rw [← hstream]; exact hD, ?_, fun z => ?_⟩
  · unfold fieldsRead fieldsOf
    rw [hrun, ← hits]
    rfl
  · rw [← fieldsOf_append_iff, hread, List.append_assoc]
    unfold fieldsOf
    rw [hsplit, hsplit, List.map_append, List.map_append, List.append_right_inj]

end CsvReader

end ImageProxy.Cpcl
