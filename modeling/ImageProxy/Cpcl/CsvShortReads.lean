import ImageProxy.Cpcl.CsvBuffers

set_option autoImplicit false

/-! # Reads that do not fill the buffer

The reader takes a `Read` that does not fill the free part of the buffer for the end of the stream.
Up to the first such `Read` it runs like the reader of a stream that fills each of them. What that one
reads from there on is lost. -/

namespace ImageProxy.Cpcl

open Ascii QuotedSplit

namespace CsvReader

variable {σ τ : Type} {N L : ℕ} {src : ByteSource σ} {src' : ByteSource τ}

/-! ## Two readers with the same bytes -/

/-- The reader on another stream. -/
def withStream (r : CsvReader σ) (t : τ) : CsvReader τ where
  stream := t
  input := r.input
  size := r.size
  head := r.head
  unread := r.unread
  replaceDoubleQuotes := r.replaceDoubleQuotes
  quoteChars := r.quoteChars

theorem enter_withStream (r : CsvReader σ) (t : τ) :
    (r.withStream t).enter = (r.enter.1, r.enter.2.withStream t) := by
  by_cases hne : r.unread = []
  · simp [enter, withStream, hne]
  · have hne' : (r.withStream t).unread ≠ [] := hne
    unfold enter
    simp only
    rw [if_pos hne, if_pos hne']
    rfl

theorem leave_withStream (eol : Option ℕ) (r : CsvReader σ) (t : τ) :
    leave eol (r.withStream t) = ((leave eol r).1, (leave eol r).2.withStream t) := by
  unfold leave
  show (if r.unread = [] then _ else _) = _
  split_ifs <;> rfl

/-- A `Read` that fills the buffer reads what the other stream gives. -/
theorem fillBuf_withStream (hfills : src'.Fills) {r : CsvReader σ} {t : τ}
    (hrest : src'.rest t = src.rest r.stream) (hinput : r.input = true)
    (hfull : (r.fillBuf N src).input = true) : ∃ t',
      (r.withStream t).fillBuf N src' = (r.fillBuf N src).withStream t' ∧
      src'.rest t' = src.rest (r.fillBuf N src).stream := by
  have hread := length_read_le_free (N := N) src r
  have hsplit := src.read_append_rest r.stream (.ofNat (r.free N))
  rw [fillBuf_of_input hinput] at hfull ⊢
  replace hfull := of_decide_eq_true hfull
  -- it gave as many bytes as a `uint32` can ask for
  have hsmall : r.free N % 2 ^ 32 = r.free N := by
    have hle := Nat.mod_le (r.free N) (2 ^ 32)
    omega
  have htake : (src'.read t (.ofNat (r.free N))).1 = (src.read r.stream (.ofNat (r.free N))).1 := by
    rw [hfills, UInt32.toNat_ofNat', hsmall, hrest, ← hsplit]
    exact List.take_left' hfull
  refine ⟨(src'.read t (.ofNat (r.free N))).2, ?_, ?_⟩
  · have hinput' : (r.withStream t).input = true := hinput
    rw [fillBuf_of_input hinput']
    show CsvReader.mk _ (decide ((src'.read t (.ofNat (r.free N))).1.length = r.free N)) _ _
      (r.unread ++ (src'.read t (.ofNat (r.free N))).1) _ _ = _
    rw [htake]
    rfl
  · have hsplit' := src'.read_append_rest t (.ofNat (r.free N))
    rw [htake, hrest, ← hsplit] at hsplit'
    exact List.append_cancel_left hsplit'

theorem refill_withStream (hfills : src'.Fills) {r : CsvReader σ} {t : τ}
    (hrest : src'.rest t = src.rest r.stream) (hinput : r.input = true)
    (hfull : (r.refill N src).2.input = true) : ∃ t',
      (r.withStream t).refill N src' = ((r.refill N src).1, (r.refill N src).2.withStream t') ∧
      src'.rest t' = src.rest (r.refill N src).2.stream := by
  obtain ⟨t', hfill, hleft⟩ := fillBuf_withStream hfills hrest hinput hfull
  refine ⟨t', ?_, hleft⟩
  unfold refill
  rw [hfill]
  rfl

/-- A loop that keeps its input had it before. -/
theorem LoopRun.input {start s : Option ℕ × CsvReader σ} (h : LoopRun N src start s)
    (hinput : s.2.input = true) : start.2.input = true := by
  cases h with
  | stop => exact hinput
  | turn hin _ => exact hin

theorem nextLoop_withStream (hfills : src'.Fills) {turns : ℕ} {eol eol' : Option ℕ}
    {r r' : CsvReader σ} {t : τ} (hrest : src'.rest t = src.rest r.stream)
    (hloop : nextLoop N src turns (eol, r) = some (eol', r')) (hinput : r'.input = true) : ∃ t',
      nextLoop N src' turns (eol, r.withStream t) = some (eol', r'.withStream t') ∧
      src'.rest t' = src.rest r'.stream := by
  induction turns generalizing eol r t with
  | zero => exact absurd hloop (by simp [nextLoop])
  | succ turns ih =>
      have hin : (r.withStream t).input = r.input := rfl
      unfold nextLoop at hloop ⊢
      rw [hin]
      split_ifs at hloop ⊢ with hagain
      · -- the loop keeps its input, so this turn has filled the buffer
        obtain ⟨t₁, hrefill, hrest₁⟩ :=
          refill_withStream hfills hrest hagain.2 ((nextLoop_run hloop).input hinput)
        rw [hrefill]
        exact ih hrest₁ hloop
      · cases hloop
        exact ⟨t, rfl, hrest⟩

/-- A call of `Next` that keeps the input does the same on the other stream. -/
theorem next_withStream (hfills : src'.Fills) {r r' : CsvReader σ} {o : Option FieldIterator} {t : τ}
    (hrest : src'.rest t = src.rest r.stream) (hnext : r.next N src = some (o, r'))
    (hinput : r'.input = true) : ∃ t',
      (r.withStream t).next N src' = some (o, r'.withStream t') ∧
      src'.rest t' = src.rest r'.stream := by
  unfold next at hnext ⊢
  obtain ⟨⟨eol, r₁⟩, hloop, hleave⟩ := Option.map_eq_some_iff.1 hnext
  obtain ⟨hstream, hin⟩ := leave_stream eol r₁
  rw [hleave] at hstream hin
  have hrest₁ : src'.rest t = src.rest r.enter.2.stream := by rw [(enter_same r).1, hrest]
  have hstart : nextLoop N src _ (r.enter.1, r.enter.2) = some (eol, r₁) := hloop
  obtain ⟨t', hloop', hleft⟩ := nextLoop_withStream hfills hrest₁ hstart (hin.symm.trans hinput)
  refine ⟨t', ?_, by rw [hleft, hstream]⟩
  have hturns : src'.rest (r.withStream t).stream = src.rest r.stream := hrest
  rw [enter_withStream, hturns, hloop', Option.map_some, leave_withStream, hleave]

/-! ## The calls of `FillBuf` up to the first that loses the input -/

theorem Refills.withStream (hfills : src'.Fills) {start : Option ℕ × CsvReader σ} {f : CsvReader σ}
    (h : Refills N src start f) {t : τ} (hrest : src'.rest t = src.rest start.2.stream) : ∃ t',
      Refills N src' (start.1, start.2.withStream t) (f.withStream t') ∧
      src'.rest t' = src.rest f.stream := by
  induction h generalizing t with
  | here hinput => exact ⟨t, .here hinput, hrest⟩
  | later hinput hlater ih =>
      obtain ⟨t₁, hrefill, hrest₁⟩ := refill_withStream hfills hrest hinput hlater.input
      obtain ⟨t', hf, hleft⟩ := ih hrest₁
      refine ⟨t', .later hinput ?_, hleft⟩
      rw [hrefill]
      exact hf

theorem FillsFrom.withStream (hfills : src'.Fills) {r f : CsvReader σ} (h : FillsFrom N src r f)
    {t : τ} (hrest : src'.rest t = src.rest r.stream) : ∃ t',
      FillsFrom N src' (r.withStream t) (f.withStream t') ∧ src'.rest t' = src.rest f.stream := by
  induction h generalizing t with
  | @now r f hf =>
      have hrest₁ : src'.rest t = src.rest r.enter.2.stream := by rw [(enter_same r).1, hrest]
      obtain ⟨t', hf', hleft⟩ := hf.withStream hfills hrest₁
      rw [← enter_withStream] at hf'
      exact ⟨t', .now hf', hleft⟩
  | later hnext hf ih =>
      obtain ⟨t₁, hnext₁, hrest₁⟩ := next_withStream hfills hrest hnext hf.input
      obtain ⟨t', hf', hleft⟩ := ih hrest₁
      exact ⟨t', .later hnext₁ hf', hleft⟩

/-- Where the reader calls `FillBuf`, the one on the other stream does in the same state. -/
theorem Fills.withStream (hfills : src'.Fills) {s : σ} {replaceDoubleQuotes : Bool}
    {f : CsvReader σ} (h : Fills N src s replaceDoubleQuotes f) {t : τ}
    (hrest : src'.rest t = src.rest s) : ∃ t',
      Fills N src' t replaceDoubleQuotes (f.withStream t') ∧ src'.rest t' = src.rest f.stream := by
  cases h with
  | new => exact ⟨t, .new, hrest⟩
  | next hf =>
      have hrest₀ : src'.rest t = src.rest (alloc N s replaceDoubleQuotes).stream := hrest
      obtain ⟨t₁, hnew, hrest₁⟩ := fillBuf_withStream hfills hrest₀ rfl hf.input
      obtain ⟨t', hf', hleft⟩ := hf.withStream hfills hrest₁
      have hsame : (CsvReader.new N src s replaceDoubleQuotes).withStream t₁
          = CsvReader.new N src' t replaceDoubleQuotes := hnew.symm
      rw [hsame] at hf'
      exact ⟨t', .next hf', hleft⟩

/-! ## What is left only gets less -/

theorem rest_fillBuf_suffix (r : CsvReader σ) :
    src.rest (r.fillBuf N src).stream <:+ src.rest r.stream := by
  cases hinput : r.input with
  | false => simp [fillBuf, hinput]
  | true =>
      rw [fillBuf_of_input hinput]
      exact ⟨_, src.read_append_rest _ _⟩

theorem LoopRun.suffix {start s : Option ℕ × CsvReader σ} (h : LoopRun N src start s) :
    src.rest s.2.stream <:+ src.rest start.2.stream := by
  induction h with
  | stop => exact List.suffix_refl _
  | turn _ _ ih => exact ih.trans (rest_fillBuf_suffix _)

theorem next_suffix {r r' : CsvReader σ} {o : Option FieldIterator}
    (hnext : r.next N src = some (o, r')) : src.rest r'.stream <:+ src.rest r.stream := by
  obtain ⟨s, hloop, hstream, -⟩ := next_run hnext
  have hsuffix := hloop.suffix
  rwa [(enter_same r).1, ← hstream] at hsuffix

theorem Run.suffix {r e : CsvReader σ} {its : List FieldIterator} (h : Run N src r its e) :
    src.rest e.stream <:+ src.rest r.stream := by
  induction h with
  | stop hnext => exact next_suffix hnext
  | record hnext _ ih => exact ih.trans (next_suffix hnext)

theorem Refills.suffix {start s : Option ℕ × CsvReader σ} {f : CsvReader σ}
    (hf : Refills N src start f) (hloop : LoopRun N src start s) :
    src.rest s.2.stream <:+ src.rest (f.fillBuf N src).stream := by
  induction hf with
  | here hinput => exact (hloop.refill hinput).suffix
  | later hinput _ ih => exact ih (hloop.refill hinput)

theorem refills_next_suffix {r r' f : CsvReader σ} {o : Option FieldIterator}
    (hf : Refills N src r.enter f) (hnext : r.next N src = some (o, r')) :
    src.rest r'.stream <:+ src.rest (f.fillBuf N src).stream := by
  obtain ⟨s, hloop, hstream, -⟩ := next_run hnext
  rw [hstream]
  exact hf.suffix hloop

theorem FillsFrom.suffix {r f e : CsvReader σ} (hf : FillsFrom N src r f)
    {its : List FieldIterator} (hrun : Run N src r its e) :
    src.rest e.stream <:+ src.rest (f.fillBuf N src).stream := by
  induction hf generalizing its with
  | now hf =>
      cases hrun with
      | stop hnext => exact refills_next_suffix hf hnext
      | record hnext hrest => exact hrest.suffix.trans (refills_next_suffix hf hnext)
  | later hnext _ ih =>
      obtain ⟨its', -, hrest⟩ := hrun.tail hnext
      exact ih hrest

/-- The call that loses the input leaves the least. -/
theorem Fills.suffix (hN : 2 ≤ N) {s : σ} {replaceDoubleQuotes : Bool} {f g : CsvReader σ}
    (hf : Fills N src s replaceDoubleQuotes f) (hshort : (f.fillBuf N src).input = false)
    (hg : Fills N src s replaceDoubleQuotes g) :
    src.rest (f.fillBuf N src).stream <:+ src.rest (g.fillBuf N src).stream := by
  obtain ⟨its, e, D, hrecords, -⟩ := records_spec hN src s replaceDoubleQuotes
  have hrun := recordsLoop_run hrecords
  obtain ⟨-, -, -, hcases⟩ := hf.spec hN hrecords
  rw [← hcases.resolve_left (by simp [hshort])]
  cases hg with
  | new => exact hrun.suffix
  | next hg => exact hg.suffix hrun

/-- The other stream leaves less where this one loses the input. -/
theorem suffix_of_fills (hfills : src'.Fills) (hN : 2 ≤ N) {s : σ} {t : τ}
    (hrest : src'.rest t = src.rest s) {replaceDoubleQuotes : Bool} {f : CsvReader σ}
    {g : CsvReader τ} (hf : Fills N src s replaceDoubleQuotes f)
    (hg : Fills N src' t replaceDoubleQuotes g) (hshort : (g.fillBuf N src').input = false) :
    src'.rest (g.fillBuf N src').stream <:+ src.rest (f.fillBuf N src).stream := by
  obtain ⟨t', hf', hleft⟩ := hf.withStream hfills hrest
  have hinput := (hf.room hN).1
  have hlast := hg.suffix hN hshort hf'
  obtain ⟨-, hdrop, -⟩ := fillBuf_of_fills (N := N) hfills (f := f.withStream t') hinput
  have hfree : (f.withStream t').free N = f.free N := rfl
  have hstream : (f.withStream t').stream = t' := rfl
  rw [hfree, hstream, hleft] at hdrop
  rw [hdrop] at hlast
  -- a `Read` gives no more than it is asked for
  have hle := length_read_le_free (N := N) src f
  have hthis : src.rest (f.fillBuf N src).stream
      = (src.rest f.stream).drop (src.read f.stream (.ofNat (f.free N))).1.length := by
    rw [fillBuf_of_input hinput, ← src.read_append_rest f.stream (.ofNat (f.free N)),
      List.drop_left]
  rw [hthis]
  exact hlast.trans (List.drop_suffix_drop_left _ hle)

/-! ## The records -/

/-- What `Read` gives to `FillBuf`, and the stream after. -/
def reading (N : ℕ) (src : ByteSource σ) (f : CsvReader σ) : Bytes × σ :=
  src.read f.stream (.ofNat (f.free N))

/-- It does not fill the free part of the buffer. -/
def Short (N : ℕ) (src : ByteSource σ) (f : CsvReader σ) : Prop :=
  (reading N src f).1.length < f.free N

theorem short_iff {f : CsvReader σ} (hinput : f.input = true) :
    Short N src f ↔ (f.fillBuf N src).input = false := by
  have hle := length_read_le_free (N := N) src f
  have hmod := Nat.mod_le (f.free N) (2 ^ 32)
  rw [fillBuf_of_input hinput]
  show _ ↔ decide ((reading N src f).1.length = f.free N) = false
  rw [decide_eq_false_iff_not]
  unfold Short reading
  omega

/-- The bytes before a suffix. -/
def before (w suffix : Bytes) : Bytes := w.take (w.length - suffix.length)

theorem before_append {w suffix : Bytes} (h : suffix <:+ w) : before w suffix ++ suffix = w := by
  obtain ⟨z, rfl⟩ := h
  simp [before]

/-- The two readers give the same records. -/
def SameFields (N : ℕ) (src : ByteSource σ) (s : σ) (src' : ByteSource τ) (t : τ)
    (replaceDoubleQuotes : Bool) : Prop :=
  ∃ rs, fieldsRead N src s replaceDoubleQuotes = some rs ∧
    fieldsRead N src' t replaceDoubleQuotes = some rs

/-- The calls that lose the input decide. -/
theorem sameFields_at (hfills : src'.Fills) (hN : 2 ≤ N) {s : σ} {t : τ}
    (hrest : src'.rest t = src.rest s) {replaceDoubleQuotes : Bool} {f : CsvReader σ}
    {g : CsvReader τ} (hf : Fills N src s replaceDoubleQuotes f)
    (hg : Fills N src' t replaceDoubleQuotes g) (hshort : (f.fillBuf N src).input = false)
    (hshort' : (g.fillBuf N src').input = false) :
    SameFields N src s src' t replaceDoubleQuotes ↔
      Unchanged replaceDoubleQuotes (f.fillBuf N src).unread
        (before (src.rest (f.fillBuf N src).stream) (src'.rest (g.fillBuf N src').stream)) := by
  obtain ⟨D, hD, hread, hunchanged⟩ := fieldsRead_at hN hf hshort
  obtain ⟨D', hD', hread', -⟩ := fieldsRead_at hN hg hshort'
  have hsuffix := before_append (suffix_of_fills hfills hN hrest hf hg hshort')
  -- the other reader has read these bytes in addition
  have hmore : D' = D ++ before (src.rest (f.fillBuf N src).stream)
      (src'.rest (g.fillBuf N src').stream) := by
    have hwhole := hD'.symm.trans (hrest.trans hD)
    rw [← hsuffix, ← List.append_assoc] at hwhole
    exact List.append_cancel_right hwhole
  rw [← hunchanged, ← hmore]
  unfold SameFields
  rw [hread, hread']
  constructor
  · rintro ⟨rs, hrs, hrs'⟩
    exact Option.some.inj (hrs'.trans hrs.symm)
  · intro heq
    exact ⟨_, rfl, congrArg some heq⟩

/-- **Short reads** lose nothing exactly if what the other reader reads behind the first of them
leaves the last line as it is. -/
theorem sameFields_iff (hfills : src'.Fills) (hN : 2 ≤ N) {s : σ} {t : τ}
    (hrest : src'.rest t = src.rest s) (replaceDoubleQuotes : Bool) :
    SameFields N src s src' t replaceDoubleQuotes ↔
      ∀ f g, Fills N src s replaceDoubleQuotes f → Fills N src' t replaceDoubleQuotes g →
        Short N src f → Short N src' g →
        Unchanged replaceDoubleQuotes (f.unread ++ (reading N src f).1)
          (before (src.rest (reading N src f).2) (src'.rest (reading N src' g).2)) := by
  constructor
  · intro hsame f g hf hg hshort hshort'
    have hinput := (hf.room hN).1
    have hinput' := (hg.room hN).1
    rw [short_iff hinput] at hshort
    rw [short_iff hinput'] at hshort'
    have hunchanged := (sameFields_at hfills hN hrest hf hg hshort hshort').1 hsame
    rwa [fillBuf_of_input hinput, fillBuf_of_input hinput'] at hunchanged
  · intro hall
    obtain ⟨f, hf, hshort⟩ := exists_fills_short hN src s replaceDoubleQuotes
    obtain ⟨g, hg, hshort'⟩ := exists_fills_short hN src' t replaceDoubleQuotes
    have hinput := (hf.room hN).1
    have hinput' := (hg.room hN).1
    refine (sameFields_at hfills hN hrest hf hg hshort hshort').2 ?_
    have hunchanged :=
      hall f g hf hg ((short_iff hinput).2 hshort) ((short_iff hinput').2 hshort')
    rwa [fillBuf_of_input hinput, fillBuf_of_input hinput']

/-- A string of bytes of which a `Read` gives `k` at most, as a pipe or a socket may. -/
def atMost (k : ℕ) (hk : 0 < k) : ByteSource Bytes where
  read s n := (s.take (min n.toNat k), s.drop (min n.toNat k))
  rest s := s
  read_append_rest s n := List.take_append_drop _ s
  length_read_le s n := Nat.le_trans (List.length_take_le _ s) (Nat.min_le_left _ _)
  rest_eq_nil s n hn h := by
    rcases List.take_eq_nil_iff.1 h with h | h
    · omega
    · exact h

/-- A line that one `Read` delivers in whole. -/
def oneLine : Bytes := [asc 'a', asc '\n']

/-- Two lines that come one by one. -/
def twoLines : Bytes := [asc 'a', asc '\n', asc 'b', asc '\n']

theorem sameFields_oneLine : ByteSource.ofBytes.Fills ∧
    SameFields 4 (atMost 2 (by decide)) oneLine .ofBytes oneLine true := by
  refine ⟨ofBytes_fills, ?_⟩
  have hrest : ByteSource.ofBytes.rest oneLine = (atMost 2 (by decide)).rest oneLine := rfl
  refine (sameFields_iff (N := 4) ofBytes_fills (by decide) hrest true).2 ?_
  intro f g hf hg _ _
  cases hf with
  | new =>
      cases hg with
      | new => exact Or.inl rfl
      | next hg => exact absurd hg.input (by decide)
  | next hf => exact absurd hf.input (by decide)

/-- The second line is lost. -/
theorem not_sameFields_twoLines : ByteSource.ofBytes.Fills ∧
    ByteSource.ofBytes.rest twoLines = (atMost 2 (by decide)).rest twoLines ∧
    ¬SameFields 4 (atMost 2 (by decide)) twoLines .ofBytes twoLines true := by
  refine ⟨ofBytes_fills, rfl, ?_⟩
  rintro ⟨rs, hshort, hwhole⟩
  have hne : fieldsRead 4 (atMost 2 (by decide)) twoLines true
      ≠ fieldsRead 4 .ofBytes twoLines true := by decide +kernel
  exact hne (hshort.trans hwhole.symm)

end CsvReader

end ImageProxy.Cpcl
