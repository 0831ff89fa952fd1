import ImageProxy.Library.ChunkedCoding
import ImageProxy.Http.HeaderNames
import ImageProxy.Http.HttpParse

set_option autoImplicit false

/-! # Header lines

What the header lines of a head mean, by their grammar: names, values, and what they say of the body
(`Framing`). The parser, which reads them letter by letter, delivers them as they are and ends with
that framing (`run_lines`). -/

namespace ImageProxy.Http

open Ascii Cpcl ChunkedCoding

/-! ## The grammar -/

namespace Header

def kind (h : Header) : HeaderKind := HeaderKind.of (h.field.map token)

/-- A name of token characters; a value without line ends and without blanks in front. A length is a
number that `content_length` can hold. -/
structure Valid (h : Header) : Prop where
  field : h.field ≠ []
  tokens : ∀ c ∈ h.field, token c ≠ 0
  value : ∀ c ∈ h.value, c ≠ CR ∧ c ≠ LF
  first : ∀ c, h.value.head? = some c → ¬(c = asc ' ' ∨ c = asc '\t')
  digits : h.kind = .contentLength → ∀ c ∈ h.value, isNum c = true
  length : h.kind = .contentLength → decimalValue h.value < ullongMax

/-- The conditions as a check. -/
def check (h : Header) : Bool :=
  !h.field.isEmpty && h.field.all (fun c => token c != 0)
    && h.value.all (fun c => c != CR && c != LF)
    && h.value.head?.all (fun c => c != asc ' ' && c != asc '\t')
    && (h.kind != .contentLength || (h.value.all isNum && decide (decimalValue h.value < ullongMax)))

theorem valid_of_check {h : Header} (hcheck : h.check = true) : h.Valid := by
  simp only [check, Bool.and_eq_true, Bool.or_eq_true, Bool.not_eq_true', List.isEmpty_eq_false_iff,
    List.all_eq_true, Option.all_eq_true, bne_iff_ne, decide_eq_true_eq] at hcheck
  obtain ⟨⟨⟨⟨hfield, htokens⟩, hvalue⟩, hfirst⟩, hlength⟩ := hcheck
  refine ⟨hfield, htokens, hvalue, fun c hc => ?_, fun hkind => ?_, fun hkind => ?_⟩
  · exact not_or.2 (hfirst c hc)
  · exact (hlength.resolve_left (not_not.2 hkind)).1
  · exact (hlength.resolve_left (not_not.2 hkind)).2

end Header

/-- A header as it is spelled, with blanks between the colon and the value. -/
structure HeaderLine where
  header : Header
  blanks : Bytes

namespace HeaderLine

def text (l : HeaderLine) : Bytes :=
  l.header.field ++ [asc ':'] ++ l.blanks ++ l.header.value ++ crlf

structure Valid (l : HeaderLine) : Prop where
  header : l.header.Valid
  blanks : ∀ c ∈ l.blanks, c = asc ' ' ∨ c = asc '\t'

def check (l : HeaderLine) : Bool :=
  l.header.check && l.blanks.all (fun c => c == asc ' ' || c == asc '\t')

theorem valid_of_check {l : HeaderLine} (hcheck : l.check = true) : l.Valid := by
  simp only [check, Bool.and_eq_true, List.all_eq_true, Bool.or_eq_true, beq_iff_eq] at hcheck
  exact ⟨Header.valid_of_check hcheck.1, hcheck.2⟩

end HeaderLine

/-! ## What the headers say of the body -/

structure Framing where
  flags : Flags
  contentLength : ℕ
deriving DecidableEq, Repr

namespace Framing

/-- Nothing is said. -/
def none : Framing := ⟨Flags.none, ullongMax⟩

def add (f : Framing) (h : Header) : Framing where
  flags := h.kind.flags h.value f.flags
  contentLength :=
    if h.kind = .contentLength ∧ h.value ≠ [] then decimalValue h.value else f.contentLength

end Framing

/-- The parser after a header line. -/
def Parser.addHeader (parser : Parser) (h : Header) : Parser :=
  let f := Framing.add ⟨parser.flags, parser.contentLength⟩ h
  { parser with state := .headerValueLws, flags := f.flags, contentLength := f.contentLength }

/-- A header may begin here, or the empty line. -/
def Parser.AtLine (parser : Parser) : Prop :=
  parser.state = .headerFieldStart ∨ parser.state = .headerValueLws

/-- The callbacks for a header. -/
def deliverHeader {α : Type} (S : Settings α) (u : α) (h : Header) : α :=
  (S.data .headerValue h.value (S.data .headerField h.field u).2).2

/-! ## The name -/

variable {α : Type} {S : Settings α} {parser : Parser}

theorem ne_of_token {c d : UInt8} (hc : token c ≠ 0) (hd : token d = 0) : c ≠ d := by
  rintro rfl
  exact hc hd

/-- The first letter of a name. -/
theorem run_fieldStart (hS : Lawful S) (u : α) (hok : parser.Going) (hline : parser.AtLine)
    (hnread : parser.nread < maxHeaderSize) {c : UInt8} (hc : token c ≠ 0) :
    run S parser u [c] = some ({ parser with
      nread := parser.nread + 1
      index := 0
      state := .headerField
      headerState := headerStateOfInitial (token c) }, (S.data .headerField [c] u).2) := by
  have hcr : c ≠ CR := ne_of_token hc (by decide)
  have hlf : c ≠ LF := ne_of_token hc (by decide)
  have hblank : ¬(c = asc ' ' ∨ c = asc '\t') :=
    not_or.2 ⟨ne_of_token hc (by decide), ne_of_token hc (by decide)⟩
  have hopen : parser.state.openMark = none := by rcases hline with h | h <;> rw [h] <;> rfl
  have hheader : parser.state.parsingHeader = true := by rcases hline with h | h <;> rw [h] <;> rfl
  refine run_opening hS hok hopen ?_ u
  rw [turn_header hheader hnread, switch]
  rcases hline with h | h
  · simp only [h, caseHeaderFieldStart, if_neg hcr, if_neg hlf, if_neg hc]
  · simp only [h, caseHeaderValueLws, if_neg hblank, caseHeaderFieldStart, if_neg hcr, if_neg hlf,
      if_neg hc]

/-- The letters after it. -/
theorem run_fieldLetters (hS : Lawful S) (u : α) {name letters cs : Bytes} (hok : parser.Going)
    (hs : parser.state = .headerField) (hcs : ∀ c ∈ cs, token c ≠ 0)
    (h : NameSoFar letters parser.index parser.headerState)
    (hnread : parser.nread + cs.length ≤ maxHeaderSize) :
    ∃ index state, NameSoFar (letters ++ cs.map token) index state ∧
      run S parser (S.data .headerField name u).2 cs = some ({ parser with
        nread := parser.nread + cs.length
        index := index
        headerState := state }, (S.data .headerField (name ++ cs) u).2) := by
  have hletters := run_letters hS parser u cs (m := .headerField)
    (I := fun xs p => ∃ index state, NameSoFar (letters ++ xs.map token) index state ∧
      p = { parser with nread := parser.nread + xs.length, index := index, headerState := state })
    (fun xs c rest p heq hp => by
      obtain ⟨index, state, hso, rfl⟩ := hp
      have hc := hcs c (by simp [heq])
      have hlt : xs.length < cs.length := by simp [heq]
      obtain ⟨index', state', hletter, hnext⟩ := @NameSoFar.step _ { parser with
        nread := parser.nread + (xs.length + 1), index := index, headerState := state } hso c hc
      refine ⟨hok, by simp only [hs]; rfl, _, ?_, index', state', by simpa using hnext, rfl⟩
      rw [turn_header (by simp only [hs]; rfl) (by simp only; omega), switch]
      simp only [hs] at hletter ⊢
      simp only [caseHeaderField, if_pos hc, hletter, List.length_append, List.length_singleton,
        Nat.add_assoc])
    ⟨parser.index, parser.headerState, by simpa using h, rfl⟩ name
  obtain ⟨next, ⟨index, state, hso, rfl⟩, hrun⟩ := hletters
  exact ⟨index, state, hso, hrun⟩

/-- A whole name, and the colon. -/
theorem run_field (hS : Lawful S) (u : α) {field : Bytes} (hok : parser.Going)
    (hline : parser.AtLine) (hfield : field ≠ []) (htokens : ∀ c ∈ field, token c ≠ 0)
    (hnread : parser.nread + field.length + 1 ≤ maxHeaderSize) :
    ∃ index state, state.kind = HeaderKind.of (field.map token) ∧
      run S parser u (field ++ [asc ':']) = some ({ parser with
        state := .headerValueStart
        nread := parser.nread + field.length + 1
        index := index
        headerState := state }, (S.data .headerField field u).2) := by
  obtain ⟨c, cs, rfl⟩ := List.exists_cons_of_ne_nil hfield
  rw [List.length_cons] at hnread
  obtain ⟨index, state, hname, hrun⟩ := @run_fieldLetters _ S { parser with
      nread := parser.nread + 1
      index := 0
      state := .headerField
      headerState := headerStateOfInitial (token c) } hS u [c] [token c] cs hok rfl
    (fun d hd => htokens d (by simp [hd])) (NameSoFar.initial (token c)) (by simp only; omega)
  refine ⟨index, state, hname.kind_eq, ?_⟩
  -- at the colon the name is handed over, whatever the index and the header state
  have hcolon : ∀ q : Parser, q.state = .headerField → q.nread < maxHeaderSize →
      turn q (asc ':') 1 = .callbackData .headerField { q with
          nread := q.nread + 1, state := .headerValueStart }
        (.next { q with nread := q.nread + 1, state := .headerValueStart }) := by
    intro q hq hlt
    rw [turn_header (by rw [hq]; rfl) hlt, switch]
    simp only [hq]
    rfl
  rw [← List.singleton_append, List.append_assoc, run_append hS,
    run_fieldStart hS u hok hline (by omega) (htokens c (by simp)), Option.bind_some, run_append hS,
    hrun, Option.bind_some, run_closing hS (by exact hok) (by rfl) (hcolon _ rfl (by simp only; omega)),
    hS.data_nil]
  simp only [List.singleton_append, List.length_cons, Nat.add_assoc, Nat.add_comm 1]

/-! ## The value -/

/-- Bytes that only count. -/
theorem run_stays (hS : Lawful S) (u : α) {cs : Bytes} (hok : parser.Going)
    (hopen : parser.state.openMark = none)
    (hturn : ∀ c ∈ cs, ∀ n < maxHeaderSize, turn { parser with nread := n } c 1
      = .next { parser with nread := n + 1 })
    (hnread : parser.nread + cs.length ≤ maxHeaderSize) :
    run S parser u cs = some ({ parser with nread := parser.nread + cs.length }, u) := by
  induction cs generalizing parser with
  | nil => rfl
  | cons c cs ih =>
      rw [List.length_cons] at hnread
      have hfirst := hturn c (by simp) parser.nread (by omega)
      rw [run_head hS u hok hopen hfirst, @ih { parser with nread := parser.nread + 1 } hok hopen
        (fun d hd n hn => hturn d (by simp [hd]) n hn) (by simp only; omega)]
      simp only [List.length_cons, Nat.add_assoc, Nat.add_comm 1]

theorem run_blanks (hS : Lawful S) (u : α) {cs : Bytes} (hok : parser.Going)
    (hs : parser.state = .headerValueStart) (hcs : ∀ c ∈ cs, c = asc ' ' ∨ c = asc '\t')
    (hnread : parser.nread + cs.length ≤ maxHeaderSize) :
    run S parser u cs = some ({ parser with nread := parser.nread + cs.length }, u) := by
  refine run_stays hS u hok (by rw [hs]; rfl) (fun c hc n hn => ?_) hnread
  rw [turn_header (by simp only [hs]; rfl) hn, switch]
  simp only [hs, caseHeaderValueStart, if_pos (hcs c hc)]

/-- Letters of a value that is compared with the known words. -/
theorem run_valueLetters (hS : Lawful S) (u : α) {kind : HeaderKind} {value cs : Bytes}
    (hok : parser.Going) (hs : parser.state = .headerValue) (hcs : ∀ c ∈ cs, c ≠ CR ∧ c ≠ LF)
    (h : ValueSoFar kind value parser.index parser.headerState)
    (hnread : parser.nread + cs.length ≤ maxHeaderSize) :
    ∃ index state, ValueSoFar kind (value ++ cs) index state ∧
      run S parser (S.data .headerValue value u).2 cs = some ({ parser with
        nread := parser.nread + cs.length
        index := index
        headerState := state }, (S.data .headerValue (value ++ cs) u).2) := by
  have hletters := run_letters hS parser u cs (m := .headerValue)
    (I := fun xs p => ∃ index state, ValueSoFar kind (value ++ xs) index state ∧
      p = { parser with nread := parser.nread + xs.length, index := index, headerState := state })
    (fun xs c rest p heq hp => by
      obtain ⟨index, state, hso, rfl⟩ := hp
      obtain ⟨hcr, hlf⟩ := hcs c (by simp [heq])
      have hlt : xs.length < cs.length := by simp [heq]
      obtain ⟨index', state', hletter, hnext⟩ := @ValueSoFar.step kind _ { parser with
        nread := parser.nread + (xs.length + 1), index := index, headerState := state } hso c
      refine ⟨hok, by simp only [hs]; rfl, _, ?_, index', state', by simpa using hnext, rfl⟩
      rw [turn_header (by simp only [hs]; rfl) (by simp only; omega), switch]
      simp only [hs] at hletter ⊢
      simp only [caseHeaderValue, if_neg hcr, if_neg hlf, hletter, List.length_append,
        List.length_singleton, Nat.add_assoc])
    ⟨parser.index, parser.headerState, by simpa using h, rfl⟩ value
  obtain ⟨next, ⟨index, state, hso, rfl⟩, hrun⟩ := hletters
  exact ⟨index, state, hso, hrun⟩

/-- The value of decimal digits that follow a number `n`. -/
def decimalFrom (n : ℕ) (cs : Bytes) : ℕ := cs.foldl (fun n c => 10 * n + (c.toNat - 48)) n

theorem decimalFrom_append (n : ℕ) (cs ds : Bytes) :
    decimalFrom n (cs ++ ds) = decimalFrom (decimalFrom n cs) ds := List.foldl_append

theorem le_decimalFrom (n : ℕ) (cs : Bytes) : n ≤ decimalFrom n cs := by
  induction cs generalizing n with
  | nil => exact Nat.le_refl n
  | cons c cs ih =>
      have hle : 10 * n + (c.toNat - 48) ≤ decimalFrom n (c :: cs) := ih (10 * n + (c.toNat - 48))
      omega

theorem pushDigit_eq {d : ℕ} (h : 10 * parser.contentLength + d < ullongMax) :
    parser.pushDigit 10 d
      = .next { parser with contentLength := 10 * parser.contentLength + d } := by
  have hmax : ullongMax = 2 ^ 64 - 1 := rfl
  have ht : (parser.contentLength * 10 % 2 ^ 64 + d) % 2 ^ 64 = 10 * parser.contentLength + d := by
    omega
  simp only [Parser.pushDigit, ht]
  rw [if_neg (by omega)]

/-- The digits of a length. -/
theorem run_lengthDigits (hS : Lawful S) (u : α) {value cs : Bytes} (hok : parser.Going)
    (hs : parser.state = .headerValue) (hlength : parser.headerState = .contentLength)
    (hcs : ∀ c ∈ cs, isNum c = true) (hmax : decimalFrom parser.contentLength cs < ullongMax)
    (hnread : parser.nread + cs.length ≤ maxHeaderSize) :
    run S parser (S.data .headerValue value u).2 cs = some ({ parser with
      nread := parser.nread + cs.length
      contentLength := decimalFrom parser.contentLength cs },
      (S.data .headerValue (value ++ cs) u).2) := by
  have hletters := run_letters hS parser u cs (m := .headerValue)
    (I := fun xs p => p = { parser with
      nread := parser.nread + xs.length, contentLength := decimalFrom parser.contentLength xs })
    (fun xs c rest p heq hp => by
      obtain rfl := hp
      have hc := hcs c (by simp [heq])
      have hne : ∀ d, isNum d = false → c ≠ d := by
        rintro d hd rfl
        rw [hc] at hd
        exact absurd hd (by simp)
      have hlt : xs.length < cs.length := by simp [heq]
      have hdigit : 10 * decimalFrom parser.contentLength xs + (c.toNat - 48) < ullongMax := by
        rw [heq, decimalFrom_append] at hmax
        exact Nat.lt_of_le_of_lt (le_decimalFrom _ rest) hmax
      refine ⟨hok, by simp only [hs]; rfl, _, ?_, rfl⟩
      rw [turn_header (by simp only [hs]; rfl) (by simp only; omega), switch]
      simp only [hs, caseHeaderValue, if_neg (hne CR (by decide)), if_neg (hne LF (by decide)),
        valueLetter, hlength, if_neg (hne (asc ' ') (by decide)), hc, Bool.not_true,
        Bool.false_eq_true, if_false, decimalFrom_append, List.length_append, List.length_singleton]
      exact pushDigit_eq (by exact hdigit))
    rfl value
  obtain ⟨next, rfl, hrun⟩ := hletters
  exact hrun

/-- The line feed that ends a header line. -/
theorem run_lineFeed (u : α) (hok : parser.Going) (hs : parser.state = .headerAlmostDone)
    (hnread : parser.nread < maxHeaderSize) :
    run S parser u [LF] = some ({ parser with
      nread := parser.nread + 1
      state := .headerValueLws
      flags := parser.headerState.lineEnd parser.flags }, u) := by
  refine run_next hok (by rw [hs]; rfl) ?_ u
  rw [turn_header (by rw [hs]; rfl) hnread, switch]
  simp only [hs]
  exact caseHeaderAlmostDone_lf _

/-- The line end after a value. -/
theorem run_valueEnd (hS : Lawful S) (u : α) {value : Bytes} (hok : parser.Going)
    (hs : parser.state = .headerValue) (hnread : parser.nread + 2 ≤ maxHeaderSize) :
    run S parser (S.data .headerValue value u).2 crlf = some ({ parser with
      nread := parser.nread + 2
      state := .headerValueLws
      flags := parser.headerState.lineEnd parser.flags }, (S.data .headerValue value u).2) := by
  have hturn : turn parser CR 1 = .callbackData .headerValue { parser with
      nread := parser.nread + 1, state := .headerAlmostDone } (.next { parser with
      nread := parser.nread + 1, state := .headerAlmostDone }) := by
    rw [turn_header (by rw [hs]; rfl) (by omega), switch]
    simp only [hs]
    rfl
  rw [show crlf = [CR] ++ [LF] from rfl, run_append hS,
    run_closing hS hok (by rw [hs]; rfl) hturn, Option.bind_some, hS.data_nil]
  exact run_lineFeed _ (by exact hok) rfl (by simp only; omega)

/-- A value that is empty. -/
theorem run_noValue (hS : Lawful S) (u : α) (hok : parser.Going)
    (hs : parser.state = .headerValueStart) (hnread : parser.nread + 2 ≤ maxHeaderSize) :
    run S parser u crlf = some ({ parser with
      nread := parser.nread + 2
      index := 0
      headerState := .general
      state := .headerValueLws }, (S.data .headerValue [] u).2) := by
  have hturn : turn parser CR 1 = .mark .headerValue (.callbackData .headerValue { parser with
        nread := parser.nread + 1, index := 0, headerState := .general, state := .headerAlmostDone }
      (.next { parser with
        nread := parser.nread + 1, index := 0, headerState := .general, state := .headerAlmostDone }))
      := by
    rw [turn_header (by rw [hs]; rfl) (by omega), switch]
    simp only [hs]
    rfl
  rw [show crlf = [CR] ++ [LF] from rfl, run_append hS,
    run_empty hS hok (by rw [hs]; rfl) hturn, Option.bind_some]
  exact run_lineFeed _ (by exact hok) rfl (by simp only; omega)

/-- The first letter of a value. -/
theorem run_valueStart (hS : Lawful S) (u : α) {c : UInt8} {next : Parser} (hok : parser.Going)
    (hs : parser.state = .headerValueStart) (hblank : ¬(c = asc ' ' ∨ c = asc '\t')) (hcr : c ≠ CR)
    (hlf : c ≠ LF) (hnread : parser.nread < maxHeaderSize)
    (hinitial : valueInitial { parser with
      nread := parser.nread + 1, state := .headerValue, index := 0 } c = .next next) :
    run S parser u [c] = some (next, (S.data .headerValue [c] u).2) := by
  refine run_opening hS hok (by rw [hs]; rfl) ?_ u
  rw [turn_header (by rw [hs]; rfl) hnread, switch]
  simp only [hs, caseHeaderValueStart, if_neg hblank, if_neg hcr, if_neg hlf]
  exact congrArg _ hinitial

theorem HeaderState.eq_contentLength {state : HeaderState} (h : state.kind = .contentLength) :
    state = .contentLength := by
  cases state <;> first | rfl | exact absurd h (by simp [HeaderState.kind])

theorem HeaderKind.flags_nil (kind : HeaderKind) (f : Flags) : kind.flags [] f = f := by
  have hnone : ∀ word ∈ [lit "keep-alive", lit "close", lit "chunked"], ¬Spells word [] := by decide
  have hkeep := hnone _ (List.mem_cons_self ..)
  have hclose := hnone (lit "close") (by simp)
  have hchunked := hnone (lit "chunked") (by simp)
  cases kind <;> simp [HeaderKind.flags, hkeep, hclose, hchunked]

theorem decimalValue_cons (c : UInt8) (cs : Bytes) :
    decimalValue (c :: cs) = decimalFrom (digitValue c) cs := by
  rw [decimalFrom, digitValue, decimalValue, List.foldl_cons, Nat.mul_zero, Nat.zero_add]

/-- A length: its digits are counted as they come. -/
theorem run_lengthValue (hS : Lawful S) (u : α) {h : Header} (hh : h.Valid) (hok : parser.Going)
    (hs : parser.state = .headerValueStart) (hkind : parser.headerState.kind = h.kind)
    (hlength : h.kind = .contentLength) {c : UInt8} {cs : Bytes} (hvalue : h.value = c :: cs)
    (hnread : parser.nread + cs.length + 3 ≤ maxHeaderSize) :
    run S parser u (c :: cs ++ crlf) = some ({ parser.addHeader h with
      nread := parser.nread + cs.length + 3
      index := 0
      headerState := .contentLength }, (S.data .headerValue (c :: cs) u).2) := by
  have hblank := hh.first c (by rw [hvalue]; rfl)
  obtain ⟨hcr, hlf⟩ := hh.value c (by simp [hvalue])
  have hstate := HeaderState.eq_contentLength (hkind.trans hlength)
  have hdigits := hh.digits hlength
  have hmax := hh.length hlength
  rw [hvalue] at hdigits hmax
  rw [decimalValue_cons] at hmax
  have hc := hdigits c (by simp)
  have hadd : parser.addHeader h = { parser with
      state := .headerValueLws, contentLength := decimalFrom (digitValue c) cs } := by
    simp [Parser.addHeader, Framing.add, hvalue, hlength, HeaderKind.flags, decimalValue_cons]
  -- the first digit replaces the length there was, the others are pushed
  have hinitial : valueInitial { parser with
      nread := parser.nread + 1, state := .headerValue, index := 0 } c = .next { parser with
      nread := parser.nread + 1
      state := .headerValue
      index := 0
      contentLength := digitValue c } := by
    simp only [valueInitial, hstate, hc, Bool.not_true, Bool.false_eq_true, if_false]
  have hcount : parser.nread + 1 + cs.length + 2 = parser.nread + cs.length + 3 := by omega
  rw [List.cons_append, ← List.singleton_append, run_append hS,
    run_valueStart hS u hok hs hblank hcr hlf (by omega) hinitial, Option.bind_some,
    run_append hS, run_lengthDigits hS u (by exact hok) (by rfl) (by exact hstate)
      (fun d hd => hdigits d (by simp [hd])) (by exact hmax) (by simp only; omega),
    Option.bind_some, run_valueEnd hS u (by exact hok) (by rfl) (by simp only; omega), hadd]
  simp only [hstate, HeaderState.lineEnd, List.singleton_append, hcount]

/-- Any other value: what the words that are known make of the flags is decided at the line end. -/
theorem run_wordValue (hS : Lawful S) (u : α) {h : Header} (hh : h.Valid) (hok : parser.Going)
    (hs : parser.state = .headerValueStart) (hkind : parser.headerState.kind = h.kind)
    (hlength : h.kind ≠ .contentLength) {c : UInt8} {cs : Bytes} (hvalue : h.value = c :: cs)
    (hnread : parser.nread + cs.length + 3 ≤ maxHeaderSize) :
    ∃ index state, run S parser u (c :: cs ++ crlf) = some ({ parser.addHeader h with
      nread := parser.nread + cs.length + 3
      index := index
      headerState := state }, (S.data .headerValue (c :: cs) u).2) := by
  have hblank := hh.first c (by rw [hvalue]; rfl)
  obtain ⟨hcr, hlf⟩ := hh.value c (by simp [hvalue])
  obtain ⟨state, hinitial, hso⟩ := @ValueSoFar.initial { parser with
    nread := parser.nread + 1, state := .headerValue, index := 0 }
    (fun heq => hlength (hkind.symm.trans heq)) rfl c
  have hfirst := run_valueStart hS u hok hs hblank hcr hlf (by omega) hinitial
  obtain ⟨index, state', hso', hrun⟩ := @run_valueLetters _ S { parser with
    nread := parser.nread + 1
    state := .headerValue
    index := 0
    headerState := state
    flags := ValueSoFar.firstFlags parser.headerState.kind parser.flags } hS u _ [c] cs hok rfl
    (fun d hd => hh.value d (by simp [hvalue, hd])) hso (by simp only; omega)
  have hflags := hso'.lineEnd_eq (by simp) parser.flags
  have hadd : parser.addHeader h = { parser with
      state := .headerValueLws, flags := h.kind.flags (c :: cs) parser.flags } := by
    simp [Parser.addHeader, Framing.add, hvalue, hlength]
  have hcount : parser.nread + 1 + cs.length + 2 = parser.nread + cs.length + 3 := by omega
  refine ⟨index, state', ?_⟩
  simp only [hkind] at hflags hfirst hrun
  rw [List.cons_append, ← List.singleton_append, run_append hS, hfirst, Option.bind_some,
    run_append hS, hrun, Option.bind_some,
    run_valueEnd hS u (by exact hok) (by rfl) (by simp only; omega), hadd]
  simp only [hflags, List.singleton_append, hcount]

/-- A value and its line end. -/
theorem run_value (hS : Lawful S) (u : α) {h : Header} (hh : h.Valid) (hok : parser.Going)
    (hs : parser.state = .headerValueStart) (hkind : parser.headerState.kind = h.kind)
    (hnread : parser.nread + h.value.length + 2 ≤ maxHeaderSize) :
    ∃ index state, run S parser u (h.value ++ crlf) = some ({ parser.addHeader h with
      nread := parser.nread + h.value.length + 2
      index := index
      headerState := state }, (S.data .headerValue h.value u).2) := by
  cases hvalue : h.value with
  | nil =>
      refine ⟨0, .general, ?_⟩
      have hadd : parser.addHeader h = { parser with state := .headerValueLws } := by
        simp [Parser.addHeader, Framing.add, hvalue, HeaderKind.flags_nil]
      rw [List.nil_append, run_noValue hS u hok hs (by omega), hadd]
      rfl
  | cons c cs =>
      rw [hvalue, List.length_cons] at hnread
      have hcount : parser.nread + (cs.length + 1) + 2 = parser.nread + cs.length + 3 := by omega
      rw [hcount] at hnread
      rw [List.length_cons, hcount]
      by_cases hlength : h.kind = .contentLength
      · exact ⟨0, .contentLength, run_lengthValue hS u hh hok hs hkind hlength hvalue hnread⟩
      · exact run_wordValue hS u hh hok hs hkind hlength hvalue hnread

/-! ## Header lines -/

/-- A header line. -/
theorem run_line (hS : Lawful S) (u : α) {l : HeaderLine} (hl : l.Valid) (hok : parser.Going)
    (hline : parser.AtLine) (hnread : parser.nread + l.text.length ≤ maxHeaderSize) :
    ∃ index state, run S parser u l.text = some ({ parser.addHeader l.header with
      nread := parser.nread + l.text.length
      index := index
      headerState := state }, deliverHeader S u l.header) := by
  have hlen : l.text.length
      = l.header.field.length + 1 + l.blanks.length + l.header.value.length + 2 := by
    simp only [HeaderLine.text, crlf, List.length_append, List.length_cons, List.length_nil]
  rw [hlen] at hnread ⊢
  -- the name, the blanks, the value
  obtain ⟨index, state, hkind, hfield⟩ := run_field hS u hok hline hl.header.field hl.header.tokens
    (by omega)
  have hblanks := @run_blanks _ S { parser with
      state := .headerValueStart
      nread := parser.nread + l.header.field.length + 1
      index := index
      headerState := state } hS (S.data .headerField l.header.field u).2 l.blanks hok rfl hl.blanks
    (by simp only; omega)
  obtain ⟨index', state', hvalue⟩ := @run_value _ S { parser with
      state := .headerValueStart
      nread := parser.nread + l.header.field.length + 1 + l.blanks.length
      index := index
      headerState := state } hS (S.data .headerField l.header.field u).2 l.header hl.header hok rfl
    hkind (by simp only; omega)
  refine ⟨index', state', ?_⟩
  rw [HeaderLine.text, List.append_assoc, run_append hS, run_append hS, hfield, Option.bind_some,
    hblanks, Option.bind_some, hvalue]
  simp only [Parser.addHeader, deliverHeader, Nat.add_assoc]

/-- What the headers of all the lines say. -/
def Framing.addLines (f : Framing) (lines : List HeaderLine) : Framing :=
  lines.foldl (fun f l => f.add l.header) f

def deliverLines {α : Type} (S : Settings α) (u : α) (lines : List HeaderLine) : α :=
  lines.foldl (fun u l => deliverHeader S u l.header) u

/-- The header lines of a head. -/
theorem run_lines (hS : Lawful S) (u : α) {lines : List HeaderLine} (hlines : ∀ l ∈ lines, l.Valid)
    (hok : parser.Going) (hline : parser.AtLine)
    (hnread : parser.nread + (lines.map HeaderLine.text).flatten.length ≤ maxHeaderSize) :
    ∃ st index state, (st = .headerFieldStart ∨ st = .headerValueLws) ∧
      run S parser u (lines.map HeaderLine.text).flatten = some ({ parser with
        state := st
        nread := parser.nread + (lines.map HeaderLine.text).flatten.length
        flags := (Framing.addLines ⟨parser.flags, parser.contentLength⟩ lines).flags
        contentLength := (Framing.addLines ⟨parser.flags, parser.contentLength⟩ lines).contentLength
        index := index
        headerState := state }, deliverLines S u lines) := by
  induction lines generalizing parser u with
  | nil => exact ⟨parser.state, parser.index, parser.headerState, hline, rfl⟩
  | cons l lines ih =>
      rw [List.map_cons, List.flatten_cons, List.length_append] at hnread
      obtain ⟨index, state, hrun⟩ := run_line hS u (hlines l (by simp)) hok hline (by omega)
      obtain ⟨st, index', state', hst, hrest⟩ := @ih { parser.addHeader l.header with
          nread := parser.nread + l.text.length
          index := index
          headerState := state } (deliverHeader S u l.header) (fun l' hl' => hlines l' (by simp [hl']))
        hok (Or.inr rfl) (by simp only; omega)
      refine ⟨st, index', state', hst, ?_⟩
      rw [List.map_cons, List.flatten_cons, run_append hS, hrun, Option.bind_some, hrest]
      simp only [List.length_append, Nat.add_assoc]
      rfl

/-- The line end of the empty line, up to its line feed. -/
theorem run_emptyLine (u : α) (hok : parser.Going) (hline : parser.AtLine)
    (hnread : parser.nread < maxHeaderSize) : run S parser u [CR]
      = some ({ parser with state := .headersAlmostDone, nread := parser.nread + 1 }, u) := by
  refine run_next hok (by rcases hline with h | h <;> rw [h] <;> rfl) ?_ u
  rcases hline with h | h
  · rw [turn_header (by rw [h]; rfl) hnread, switch]
    simp only [h]
    rfl
  · rw [turn_header (by rw [h]; rfl) hnread, switch]
    simp only [h]
    rfl

/-- No header sets the flags that the parser keeps for itself. -/
theorem addLines_flags (lines : List HeaderLine) (f : Framing) :
    (f.addLines lines).flags.trailing = f.flags.trailing ∧
      (f.addLines lines).flags.skipbody = f.flags.skipbody := by
  have hadd : ∀ (f : Framing) (h : Header), (f.add h).flags.trailing = f.flags.trailing ∧
      (f.add h).flags.skipbody = f.flags.skipbody := by
    intro f h
    rw [Framing.add]
    cases h.kind <;> exact ⟨rfl, rfl⟩
  induction lines generalizing f with
  | nil => exact ⟨rfl, rfl⟩
  | cons l lines ih =>
      obtain ⟨htrailing, hskip⟩ := ih (f.add l.header)
      obtain ⟨htrailing', hskip'⟩ := hadd f l.header
      exact ⟨htrailing.trans htrailing', hskip.trans hskip'⟩

/-! ## Numbers -/

/-- A decimal number that the parser takes for a version or a status code. -/
structure IsNumber (cs : Bytes) : Prop where
  ne_nil : cs ≠ []
  digits : ∀ c ∈ cs, isNum c = true
  small : decimalValue cs ≤ 999

def isNumberCheck (cs : Bytes) : Bool :=
  !cs.isEmpty && cs.all isNum && decide (decimalValue cs ≤ 999)

theorem isNumber_of_check {cs : Bytes} (hcheck : isNumberCheck cs = true) : IsNumber cs := by
  simp only [isNumberCheck, Bool.and_eq_true, Bool.not_eq_true', List.isEmpty_eq_false_iff,
    List.all_eq_true, decide_eq_true_eq] at hcheck
  exact ⟨hcheck.1.1, hcheck.1.2, hcheck.2⟩

/-- Digits that make up a number, in a state that keeps its value. -/
theorem run_number (hS : Lawful S) (u : α) (put : ℕ → ℕ → Parser) (hgoing : ∀ v n, (put v n).Going)
    (hopen : ∀ v n, (put v n).state.openMark = none)
    (hmore : ∀ v n c, isNum c = true → v * 10 + digitValue c ≤ 999 → n < maxHeaderSize →
      turn (put v n) c 1 = .next (put (v * 10 + digitValue c) (n + 1)))
    {cs : Bytes} (hcs : ∀ c ∈ cs, isNum c = true) (v n : ℕ) (hsmall : decimalFrom v cs ≤ 999)
    (hnread : n + cs.length ≤ maxHeaderSize) :
    run S (put v n) u cs = some (put (decimalFrom v cs) (n + cs.length), u) := by
  induction cs generalizing v n with
  | nil => rfl
  | cons c cs ih =>
      have hfrom : decimalFrom v (c :: cs) = decimalFrom (v * 10 + digitValue c) cs := by
        rw [decimalFrom, List.foldl_cons, Nat.mul_comm]
        rfl
      rw [List.length_cons] at hnread
      rw [hfrom] at hsmall ⊢
      have hle := le_decimalFrom (v * 10 + digitValue c) cs
      have hturn := hmore v n c (hcs c (by simp)) (by omega) (by omega)
      rw [run_head hS u (hgoing v n) (hopen v n) hturn,
        ih (fun d hd => hcs d (by simp [hd])) _ _ hsmall (by omega)]
      simp only [List.length_cons, Nat.add_assoc, Nat.add_comm 1]

/-- A number, its first digit included. -/
theorem run_numeral (hS : Lawful S) (u : α) (put : ℕ → ℕ → Parser) (hgoing : ∀ v n, (put v n).Going)
    (hopen : ∀ v n, (put v n).state.openMark = none)
    (hmore : ∀ v n c, isNum c = true → v * 10 + digitValue c ≤ 999 → n < maxHeaderSize →
      turn (put v n) c 1 = .next (put (v * 10 + digitValue c) (n + 1)))
    {cs : Bytes} (hcs : IsNumber cs) (hok : parser.Going) (hstart : parser.state.openMark = none)
    (hfirst : ∀ c, cs.head? = some c → isNum c = true → parser.nread < maxHeaderSize →
      turn parser c 1 = .next (put (digitValue c) (parser.nread + 1)))
    (hnread : parser.nread + cs.length ≤ maxHeaderSize) :
    run S parser u cs = some (put (decimalValue cs) (parser.nread + cs.length), u) := by
  obtain ⟨c, cs, rfl⟩ := List.exists_cons_of_ne_nil hcs.ne_nil
  have hsmall := hcs.small
  rw [decimalValue_cons] at hsmall ⊢
  rw [List.length_cons] at hnread
  rw [run_head hS u hok hstart (hfirst c rfl (hcs.digits c (by simp)) (by omega)),
    run_number hS u put hgoing hopen hmore (fun d hd => hcs.digits d (by simp [hd])) _ _ hsmall
      (by omega)]
  simp only [List.length_cons, Nat.add_assoc, Nat.add_comm 1]

/-- A digit is none of the other characters of a status line. -/
theorem isNum_iff (c : UInt8) : isNum c = true ↔ asc '0' ≤ c ∧ c ≤ asc '9' := by
  rw [isNum, Bool.and_eq_true, decide_eq_true_eq, decide_eq_true_eq]

theorem isNum_ne {c d : UInt8} (hc : isNum c = true) (hd : isNum d = false) : c ≠ d := by
  rintro rfl
  rw [hc] at hd
  exact absurd hd (by simp)

end ImageProxy.Http
