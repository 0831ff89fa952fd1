import ImageProxy.Http.CallbackOrder

set_option autoImplicit false

/-! # What `http_parser_execute` asserts

The parser relies on more than its state: a chunk has a length, a matched header name an index inside
the name, the counter of header bytes is 0 in front of a chunk size. The source asserts some of this,
and takes the rest for granted where it indexes a name or counts in a `char` or a `short`.

A digit of a length is an exception: `content_length` is counted modulo 2 ^ 64, and the check behind it
does not see every sum that wrapped.

`Parser.Steady` is what holds of the record between two turns. From it follow the assertions of every
turn (`turn_safe`), and with the marks of `Http.CallbackOrder` those at the end of a call; so no run of
the parser violates one (`run_safe`). -/

namespace ImageProxy.Http

open Ascii

/-! ## What is asserted -/

/-- What is counted in `index`, `nread`, `http_major`, `http_minor` and `status_code` is in the range of
their types. -/
def Parser.Narrow (parser : Parser) : Prop :=
  parser.index < 2 ^ 8 ∧ parser.nread < 2 ^ 32 ∧
    parser.httpMajor < 2 ^ 16 ∧ parser.httpMinor < 2 ^ 16 ∧ parser.statusCode < 2 ^ 16

/-- The literal that a header state compares with. -/
def HeaderState.literal : HeaderState → Option Bytes
  | .matchingConnection => some (lit "connection")
  | .matchingProxyConnection => some (lit "proxy-connection")
  | .matchingContentLength => some (lit "content-length")
  | .matchingTransferEncoding => some (lit "transfer-encoding")
  | .matchingUpgrade => some (lit "upgrade")
  | .matchingTransferEncodingChunked => some (lit "chunked")
  | .matchingConnectionKeepAlive => some (lit "keep-alive")
  | .matchingConnectionClose => some (lit "close")
  | _ => none

/-- The header states that the switch of `s_header_field` has a case for. -/
def HeaderState.ofField : HeaderState → Bool
  | .general | .c | .co | .con => true
  | .matchingConnection | .matchingProxyConnection | .matchingContentLength => true
  | .matchingTransferEncoding | .matchingUpgrade => true
  | .connection | .contentLength | .transferEncoding | .upgrade => true
  | _ => false

/-- The `assert`s of the cases, at the byte `ch` when it has been counted. -/
def Parser.Asserts (parser : Parser) (ch : UInt8) : Prop :=
  match parser.state with
  | .headerField => token ch ≠ 0 → parser.headerState.ofField = true
  | .headerValue => ch ≠ CR → ch ≠ LF →
      parser.headerState ≠ .connection ∧ parser.headerState ≠ .transferEncoding
  | .bodyIdentity => parser.contentLength ≠ 0 ∧ parser.contentLength ≠ ullongMax
  | .chunkSizeStart => parser.nread = 1 ∧ parser.flags.chunked = true
  | .chunkSize | .chunkParameters | .chunkSizeAlmostDone | .chunkDataDone =>
      parser.flags.chunked = true
  | .chunkData => parser.flags.chunked = true ∧
      parser.contentLength ≠ 0 ∧ parser.contentLength ≠ ullongMax
  | .chunkDataAlmostDone => parser.flags.chunked = true ∧ parser.contentLength = 0
  | _ => True

/-- The index at which a case looks into a C string is not past its terminator. -/
def Parser.Indexes (parser : Parser) : Prop :=
  match parser.state with
  | .reqMethod => parser.index ≤ (lit parser.method.string).length
  | .headerField | .headerValue =>
      ∀ name, parser.headerState.literal = some name → parser.index + 1 ≤ name.length
  | _ => True

/-- Every record that the code goes through. -/
def Code.Each (P : Parser → Prop) : Code → Prop
  | .next parser | .error parser _ | .leave parser => P parser
  | .mark _ rest | .advance _ rest => rest.Each P
  | .data _ parser _ _ rest | .notify _ parser rest => P parser ∧ rest.Each P
  | .headersComplete parser rest skipBody => P parser ∧ rest.Each P ∧ skipBody.Each P

/-- The `assert` of the callback macros: no callback is called after an error. -/
def Code.CallsUnerrored : Code → Prop
  | .next _ | .error _ _ | .leave _ => True
  | .mark _ rest | .advance _ rest => rest.CallsUnerrored
  | .data _ parser _ _ rest | .notify _ parser rest =>
      parser.httpErrno = .ok ∧ rest.CallsUnerrored
  | .headersComplete parser rest skipBody =>
      parser.httpErrno = .ok ∧ rest.CallsUnerrored ∧ skipBody.CallsUnerrored

/-- The record that the switch is entered with: in a header state the byte is counted. -/
def Parser.counted (parser : Parser) : Parser :=
  if parser.state.parsingHeader then { parser with nread := parser.nread + 1 } else parser

/-- One turn of the loop violates no assertion, looks into no C string past its end and counts no member
but `content_length` past the range of its type. -/
structure TurnSafe (parser : Parser) (ch : UInt8) (avail : ℕ) : Prop where
  asserts : parser.counted.Asserts ch
  indexes : parser.counted.Indexes
  narrow : (turn parser ch avail).Each Parser.Narrow
  calls : (turn parser ch avail).CallsUnerrored

/-- At most one mark is set. -/
def AtMostOneMark (marks : Mark → Option Bytes) : Prop :=
  ∀ m m', (marks m).isSome = true → (marks m').isSome = true → m = m'

/-- Every turn of the loop is safe, and at the end of the data so are the marks. -/
def LoopSafe {α : Type} (S : Settings α) : Scan α → (skip : ℕ) → Bytes → Prop
  | s, _, [] => AtMostOneMark s.marks ∧ s.parser.httpErrno = .ok
  | s, skip + 1, _ :: p => LoopSafe S s skip p
  | s, 0, ch :: p => TurnSafe s.parser ch (p.length + 1) ∧
      match runCode S (turn s.parser ch (p.length + 1)) s (ch :: p) 0 with
      | .next s' moved => LoopSafe S s' moved p
      | .done _ _ _ => True

/-- Every call of `http_parser_execute` in the run is safe. -/
def RunSafe {α : Type} (S : Settings α) : Parser → α → (reads : List Bytes) → Prop
  | _, _, [] => True
  | parser, u, data :: reads =>
      (parser.httpErrno = .ok → LoopSafe S ⟨parser, u, marksAt parser.state data⟩ 0 data) ∧
        RunSafe S (execute S parser u data).parser (execute S parser u data).user reads

/-! ## Between two turns -/

/-- The index of the letter of a header name that was matched last. -/
def HeaderState.Field (index : ℕ) : HeaderState → Prop
  | .c => index = 0
  | .co => index = 1
  | .con => index = 2
  | state => state.ofField = true ∧ ∀ name, state.literal = some name → index + 1 < name.length

/-- The same for a header value. -/
def HeaderState.Value (index : ℕ) (state : HeaderState) : Prop :=
  state ≠ .connection ∧ state ≠ .transferEncoding ∧
    ∀ name, state.literal = some name → index + 1 < name.length

/-- What holds of the record in the state it is in. -/
def Parser.Here (parser : Parser) : Prop :=
  match parser.state with
  | .reqMethod => parser.index ≤ (lit parser.method.string).length
  | .headerField => parser.headerState.Field parser.index
  | .headerValue => parser.headerState.Value parser.index
  | .chunkSizeStart => parser.flags.chunked = true ∧ parser.nread = 0
  | .chunkSize | .chunkParameters | .chunkSizeAlmostDone =>
      parser.flags.chunked = true ∧ parser.contentLength ≠ ullongMax
  | .chunkData => parser.flags.chunked = true ∧
      parser.contentLength ≠ 0 ∧ parser.contentLength ≠ ullongMax
  | .chunkDataAlmostDone => parser.flags.chunked = true ∧ parser.contentLength = 0
  | .chunkDataDone => parser.flags.chunked = true
  | .bodyIdentity => parser.contentLength ≠ 0 ∧ parser.contentLength ≠ ullongMax
  | _ => True

/-- The bounds that the switch checks before it goes on. -/
def Parser.Bounded (parser : Parser) : Prop :=
  parser.index ≤ 17 ∧ parser.nread ≤ maxHeaderSize ∧ parser.contentLength ≤ ullongMax ∧
    parser.httpMajor ≤ 999 ∧ parser.httpMinor ≤ 999 ∧ parser.statusCode ≤ 999

/-- What holds between two turns. -/
structure Parser.Steady (parser : Parser) : Prop where
  bounded : parser.Bounded
  here : parser.Here
  ok : parser.httpErrno = .ok

theorem Parser.Bounded.narrow {parser : Parser} (h : parser.Bounded) : parser.Narrow := by
  obtain ⟨hindex, hnread, hlength, hmajor, hminor, hstatus⟩ := h
  simp only [maxHeaderSize] at hnread
  refine ⟨?_, ?_, ?_, ?_, ?_⟩ <;> omega

/-- The code goes on with steady records only, and stops with narrow ones. -/
def Code.Safe : Code → Prop
  | .next parser | .leave parser => parser.Steady
  | .error parser errno => parser.Narrow ∧ errno ≠ .ok
  | .mark _ rest | .advance _ rest => rest.Safe
  | .data _ parser _ _ rest | .notify _ parser rest =>
      parser.Narrow ∧ parser.httpErrno = .ok ∧ rest.Safe
  | .headersComplete parser rest skipBody =>
      parser.Narrow ∧ parser.httpErrno = .ok ∧ rest.Safe ∧ skipBody.Safe

theorem Code.Safe.each {c : Code} (h : c.Safe) : c.Each Parser.Narrow := by
  induction c with
  | next parser => exact h.bounded.narrow
  | leave parser => exact h.bounded.narrow
  | error parser errno => exact h.1
  | mark m rest ih => exact ih h
  | advance n rest ih => exact ih h
  | data m parser extra consumed rest ih => exact ⟨h.1, ih h.2.2⟩
  | notify n parser rest ih => exact ⟨h.1, ih h.2.2⟩
  | headersComplete parser rest skipBody ihrest ihskip =>
      exact ⟨h.1, ihrest h.2.2.1, ihskip h.2.2.2⟩

theorem Code.Safe.callsUnerrored {c : Code} (h : c.Safe) : c.CallsUnerrored := by
  induction c with
  | next parser => trivial
  | leave parser => trivial
  | error parser errno => trivial
  | mark m rest ih => exact ih h
  | advance n rest ih => exact ih h
  | data m parser extra consumed rest ih => exact ⟨h.2.1, ih h.2.2⟩
  | notify n parser rest ih => exact ⟨h.2.1, ih h.2.2⟩
  | headersComplete parser rest skipBody ihrest ihskip =>
      exact ⟨h.2.1, ihrest h.2.2.1, ihskip h.2.2.2⟩

/-! ## The cases of the switch -/

theorem digitValue_le (ch : UInt8) : digitValue ch ≤ 207 := by
  have := ch.toNat_lt
  simp only [digitValue]
  omega

theorem unhex_le {ch : UInt8} {d : ℕ} (h : unhex ch = some d) : d ≤ 15 := by
  simp only [unhex] at h
  split at h
  · cases h
    omega
  · exact Nat.le_of_lt_succ (hexValue_lt h)

section Safe

variable {parser : Parser} (ch : UInt8)

/-- In front of a message nothing more is asked of the record. -/
theorem here_newMessage {q : Parser} (p : Parser) (h : q.state = p.newMessage) : q.Here := by
  simp only [Parser.Here]
  rcases newMessage_cases p with hs | hs | hs <;> rw [h, hs] <;> trivial

theorem caseLetter_safe {letter : UInt8} {next : State} (h : parser.Steady)
    (hnext : ({ parser with state := next } : Parser).Here) :
    (caseLetter letter next parser ch).Safe := by
  simp only [caseLetter, strictCheck]
  split
  · exact ⟨h.bounded.narrow, Errno.noConfusion⟩
  · exact ⟨h.bounded, hnext, h.ok⟩

theorem caseHttpMajor_safe {next : State} (h : parser.Steady)
    (hhere : ∀ n, ({ parser with httpMajor := n } : Parser).Here)
    (hnext : ({ parser with state := next } : Parser).Here) :
    (caseHttpMajor next parser ch).Safe := by
  obtain ⟨hindex, hnread, hlength, hmajor, hminor, hstatus⟩ := h.bounded
  simp only [caseHttpMajor]
  split_ifs with hdot hnum hbig
  · exact ⟨h.bounded, hnext, h.ok⟩
  · exact ⟨h.bounded.narrow, Errno.noConfusion⟩
  · have hdigit := digitValue_le ch
    obtain ⟨hindex, hnread, -, hminor, hstatus⟩ := h.bounded.narrow
    exact ⟨⟨hindex, hnread, by simp only; omega, hminor, hstatus⟩, Errno.noConfusion⟩
  · exact ⟨⟨hindex, hnread, hlength, Nat.le_of_not_lt hbig, hminor, hstatus⟩, hhere _, h.ok⟩

theorem caseFirstHttpMinor_safe {next : State} (h : parser.Steady)
    (hnext : ∀ n, ({ parser with httpMinor := n, state := next } : Parser).Here) :
    (caseFirstHttpMinor next parser ch).Safe := by
  obtain ⟨hindex, hnread, hlength, hmajor, hminor, hstatus⟩ := h.bounded
  simp only [caseFirstHttpMinor]
  split
  · exact ⟨h.bounded.narrow, Errno.noConfusion⟩
  · have hdigit := digitValue_le ch
    exact ⟨⟨hindex, hnread, hlength, hmajor, by simp only; omega, hstatus⟩, hnext _, h.ok⟩

theorem moreHttpMinor_safe (h : parser.Steady)
    (hhere : ∀ n, ({ parser with httpMinor := n } : Parser).Here) :
    (moreHttpMinor parser ch).Safe := by
  obtain ⟨hindex, hnread, hlength, hmajor, hminor, hstatus⟩ := h.bounded
  simp only [moreHttpMinor]
  split_ifs with hnum hbig
  · exact ⟨h.bounded.narrow, Errno.noConfusion⟩
  · have hdigit := digitValue_le ch
    obtain ⟨hindex, hnread, hmajor, -, hstatus⟩ := h.bounded.narrow
    exact ⟨⟨hindex, hnread, hmajor, by simp only; omega, hstatus⟩, Errno.noConfusion⟩
  · exact ⟨⟨hindex, hnread, hlength, hmajor, Nat.le_of_not_lt hbig, hstatus⟩, hhere _, h.ok⟩

/-- The first digit of a version or of a status. -/
theorem caseResFirstHttpMajor_safe (h : parser.Steady) : (caseResFirstHttpMajor parser ch).Safe := by
  obtain ⟨hindex, hnread, hlength, hmajor, hminor, hstatus⟩ := h.bounded
  simp only [caseResFirstHttpMajor]
  split
  · exact ⟨h.bounded.narrow, Errno.noConfusion⟩
  · have hdigit := digitValue_le ch
    exact ⟨⟨hindex, hnread, hlength, by simp only; omega, hminor, hstatus⟩, trivial, h.ok⟩

theorem caseReqFirstHttpMajor_safe (h : parser.Steady) : (caseReqFirstHttpMajor parser ch).Safe := by
  obtain ⟨hindex, hnread, hlength, hmajor, hminor, hstatus⟩ := h.bounded
  simp only [caseReqFirstHttpMajor]
  split
  · exact ⟨h.bounded.narrow, Errno.noConfusion⟩
  · have hdigit := digitValue_le ch
    exact ⟨⟨hindex, hnread, hlength, by simp only; omega, hminor, hstatus⟩, trivial, h.ok⟩

theorem caseResFirstStatusCode_safe (h : parser.Steady) :
    (caseResFirstStatusCode parser ch).Safe := by
  obtain ⟨hindex, hnread, hlength, hmajor, hminor, hstatus⟩ := h.bounded
  simp only [caseResFirstStatusCode]
  split_ifs
  · exact h
  · exact ⟨h.bounded.narrow, Errno.noConfusion⟩
  · have hdigit := digitValue_le ch
    exact ⟨⟨hindex, hnread, hlength, hmajor, hminor, by simp only; omega⟩, trivial, h.ok⟩

theorem caseResStatusCode_safe (h : parser.Steady) (hs : parser.state = .resStatusCode) :
    (caseResStatusCode parser ch).Safe := by
  obtain ⟨hindex, hnread, hlength, hmajor, hminor, hstatus⟩ := h.bounded
  simp only [caseResStatusCode]
  split_ifs with hnum hspace hcr hlf hbig
  · exact ⟨h.bounded, trivial, h.ok⟩
  · exact ⟨h.bounded, trivial, h.ok⟩
  · exact ⟨h.bounded, trivial, h.ok⟩
  · exact ⟨h.bounded.narrow, Errno.noConfusion⟩
  · have hdigit := digitValue_le ch
    obtain ⟨hindex, hnread, hmajor, hminor, -⟩ := h.bounded.narrow
    exact ⟨⟨hindex, hnread, hmajor, hminor, by simp only; omega⟩, Errno.noConfusion⟩
  · refine ⟨⟨hindex, hnread, hlength, hmajor, hminor, Nat.le_of_not_lt hbig⟩, ?_, h.ok⟩
    simp only [Parser.Here, hs]

/-- A digit of a length: the source's test rules out the value that stands for no length. -/
theorem pushDigit_safe {base digit : ℕ} (h : parser.Steady)
    (hhere : ∀ n, n ≠ ullongMax → ({ parser with contentLength := n } : Parser).Here) :
    (parser.pushDigit base digit).Safe := by
  obtain ⟨hindex, hnread, hlength, hmajor, hminor, hstatus⟩ := h.bounded
  simp only [Parser.pushDigit]
  split
  · exact ⟨h.bounded.narrow, Errno.noConfusion⟩
  · next hgood =>
      rw [not_or] at hgood
      have hlt : (parser.contentLength * base % 2 ^ 64 + digit) % 2 ^ 64 < 2 ^ 64 :=
        Nat.mod_lt _ (by decide)
      exact ⟨⟨hindex, hnread, Nat.le_of_lt_succ hlt, hmajor, hminor, hstatus⟩, hhere _ hgood.2, h.ok⟩

theorem urlChar_safe (h : parser.Bounded) (hok : parser.httpErrno = .ok) :
    (urlChar parser ch).Safe := by
  simp only [urlChar]
  split
  · exact ⟨h.narrow, Errno.noConfusion⟩
  · next hne =>
      refine ⟨h, ?_, hok⟩
      simp only [Parser.Here]
      have hopen := openMark_parseUrlChar _ _ hne
      split <;> first
        | trivial
        | (next hs => exact absurd (hs ▸ hopen) (by decide))

/-! ### The method -/

theorem three_le_string (m : Method) : 3 ≤ (lit m.string).length := by cases m <;> decide

/-- Where the method changes, the new one is long enough. -/
theorem methodTurn_index {m m' : Method} {index : ℕ} (h : methodTurn m index ch = .ok m') :
    index + 1 ≤ (lit m'.string).length := by
  have hlength := three_le_string m'
  have hpatch : 9 ≤ (lit Method.proppatch.string).length := by decide
  simp only [methodTurn] at h
  split_ifs at h <;> first
    | exact Except.noConfusion h
    | (cases h; omega)

theorem length_string_le (m : Method) : (lit m.string).length ≤ 11 := by cases m <;> decide

theorem charAt_of_le {name : Bytes} {index : ℕ} (h : name.length ≤ index) : charAt name index = 0 := by
  rw [charAt, List.getD_eq_getElem?_getD, List.getElem?_eq_none h]
  rfl

theorem caseReqMethod_safe (h : parser.Steady) (hs : parser.state = .reqMethod) :
    (caseReqMethod parser ch).Safe := by
  have hhere : parser.index ≤ (lit parser.method.string).length := by
    have := h.here
    rwa [Parser.Here, hs] at this
  have hgo : ∀ m : Method, parser.index + 1 ≤ (lit m.string).length →
      ({ parser with method := m, index := parser.index + 1 } : Parser).Steady := by
    intro m hm
    obtain ⟨hindex, hnread, hlength, hmajor, hminor, hstatus⟩ := h.bounded
    have hle := length_string_le m
    refine ⟨⟨by simp only; omega, hnread, hlength, hmajor, hminor, hstatus⟩, ?_, h.ok⟩
    simp only [Parser.Here, hs]
    exact hm
  simp only [caseReqMethod]
  split_ifs with hzero hend hmatch
  · exact ⟨h.bounded.narrow, Errno.noConfusion⟩
  · obtain ⟨hindex, hnread, hlength, hmajor, hminor, hstatus⟩ := h.bounded
    have hle := length_string_le parser.method
    exact ⟨⟨by simp only; omega, hnread, hlength, hmajor, hminor, hstatus⟩, trivial, h.ok⟩
  · refine hgo parser.method (Nat.lt_of_not_le fun hle => hzero ?_)
    rw [hmatch, charAt_of_le hle]
  · split
    · next errno herrno => exact ⟨h.bounded.narrow, methodTurn_error ch herrno⟩
    · next m hm => exact hgo m (methodTurn_index ch hm)

/-! ### The headers -/

/-- A letter of a literal: matched to the end, matched so far, or not matched. -/
theorem matchLetter_cases {name : Bytes} (matching matched : HeaderState) {index : ℕ}
    (h : index < name.length) (c : UInt8) :
    matchLetter name matching matched index c = .general ∨
      matchLetter name matching matched index c = matched ∨
      (matchLetter name matching matched index c = matching ∧ index + 1 < name.length) := by
  simp only [matchLetter]
  split_ifs
  · exact Or.inl rfl
  · exact Or.inr (Or.inl rfl)
  · exact Or.inr (Or.inr ⟨rfl, by omega⟩)

theorem length_literal_le {state : HeaderState} {name : Bytes} (h : state.literal = some name) :
    name.length ≤ 17 := by
  cases state <;> cases h <;> decide

theorem field_iff {state : HeaderState} {name : Bytes} {index : ℕ} (hname : state.literal = some name)
    (hfield : state.ofField = true) : state.Field index ↔ index + 1 < name.length := by
  have hstate : state.Field index ↔
      state.ofField = true ∧ ∀ name, state.literal = some name → index + 1 < name.length := by
    cases state <;> first | exact Iff.rfl | exact absurd hname (by simp [HeaderState.literal])
  rw [hstate]
  constructor
  · intro h
    exact h.2 name hname
  · intro h
    refine ⟨hfield, fun name' hname' => ?_⟩
    rw [hname] at hname'
    exact Option.some.inj hname' ▸ h

/-- A name that matches no literal, or a whole one, has no index. -/
theorem field_of_none {state : HeaderState} (index : ℕ)
    (h : state = .general ∨ state = .connection ∨ state = .contentLength ∨
      state = .transferEncoding ∨ state = .upgrade) : state.Field index := by
  rcases h with rfl | rfl | rfl | rfl | rfl <;>
    exact ⟨rfl, fun _ hname => absurd hname (by simp [HeaderState.literal])⟩

/-- A letter compared with a literal leaves the index inside it. -/
theorem matchLetter_field {name : Bytes} {matching matched : HeaderState} {index : ℕ} (c : UInt8)
    (hname : matching.literal = some name) (hfield : matching.ofField = true)
    (hmatched : matched.Field (index + 1)) (h : matching.Field index) :
    (matchLetter name matching matched (index + 1) c).Field (index + 1) ∧ index + 1 ≤ 17 := by
  have hlt := (field_iff hname hfield).1 h
  have hle := length_literal_le hname
  refine ⟨?_, by omega⟩
  rcases matchLetter_cases matching matched hlt c with heq | heq | ⟨heq, hlt'⟩ <;> rw [heq]
  · exact field_of_none _ (Or.inl rfl)
  · exact hmatched
  · exact (field_iff hname hfield).2 hlt'

/-- A letter of a name keeps the index inside the literal. -/
theorem fieldLetter_field (c : UInt8) (h : parser.headerState.Field parser.index)
    (hindex : parser.index ≤ 17) :
    (fieldLetter parser ch c).headerState.Field (fieldLetter parser ch c).index ∧
      (fieldLetter parser ch c).index ≤ 17 := by
  have hgeneral : ∀ n, HeaderState.general.Field n := fun n => field_of_none n (Or.inl rfl)
  simp only [fieldLetter]
  cases hstate : parser.headerState <;> rw [hstate] at h <;> simp only
  case general => exact ⟨by rw [hstate]; exact hgeneral _, hindex⟩
  case c =>
    have hzero : parser.index = 0 := h
    rw [hzero]
    split
    · exact ⟨rfl, by decide⟩
    · exact ⟨hgeneral _, by decide⟩
  case co =>
    have hone : parser.index = 1 := h
    rw [hone]
    split
    · exact ⟨rfl, by decide⟩
    · exact ⟨hgeneral _, by decide⟩
  case con =>
    have htwo : parser.index = 2 := h
    rw [htwo]
    split_ifs
    · exact ⟨(field_iff rfl rfl).2 (by decide), by decide⟩
    · exact ⟨(field_iff rfl rfl).2 (by decide), by decide⟩
    · exact ⟨hgeneral _, by decide⟩
  case matchingConnection =>
    exact matchLetter_field c rfl rfl (field_of_none _ (by simp)) h
  case matchingProxyConnection =>
    exact matchLetter_field c rfl rfl (field_of_none _ (by simp)) h
  case matchingContentLength =>
    exact matchLetter_field c rfl rfl (field_of_none _ (by simp)) h
  case matchingTransferEncoding =>
    exact matchLetter_field c rfl rfl (field_of_none _ (by simp)) h
  case matchingUpgrade =>
    exact matchLetter_field c rfl rfl (field_of_none _ (by simp)) h
  case connection | contentLength | transferEncoding | upgrade =>
    split
    · exact ⟨hgeneral _, hindex⟩
    · exact ⟨by rw [hstate]; exact h, hindex⟩
  -- a name is in none of the states of a value
  all_goals exact absurd h.1 (by decide)

/-- A letter of a name changes nothing but the header state and the index. -/
theorem fieldLetter_eq (parser : Parser) (ch c : UInt8) : ∃ state index,
    fieldLetter parser ch c = { parser with headerState := state, index := index } := by
  simp only [fieldLetter]
  split <;> first | exact ⟨_, _, rfl⟩ | (split <;> exact ⟨_, _, rfl⟩)

theorem caseHeaderField_safe (h : parser.Steady) (hs : parser.state = .headerField) :
    (caseHeaderField parser ch).Safe := by
  have hfield : parser.headerState.Field parser.index := by
    have := h.here
    rwa [Parser.Here, hs] at this
  simp only [caseHeaderField, Code.callbackData]
  split_ifs
  · obtain ⟨hhere, hindex⟩ := fieldLetter_field ch (token ch) hfield h.bounded.1
    obtain ⟨state, index, heq⟩ := fieldLetter_eq parser ch (token ch)
    rw [heq] at hhere hindex ⊢
    refine ⟨⟨hindex, h.bounded.2⟩, ?_, h.ok⟩
    simp only [Parser.Here, hs]
    exact hhere
  · exact ⟨h.bounded.narrow, h.ok, h.bounded, trivial, h.ok⟩
  · exact ⟨h.bounded.narrow, h.ok, h.bounded, trivial, h.ok⟩
  · exact ⟨h.bounded.narrow, h.ok, h.bounded, trivial, h.ok⟩
  · exact ⟨h.bounded.narrow, Errno.noConfusion⟩

/-- The end of the headers: what follows is chosen by the length and the flags. -/
theorem caseHeadersDone_safe (h : parser.Bounded) (hok : parser.httpErrno = .ok) :
    (caseHeadersDone parser ch).Safe := by
  have hzero : ({ parser with nread := 0 } : Parser).Bounded := ⟨h.1, Nat.zero_le _, h.2.2⟩
  have hnew : ({ parser with
      nread := 0, state := ({ parser with nread := 0 } : Parser).newMessage } : Parser).Steady :=
    ⟨hzero, here_newMessage _ rfl, hok⟩
  simp only [caseHeadersDone, strictCheck]
  split_ifs with hch hupgrade hskip hchunked hlength hsome htype
  · exact ⟨h.narrow, Errno.noConfusion⟩
  · exact ⟨hnew.bounded.narrow, hok, hnew⟩
  · exact ⟨hnew.bounded.narrow, hok, hnew⟩
  · exact ⟨hzero, ⟨hchunked, rfl⟩, hok⟩
  · exact ⟨hnew.bounded.narrow, hok, hnew⟩
  · exact ⟨hzero, ⟨hlength, hsome⟩, hok⟩
  · exact ⟨hnew.bounded.narrow, hok, hnew⟩
  · exact ⟨hzero, trivial, hok⟩

theorem caseHeadersAlmostDone_safe (h : parser.Bounded) (hok : parser.httpErrno = .ok) :
    (caseHeadersAlmostDone parser ch).Safe := by
  simp only [caseHeadersAlmostDone, strictCheck]
  split_ifs
  · exact ⟨h.narrow, Errno.noConfusion⟩
  · exact ⟨h.narrow, hok, h, here_newMessage _ rfl, hok⟩
  · refine ⟨h.narrow, hok, caseHeadersDone_safe ch ?_ hok, caseHeadersDone_safe ch ?_ hok⟩
    · exact h
    · exact h

/-- The first letter of a name starts the index. -/
theorem field_headerStateOfInitial (c : UInt8) : (headerStateOfInitial c).Field 0 := by
  simp only [headerStateOfInitial]
  split_ifs
  · exact rfl
  · exact (field_iff rfl rfl).2 (by decide)
  · exact (field_iff rfl rfl).2 (by decide)
  · exact (field_iff rfl rfl).2 (by decide)
  · exact field_of_none 0 (Or.inl rfl)

theorem caseHeaderFieldStart_safe (h : parser.Bounded) (hok : parser.httpErrno = .ok) :
    (caseHeaderFieldStart parser ch).Safe := by
  simp only [caseHeaderFieldStart]
  split_ifs
  · exact ⟨h, trivial, hok⟩
  · refine caseHeadersAlmostDone_safe ch ?_ hok
    exact h
  · exact ⟨h.narrow, Errno.noConfusion⟩
  · exact ⟨⟨Nat.zero_le _, h.2⟩, field_headerStateOfInitial _, hok⟩

theorem caseHeaderAlmostDone_safe (h : parser.Bounded) (hok : parser.httpErrno = .ok) :
    (caseHeaderAlmostDone parser ch).Safe := by
  simp only [caseHeaderAlmostDone, strictCheck]
  split_ifs
  · exact ⟨h.narrow, Errno.noConfusion⟩
  · split <;> exact ⟨h, trivial, hok⟩

theorem value_of_none {state : HeaderState} (index : ℕ) (h : state.literal = none)
    (hconnection : state ≠ .connection) (hencoding : state ≠ .transferEncoding) :
    state.Value index :=
  ⟨hconnection, hencoding, fun _ hname => absurd (h.symm.trans hname) (by simp)⟩

theorem value_of_some {state : HeaderState} {name : Bytes} {index : ℕ}
    (hname : state.literal = some name) (h : index + 1 < name.length) : state.Value index := by
  refine ⟨fun hstate => ?_, fun hstate => ?_, fun name' hname' => ?_⟩
  · rw [hstate] at hname
    exact absurd hname (by simp [HeaderState.literal])
  · rw [hstate] at hname
    exact absurd hname (by simp [HeaderState.literal])
  · rw [hname] at hname'
    exact Option.some.inj hname' ▸ h

theorem value_general (index : ℕ) : HeaderState.general.Value index :=
  value_of_none index rfl HeaderState.noConfusion HeaderState.noConfusion

/-- The first character of a value leaves a header state that the values are compared in. -/
theorem valueInitial_safe (h : parser.Bounded) (hok : parser.httpErrno = .ok)
    (hs : parser.state = .headerValue) (hindex : parser.index = 0) :
    (valueInitial parser ch).Safe := by
  have hnext : ∀ {q : Parser}, q.Bounded → q.httpErrno = .ok → q.state = .headerValue →
      q.headerState.Value q.index → (Code.next q).Safe := by
    intro q hb hq hstate hvalue
    refine ⟨hb, ?_, hq⟩
    simp only [Parser.Here, hstate]
    exact hvalue
  simp only [valueInitial]
  cases hstate : parser.headerState <;> simp only
  case upgrade => exact hnext h hok hs (value_general _)
  case transferEncoding =>
    refine hnext h hok hs ?_
    dsimp only
    rw [hindex]
    split
    · exact value_of_some rfl (by decide)
    · exact value_general 0
  case contentLength =>
    obtain ⟨hb, hnread, hlength, hmajor, hminor, hstatus⟩ := h
    split
    · exact ⟨Parser.Bounded.narrow ⟨hb, hnread, hlength, hmajor, hminor, hstatus⟩, Errno.noConfusion⟩
    · have hdigit := digitValue_le ch
      refine hnext ⟨hb, hnread, ?_, hmajor, hminor, hstatus⟩ hok hs ?_
      · simp only [ullongMax]
        omega
      · exact value_of_none _ rfl HeaderState.noConfusion HeaderState.noConfusion
  case connection =>
    refine hnext h hok hs ?_
    dsimp only
    rw [hindex]
    split_ifs
    · exact value_of_some rfl (by decide)
    · exact value_of_some rfl (by decide)
    · exact value_general 0
  all_goals exact hnext h hok hs (value_general _)

theorem caseHeaderValueStart_safe (h : parser.Steady) : (caseHeaderValueStart parser ch).Safe := by
  have hzero : ∀ (state : State), ({ parser with state := state, index := 0 } : Parser).Bounded :=
    fun _ => ⟨Nat.zero_le _, h.bounded.2⟩
  simp only [caseHeaderValueStart, Code.callbackData]
  split_ifs
  · exact h
  · exact ⟨(hzero .headerAlmostDone).narrow, h.ok, hzero .headerAlmostDone, trivial, h.ok⟩
  · exact ⟨(hzero .headerFieldStart).narrow, h.ok, hzero .headerFieldStart, trivial, h.ok⟩
  · exact valueInitial_safe ch (hzero .headerValue) h.ok rfl rfl

/-- A letter compared with a literal leaves the index inside it. -/
theorem matchLetter_value {name : Bytes} {matching matched : HeaderState} {index : ℕ} (c : UInt8)
    (hname : matching.literal = some name) (hmatched : matched.Value (index + 1))
    (h : matching.Value index) :
    (matchLetter name matching matched (index + 1) c).Value (index + 1) ∧ index + 1 ≤ 17 := by
  have hlt := h.2.2 name hname
  have hle := length_literal_le hname
  refine ⟨?_, by omega⟩
  rcases matchLetter_cases matching matched hlt c with heq | heq | ⟨heq, hlt'⟩ <;> rw [heq]
  · exact value_general _
  · exact hmatched
  · exact value_of_some hname hlt'

theorem valueLetter_safe (h : parser.Steady) (hs : parser.state = .headerValue) :
    (valueLetter parser ch).Safe := by
  have hvalue : parser.headerState.Value parser.index := by
    have := h.here
    rwa [Parser.Here, hs] at this
  have hnext : ∀ {state : HeaderState} {index : ℕ}, state.Value index → index ≤ 17 →
      (Code.next { parser with headerState := state, index := index }).Safe := by
    intro state index hstate hindex
    refine ⟨⟨hindex, h.bounded.2⟩, ?_, h.ok⟩
    simp only [Parser.Here, hs]
    exact hstate
  have hgeneral : (Code.next { parser with headerState := .general }).Safe :=
    hnext (value_general _) h.bounded.1
  simp only [valueLetter]
  cases hstate : parser.headerState <;> rw [hstate] at hvalue <;> simp only
  case general | connection | transferEncoding => exact h
  case contentLength =>
    split_ifs
    · exact h
    · exact ⟨h.bounded.narrow, Errno.noConfusion⟩
    · refine pushDigit_safe h fun n _ => ?_
      simp only [Parser.Here, hs, hstate]
      exact hvalue
  case matchingTransferEncodingChunked =>
    have hmatched : HeaderState.transferEncodingChunked.Value (parser.index + 1) :=
      value_of_none _ rfl HeaderState.noConfusion HeaderState.noConfusion
    obtain ⟨hmatch, hindex⟩ := matchLetter_value (lower ch) rfl hmatched hvalue
    exact hnext hmatch hindex
  case matchingConnectionKeepAlive =>
    have hmatched : HeaderState.connectionKeepAlive.Value (parser.index + 1) :=
      value_of_none _ rfl HeaderState.noConfusion HeaderState.noConfusion
    obtain ⟨hmatch, hindex⟩ := matchLetter_value (lower ch) rfl hmatched hvalue
    exact hnext hmatch hindex
  case matchingConnectionClose =>
    have hmatched : HeaderState.connectionClose.Value (parser.index + 1) :=
      value_of_none _ rfl HeaderState.noConfusion HeaderState.noConfusion
    obtain ⟨hmatch, hindex⟩ := matchLetter_value (lower ch) rfl hmatched hvalue
    exact hnext hmatch hindex
  case transferEncodingChunked | connectionKeepAlive | connectionClose =>
    split
    · exact hgeneral
    · exact h
  all_goals exact ⟨h.bounded, value_general _, h.ok⟩

theorem caseHeaderValue_safe (h : parser.Steady) (hs : parser.state = .headerValue) :
    (caseHeaderValue parser ch).Safe := by
  simp only [caseHeaderValue, Code.callbackData, Code.callbackDataNoadvance]
  split_ifs
  · exact ⟨h.bounded.narrow, h.ok, h.bounded, trivial, h.ok⟩
  · refine ⟨h.bounded.narrow, h.ok, caseHeaderAlmostDone_safe ch ?_ h.ok⟩
    exact h.bounded
  · exact valueLetter_safe ch h hs

/-! ### The first line -/

theorem caseStartReq_safe (h : parser.Bounded) (hok : parser.httpErrno = .ok)
    (hhere : parser.Here) : (caseStartReq parser ch).Safe := by
  obtain ⟨hindex, hnread, hlength, hmajor, hminor, hstatus⟩ := h
  have hbegun : ∀ n ≤ 17, ({ parser.beginMessage with index := n } : Parser).Bounded :=
    fun n hn => ⟨hn, hnread, Nat.le_refl _, hmajor, hminor, hstatus⟩
  simp only [caseStartReq]
  split_ifs
  · exact ⟨⟨hindex, hnread, hlength, hmajor, hminor, hstatus⟩, hhere, hok⟩
  · exact ⟨(hbegun parser.index hindex).narrow, Errno.noConfusion⟩
  · split
    · exact ⟨(hbegun 1 (by decide)).narrow, Errno.noConfusion⟩
    · next m hm =>
        have hthree := three_le_string m
        refine ⟨(hbegun 1 (by decide)).narrow, hok, hbegun 1 (by decide), ?_, hok⟩
        simp only [Parser.Here]
        omega

theorem caseStartReqOrRes_safe (h : parser.Steady) : (caseStartReqOrRes parser ch).Safe := by
  obtain ⟨hindex, hnread, -, hmajor, hminor, hstatus⟩ := h.bounded
  have hbegun : parser.beginMessage.Bounded :=
    ⟨hindex, hnread, Nat.le_refl _, hmajor, hminor, hstatus⟩
  simp only [caseStartReqOrRes]
  split_ifs
  · exact h
  · exact ⟨hbegun.narrow, h.ok, hbegun, trivial, h.ok⟩
  · refine caseStartReq_safe ch ?_ h.ok trivial
    exact hbegun

theorem caseStartRes_safe (h : parser.Steady) (hs : parser.state = .startRes) :
    (caseStartRes parser ch).Safe := by
  obtain ⟨hindex, hnread, -, hmajor, hminor, hstatus⟩ := h.bounded
  have hbegun : parser.beginMessage.Bounded :=
    ⟨hindex, hnread, Nat.le_refl _, hmajor, hminor, hstatus⟩
  simp only [caseStartRes]
  split_ifs
  · exact ⟨hbegun.narrow, h.ok, hbegun, trivial, h.ok⟩
  · refine ⟨hbegun.narrow, h.ok, hbegun, ?_, h.ok⟩
    simp only [Parser.Here, Parser.beginMessage, hs]
  · exact ⟨hbegun.narrow, Errno.noConfusion⟩

theorem caseResOrRespH_safe (h : parser.Steady) : (caseResOrRespH parser ch).Safe := by
  simp only [caseResOrRespH]
  split_ifs
  · exact ⟨h.bounded, trivial, h.ok⟩
  · exact ⟨h.bounded.narrow, Errno.noConfusion⟩
  · refine ⟨⟨by simp, h.bounded.2⟩, ?_, h.ok⟩
    have hthree := three_le_string .head
    simp only [Parser.Here]
    omega

theorem caseReqSpacesBeforeUrl_safe (h : parser.Steady) : (caseReqSpacesBeforeUrl parser ch).Safe := by
  simp only [caseReqSpacesBeforeUrl]
  split
  · exact h
  · refine urlChar_safe ch ?_ ?_ <;> split <;> first | exact h.bounded | exact h.ok

theorem caseReqUrl_safe (h : parser.Steady) : (caseReqUrl parser ch).Safe := by
  obtain ⟨hindex, hnread, hlength, hmajor, hminor, hstatus⟩ := h.bounded
  have hold : ∀ state : State, ({ parser with
      httpMajor := 0, httpMinor := 9, state := state } : Parser).Bounded :=
    fun _ => ⟨hindex, hnread, hlength, Nat.zero_le _, (by decide : 9 ≤ 999), hstatus⟩
  simp only [caseReqUrl, Code.callbackData]
  split_ifs
  · exact ⟨h.bounded.narrow, h.ok, h.bounded, trivial, h.ok⟩
  · exact ⟨(hold .reqLineAlmostDone).narrow, h.ok, hold .reqLineAlmostDone, trivial, h.ok⟩
  · exact ⟨(hold .headerFieldStart).narrow, h.ok, hold .headerFieldStart, trivial, h.ok⟩
  · exact urlChar_safe ch h.bounded h.ok

/-! ### The body -/

theorem caseMessageDone_safe (h : parser.Bounded) (hok : parser.httpErrno = .ok) :
    (caseMessageDone parser).Safe :=
  ⟨h.narrow, hok, h, here_newMessage _ rfl, hok⟩

/-- Taking bytes off a length. -/
theorem bounded_sub (h : parser.Bounded) (n : ℕ) :
    ({ parser with contentLength := parser.contentLength - n } : Parser).Bounded :=
  ⟨h.1, h.2.1, Nat.le_trans (Nat.sub_le _ _) h.2.2.1, h.2.2.2⟩

theorem caseBodyIdentity_safe (avail : ℕ) (h : parser.Steady) (hs : parser.state = .bodyIdentity) :
    (caseBodyIdentity parser avail).Safe := by
  have hhere : parser.contentLength ≠ 0 ∧ parser.contentLength ≠ ullongMax := by
    have := h.here
    rwa [Parser.Here, hs] at this
  have hbounded := bounded_sub h.bounded (min parser.contentLength avail)
  have hle := h.bounded.2.2.1
  simp only [caseBodyIdentity]
  show Code.Safe (if _ then _ else _)
  split
  · refine ⟨hbounded.narrow, h.ok, caseMessageDone_safe ?_ h.ok⟩
    exact hbounded
  · next hzero =>
      refine ⟨hbounded, ?_, h.ok⟩
      simp only [Parser.Here, hs]
      exact ⟨hzero, by omega⟩

theorem caseChunkData_safe (avail : ℕ) (h : parser.Steady) (hs : parser.state = .chunkData) :
    (caseChunkData parser avail).Safe := by
  have hhere : parser.flags.chunked = true ∧
      parser.contentLength ≠ 0 ∧ parser.contentLength ≠ ullongMax := by
    have := h.here
    rwa [Parser.Here, hs] at this
  have hbounded := bounded_sub h.bounded (min parser.contentLength avail)
  have hle := h.bounded.2.2.1
  simp only [caseChunkData]
  show Code.Safe (.next (if _ then _ else _))
  split
  · next hzero => exact ⟨hbounded, ⟨hhere.1, hzero⟩, h.ok⟩
  · next hzero =>
      refine ⟨hbounded, ?_, h.ok⟩
      simp only [Parser.Here, hs]
      exact ⟨hhere.1, hzero, by omega⟩

/-- The first digit of a size: that the message is chunked is all that is known before it. -/
theorem caseChunkSizeStart_safe (h : parser.Bounded) (hchunked : parser.flags.chunked = true)
    (hok : parser.httpErrno = .ok) : (caseChunkSizeStart parser ch).Safe := by
  simp only [caseChunkSizeStart]
  split
  · exact ⟨h.narrow, Errno.noConfusion⟩
  · next d hd =>
      have hle := unhex_le hd
      have hlt : d < ullongMax := by
        simp only [ullongMax]
        omega
      exact ⟨⟨h.1, h.2.1, Nat.le_of_lt hlt, h.2.2.2⟩, ⟨hchunked, Nat.ne_of_lt hlt⟩, hok⟩

theorem caseChunkSize_safe (h : parser.Steady) (hs : parser.state = .chunkSize) :
    (caseChunkSize parser ch).Safe := by
  have hhere := h.here
  rw [Parser.Here, hs] at hhere
  simp only [caseChunkSize]
  split
  · exact ⟨h.bounded, hhere, h.ok⟩
  · split
    · split
      · exact ⟨h.bounded, hhere, h.ok⟩
      · exact ⟨h.bounded.narrow, Errno.noConfusion⟩
    · refine pushDigit_safe h fun n hn => ?_
      simp only [Parser.Here, hs]
      exact ⟨hhere.1, hn⟩

theorem caseChunkSizeAlmostDone_safe (h : parser.Steady) (hs : parser.state = .chunkSizeAlmostDone) :
    (caseChunkSizeAlmostDone parser ch).Safe := by
  have hhere := h.here
  rw [Parser.Here, hs] at hhere
  have hzero : ({ parser with nread := 0 } : Parser).Bounded :=
    ⟨h.bounded.1, Nat.zero_le _, h.bounded.2.2⟩
  simp only [caseChunkSizeAlmostDone, strictCheck]
  split_ifs with hch hlength
  · exact ⟨h.bounded.narrow, Errno.noConfusion⟩
  · exact ⟨hzero, trivial, h.ok⟩
  · exact ⟨hzero, ⟨hhere.1, hlength, hhere.2⟩, h.ok⟩

end Safe

/-- **From a steady record the switch is safe.** -/
theorem switch_safe (parser : Parser) (ch : UInt8) (avail : ℕ) (h : parser.Bounded)
    (hhere : parser.state ≠ .chunkSizeStart → parser.Here)
    (hsize : parser.state = .chunkSizeStart → parser.flags.chunked = true)
    (hok : parser.httpErrno = .ok) : (switch parser ch avail).Safe := by
  -- in front of a chunk size the counter is 0, and the byte that was counted has changed that
  by_cases hstart : parser.state = .chunkSizeStart
  · simp only [switch, hstart]
    exact caseChunkSizeStart_safe ch h (hsize hstart) hok
  have h : parser.Steady := ⟨h, hhere hstart, hok⟩
  have here := h.here
  cases hs : parser.state <;> simp only [switch, hs] <;> rw [Parser.Here, hs] at here
  case dead =>
    simp only [caseDead]
    split
    · exact h
    · exact ⟨h.bounded.narrow, Errno.noConfusion⟩
  case startReqOrRes => exact caseStartReqOrRes_safe ch h
  case resOrRespH => exact caseResOrRespH_safe ch h
  case startRes => exact caseStartRes_safe ch h hs
  case startReq => exact caseStartReq_safe ch h.bounded h.ok h.here
  case resFirstHttpMajor => exact caseResFirstHttpMajor_safe ch h
  case resHttpMajor =>
    exact caseHttpMajor_safe ch h (fun n => by simp only [Parser.Here, hs]) trivial
  case resFirstHttpMinor => exact caseFirstHttpMinor_safe ch h fun _ => trivial
  case resHttpMinor =>
    simp only [caseResHttpMinor]
    split
    · exact ⟨h.bounded, trivial, h.ok⟩
    · exact moreHttpMinor_safe ch h fun n => by simp only [Parser.Here, hs]
  case resFirstStatusCode => exact caseResFirstStatusCode_safe ch h
  case resStatusCode => exact caseResStatusCode_safe ch h hs
  case resStatus =>
    simp only [caseResStatus]
    split_ifs
    · exact ⟨h.bounded, trivial, h.ok⟩
    · exact ⟨h.bounded, trivial, h.ok⟩
    · exact h
  case resLineAlmostDone =>
    simp only [caseResLineAlmostDone, strictCheck]
    split
    · exact ⟨h.bounded.narrow, Errno.noConfusion⟩
    · exact ⟨h.bounded.narrow, h.ok, h.bounded, trivial, h.ok⟩
  case reqMethod => exact caseReqMethod_safe ch h hs
  case reqSpacesBeforeUrl => exact caseReqSpacesBeforeUrl_safe ch h
  case reqSchema | reqSchemaSlash | reqSchemaSlashSlash | reqServerStart =>
    simp only [caseReqSchema]
    split
    · exact ⟨h.bounded.narrow, Errno.noConfusion⟩
    · exact urlChar_safe ch h.bounded h.ok
  case reqServer | reqServerWithAt | reqPath | reqQueryStringStart | reqQueryString
      | reqFragmentStart | reqFragment => exact caseReqUrl_safe ch h
  case reqHttpStart =>
    simp only [caseReqHttpStart]
    split_ifs
    · exact ⟨h.bounded, trivial, h.ok⟩
    · exact h
    · exact ⟨h.bounded.narrow, Errno.noConfusion⟩
  case reqFirstHttpMajor => exact caseReqFirstHttpMajor_safe ch h
  case reqHttpMajor =>
    exact caseHttpMajor_safe ch h (fun n => by simp only [Parser.Here, hs]) trivial
  case reqFirstHttpMinor => exact caseFirstHttpMinor_safe ch h fun _ => trivial
  case reqHttpMinor =>
    simp only [caseReqHttpMinor]
    split_ifs
    · exact ⟨h.bounded, trivial, h.ok⟩
    · exact ⟨h.bounded, trivial, h.ok⟩
    · exact moreHttpMinor_safe ch h fun n => by simp only [Parser.Here, hs]
  case reqLineAlmostDone =>
    simp only [caseReqLineAlmostDone]
    split
    · exact ⟨h.bounded.narrow, Errno.noConfusion⟩
    · exact ⟨h.bounded, trivial, h.ok⟩
  case headerFieldStart => exact caseHeaderFieldStart_safe ch h.bounded h.ok
  case headerField => exact caseHeaderField_safe ch h hs
  case headerValueStart => exact caseHeaderValueStart_safe ch h
  case headerValue => exact caseHeaderValue_safe ch h hs
  case headerValueLws =>
    simp only [caseHeaderValueLws]
    split
    · exact ⟨h.bounded, trivial, h.ok⟩
    · refine caseHeaderFieldStart_safe ch ?_ h.ok
      exact h.bounded
  case headerAlmostDone => exact caseHeaderAlmostDone_safe ch h.bounded h.ok
  case headersAlmostDone => exact caseHeadersAlmostDone_safe ch h.bounded h.ok
  case headersDone => exact caseHeadersDone_safe ch h.bounded h.ok
  case chunkSizeStart => exact absurd hs hstart
  case chunkSize => exact caseChunkSize_safe ch h hs
  case chunkParameters =>
    simp only [caseChunkParameters]
    split
    · exact ⟨h.bounded, here, h.ok⟩
    · exact h
  case chunkSizeAlmostDone => exact caseChunkSizeAlmostDone_safe ch h hs
  case chunkData => exact caseChunkData_safe avail h hs
  case chunkDataAlmostDone =>
    simp only [caseChunkDataAlmostDone, strictCheck, Code.callbackData]
    split
    · exact ⟨h.bounded.narrow, Errno.noConfusion⟩
    · exact ⟨h.bounded.narrow, h.ok, h.bounded, here.1, h.ok⟩
  case chunkDataDone =>
    simp only [caseChunkDataDone, strictCheck]
    split
    · exact ⟨h.bounded.narrow, Errno.noConfusion⟩
    · exact ⟨⟨h.bounded.1, Nat.zero_le _, h.bounded.2.2⟩, ⟨here, rfl⟩, h.ok⟩
  case bodyIdentity => exact caseBodyIdentity_safe avail h hs
  case bodyIdentityEof => exact h
  case messageDone => exact caseMessageDone_safe h.bounded h.ok
  all_goals exact caseLetter_safe ch h trivial

/-- Counting the byte violates nothing but what is known of the counter in front of a chunk size. -/
theorem Parser.Here.count {parser : Parser} (h : parser.Here) (n : ℕ)
    (hstart : parser.state ≠ .chunkSizeStart) : ({ parser with nread := n } : Parser).Here := by
  simp only [Parser.Here] at h ⊢
  cases hs : parser.state <;> simp only [hs] at h ⊢ <;> first | exact h | exact absurd hs hstart

theorem HeaderState.Field.ofField {state : HeaderState} {index : ℕ} (h : state.Field index) :
    state.ofField = true := by
  cases state <;> first | rfl | exact h.1

/-- What is asserted of the counted record follows from what holds before the count. -/
theorem asserts_counted {parser : Parser} (ch : UInt8) (h : parser.Here) :
    parser.counted.Asserts ch := by
  simp only [Parser.Here] at h
  simp only [Parser.Asserts, Parser.counted]
  cases hs : parser.state <;> simp only [hs] at h <;>
    simp only [State.parsingHeader, if_true, Bool.false_eq_true, if_false, hs]
  case headerField => exact fun _ => h.ofField
  case headerValue => exact fun _ _ => ⟨h.1, h.2.1⟩
  case chunkSizeStart => exact ⟨by rw [h.2], h.1⟩
  case chunkSize | chunkParameters | chunkSizeAlmostDone => exact h.1
  case chunkData | chunkDataAlmostDone | chunkDataDone | bodyIdentity => exact h

theorem indexes_counted {parser : Parser} (h : parser.Here) : parser.counted.Indexes := by
  simp only [Parser.Here] at h
  simp only [Parser.Indexes, Parser.counted]
  cases hs : parser.state <;> simp only [hs] at h <;>
    simp only [State.parsingHeader, if_true, Bool.false_eq_true, if_false, hs]
  case reqMethod => exact h
  case headerField =>
    intro name hname
    exact Nat.le_of_lt ((field_iff hname h.ofField).1 h)
  case headerValue =>
    intro name hname
    exact Nat.le_of_lt (h.2.2 name hname)

/-- **A turn from a steady record violates no assertion, and leads to a steady record.** -/
theorem turn_safe {parser : Parser} (ch : UInt8) (avail : ℕ) (h : parser.Steady) :
    (turn parser ch avail).Safe ∧ TurnSafe parser ch avail := by
  have hsize : parser.state = .chunkSizeStart → parser.flags.chunked = true ∧ parser.nread = 0 := by
    intro hs
    have := h.here
    rwa [Parser.Here, hs] at this
  have hsafe : (turn parser ch avail).Safe := by
    simp only [turn]
    split
    · obtain ⟨hindex, hnread, hrest⟩ := h.bounded
      split
      · obtain ⟨nindex, -, nrest⟩ := h.bounded.narrow
        have hcount : parser.nread + 1 < 2 ^ 32 := by
          simp only [maxHeaderSize] at hnread
          omega
        exact ⟨⟨nindex, hcount, nrest⟩, Errno.noConfusion⟩
      · next hbig =>
          exact switch_safe _ ch avail ⟨hindex, Nat.le_of_not_lt hbig, hrest⟩
            (fun hs => h.here.count _ hs) (fun hs => (hsize hs).1) h.ok
    · exact switch_safe parser ch avail h.bounded (fun _ => h.here) (fun hs => (hsize hs).1) h.ok
  exact ⟨hsafe, asserts_counted ch h.here, indexes_counted h.here, hsafe.each, hsafe.callsUnerrored⟩

/-! ## Runs -/

variable {α : Type} {S : Settings α}

/-- Running safe code goes on with a steady record, unless an error stops it. -/
theorem runCode_steady (c : Code) (hc : c.Safe) (s : Scan α) (p : Bytes) (moved : ℕ) :
    match runCode S c s p moved with
    | .next s' _ => s'.parser.Steady
    | .done parser _ _ => parser.httpErrno = .ok → parser.Steady := by
  induction c generalizing s p moved with
  | next parser => exact hc
  | error parser errno => exact fun hok => absurd hok hc.2
  | leave parser => exact fun _ => hc
  | mark m rest ih =>
      rw [runCode]
      cases s.marks m with
      | none => exact ih hc _ p moved
      | some start => exact ih hc s p moved
  | advance n rest ih => exact ih hc s (p.drop n) (moved + n)
  | data m parser extra consumed rest ih =>
      rw [runCode]
      cases s.marks m with
      | none => exact ih hc.2.2 s p moved
      | some start =>
          simp only
          split_ifs
          · exact fun hok => absurd hok m.errno_ne_ok
          · exact ih hc.2.2 _ p moved
  | notify n parser rest ih =>
      rw [runCode]
      split_ifs
      · exact fun hok => absurd hok n.errno_ne_ok
      · exact ih hc.2.2 _ p moved
  | headersComplete parser rest skipBody ihrest ihskip =>
      rw [runCode]
      split_ifs
      · exact ihrest hc.2.2.1 _ p moved
      · exact ihskip hc.2.2.2 _ p moved
      · exact fun hok => Errno.noConfusion hok

theorem tracks_true (S : Settings α) : S.Tracks fun _ _ => True where
  data _ _ _ _ _ _ _ := trivial
  notice _ _ _ _ _ _ := trivial
  headersComplete _ _ _ _ _ _ := trivial

/-- Of the marks that fit a state at most one is set. -/
theorem MarksAre.atMostOne {marks : Mark → Option Bytes} {state : State}
    (h : MarksAre marks state.openMark state.inBody) : AtMostOneMark marks := by
  intro m m' hm hm'
  rcases h.atMost m hm with hopen | ⟨rfl, hbody⟩ <;>
    rcases h.atMost m' hm' with hopen' | ⟨rfl, hbody'⟩
  · exact Option.some.inj (hopen.symm.trans hopen')
  · cases hs : state <;> rw [hs] at hopen hbody' <;>
      first | exact absurd hbody' (by decide) | exact absurd hopen (by simp [State.openMark])
  · cases hs : state <;> rw [hs] at hopen' hbody <;>
      first | exact absurd hbody (by decide) | exact absurd hopen' (by simp [State.openMark])
  · rfl

/-- What holds between two turns of the loop. -/
theorem loop_safe (p : Bytes) {s : Scan α} (h : s.parser.Steady)
    (hs : s.InOrder fun _ _ => True) (skip : ℕ) : LoopSafe S s skip p := by
  induction p generalizing s skip with
  | nil => cases skip <;> exact ⟨hs.marks.atMostOne, h.ok⟩
  | cons ch p ih =>
      cases skip with
      | succ skip => exact ih h hs skip
      | zero =>
          obtain ⟨hsafe, hturn⟩ := turn_safe ch (p.length + 1) h
          have hsteady := runCode_steady (S := S) _ hsafe s (ch :: p) 0
          have hnext := hs.turn (tracks_true S) ch p
          refine ⟨hturn, ?_⟩
          cases hstep : runCode S (turn s.parser ch (p.length + 1)) s (ch :: p) 0 with
          | next s' moved =>
              rw [hstep] at hsteady hnext
              exact ih hsteady hnext moved
          | done parser u consumed => trivial

/-- The loop ends with a steady record, unless an error stops it. -/
theorem loop_steady (p : Bytes) {s : Scan α} (h : s.parser.Steady) (skip pos : ℕ) :
    match loop S s skip p pos with
    | .end s' => s'.parser.Steady
    | .return r => r.parser.httpErrno = .ok → r.parser.Steady :=
  loop_induction (I := fun s _ _ => s.parser.Steady) (F := fun s => s.parser.Steady)
    (E := fun parser _ => parser.httpErrno = .ok → parser.Steady) (fun _ _ h => h) (fun _ _ _ _ h => h)
    (fun s ch p h => runCode_steady _ (turn_safe ch (p.length + 1) h).1 s (ch :: p) 0) h pos

theorem flush_steady (len : ℕ) (ms : List Mark) {s : Scan α} (h : s.parser.Steady) :
    (flush S len ms s).parser.httpErrno = .ok → (flush S len ms s).parser.Steady := by
  induction ms generalizing s with
  | nil => exact fun _ => h
  | cons m ms ih =>
      rw [flush]
      cases s.marks m with
      | none => exact ih h
      | some start =>
          simp only
          split_ifs
          · exact fun hok => absurd hok m.errno_ne_ok
          · exact ih (by exact h)

/-- Without data the record stays as it is, or there is an error. -/
theorem execute_nil (parser : Parser) (u : α) : (execute S parser u []).parser = parser ∨
    (execute S parser u []).parser.httpErrno ≠ .ok := by
  simp only [execute, List.isEmpty_nil, if_true]
  split
  · exact Or.inl rfl
  · split
    · split
      · exact Or.inr Errno.noConfusion
      · exact Or.inl rfl
    · exact Or.inl rfl
    · exact Or.inl rfl
    · exact Or.inl rfl
    · exact Or.inl rfl
    · exact Or.inr Errno.noConfusion

/-- A call leaves a steady record, unless there is an error. -/
theorem execute_steady {parser : Parser} (h : parser.httpErrno = .ok → parser.Steady) (u : α)
    (data : Bytes) (hok : (execute S parser u data).parser.httpErrno = .ok) :
    (execute S parser u data).parser.Steady := by
  by_cases hempty : data = []
  · subst hempty
    rcases execute_nil (S := S) parser u with heq | herr
    · rw [heq] at hok ⊢
      exact h hok
    · exact absurd hok herr
  simp only [execute, List.isEmpty_iff, if_neg hempty] at hok ⊢
  by_cases herrno : parser.httpErrno ≠ .ok
  · rw [if_pos herrno] at hok
    exact absurd hok herrno
  rw [if_neg herrno] at hok ⊢
  have hloop := loop_steady (S := S) data
    (s := ⟨parser, u, marksAt parser.state data⟩) (h (not_not.1 herrno)) 0 0
  cases hend : loop S ⟨parser, u, marksAt parser.state data⟩ 0 data 0 with
  | «return» r =>
      rw [hend] at hloop hok
      exact hloop hok
  | «end» s =>
      rw [hend] at hloop hok
      exact flush_steady data.length Mark.all hloop hok

theorem execute_fits {parser : Parser} {u : α} (h : InOrder (fun _ _ => True) parser u)
    (data : Bytes) :
    InOrder (fun _ _ => True) (execute S parser u data).parser (execute S parser u data).user := by
  by_cases hempty : data = []
  · subst hempty
    obtain ⟨φ, -, hfits⟩ := h
    rcases execute_nil (S := S) parser u with heq | herr
    · exact ⟨φ, trivial, by rwa [heq]⟩
    · exact InOrder.of_error (φ := φ) trivial herr
  · exact execute_inOrder (tracks_true S) h hempty

theorem steady_safe {parser : Parser} {u : α} (h : parser.httpErrno = .ok → parser.Steady)
    (hfits : InOrder (fun _ _ => True) parser u) (reads : List Bytes) :
    RunSafe S parser u reads := by
  induction reads generalizing parser u with
  | nil => trivial
  | cons data reads ih =>
      exact ⟨fun hok => loop_safe data (h hok) (hfits.scan hok data) 0,
        ih (execute_steady h u data) (execute_fits hfits data)⟩

theorem steady_init (type : ParserType) : (Parser.init type).Steady := by
  refine ⟨⟨?_, ?_, ?_, ?_, ?_, ?_⟩, ?_, rfl⟩
  all_goals first
    | exact Nat.zero_le _
    | (cases type <;> trivial)

/-- **No run of the parser violates an assertion**, whatever the data, its cuts and the callbacks. -/
theorem run_safe (S : Settings α) (type : ParserType) (u : α) (reads : List Bytes) :
    RunSafe S (Parser.init type) u reads :=
  steady_safe (fun _ => steady_init type) (inOrder_init type trivial) reads

/-- A length above 2 ^ 64 that no check refuses. -/
example : let parser := (execute ignoring (Parser.init .response) ()
      (lit "HTTP/1.1 200 OK\x0d\nContent-Length: 30000000000000000000\x0d\n")).parser
    parser.contentLength = 11553255926290448384 ∧ parser.httpErrno = .ok := by decide +kernel

end ImageProxy.Http
