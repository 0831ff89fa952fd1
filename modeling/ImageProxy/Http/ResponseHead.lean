import ImageProxy.Http.HeaderLines
import ImageProxy.Http.Response

set_option autoImplicit false

/-! # Response heads

What a response head means, by its grammar: a status line, header lines, and an empty line. The parser
delivers the headers and knows at the end what the head says (`run_responseHead`). -/

namespace ImageProxy.Http

open Ascii Cpcl ChunkedCoding

variable {α : Type} {S : Settings α} {parser : Parser}

/-! ## The status line -/

/-- `reason` is what follows the status code, with the space in front if there is anything. -/
structure StatusLine where
  major : Bytes
  minor : Bytes
  code : Bytes
  reason : Bytes

namespace StatusLine

def text (s : StatusLine) : Bytes :=
  lit "HTTP/" ++ s.major ++ [asc '.'] ++ s.minor ++ [asc ' '] ++ s.code ++ s.reason ++ crlf

structure Valid (s : StatusLine) : Prop where
  major : IsNumber s.major
  minor : IsNumber s.minor
  code : IsNumber s.code
  reason : ∀ c ∈ s.reason, c ≠ CR ∧ c ≠ LF
  space : ∀ c, s.reason.head? = some c → c = asc ' '

def check (s : StatusLine) : Bool :=
  isNumberCheck s.major && isNumberCheck s.minor && isNumberCheck s.code
    && s.reason.all (fun c => c != CR && c != LF) && s.reason.head?.all (· == asc ' ')

theorem valid_of_check {s : StatusLine} (hcheck : s.check = true) : s.Valid := by
  simp only [check, Bool.and_eq_true, List.all_eq_true, Option.all_eq_true, bne_iff_ne,
    beq_iff_eq] at hcheck
  obtain ⟨⟨⟨⟨hmajor, hminor⟩, hcode⟩, hreason⟩, hspace⟩ := hcheck
  exact ⟨isNumber_of_check hmajor, isNumber_of_check hminor, isNumber_of_check hcode, hreason, hspace⟩

end StatusLine

/-- The parser in the status line of a response. -/
def statusAt (state : State) (major minor code nread : ℕ) : Parser :=
  { (Parser.init .response).beginMessage with
    state := state
    httpMajor := major
    httpMinor := minor
    statusCode := code
    nread := nread }

theorem going_statusAt (state : State) (major minor code nread : ℕ) :
    (statusAt state major minor code nread).Going := ⟨rfl, rfl⟩

theorem run_protocol (hS : Lawful S) (u : α) : run S (Parser.init .response) u (lit "HTTP/")
    = some (statusAt .resFirstHttpMajor 0 0 0 5, (S.onMessageBegin u).2) := by
  have hbegin : turn (Parser.init .response) (asc 'H') 1
      = .notify .messageBegin (statusAt .resH 0 0 0 1) (.next (statusAt .resH 0 0 0 1)) := rfl
  have hrest : walk (statusAt .resH 0 0 0 1) (lit "TTP/") = some (statusAt .resFirstHttpMajor 0 0 0 5) :=
    rfl
  rw [show lit "HTTP/" = [asc 'H'] ++ lit "TTP/" from rfl, run_append hS,
    run_notify hS (by decide) rfl hbegin, Option.bind_some]
  exact run_walk hS _ hrest

theorem run_major (hS : Lawful S) (u : α) {cs : Bytes} (hcs : IsNumber cs) (hok : parser.Going)
    (hs : parser.state = .resFirstHttpMajor) (hnread : parser.nread + cs.length ≤ maxHeaderSize) :
    run S parser u cs = some ({ parser with
      state := .resHttpMajor
      httpMajor := decimalValue cs
      nread := parser.nread + cs.length }, u) := by
  refine run_numeral hS u (fun v n => { parser with
    state := .resHttpMajor, httpMajor := v, nread := n }) (fun _ _ => hok) (fun _ _ => rfl) ?_ hcs hok
    (by rw [hs]; rfl) ?_ hnread
  · intro v n c hc hsmall hn
    rw [turn_header rfl hn, switch]
    simp only [caseHttpMajor, if_neg (isNum_ne hc (by decide : isNum (asc '.') = false)), hc,
      Bool.not_true, Bool.false_eq_true, if_false]
    rw [if_neg (by omega)]
  · intro c _ hc hn
    rw [turn_header (by rw [hs]; rfl) hn, switch]
    obtain ⟨hge, hle⟩ := (isNum_iff c).1 hc
    simp only [hs, caseResFirstHttpMajor]
    rw [if_neg (not_or.2 ⟨UInt8.not_lt.2 hge, UInt8.not_lt.2 hle⟩)]

theorem run_minor (hS : Lawful S) (u : α) {cs : Bytes} (hcs : IsNumber cs) (hok : parser.Going)
    (hs : parser.state = .resFirstHttpMinor) (hnread : parser.nread + cs.length ≤ maxHeaderSize) :
    run S parser u cs = some ({ parser with
      state := .resHttpMinor
      httpMinor := decimalValue cs
      nread := parser.nread + cs.length }, u) := by
  refine run_numeral hS u (fun v n => { parser with
    state := .resHttpMinor, httpMinor := v, nread := n }) (fun _ _ => hok) (fun _ _ => rfl) ?_ hcs hok
    (by rw [hs]; rfl) ?_ hnread
  · intro v n c hc hsmall hn
    rw [turn_header rfl hn, switch]
    simp only [caseResHttpMinor, if_neg (isNum_ne hc (by decide : isNum (asc ' ') = false)),
      moreHttpMinor, hc, Bool.not_true, Bool.false_eq_true, if_false]
    rw [if_neg (by omega)]
  · intro c _ hc hn
    rw [turn_header (by rw [hs]; rfl) hn, switch]
    simp only [hs, caseFirstHttpMinor, hc, Bool.not_true, Bool.false_eq_true, if_false]

theorem run_code (hS : Lawful S) (u : α) {cs : Bytes} (hcs : IsNumber cs) (hok : parser.Going)
    (hs : parser.state = .resFirstStatusCode) (hnread : parser.nread + cs.length ≤ maxHeaderSize) :
    run S parser u cs = some ({ parser with
      state := .resStatusCode
      statusCode := decimalValue cs
      nread := parser.nread + cs.length }, u) := by
  refine run_numeral hS u (fun v n => { parser with
    state := .resStatusCode, statusCode := v, nread := n }) (fun _ _ => hok) (fun _ _ => rfl) ?_ hcs hok
    (by rw [hs]; rfl) ?_ hnread
  · intro v n c hc hsmall hn
    rw [turn_header rfl hn, switch]
    simp only [caseResStatusCode, hc, Bool.not_true, Bool.false_eq_true, if_false]
    rw [if_neg (by omega)]
  · intro c _ hc hn
    rw [turn_header (by rw [hs]; rfl) hn, switch]
    simp only [hs, caseResFirstStatusCode, hc, Bool.not_true, Bool.false_eq_true, if_false]

/-- The line end behind the status. -/
theorem run_statusEnd (hS : Lawful S) (u : α) (hok : parser.Going)
    (hs : parser.state = .resStatusCode ∨ parser.state = .resStatus)
    (hnread : parser.nread + 2 ≤ maxHeaderSize) :
    run S parser u crlf = some ({ parser with
      state := .headerFieldStart, nread := parser.nread + 2 }, (S.onStatusComplete u).2) := by
  have hopen : parser.state.openMark = none := by rcases hs with h | h <;> rw [h] <;> rfl
  have hcr : turn parser CR 1 = .next { parser with
      state := .resLineAlmostDone, nread := parser.nread + 1 } := by
    rcases hs with h | h
    · rw [turn_header (by rw [h]; rfl) (by omega), switch]
      simp only [h]
      rfl
    · rw [turn_header (by rw [h]; rfl) (by omega), switch]
      simp only [h]
      rfl
  have hlf : turn { parser with state := .resLineAlmostDone, nread := parser.nread + 1 } LF 1
      = .notify .statusComplete { parser with state := .headerFieldStart, nread := parser.nread + 2 }
        (.next { parser with state := .headerFieldStart, nread := parser.nread + 2 }) := by
    rw [turn_header rfl (by simp only; omega), switch]
    rfl
  rw [show crlf = [CR] ++ [LF] from rfl, run_append hS, run_next hok hopen hcr, Option.bind_some]
  exact run_notify hS (by exact hok) rfl hlf u

/-- What follows the status code, up to the end of the line. -/
theorem run_reason (hS : Lawful S) (u : α) {reason : Bytes} (hok : parser.Going)
    (hs : parser.state = .resStatusCode) (hreason : ∀ c ∈ reason, c ≠ CR ∧ c ≠ LF)
    (hspace : ∀ c, reason.head? = some c → c = asc ' ')
    (hnread : parser.nread + reason.length + 2 ≤ maxHeaderSize) :
    run S parser u (reason ++ crlf) = some ({ parser with
      state := .headerFieldStart
      nread := parser.nread + reason.length + 2 }, (S.onStatusComplete u).2) := by
  cases reason with
  | nil => exact run_statusEnd hS u hok (Or.inl hs) (by simpa using hnread)
  | cons c cs =>
      obtain rfl := hspace c rfl
      rw [List.length_cons] at hnread
      have hfirst : turn parser (asc ' ') 1 = .next { parser with
          state := .resStatus, nread := parser.nread + 1 } := by
        rw [turn_header (by rw [hs]; rfl) (by omega), switch]
        simp only [hs]
        rfl
      have hrest := @run_stays _ S { parser with state := .resStatus, nread := parser.nread + 1 } hS u
        cs hok rfl (fun d hd n hn => by
          obtain ⟨hcr, hlf⟩ := hreason d (by simp [hd])
          rw [turn_header rfl hn, switch]
          simp only [caseResStatus, if_neg hcr, if_neg hlf]) (by simp only; omega)
      rw [List.cons_append, run_head hS u hok (by rw [hs]; rfl) hfirst, run_append hS, hrest,
        Option.bind_some, run_statusEnd hS u (by exact hok) (Or.inr rfl) (by simp only; omega)]
      have hcount : parser.nread + 1 + cs.length + 2 = parser.nread + (cs.length + 1) + 2 := by omega
      simp only [List.length_cons, hcount]

theorem run_statusLine (hS : Lawful S) (u : α) {s : StatusLine} (h : s.Valid)
    (hlength : s.text.length ≤ maxHeaderSize) :
    run S (Parser.init .response) u s.text
      = some (statusAt .headerFieldStart (decimalValue s.major) (decimalValue s.minor)
          (decimalValue s.code) s.text.length, (S.onStatusComplete (S.onMessageBegin u).2).2) := by
  have hlen : s.text.length = 5 + s.major.length + 1 + s.minor.length + 1 + s.code.length
      + s.reason.length + 2 := by
    simp only [StatusLine.text, crlf, List.length_append, List.length_cons, List.length_nil]
    rfl
  rw [hlen] at hlength ⊢
  have hmajor := run_major hS (S.onMessageBegin u).2 h.major (going_statusAt _ 0 0 0 5) rfl
    (by simp only [statusAt]; omega)
  have hdot : turn (statusAt .resHttpMajor (decimalValue s.major) 0 0 (5 + s.major.length)) (asc '.') 1
      = .next (statusAt .resFirstHttpMinor (decimalValue s.major) 0 0 (5 + s.major.length + 1)) := by
    rw [turn_header rfl (by simp only [statusAt]; omega)]
    rfl
  have hminor := run_minor hS (S.onMessageBegin u).2 h.minor (going_statusAt _ (decimalValue s.major)
    0 0 (5 + s.major.length + 1)) rfl (by simp only [statusAt]; omega)
  have hspace : turn (statusAt .resHttpMinor (decimalValue s.major) (decimalValue s.minor) 0
        (5 + s.major.length + 1 + s.minor.length)) (asc ' ') 1
      = .next (statusAt .resFirstStatusCode (decimalValue s.major) (decimalValue s.minor) 0
        (5 + s.major.length + 1 + s.minor.length + 1)) := by
    rw [turn_header rfl (by simp only [statusAt]; omega)]
    rfl
  have hcode := run_code hS (S.onMessageBegin u).2 h.code (going_statusAt _ (decimalValue s.major)
    (decimalValue s.minor) 0 (5 + s.major.length + 1 + s.minor.length + 1)) rfl
    (by simp only [statusAt]; omega)
  have hreason := run_reason hS (S.onMessageBegin u).2 (going_statusAt _ (decimalValue s.major)
    (decimalValue s.minor) (decimalValue s.code)
    (5 + s.major.length + 1 + s.minor.length + 1 + s.code.length)) rfl h.reason h.space
    (by simp only [statusAt]; omega)
  simp only [StatusLine.text, List.append_assoc, List.cons_append]
  rw [run_append hS, run_protocol hS, Option.bind_some, run_append hS, hmajor, Option.bind_some]
  refine (run_head hS _ (going_statusAt ..) rfl hdot _).trans ?_
  rw [List.nil_append, run_append hS, hminor, Option.bind_some]
  refine (run_head hS _ (going_statusAt ..) rfl hspace _).trans ?_
  rw [List.nil_append, run_append hS, hcode, Option.bind_some]
  exact hreason

/-! ## The head -/

structure ResponseHead where
  status : StatusLine
  lines : List HeaderLine

namespace ResponseHead

/-- The head up to its last line feed. -/
def text (h : ResponseHead) : Bytes :=
  h.status.text ++ (h.lines.map HeaderLine.text).flatten ++ [CR]

def headers (h : ResponseHead) : List Header := h.lines.map HeaderLine.header

def framing (h : ResponseHead) : Framing := Framing.none.addLines h.lines

structure Valid (h : ResponseHead) : Prop where
  status : h.status.Valid
  lines : ∀ l ∈ h.lines, l.Valid
  length : h.text.length < maxHeaderSize

def check (h : ResponseHead) : Bool :=
  h.status.check && h.lines.all HeaderLine.check && decide (h.text.length < maxHeaderSize)

theorem valid_of_check {h : ResponseHead} (hcheck : h.check = true) : h.Valid := by
  simp only [check, Bool.and_eq_true, List.all_eq_true, decide_eq_true_eq] at hcheck
  exact ⟨StatusLine.valid_of_check hcheck.1.1,
    fun l hl => HeaderLine.valid_of_check (hcheck.1.2 l hl), hcheck.2⟩

/-- The parser behind the header lines. -/
def parserAt (h : ResponseHead) (st : State) (index : ℕ) (state : HeaderState) (nread : ℕ) : Parser :=
  { statusAt st (decimalValue h.status.major) (decimalValue h.status.minor)
      (decimalValue h.status.code) nread with
    flags := h.framing.flags
    contentLength := h.framing.contentLength
    index := index
    headerState := state }

/-- The parser at the last line feed knows what the head says. -/
structure Read (h : ResponseHead) (parser : Parser) : Prop where
  atHeadEnd : parser.AtHeadEnd
  type : parser.type = .response
  method : parser.method = .delete
  httpMajor : parser.httpMajor = decimalValue h.status.major
  httpMinor : parser.httpMinor = decimalValue h.status.minor
  statusCode : parser.statusCode = decimalValue h.status.code
  flags : parser.flags = h.framing.flags
  contentLength : parser.contentLength = h.framing.contentLength
  nread : parser.nread = h.text.length

/-- The callbacks for a head, up to its last line feed. -/
def deliver {α : Type} (S : Settings α) (u : α) (h : ResponseHead) : α :=
  deliverLines S (S.onStatusComplete (S.onMessageBegin u).2).2 h.lines

end ResponseHead

theorem ResponseHead.read_parserAt (h : ResponseHead) (index : ℕ) (state : HeaderState) {n : ℕ}
    (hn : n = h.text.length) : h.Read (h.parserAt .headersAlmostDone index state n) where
  atHeadEnd := ⟨⟨rfl, rfl⟩, rfl, (addLines_flags h.lines Framing.none).1⟩
  type := rfl
  method := rfl
  httpMajor := rfl
  httpMinor := rfl
  statusCode := rfl
  flags := rfl
  contentLength := rfl
  nread := hn

/-- **The parser reads a head as it is meant.** -/
theorem run_responseHead (hS : Lawful S) (u : α) {h : ResponseHead} (hh : h.Valid) :
    ∃ q : Parser, h.Read q ∧ run S (Parser.init .response) u h.text = some (q, h.deliver S u) := by
  have hlen : h.text.length
      = h.status.text.length + (h.lines.map HeaderLine.text).flatten.length + 1 := by
    simp only [ResponseHead.text, List.length_append, List.length_singleton]
  have hlength := hh.length
  obtain ⟨st, index, state, hst, hlines⟩ := run_lines hS (S.onStatusComplete (S.onMessageBegin u).2).2
    hh.lines (going_statusAt .headerFieldStart (decimalValue h.status.major)
      (decimalValue h.status.minor) (decimalValue h.status.code) h.status.text.length) (Or.inl rfl)
    (by simp only [statusAt]; omega)
  have hlast : run S (h.parserAt st index state
        (h.status.text.length + (h.lines.map HeaderLine.text).flatten.length)) (h.deliver S u) [CR]
      = some (h.parserAt .headersAlmostDone index state h.text.length, h.deliver S u) := by
    rw [hlen]
    exact run_emptyLine _ ⟨rfl, rfl⟩ hst (by simp only [ResponseHead.parserAt, statusAt]; omega)
  refine ⟨h.parserAt .headersAlmostDone index state h.text.length,
    h.read_parserAt index state rfl, ?_⟩
  refine Eq.trans ?_ hlast
  rw [ResponseHead.text, run_append hS, run_append hS, run_statusLine hS u hh.status (by omega),
    Option.bind_some, hlines, Option.bind_some]
  rfl

/-- **However a head is cut into reads, the parser delivers its headers and nothing else, and knows at
its last line feed the version, the status and how the body is framed.** -/
theorem executeAll_responseHead (hS : Lawful S) (u : α) {h : ResponseHead} (hh : h.Valid)
    {reads : List Bytes} (hreads : reads.flatten = h.text) (hcut : ∀ data ∈ reads, data ≠ []) :
    ReadsThrough S (Parser.init .response) u reads ∧
      ∃ q : Parser, h.Read q ∧ executeAll S (Parser.init .response) u reads = (q, h.deliver S u) := by
  obtain ⟨q, hread, hrun⟩ := run_responseHead hS u hh
  have hinit : (Parser.init .response).Going := by decide
  obtain ⟨hthrough, hall⟩ := readsThrough_of_run hS hinit hreads hcut hrun hread.atHeadEnd.going
  exact ⟨hthrough, q, hread, hall⟩

/-- A head with names in mixed case, blanks before values and spaces after them. -/
def mixedHead : ResponseHead where
  status := ⟨lit "1", lit "0", lit "302", lit " Found"⟩
  lines := [⟨⟨lit "CONNECTION", lit "Keep-Alive  "⟩, lit "\t"⟩, ⟨⟨lit "Connections", lit "close"⟩, []⟩,
    ⟨⟨lit "content-LENGTH", lit "0012"⟩, lit "  "⟩]

theorem executeAll_responseHead_mixed : ∃ q : Parser,
    mixedHead.Read q ∧ executeAll Log.recorder (Parser.init .response) Log.empty
      [lit "HTTP/1.0 302 Found\x0d\nCONNECTION:\tKeep-", lit "Alive  \x0d\nConnections:close\x0d",
        lit "\ncontent-LENGTH:  0012\x0d\n\x0d"]
      = (q, mixedHead.deliver Log.recorder Log.empty) :=
  (executeAll_responseHead Log.lawful_recorder Log.empty
    (ResponseHead.valid_of_check (by decide +kernel)) (by decide +kernel) (by decide +kernel)).2

/-- Its framing: the second name only begins with a known one. -/
example : mixedHead.framing = ⟨{ Flags.none with connectionKeepAlive := true }, 12⟩ := by
  decide +kernel

end ImageProxy.Http
