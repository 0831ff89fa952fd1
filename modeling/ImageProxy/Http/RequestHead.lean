import ImageProxy.Http.HeaderLines
import ImageProxy.Http.RequestUrl
import ImageProxy.Http.Response

set_option autoImplicit false

/-! # Request heads

What a request head means, by its grammar: a method, a URL that the automaton takes, a version, header
lines, and an empty line. The parser delivers the URL and the headers as they are, and knows at the end
the method and how the body is framed (`executeAll_requestHead`). -/

namespace ImageProxy.Http

open Ascii Cpcl ChunkedCoding

variable {α : Type} {S : Settings α} {parser : Parser}

/-! ## The method -/

/-- The parser in the request line. -/
def requestAt (state : State) (method : Method) (index major minor nread : ℕ) : Parser :=
  { (Parser.init .request).beginMessage with
    state := state
    method := method
    index := index
    httpMajor := major
    httpMinor := minor
    nread := nread }

theorem going_requestAt (state : State) (method : Method) (index major minor nread : ℕ) :
    (requestAt state method index major minor nread).Going := ⟨rfl, rfl⟩

/-- The method that the first letter of `m` stands for. -/
def Method.initial (m : Method) : Method :=
  (methodOfInitial (charAt (lit m.string) 0)).getD .delete

theorem turn_method (m : Method) : turn (Parser.init .request) (charAt (lit m.string) 0) 1
    = .notify .messageBegin (requestAt .reqMethod m.initial 1 0 0 1)
      (.next (requestAt .reqMethod m.initial 1 0 0 1)) := by
  cases m <;> rfl

/-- Every method is found from its letters. -/
theorem walk_method (m : Method) :
    walk (requestAt .reqMethod m.initial 1 0 0 1) ((lit m.string).tail ++ [asc ' '])
      = some (requestAt .reqSpacesBeforeUrl m ((lit m.string).length + 1) 0 0
          ((lit m.string).length + 1)) := by
  cases m <;> decide +kernel

theorem run_method (hS : Lawful S) (u : α) (m : Method) :
    run S (Parser.init .request) u (lit m.string ++ [asc ' '])
      = some (requestAt .reqSpacesBeforeUrl m ((lit m.string).length + 1) 0 0
          ((lit m.string).length + 1), (S.onMessageBegin u).2) := by
  have hletters : lit m.string = [charAt (lit m.string) 0] ++ (lit m.string).tail := by
    cases m <;> rfl
  rw [hletters, List.append_assoc, run_append hS, run_notify hS (by decide) rfl (turn_method m),
    Option.bind_some, ← hletters]
  exact run_walk hS _ (walk_method m)

/-! ## The URL -/

/-- Where the automaton begins. -/
def urlStart (m : Method) : State := if m = .connect then .reqServerStart else .reqSpacesBeforeUrl

def urlAfter (s : State) (cs : Bytes) : State := cs.foldl parseUrlChar s

/-- The states in which a blank ends the URL. -/
def State.urlEnd : State → Bool
  | .reqServer | .reqServerWithAt | .reqPath | .reqQueryStringStart | .reqQueryString
  | .reqFragmentStart | .reqFragment => true
  | _ => false

theorem parseUrlChar_ends {s : State} {c : UInt8} (h : c = asc ' ' ∨ c = CR ∨ c = LF) :
    parseUrlChar s c = .dead := if_pos h

theorem parseUrlChar_dead (c : UInt8) : parseUrlChar .dead c = .dead := by
  have hrest : (if c = asc '\t' ∨ c = 12 then State.dead else .dead) = .dead := ite_self _
  exact (congrArg (ite _ State.dead) hrest).trans (ite_self _)

theorem urlAfter_dead (cs : Bytes) : urlAfter .dead cs = .dead := by
  induction cs with
  | nil => rfl
  | cons c cs ih =>
      rw [urlAfter, List.foldl_cons, parseUrlChar_dead]
      exact ih

theorem urlAfter_cons (s : State) (c : UInt8) (cs : Bytes) :
    urlAfter s (c :: cs) = urlAfter (parseUrlChar s c) cs := rfl

theorem urlAfter_append (s : State) (cs ds : Bytes) :
    urlAfter s (cs ++ ds) = urlAfter (urlAfter s cs) ds := List.foldl_append

/-- What does not end dead has never been dead. -/
theorem alive_of_cons {s : State} {c : UInt8} {cs : Bytes} (h : urlAfter s (c :: cs) ≠ .dead) :
    parseUrlChar s c ≠ .dead := by
  intro hdead
  rw [urlAfter_cons, hdead, urlAfter_dead] at h
  exact h rfl

theorem endsUrl_of_alive {s : State} {c : UInt8} (h : parseUrlChar s c ≠ .dead) :
    endsUrl c = false :=
  decide_eq_false fun hends => h (parseUrlChar_ends hends)

/-- Letters of a URL behind the first one. -/
theorem run_urlLetters (hS : Lawful S) (u : α) {url cs : Bytes} (hok : parser.Going)
    (hopen : parser.state.openMark = some .url) (halive : urlAfter parser.state cs ≠ .dead)
    (hnread : parser.nread + cs.length ≤ maxHeaderSize) :
    run S parser (S.data .url url u).2 cs = some ({ parser with
      state := urlAfter parser.state cs
      nread := parser.nread + cs.length }, (S.data .url (url ++ cs) u).2) := by
  have hletters := run_letters hS parser u cs (m := .url)
    (I := fun xs p => p = { parser with
      state := urlAfter parser.state xs, nread := parser.nread + xs.length } ∧
      p.state.openMark = some .url)
    (fun xs c rest p heq hp => by
      obtain ⟨rfl, hopen⟩ := hp
      have hlt : xs.length < cs.length := by simp [heq]
      have hc : parseUrlChar (urlAfter parser.state xs) c ≠ .dead := by
        rw [heq, urlAfter_append] at halive
        exact alive_of_cons halive
      have hafter : urlAfter parser.state (xs ++ [c]) = parseUrlChar (urlAfter parser.state xs) c :=
        urlAfter_append _ xs [c]
      refine ⟨hok, hopen, { parser with
        state := parseUrlChar (urlAfter parser.state xs) c
        nread := parser.nread + (xs.length + 1) }, ?_, ?_, openMark_parseUrlChar _ _ hc⟩
      · have hon : Parser.OnUrl { parser with
            state := urlAfter parser.state xs, nread := parser.nread + (xs.length + 1) } :=
          Or.inl hopen
        rw [turn_urlChar (Or.inl hopen), if_neg (by simp only; omega)]
        rcases switch_urlChar hon (endsUrl_of_alive hc) 1 with ⟨hswitch, -⟩ | ⟨-, hnone⟩
        · exact hswitch.trans (if_neg hc)
        · exact absurd (hopen.symm.trans hnone) (by simp)
      · rw [hafter, List.length_append, List.length_singleton])
    ⟨rfl, hopen⟩ url
  obtain ⟨next, ⟨rfl, -⟩, hrun⟩ := hletters
  exact hrun

/-- The blank behind a URL. -/
theorem turn_urlEnd (h : parser.state.urlEnd = true) (hnread : parser.nread < maxHeaderSize) :
    turn parser (asc ' ') 1 = .callbackData .url
      { parser with nread := parser.nread + 1, state := .reqHttpStart }
      (.next { parser with nread := parser.nread + 1, state := .reqHttpStart }) := by
  have hheader : parser.state.parsingHeader = true := by
    revert h
    cases parser.state <;> decide
  have hswitch : switch { parser with nread := parser.nread + 1 } (asc ' ') 1
      = caseReqUrl { parser with nread := parser.nread + 1 } (asc ' ') := by
    simp only [switch]
    cases hs : parser.state <;> rw [hs] at h <;> first | rfl | exact absurd h (by decide)
  rw [turn_header hheader hnread, hswitch]
  rfl

/-- The first letter of a URL. CONNECT expects a server there. -/
theorem turn_urlFirst {c : UInt8} (hs : parser.state = .reqSpacesBeforeUrl)
    (halive : parseUrlChar (urlStart parser.method) c ≠ .dead) (hnread : parser.nread < maxHeaderSize) :
    turn parser c 1 = .mark .url (.next { parser with
      nread := parser.nread + 1, state := parseUrlChar (urlStart parser.method) c }) := by
  have hspace : c ≠ asc ' ' := fun h => halive (parseUrlChar_ends (Or.inl h))
  rw [turn_header (by rw [hs]; rfl) hnread, switch]
  simp only [hs, caseReqSpacesBeforeUrl, if_neg hspace]
  by_cases hconnect : parser.method = .connect
  · rw [urlStart, if_pos hconnect] at halive ⊢
    rw [if_pos hconnect]
    exact congrArg _ (if_neg halive)
  · rw [urlStart, if_neg hconnect] at halive ⊢
    rw [if_neg hconnect]
    simp only [urlChar, if_neg halive]

/-- A whole URL, and the blank behind it. -/
theorem run_url (hS : Lawful S) (u : α) {url : Bytes} (hok : parser.Going)
    (hs : parser.state = .reqSpacesBeforeUrl)
    (hurl : (urlAfter (urlStart parser.method) url).urlEnd = true)
    (hnread : parser.nread + url.length + 1 ≤ maxHeaderSize) :
    run S parser u (url ++ [asc ' ']) = some ({ parser with
      state := .reqHttpStart
      nread := parser.nread + url.length + 1 }, (S.data .url url u).2) := by
  have halive : urlAfter (urlStart parser.method) url ≠ .dead := by
    intro hdead
    rw [hdead] at hurl
    exact absurd hurl (by decide)
  -- where a URL may end, it is open
  have hends : ∀ s : State, s.urlEnd = true → s.openMark = some .url := by
    intro s
    cases s <;> decide
  cases url with
  | nil =>
      rw [urlAfter, List.foldl_nil, urlStart] at hurl
      split at hurl <;> exact absurd hurl (by decide)
  | cons c cs =>
      rw [List.length_cons] at hnread
      have hc := alive_of_cons halive
      rw [urlAfter_cons] at hurl halive
      have hletters := @run_urlLetters _ S { parser with
        nread := parser.nread + 1
        state := parseUrlChar (urlStart parser.method) c } hS u [c] cs hok
        (openMark_parseUrlChar _ _ hc) halive (by simp only; omega)
      have hblank := @turn_urlEnd { parser with
        nread := parser.nread + 1 + cs.length
        state := urlAfter (parseUrlChar (urlStart parser.method) c) cs } hurl (by simp only; omega)
      rw [List.cons_append, ← List.singleton_append, run_append hS,
        run_opening hS hok (by rw [hs]; rfl) (turn_urlFirst hs hc (by omega)), Option.bind_some,
        run_append hS, hletters, Option.bind_some,
        run_closing hS (by exact hok) (hends _ hurl) hblank, hS.data_nil]
      simp only [List.singleton_append, List.length_cons, Nat.add_assoc, Nat.add_comm 1]

/-! ## The version -/

theorem run_reqMajor (hS : Lawful S) (u : α) {cs : Bytes} (hcs : IsNumber cs)
    (hzero : cs.head? ≠ some (asc '0')) (hok : parser.Going)
    (hs : parser.state = .reqFirstHttpMajor) (hnread : parser.nread + cs.length ≤ maxHeaderSize) :
    run S parser u cs = some ({ parser with
      state := .reqHttpMajor
      httpMajor := decimalValue cs
      nread := parser.nread + cs.length }, u) := by
  refine run_numeral hS u (fun v n => { parser with
    state := .reqHttpMajor, httpMajor := v, nread := n }) (fun _ _ => hok) (fun _ _ => rfl) ?_ hcs hok
    (by rw [hs]; rfl) ?_ hnread
  · intro v n c hc hsmall hn
    rw [turn_header rfl hn, switch]
    simp only [caseHttpMajor, if_neg (isNum_ne hc (by decide : isNum (asc '.') = false)), hc,
      Bool.not_true, Bool.false_eq_true, if_false]
    rw [if_neg (by omega)]
  · -- a major version does not begin with 0
    intro c hhead hc hn
    have hne : c ≠ asc '0' := fun h => hzero (h ▸ hhead)
    obtain ⟨hge, hle⟩ := (isNum_iff c).1 hc
    have hpos : ¬ c < asc '1' := by
      have hnat : c.toNat ≠ 48 := fun h => hne (UInt8.toNat_inj.1 h)
      have hge' : 48 ≤ c.toNat := hge
      exact UInt8.not_lt.2 (show 49 ≤ c.toNat by omega)
    rw [turn_header (by rw [hs]; rfl) hn, switch]
    simp only [hs, caseReqFirstHttpMajor]
    rw [if_neg (not_or.2 ⟨hpos, UInt8.not_lt.2 hle⟩)]

theorem run_reqMinor (hS : Lawful S) (u : α) {cs : Bytes} (hcs : IsNumber cs) (hok : parser.Going)
    (hs : parser.state = .reqFirstHttpMinor) (hnread : parser.nread + cs.length ≤ maxHeaderSize) :
    run S parser u cs = some ({ parser with
      state := .reqHttpMinor
      httpMinor := decimalValue cs
      nread := parser.nread + cs.length }, u) := by
  refine run_numeral hS u (fun v n => { parser with
    state := .reqHttpMinor, httpMinor := v, nread := n }) (fun _ _ => hok) (fun _ _ => rfl) ?_ hcs hok
    (by rw [hs]; rfl) ?_ hnread
  · intro v n c hc hsmall hn
    rw [turn_header rfl hn, switch]
    simp only [caseReqHttpMinor, if_neg (isNum_ne hc (by decide : isNum CR = false)),
      if_neg (isNum_ne hc (by decide : isNum LF = false)), moreHttpMinor, hc, Bool.not_true,
      Bool.false_eq_true, if_false]
    rw [if_neg (by omega)]
  · intro c _ hc hn
    rw [turn_header (by rw [hs]; rfl) hn, switch]
    simp only [hs, caseFirstHttpMinor, hc, Bool.not_true, Bool.false_eq_true, if_false]

/-! ## The request line -/

structure RequestLine where
  method : Method
  url : Bytes
  major : Bytes
  minor : Bytes

namespace RequestLine

def text (r : RequestLine) : Bytes :=
  lit r.method.string ++ [asc ' '] ++ r.url ++ [asc ' '] ++ lit "HTTP/" ++ r.major ++ [asc '.']
    ++ r.minor ++ crlf

structure Valid (r : RequestLine) : Prop where
  url : (urlAfter (urlStart r.method) r.url).urlEnd = true
  major : IsNumber r.major
  zero : r.major.head? ≠ some (asc '0')
  minor : IsNumber r.minor

def check (r : RequestLine) : Bool :=
  (urlAfter (urlStart r.method) r.url).urlEnd && isNumberCheck r.major
    && r.major.head? != some (asc '0') && isNumberCheck r.minor

theorem valid_of_check {r : RequestLine} (hcheck : r.check = true) : r.Valid := by
  simp only [check, Bool.and_eq_true, bne_iff_ne] at hcheck
  obtain ⟨⟨⟨hurl, hmajor⟩, hzero⟩, hminor⟩ := hcheck
  exact ⟨hurl, isNumber_of_check hmajor, hzero, isNumber_of_check hminor⟩

end RequestLine

theorem turn_requestAt {state : State} {method : Method} {index major minor nread : ℕ}
    (hheader : state.parsingHeader = true) (hnread : nread < maxHeaderSize) (ch : UInt8) :
    turn (requestAt state method index major minor nread) ch 1
      = switch (requestAt state method index major minor (nread + 1)) ch 1 :=
  turn_header hheader hnread ch 1

theorem run_http (hS : Lawful S) (u : α) {m : Method} {index n : ℕ} (hn : n + 5 ≤ maxHeaderSize) :
    run S (requestAt .reqHttpStart m index 0 0 n) u (lit "HTTP/")
      = some (requestAt .reqFirstHttpMajor m index 0 0 (n + 5), u) := by
  -- each letter leads to the next state and counts one byte
  have hletter : ∀ {state next : State} {k : ℕ} {c : UInt8} (cs : Bytes), k < maxHeaderSize →
      state.parsingHeader = true → state.openMark = none →
      switch (requestAt state m index 0 0 (k + 1)) c 1
        = .next (requestAt next m index 0 0 (k + 1)) →
      run S (requestAt state m index 0 0 k) u (c :: cs)
        = run S (requestAt next m index 0 0 (k + 1)) u cs := by
    intro state next k c cs hk hheader hopen hswitch
    exact run_head hS u (going_requestAt ..) hopen ((turn_requestAt hheader hk c).trans hswitch) cs
  have hlit : lit "HTTP/" = [asc 'H', asc 'T', asc 'T', asc 'P', asc '/'] := rfl
  rw [hlit, @hletter .reqHttpStart .reqHttpH _ _ _ (by omega) rfl rfl rfl,
    @hletter .reqHttpH .reqHttpHT _ _ _ (by omega) rfl rfl rfl,
    @hletter .reqHttpHT .reqHttpHTT _ _ _ (by omega) rfl rfl rfl,
    @hletter .reqHttpHTT .reqHttpHTTP _ _ _ (by omega) rfl rfl rfl,
    @hletter .reqHttpHTTP .reqFirstHttpMajor _ _ _ (by omega) rfl rfl rfl, run_nil]

/-- The version, from the blank behind the URL to the end of the line. -/
theorem run_version (hS : Lawful S) (u : α) {m : Method} {index n : ℕ} {major minor : Bytes}
    (hmajor : IsNumber major) (hzero : major.head? ≠ some (asc '0')) (hminor : IsNumber minor)
    (hn : n + 5 + major.length + 1 + minor.length + 2 ≤ maxHeaderSize) :
    run S (requestAt .reqHttpStart m index 0 0 n) u (lit "HTTP/" ++ (major ++ asc '.' :: (minor ++ crlf)))
      = some (requestAt .headerFieldStart m index (decimalValue major) (decimalValue minor)
          (n + 5 + major.length + 1 + minor.length + 2), u) := by
  have hmaj : run S (requestAt .reqFirstHttpMajor m index 0 0 (n + 5)) u major
      = some (requestAt .reqHttpMajor m index (decimalValue major) 0 (n + 5 + major.length), u) :=
    run_reqMajor hS u hmajor hzero (going_requestAt ..) rfl (by simp only [requestAt]; omega)
  have hdot : turn (requestAt .reqHttpMajor m index (decimalValue major) 0 (n + 5 + major.length))
        (asc '.') 1
      = .next (requestAt .reqFirstHttpMinor m index (decimalValue major) 0
        (n + 5 + major.length + 1)) :=
    turn_requestAt rfl (by omega) _
  have hmin : run S (requestAt .reqFirstHttpMinor m index (decimalValue major) 0
        (n + 5 + major.length + 1)) u minor
      = some (requestAt .reqHttpMinor m index (decimalValue major) (decimalValue minor)
        (n + 5 + major.length + 1 + minor.length), u) :=
    run_reqMinor hS u hminor (going_requestAt ..) rfl (by simp only [requestAt]; omega)
  have hcr : turn (requestAt .reqHttpMinor m index (decimalValue major) (decimalValue minor)
        (n + 5 + major.length + 1 + minor.length)) CR 1
      = .next (requestAt .reqLineAlmostDone m index (decimalValue major) (decimalValue minor)
        (n + 5 + major.length + 1 + minor.length + 1)) :=
    turn_requestAt rfl (by omega) _
  have hlf : turn (requestAt .reqLineAlmostDone m index (decimalValue major) (decimalValue minor)
        (n + 5 + major.length + 1 + minor.length + 1)) LF 1
      = .next (requestAt .headerFieldStart m index (decimalValue major) (decimalValue minor)
        (n + 5 + major.length + 1 + minor.length + 2)) :=
    turn_requestAt rfl (by omega) _
  rw [run_append hS, run_http hS u (by omega), Option.bind_some, run_append hS, hmaj,
    Option.bind_some, run_head hS u (going_requestAt ..) rfl hdot, run_append hS, hmin,
    Option.bind_some, show crlf = [CR, LF] from rfl, run_head hS u (going_requestAt ..) rfl hcr,
    run_head hS u (going_requestAt ..) rfl hlf, run_nil]

theorem run_requestLine (hS : Lawful S) (u : α) {r : RequestLine} (h : r.Valid)
    (hlength : r.text.length ≤ maxHeaderSize) :
    run S (Parser.init .request) u r.text
      = some (requestAt .headerFieldStart r.method ((lit r.method.string).length + 1)
          (decimalValue r.major) (decimalValue r.minor) r.text.length,
        (S.data .url r.url (S.onMessageBegin u).2).2) := by
  have hlen : r.text.length = (lit r.method.string).length + 1 + r.url.length + 1 + 5
      + r.major.length + 1 + r.minor.length + 2 := by
    simp only [RequestLine.text, crlf, List.length_append, List.length_cons, List.length_nil]
    rfl
  rw [hlen] at hlength ⊢
  have hurl : run S (requestAt .reqSpacesBeforeUrl r.method ((lit r.method.string).length + 1) 0 0
        ((lit r.method.string).length + 1)) (S.onMessageBegin u).2 (r.url ++ [asc ' '])
      = some (requestAt .reqHttpStart r.method ((lit r.method.string).length + 1) 0 0
        ((lit r.method.string).length + 1 + r.url.length + 1),
        (S.data .url r.url (S.onMessageBegin u).2).2) :=
    run_url hS _ (going_requestAt ..) rfl h.url (by simp only [requestAt]; omega)
  have htext : r.text = (lit r.method.string ++ [asc ' ']) ++ ((r.url ++ [asc ' ']) ++ (lit "HTTP/"
      ++ (r.major ++ asc '.' :: (r.minor ++ crlf)))) := by
    simp only [RequestLine.text, List.append_assoc, List.cons_append, List.nil_append]
  rw [htext, run_append hS, run_method hS, Option.bind_some, run_append hS, hurl, Option.bind_some]
  exact run_version hS _ h.major h.zero h.minor (by omega)

/-! ## The head -/

structure RequestHead where
  request : RequestLine
  lines : List HeaderLine

namespace RequestHead

/-- The head up to its last line feed. -/
def text (h : RequestHead) : Bytes :=
  h.request.text ++ (h.lines.map HeaderLine.text).flatten ++ [CR]

def framing (h : RequestHead) : Framing := Framing.none.addLines h.lines

structure Valid (h : RequestHead) : Prop where
  request : h.request.Valid
  lines : ∀ l ∈ h.lines, l.Valid
  length : h.text.length < maxHeaderSize

def check (h : RequestHead) : Bool :=
  h.request.check && h.lines.all HeaderLine.check && decide (h.text.length < maxHeaderSize)

theorem valid_of_check {h : RequestHead} (hcheck : h.check = true) : h.Valid := by
  simp only [check, Bool.and_eq_true, List.all_eq_true, decide_eq_true_eq] at hcheck
  exact ⟨RequestLine.valid_of_check hcheck.1.1,
    fun l hl => HeaderLine.valid_of_check (hcheck.1.2 l hl), hcheck.2⟩

/-- The parser behind the header lines. -/
def parserAt (h : RequestHead) (st : State) (index : ℕ) (state : HeaderState) (nread : ℕ) : Parser :=
  { requestAt st h.request.method index (decimalValue h.request.major)
      (decimalValue h.request.minor) nread with
    flags := h.framing.flags
    contentLength := h.framing.contentLength
    headerState := state }

/-- The parser at the last line feed knows what the head says. -/
structure Read (h : RequestHead) (parser : Parser) : Prop where
  atHeadEnd : parser.AtHeadEnd
  type : parser.type = .request
  method : parser.method = h.request.method
  httpMajor : parser.httpMajor = decimalValue h.request.major
  httpMinor : parser.httpMinor = decimalValue h.request.minor
  statusCode : parser.statusCode = 0
  flags : parser.flags = h.framing.flags
  contentLength : parser.contentLength = h.framing.contentLength
  nread : parser.nread = h.text.length

/-- The callbacks for a head, up to its last line feed. -/
def deliver {α : Type} (S : Settings α) (u : α) (h : RequestHead) : α :=
  deliverLines S (S.data .url h.request.url (S.onMessageBegin u).2).2 h.lines

end RequestHead

theorem RequestHead.read_parserAt (h : RequestHead) (index : ℕ) (state : HeaderState) {n : ℕ}
    (hn : n = h.text.length) : h.Read (h.parserAt .headersAlmostDone index state n) where
  atHeadEnd := ⟨⟨rfl, rfl⟩, rfl, (addLines_flags h.lines Framing.none).1⟩
  type := rfl
  method := rfl
  httpMajor := rfl
  httpMinor := rfl
  statusCode := rfl
  flags := rfl
  contentLength := rfl
  nread := hn

theorem run_requestHead (hS : Lawful S) (u : α) {h : RequestHead} (hh : h.Valid) :
    ∃ q : Parser, h.Read q ∧ run S (Parser.init .request) u h.text = some (q, h.deliver S u) := by
  have hlen : h.text.length
      = h.request.text.length + (h.lines.map HeaderLine.text).flatten.length + 1 := by
    simp only [RequestHead.text, List.length_append, List.length_singleton]
  have hlength := hh.length
  obtain ⟨st, index, state, hst, hlines⟩ := run_lines hS
    (S.data .url h.request.url (S.onMessageBegin u).2).2 hh.lines
    (going_requestAt .headerFieldStart h.request.method ((lit h.request.method.string).length + 1)
      (decimalValue h.request.major) (decimalValue h.request.minor) h.request.text.length) (Or.inl rfl)
    (by simp only [requestAt]; omega)
  have hlast : run S (h.parserAt st index state
        (h.request.text.length + (h.lines.map HeaderLine.text).flatten.length)) (h.deliver S u) [CR]
      = some (h.parserAt .headersAlmostDone index state h.text.length, h.deliver S u) := by
    rw [hlen]
    exact run_emptyLine _ ⟨rfl, rfl⟩ hst (by simp only [RequestHead.parserAt, requestAt]; omega)
  refine ⟨h.parserAt .headersAlmostDone index state h.text.length,
    h.read_parserAt index state rfl, ?_⟩
  refine Eq.trans ?_ hlast
  rw [RequestHead.text, run_append hS, run_append hS, run_requestLine hS u hh.request (by omega),
    Option.bind_some, hlines, Option.bind_some]
  rfl

/-- **However a head is cut into reads, the parser delivers its URL and its headers and nothing else,
and knows at its last line feed the method, the version and how the body is framed.** -/
theorem executeAll_requestHead (hS : Lawful S) (u : α) {h : RequestHead} (hh : h.Valid)
    {reads : List Bytes} (hreads : reads.flatten = h.text) (hcut : ∀ data ∈ reads, data ≠ []) :
    ReadsThrough S (Parser.init .request) u reads ∧
      ∃ q : Parser, h.Read q ∧ executeAll S (Parser.init .request) u reads = (q, h.deliver S u) := by
  obtain ⟨q, hread, hrun⟩ := run_requestHead hS u hh
  have hinit : (Parser.init .request).Going := by decide
  obtain ⟨hthrough, hall⟩ := readsThrough_of_run hS hinit hreads hcut hrun hread.atHeadEnd.going
  exact ⟨hthrough, q, hread, hall⟩

/-- A method that is told from `MKCOL` by its second letter, and a URL with all its parts. -/
def searchHead : RequestHead where
  request := ⟨.msearch, lit "http://user@host:80/a?b#c", lit "1", lit "01"⟩
  lines := [⟨⟨lit "Upgrade", lit "h2c"⟩, lit " "⟩, ⟨⟨lit "TRANSFER-encoding", lit "Chunked"⟩, []⟩]

theorem executeAll_requestHead_search : ∃ q : Parser,
    searchHead.Read q ∧ executeAll Log.recorder (Parser.init .request) Log.empty
      [lit "M-SEARCH http:", lit "//user@host:80/a?b#c HTTP/1.01\x0d", lit "\nUpgrade: h2c\x0d\nTRANS",
        lit "FER-encoding:Chunked\x0d\n\x0d"]
      = (q, searchHead.deliver Log.recorder Log.empty) :=
  (executeAll_requestHead Log.lawful_recorder Log.empty
    (RequestHead.valid_of_check (by decide +kernel)) (by decide +kernel) (by decide +kernel)).2

end ImageProxy.Http
