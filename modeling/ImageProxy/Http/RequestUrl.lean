import ImageProxy.Http.HttpParse
import ImageProxy.Http.UrlParts

set_option autoImplicit false

/-! # The URL of a request

The request parser and `http_parser_parse_url` run the same automaton over a URL. So a URL that the
parser takes is one that the loop of `http_parser_parse_url` goes through to the end. -/

namespace ImageProxy.Http

open Ascii

/-- A byte that ends the URL of a request. -/
def endsUrl (b : UInt8) : Bool := b = asc ' ' ∨ b = CR ∨ b = LF

/-- The request parser takes `U` as the URL of a request whose method is not CONNECT: from
`s_req_spaces_before_url` on it reads `U` and the byte that ends it. -/
def AcceptsUrl (U : Bytes) : Prop :=
  (∀ b ∈ U, endsUrl b = false) ∧ ∃ parser l b r, parser.state = .reqSpacesBeforeUrl ∧
    parser.method ≠ .connect ∧ endsUrl b = true ∧ run Log.recorder parser l (U ++ [b]) = some r ∧
    r.2.url = l.url ++ U

/-! ## One byte -/

/-- The parser expects a byte of the URL. -/
def Parser.OnUrl (parser : Parser) : Prop :=
  parser.state.openMark = some .url ∨ (parser.state = .reqSpacesBeforeUrl ∧ parser.method ≠ .connect)

/-- The code of a byte of the URL; the first one sets the mark. -/
theorem switch_urlChar {parser : Parser} (h : parser.OnUrl) {b : UInt8} (hb : endsUrl b = false)
    (avail : ℕ) : switch parser b avail = urlChar parser b ∧ parser.state.openMark = some .url ∨
      switch parser b avail = .mark .url (urlChar parser b) ∧ parser.state.openMark = none := by
  obtain ⟨hspace, hcr, hlf⟩ : b ≠ asc ' ' ∧ b ≠ CR ∧ b ≠ LF := by simpa [endsUrl] using hb
  rcases h with h | ⟨hs, hmethod⟩
  · left
    refine ⟨?_, h⟩
    cases hs : parser.state <;> rw [hs] at h <;> first
      | exact absurd h (by decide)
      | simp only [switch, hs, caseReqSchema, caseReqUrl, hspace, hcr, hlf, or_self, if_false]
  · right
    refine ⟨?_, by rw [hs]; rfl⟩
    simp only [switch, hs, caseReqSpacesBeforeUrl, hspace, hmethod, if_false]

theorem turn_urlChar {parser : Parser} (h : parser.OnUrl) (b : UInt8) (avail : ℕ) :
    turn parser b avail = if parser.nread + 1 > maxHeaderSize
      then .error { parser with nread := parser.nread + 1 } .headerOverflow
      else switch { parser with nread := parser.nread + 1 } b avail := by
  have hheader : parser.state.parsingHeader = true := by
    rcases h with h | ⟨hs, -⟩
    · cases hs : parser.state <;> rw [hs] at h <;> first | rfl | exact absurd h (by decide)
    · rw [hs]
      rfl
  rw [turn, if_pos hheader]

/-- A byte of the URL is a turn of the automaton. -/
theorem run_urlByte {parser : Parser} (hgoing : parser.Going) (h : parser.OnUrl) {b : UInt8}
    (hb : endsUrl b = false) (l : Log) : run Log.recorder parser l [b] =
      if parser.nread + 1 > maxHeaderSize ∨ parseUrlChar parser.state b = .dead then none
      else some ({ parser with nread := parser.nread + 1, state := parseUrlChar parser.state b },
        { l with url := l.url ++ [b] }) := by
  have hon : Parser.OnUrl { parser with nread := parser.nread + 1 } := h
  simp only [run, List.isEmpty_cons, Bool.false_eq_true, if_false, if_pos hgoing, runFrom,
    List.length_nil, Nat.zero_add, turn_urlChar h]
  by_cases hlong : parser.nread + 1 > maxHeaderSize
  · rw [if_pos hlong, if_pos (Or.inl hlong)]
    rfl
  · rw [if_neg hlong]
    by_cases hdead : parseUrlChar parser.state b = .dead
    · rw [if_pos (Or.inr hdead)]
      have hcode : urlChar { parser with nread := parser.nread + 1 } b = .error _ .invalidUrl :=
        if_pos hdead
      rcases switch_urlChar hon hb 1 with ⟨hswitch, hopen⟩ | ⟨hswitch, hopen⟩
      · rw [hswitch, hcode]
        rfl
      · rw [hswitch, hcode]
        rw [marksAt_none hopen, runCode_mark_unmarked]
        rfl
    · rw [if_neg (by simp [hlong, hdead])]
      have hcode : urlChar { parser with nread := parser.nread + 1 } b = .next _ := if_neg hdead
      rcases switch_urlChar hon hb 1 with ⟨hswitch, hopen⟩ | ⟨hswitch, hopen⟩
      · rw [hswitch, hcode]
        simp only [runCode]
        rw [marksAt_some hopen, settle_onlyMark Log.lawful_recorder]
        rfl
      · rw [hswitch, hcode]
        rw [marksAt_none hopen, runCode_mark_unmarked]
        simp only [runCode]
        rw [settle_onlyMark Log.lawful_recorder]
        rfl

/-! ## All bytes -/

theorem urlPart_of_open {s : State} (h : s.openMark = some .url) : s.urlPart ≠ none := by
  revert h
  cases s <;> decide

theorem urlTurn_state (narrow : ℕ → ℕ) (pos : ℕ) {ch : UInt8} {sc : UrlScan}
    (h : parseUrlChar sc.state ch ≠ .dead) :
    ∃ sc', urlTurn narrow pos ch sc = some sc' ∧ sc'.state = parseUrlChar sc.state ch := by
  have hopen := openMark_parseUrlChar sc.state ch h
  simp only [urlTurn]
  cases hpart : (parseUrlChar sc.state ch).urlPart with
  | none => exact absurd hpart (urlPart_of_open hopen)
  | some part =>
      cases part with
      | none => exact ⟨_, rfl, rfl⟩
      | some uf =>
          simp only
          split
          · exact ⟨_, rfl, rfl⟩
          · exact ⟨_, rfl, rfl⟩

/-- The bytes in front of the first one that the automaton refuses. -/
def urlTaken : State → Bytes → Bytes
  | _, [] => []
  | s, ch :: p =>
      if parseUrlChar s ch = .dead then [] else ch :: urlTaken (parseUrlChar s ch) p

theorem urlTaken_isPrefix (s : State) (p : Bytes) : urlTaken s p <+: p := by
  induction p generalizing s with
  | nil => exact List.prefix_refl []
  | cons ch p ih =>
      rw [urlTaken]
      split
      · exact List.nil_prefix
      · exact List.cons_prefix_cons.2 ⟨rfl, ih _⟩

/-- The loop of `http_parser_parse_url` finds what is in front of that byte. -/
theorem urlLoop_urlTaken (p : Bytes) (pos : ℕ) (sc : UrlScan) :
    urlLoop id pos sc (urlTaken sc.state p) = (true, (urlLoop id pos sc p).2) := by
  induction p generalizing pos sc with
  | nil => rfl
  | cons ch p ih =>
      rw [urlTaken]
      split
      · next hdead => simp [urlLoop, urlTurn, hdead, State.urlPart]
      · next hdead =>
          obtain ⟨sc', hturn, hnext⟩ := urlTurn_state id pos hdead
          simp only [urlLoop, hturn]
          rw [← hnext]
          exact ih (pos + 1) sc'

theorem urlTaken_of_alive (p : Bytes) (pos : ℕ) (sc : UrlScan)
    (halive : (urlLoop id pos sc p).1 = true) : urlTaken sc.state p = p := by
  induction p generalizing pos sc with
  | nil => rfl
  | cons ch p ih =>
      have hdead : parseUrlChar sc.state ch ≠ .dead := fun hdead => by
        rw [urlLoop_dead hdead] at halive
        exact absurd halive (by simp)
      obtain ⟨sc', hturn, hnext⟩ := urlTurn_state id pos hdead
      simp only [urlLoop, hturn] at halive
      rw [urlTaken, if_neg hdead, ← hnext, ih (pos + 1) sc' halive]

/-- What the parser reads as bytes of the URL, the loop goes through. -/
theorem urlLoop_of_run (narrow : ℕ → ℕ) (U : Bytes) (pos : ℕ) {sc : UrlScan} {parser : Parser}
    {l : Log} (hstate : sc.state = parser.state) (hon : parser.OnUrl)
    (hU : ∀ b ∈ U, endsUrl b = false) {r : Parser × Log}
    (hr : run Log.recorder parser l U = some r) : (urlLoop narrow pos sc U).1 = true := by
  induction U generalizing pos sc parser l with
  | nil => rfl
  | cons b U ih =>
      obtain ⟨hb, hU⟩ := List.forall_mem_cons.1 hU
      have hgoing : parser.Going := by
        by_contra hstopped
        rw [run_of_stopped hstopped l (by simp)] at hr
        exact absurd hr (by simp)
      rw [← List.singleton_append, run_append Log.lawful_recorder, run_urlByte hgoing hon hb] at hr
      split_ifs at hr with hrefused
      · exact absurd hr (by simp)
      · have hdead : parseUrlChar sc.state b ≠ .dead := by
          rw [hstate]
          exact fun h => hrefused (Or.inr h)
        obtain ⟨sc', hturn, hnext⟩ := urlTurn_state narrow pos hdead
        simp only [urlLoop, hturn]
        rw [hstate] at hnext hdead
        exact ih (pos + 1) hnext (Or.inl (openMark_parseUrlChar _ _ hdead)) hU hr

/-- A URL that the request parser takes. -/
theorem AcceptsUrl.alive {U : Bytes} (h : AcceptsUrl U) :
    (urlLoop id 0 UrlScan.init U).1 = true := by
  obtain ⟨hU, parser, l, b, r, hstate, hmethod, -, hr, -⟩ := h
  rw [run_append Log.lawful_recorder] at hr
  obtain ⟨q, hq, -⟩ := Option.bind_eq_some_iff.1 hr
  exact urlLoop_of_run id U 0 hstate.symm (Or.inr ⟨hstate, hmethod⟩) hU hq

/-- The blank behind a path. -/
theorem run_pathEnd {parser : Parser} (hgoing : parser.Going) (hs : parser.state = .reqPath) (l : Log)
    (hlen : parser.nread < maxHeaderSize) : run Log.recorder parser l [asc ' ']
      = some ({ parser with nread := parser.nread + 1, state := .reqHttpStart }, l) := by
  have hon : parser.OnUrl := Or.inl (by rw [hs]; rfl)
  have hopen : parser.state.openMark = some .url := by rw [hs]; rfl
  simp only [run, List.isEmpty_cons, Bool.false_eq_true, if_false, if_pos hgoing, runFrom,
    List.length_nil, Nat.zero_add, turn_urlChar hon]
  rw [if_neg (by omega), marksAt_some hopen]
  simp only [switch, hs]
  show some ({ parser with nread := parser.nread + 1, state := State.reqHttpStart },
    { l with url := l.url ++ [] }) = _
  rw [List.append_nil]

/-- Bytes of a path, as long as the head is not too long. -/
theorem run_path {parser : Parser} (hgoing : parser.Going) (hs : parser.state = .reqPath) (U : Bytes)
    (hU : ∀ b ∈ U, endsUrl b = false ∧ parseUrlChar .reqPath b = .reqPath) (l : Log)
    (hlen : parser.nread + U.length ≤ maxHeaderSize) : run Log.recorder parser l U
      = some ({ parser with nread := parser.nread + U.length }, { l with url := l.url ++ U }) := by
  induction U generalizing parser l with
  | nil =>
      rw [List.append_nil]
      rfl
  | cons b U ih =>
      obtain ⟨⟨hb, hpath⟩, hU⟩ := List.forall_mem_cons.1 hU
      have hon : parser.OnUrl := Or.inl (by rw [hs]; rfl)
      rw [List.length_cons] at hlen
      have htaken : ¬(parser.nread + 1 > maxHeaderSize ∨ parseUrlChar parser.state b = .dead) := by
        rw [hs, hpath]
        exact fun h => h.elim (by omega) (by simp)
      have hgoing' : Parser.Going { parser with nread := parser.nread + 1, state := .reqPath } := hgoing
      have hroom : parser.nread + 1 + U.length ≤ maxHeaderSize := by omega
      rw [← List.singleton_append, run_append Log.lawful_recorder, run_urlByte hgoing hon hb,
        if_neg htaken, Option.bind_some, hs, hpath]
      refine (ih hgoing' rfl hU { l with url := l.url ++ [b] } hroom).trans ?_
      simp only [List.length_append, List.length_cons, List.length_nil, List.append_assoc]
      rw [Nat.zero_add, Nat.add_assoc]

end ImageProxy.Http
