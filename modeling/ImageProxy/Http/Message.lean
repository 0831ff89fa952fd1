import ImageProxy.Http.ChunkedBody
import ImageProxy.Http.ResponseHead

set_option autoImplicit false

/-! # Whole responses

A response is a head and what the head frames: chunks, a number of bytes, or everything up to the end
of the connection. Here the parser is taken over the line feed between the two and through the body,
with an application that records what is delivered. -/

namespace ImageProxy.Http

open Ascii Cpcl ChunkedCoding

/-! ## The end of the head -/

variable {parser : Parser} {l : Log}

theorem messageNeedsEof_of_framed (h : parser.flags.chunked = true ∨ parser.contentLength ≠ ullongMax) :
    parser.messageNeedsEof = false := by
  simp only [Parser.messageNeedsEof]
  split_ifs
  all_goals rfl

namespace Parser.AtHeadEnd

/-- The parser behind the head, if there is no upgrade. -/
def afterHead (parser : Parser) (state : State) : Parser :=
  { parser with nread := 0, state := state, upgrade := false }

/-- The head, if the body is to come. -/
theorem run_body (h : parser.AtHeadEnd) (hnread : parser.nread < maxHeaderSize)
    (hupgrade : parser.wantsUpgrade = false) {state : State}
    (hdone : caseHeadersDone { parser with
        nread := parser.nread + 1, state := .headersDone, upgrade := false } LF
      = .next (afterHead parser state)) :
    run Log.recorder parser l [LF] = some (afterHead parser state, l.complete parser) := by
  rw [run_of_unmarked h.going (by rw [h.state]; rfl), runFrom, h.turn_eq hnread, hupgrade]
  simp only [hdone]
  rfl

/-- The head, if there is no body. -/
theorem run_noBody (h : parser.AtHeadEnd) (hnread : parser.nread < maxHeaderSize)
    (hupgrade : parser.wantsUpgrade = false) {state : State}
    (hdone : caseHeadersDone { parser with
        nread := parser.nread + 1, state := .headersDone, upgrade := false } LF
      = .notify .messageComplete (afterHead parser state) (.next (afterHead parser state))) :
    run Log.recorder parser l [LF]
      = some (afterHead parser state, { l.complete parser with messageComplete := true }) := by
  rw [run_of_unmarked h.going (by rw [h.state]; rfl), runFrom, h.turn_eq hnread, hupgrade]
  simp only [hdone]
  rfl

/-- A head that says nothing of a body other than what it frames. -/
structure Plain (parser : Parser) : Prop where
  skipbody : parser.flags.skipbody = false
  upgrade : parser.wantsUpgrade = false

theorem run_chunkedHead (h : parser.AtHeadEnd) (hplain : Plain parser)
    (hnread : parser.nread < maxHeaderSize) (hchunked : parser.flags.chunked = true) :
    run Log.recorder parser l [LF]
      = some (afterHead parser .chunkSizeStart, l.complete parser) := by
  refine h.run_body hnread hplain.upgrade ?_
  simp only [caseHeadersDone, strictCheck, hplain.skipbody, hchunked]
  rfl

theorem run_lengthHead (h : parser.AtHeadEnd) (hplain : Plain parser)
    (hnread : parser.nread < maxHeaderSize) (hchunked : parser.flags.chunked = false)
    (hzero : parser.contentLength ≠ 0) (hmax : parser.contentLength ≠ ullongMax) :
    run Log.recorder parser l [LF] = some (afterHead parser .bodyIdentity, l.complete parser) := by
  refine h.run_body hnread hplain.upgrade ?_
  simp only [caseHeadersDone, strictCheck, hplain.skipbody, hchunked, if_neg hzero]
  rw [if_pos hmax]
  rfl

theorem run_emptyHead (h : parser.AtHeadEnd) (hplain : Plain parser)
    (hnread : parser.nread < maxHeaderSize) (hchunked : parser.flags.chunked = false)
    (hzero : parser.contentLength = 0) : ∃ state, run Log.recorder parser l [LF]
      = some (afterHead parser state, { l.complete parser with messageComplete := true }) := by
  refine ⟨Parser.newMessage { parser with
    nread := 0, state := .headersDone, upgrade := false }, h.run_noBody hnread hplain.upgrade ?_⟩
  simp only [caseHeadersDone, strictCheck, hplain.skipbody, hchunked, if_pos hzero]
  rfl

/-- The head that frames nothing, of a message that does not last as long as the connection. -/
theorem run_bodiless (h : parser.AtHeadEnd) (hplain : Plain parser)
    (hnread : parser.nread < maxHeaderSize) (hchunked : parser.flags.chunked = false)
    (hlength : parser.contentLength = ullongMax) (heof : parser.messageNeedsEof = false) :
    ∃ state, run Log.recorder parser l [LF]
      = some (afterHead parser state, { l.complete parser with messageComplete := true }) := by
  have hzero : parser.contentLength ≠ 0 := by
    rw [hlength]
    decide
  have heof' : Parser.messageNeedsEof { parser with
    nread := 0, state := .headersDone, upgrade := false } = false := heof
  refine ⟨Parser.newMessage { parser with
    nread := 0, state := .headersDone, upgrade := false }, h.run_noBody hnread hplain.upgrade ?_⟩
  simp only [caseHeadersDone, strictCheck]
  rw [if_neg (by decide), if_neg (by decide), if_neg (by simp [hplain.skipbody]),
    if_neg (by simp [hchunked]), if_neg hzero, if_neg (not_not.2 hlength),
    if_pos (Or.inr (by simp [heof']))]
  rfl

/-- The head that frames nothing: there is no body, or it lasts as long as the connection. -/
theorem run_bareHead (h : parser.AtHeadEnd) (hplain : Plain parser)
    (hnread : parser.nread < maxHeaderSize) (hchunked : parser.flags.chunked = false)
    (hlength : parser.contentLength = ullongMax) (hl : l.messageComplete = false) :
    ∃ q : Parser, q.Going ∧ run Log.recorder parser l [LF]
      = some (q, { l.complete parser with messageComplete := !parser.messageNeedsEof }) := by
  cases heof : parser.messageNeedsEof with
  | true =>
      obtain ⟨q, hgoing, -, hrun⟩ := h.run_needsEof hnread hplain.upgrade heof l
      refine ⟨q, hgoing, hrun.trans ?_⟩
      rw [Bool.not_true, ← hl]
      rfl
  | false =>
      obtain ⟨state, hrun⟩ := h.run_bodiless (l := l) hplain hnread hchunked hlength heof
      exact ⟨afterHead parser state, ⟨h.going.1, rfl⟩, hrun⟩

end Parser.AtHeadEnd

/-! ## A part of the body -/

/-- An application that notes whether anything but a body has been delivered. -/
def watcher : Settings Bool where
  onMessageBegin := fun _ => (0, true)
  onUrl := fun _ _ => (0, true)
  onStatusComplete := fun _ => (0, true)
  onHeaderField := fun _ _ => (0, true)
  onHeaderValue := fun _ _ => (0, true)
  onHeadersComplete := fun _ _ => (0, true)
  onBody := fun _ b => (0, b)
  onMessageComplete := fun _ => (0, true)

theorem lawful_watcher : Lawful watcher where
  notice := fun n u => by cases n <;> rfl
  headersComplete := fun parser u => rfl
  data := fun m x u => by cases m <;> rfl
  append := fun m x y u => by cases m <;> rfl

/-- Where all of some data is body, so is any part of it. -/
theorem run_part {q : Parser} {x y : Bytes}
    (hr : run watcher parser false (x ++ y) = some (q, false)) (l : Log) :
    ∃ p b, run Log.recorder parser l x = some (p, { l with body := b }) := by
  rw [run_append lawful_watcher] at hr
  obtain ⟨⟨p, noted⟩, hx, hy⟩ := Option.bind_eq_some_iff.1 hr
  have hnoted : noted = false := by
    cases noted with
    | false => rfl
    | true =>
        have hstays := run_preserves lawful_watcher (P := fun b => b = true)
          (fun n u _ => by cases n <;> rfl) (fun _ _ _ => rfl)
          (fun m x u hu => by cases m <;> first | rfl | exact hu) hy rfl
        exact absurd hstays (by simp)
  have hsim : Simulates watcher Log.recorder x.length
      fun noted l' => noted = false → ∃ b, l' = { l with body := b } := by
    refine ⟨fun n u v _ => ⟨?_, fun h => ?_⟩, fun parser u v _ => ⟨rfl, fun h => ?_⟩,
      fun m d u v _ hρ => ⟨?_, fun h => ?_⟩⟩
    · cases n <;> rfl
    · cases n <;> exact absurd h (by simp [watcher, Settings.notice])
    · exact absurd h (by simp [watcher])
    · cases m <;> rfl
    · cases m with
      | body =>
          obtain ⟨b, rfl⟩ := hρ h
          exact ⟨b ++ d, rfl⟩
      | headerField => exact absurd h (by simp [watcher, Settings.data])
      | headerValue => exact absurd h (by simp [watcher, Settings.data])
      | url => exact absurd h (by simp [watcher, Settings.data])
  obtain ⟨l', hl', hbody⟩ := run_related lawful_watcher Log.lawful_recorder hsim
    (fun _ => ⟨l.body, rfl⟩) hx
  obtain ⟨b, rfl⟩ := hbody hnoted
  exact ⟨p, b, hl'⟩

/-! ## The body -/

/-- The data behind a head, and the body that it stands for. -/
inductive Frames (f : Framing) : Bytes → Bytes → Prop where
  | chunked (hf : f.flags.chunked = true) {chunks : List Chunk} {last : Chunk}
      (hchunks : ∀ c ∈ chunks, c.Valid ∧ c.data ≠ []) (hlast : last.Valid)
      (hnil : last.data = []) :
      Frames f ((chunks.map Chunk.text).flatten ++ last.text) (chunks.map Chunk.data).flatten
  | length (hf : f.flags.chunked = false) {body : Bytes} (hmax : f.contentLength ≠ ullongMax)
      (hlength : f.contentLength = body.length) : Frames f body body

theorem foldl_onBody (chunks : List Chunk) (l : Log) :
    chunks.foldl (fun l c => (Log.recorder.onBody c.data l).2) l
      = { l with body := l.body ++ (chunks.map Chunk.data).flatten } := by
  induction chunks generalizing l with
  | nil => simp
  | cons c chunks ih =>
      rw [List.foldl_cons, ih]
      simp [Log.recorder]

theorem foldl_watcher (chunks : List Chunk) :
    chunks.foldl (fun b c => (watcher.onBody c.data b).2) false = false := by
  induction chunks with
  | nil => rfl
  | cons c chunks ih => exact ih

/-- Chunks up to the last line feed. -/
theorem run_chunksOpen (h : parser.AtChunk) {chunks : List Chunk} {last : Chunk}
    (hchunks : ∀ c ∈ chunks, c.Valid ∧ c.data ≠ []) (hlast : last.Valid) (hnil : last.data = []) :
    ∃ q, run watcher parser false
      ((chunks.map Chunk.text).flatten ++ (last.size ++ last.ext ++ crlf ++ [CR])) = some (q, false) := by
  obtain ⟨q, hq, hrun⟩ := run_chunks lawful_watcher false hchunks h
  have hafter : afterSize q last.data.length = { q with
      contentLength := 0
      nread := 0
      flags := { q.flags with trailing := true }
      state := .headerFieldStart } := by
    rw [afterSize, if_pos (by simp [hnil])]
  rw [run_append lawful_watcher, hrun, Option.bind_some, foldl_watcher, run_append lawful_watcher,
    run_sizeLine lawful_watcher _ hlast hq.going hq.state hq.nread, Option.bind_some, hafter]
  exact ⟨_, run_emptyLine _ (by exact hq.going) (Or.inl rfl) (show 0 < maxHeaderSize by decide)⟩

/-- Before the last byte of chunks only a part of the body has come. -/
theorem run_chunksPart (h : parser.AtChunk) {chunks : List Chunk} {last : Chunk}
    (hchunks : ∀ c ∈ chunks, c.Valid ∧ c.data ≠ []) (hlast : last.Valid) (hnil : last.data = [])
    {x y : Bytes} (hxy : (chunks.map Chunk.text).flatten ++ last.text = x ++ y) (hy : y ≠ []) :
    ∃ q b, run Log.recorder parser l x = some (q, { l with body := b }) := by
  obtain ⟨q, hopen⟩ := run_chunksOpen h hchunks hlast hnil
  have hlf : (chunks.map Chunk.text).flatten ++ last.text
      = (chunks.map Chunk.text).flatten ++ (last.size ++ last.ext ++ crlf ++ [CR]) ++ [LF] := by
    simp [Chunk.text, hnil, crlf, CR, LF]
  rw [hlf] at hxy
  obtain ⟨z, b, rfl⟩ : ∃ z b, y = z ++ [b] := ⟨y.dropLast, y.getLast hy,
    (List.dropLast_append_getLast hy).symm⟩
  rw [← List.append_assoc x z [b]] at hxy
  have hpart := List.append_inj_left' hxy rfl
  rw [hpart] at hopen
  exact run_part hopen l

/-- A body of as many bytes as were announced. -/
theorem run_wholeLength (hok : parser.Going) (hs : parser.state = .bodyIdentity) {body : Bytes}
    (hne : body ≠ []) (hlength : parser.contentLength = body.length) :
    ∃ q : Parser, q.Going ∧ run Log.recorder parser l body
      = some (q, { l with body := l.body ++ body, messageComplete := true }) := by
  obtain ⟨b, d, rfl⟩ := List.exists_cons_of_ne_nil hne
  rw [List.length_cons] at hlength
  have hstep : parser.bodyStep (d.length + 1) = d.length := by
    simp only [Parser.bodyStep]
    omega
  rw [run_bodyIdentity Log.lawful_recorder hok hs, if_pos (by omega), hstep, List.drop_length,
    List.take_of_length_le (by simp)]
  exact ⟨{ parser with
    contentLength := 0
    state := Parser.newMessage { parser with contentLength := 0, state := .messageDone } }, hok, rfl⟩

/-- A part of it. -/
theorem run_partLength (hok : parser.Going) (hs : parser.state = .bodyIdentity) {x : Bytes}
    (hlength : x.length < parser.contentLength) :
    ∃ q b, run Log.recorder parser l x = some (q, { l with body := b }) := by
  cases x with
  | nil => exact ⟨parser, l.body, rfl⟩
  | cons b d =>
      rw [List.length_cons] at hlength
      rw [run_bodyIdentity Log.lawful_recorder hok hs, if_neg (by omega)]
      exact ⟨_, _, rfl⟩

theorem run_behindHead {q : Parser} {l' : Log} (h : run Log.recorder parser l [LF] = some (q, l'))
    (d : Bytes) : run Log.recorder parser l (LF :: d) = run Log.recorder q l' d := by
  rw [← List.singleton_append, run_append Log.lawful_recorder, h, Option.bind_some]

/-- **A framed body is delivered as it is, and complete with its last byte and no earlier.** -/
theorem run_framed (h : parser.AtHeadEnd) (hplain : Parser.AtHeadEnd.Plain parser)
    (hnread : parser.nread < maxHeaderSize) (hl : l.InHead) {data body : Bytes}
    (hframes : Frames ⟨parser.flags, parser.contentLength⟩ data body) :
    (∃ q : Parser, q.Going ∧ run Log.recorder parser l (LF :: data)
      = some (q, { l.complete parser with body := body, messageComplete := true })) ∧
    ∀ x y, data = x ++ y → y ≠ [] → ∃ q b, run Log.recorder parser l (LF :: x)
      = some (q, { l.complete parser with body := b }) := by
  have hbody : (l.complete parser).body = [] := hl.body
  cases hframes with
  | chunked hf hchunks hlast hnil =>
      have hbehind := run_behindHead (h.run_chunkedHead (l := l) hplain hnread hf)
      have hat : (Parser.AtHeadEnd.afterHead parser .chunkSizeStart).AtChunk :=
        ⟨⟨h.going.1, rfl⟩, rfl, rfl⟩
      -- all of the chunks, and then a part of them
      constructor
      · obtain ⟨q, hq, hrun⟩ := run_chunked Log.lawful_recorder (l.complete parser) hchunks hlast hnil
          hat
        refine ⟨q, hq, ?_⟩
        rw [hbehind, hrun, foldl_onBody, hbody, List.nil_append]
        rfl
      · intro x y hxy hy
        rw [hbehind]
        exact run_chunksPart hat hchunks hlast hnil hxy hy
  | length hf hmax hlength =>
      by_cases hzero : parser.contentLength = 0
      · -- the message is complete with its head, and nothing comes behind it
        have hnil : data = [] := List.length_eq_zero_iff.1 (hlength.symm.trans hzero)
        subst hnil
        obtain ⟨st, hrun⟩ := h.run_emptyHead (l := l) hplain hnread hf hzero
        have hgoing : (Parser.AtHeadEnd.afterHead parser st).Going := ⟨h.going.1, rfl⟩
        refine ⟨⟨Parser.AtHeadEnd.afterHead parser st, hgoing, by rw [hrun, ← hbody]⟩,
          fun x y hxy hy => ?_⟩
        exact absurd (List.append_eq_nil_iff.1 hxy.symm).2 hy
      · have hne : data ≠ [] := by
          rintro rfl
          exact hzero hlength
        have hbehind := run_behindHead (h.run_lengthHead (l := l) hplain hnread hf hzero hmax)
        have hgoing : (Parser.AtHeadEnd.afterHead parser .bodyIdentity).Going := ⟨h.going.1, rfl⟩
        constructor
        · obtain ⟨q, hq, hrun⟩ := run_wholeLength (l := l.complete parser) hgoing rfl hne hlength
          exact ⟨q, hq, by rw [hbehind, hrun, hbody, List.nil_append]⟩
        · intro x y hxy hy
          rw [hbehind]
          refine run_partLength hgoing rfl ?_
          have hlen : data.length = x.length + y.length := by rw [hxy, List.length_append]
          have hpos := List.length_pos_iff.2 hy
          have hwhole : (Parser.AtHeadEnd.afterHead parser .bodyIdentity).contentLength
            = data.length := hlength
          omega

/-! ## Head and body -/

theorem deliverHeader_recorder (hheaders : l.headersComplete = false) (hname : l.name = none)
    (h : Header) :
    deliverHeader Log.recorder l h = { l with headers := l.headers ++ [h] } := by
  have hfield : l.headerField h.field = { l with name := some h.field } := by
    simp [Log.headerField, hheaders, hname]
  have hvalue : Log.headerValue h.value { l with name := some h.field }
      = { l with headers := l.headers ++ [h] } := by
    simp [Log.headerValue, hheaders, hname]
  exact (congrArg (Log.headerValue h.value) hfield).trans hvalue

theorem deliverLines_recorder (hheaders : l.headersComplete = false) (hname : l.name = none)
    (lines : List HeaderLine) : deliverLines Log.recorder l lines
      = { l with headers := l.headers ++ lines.map HeaderLine.header } := by
  induction lines generalizing l with
  | nil => simp [deliverLines]
  | cons line lines ih =>
      have hcons : deliverLines Log.recorder l (line :: lines)
          = deliverLines Log.recorder (deliverHeader Log.recorder l line.header) lines := rfl
      rw [hcons, deliverHeader_recorder hheaders hname, ih (by exact hheaders) (by exact hname)]
      simp

namespace ResponseHead

variable {h : ResponseHead}

theorem deliver_recorder (h : ResponseHead) :
    h.deliver Log.recorder Log.empty = { Log.empty with headers := h.headers } :=
  deliverLines_recorder rfl rfl h.lines

/-- What is known at the end of the head. -/
def log (h : ResponseHead) : Log :=
  { Log.empty with
    headers := h.headers
    statusCode := decimalValue h.status.code
    headersComplete := true }

theorem Read.plain {parser : Parser} (hread : h.Read parser)
    (hupgrade : h.framing.flags.upgrade = false) : Parser.AtHeadEnd.Plain parser where
  skipbody := by
    rw [hread.flags]
    exact (addLines_flags h.lines Framing.none).2
  upgrade := by
    rw [Parser.wantsUpgrade, hread.flags, hread.method, hupgrade]
    rfl

theorem Read.complete {parser : Parser} (hread : h.Read parser) :
    Log.complete parser { Log.empty with headers := h.headers } = h.log := by
  rw [Log.complete, hread.statusCode]
  rfl

theorem Read.framing_eq {parser : Parser} (hread : h.Read parser) :
    (⟨parser.flags, parser.contentLength⟩ : Framing) = h.framing := by
  rw [hread.flags, hread.contentLength]

end ResponseHead

/-- **A whole response.** -/
theorem run_response {h : ResponseHead} (hh : h.Valid) (hupgrade : h.framing.flags.upgrade = false)
    {data body : Bytes} (hframes : Frames h.framing data body) :
    (∃ q : Parser, q.Going ∧
      run Log.recorder (Parser.init .response) Log.empty (h.text ++ LF :: data)
        = some (q, { h.log with body := body, messageComplete := true })) ∧
    ∀ x y, data = x ++ y → y ≠ [] →
      ∃ q b, run Log.recorder (Parser.init .response) Log.empty (h.text ++ LF :: x)
        = some (q, { h.log with body := b }) := by
  obtain ⟨p, hread, hrun⟩ := run_responseHead Log.lawful_recorder Log.empty hh
  rw [h.deliver_recorder] at hrun
  have hnread : p.nread < maxHeaderSize := by
    rw [hread.nread]
    exact hh.length
  rw [← hread.framing_eq] at hframes
  have hframed := run_framed (l := { Log.empty with headers := h.headers }) hread.atHeadEnd
    (hread.plain hupgrade) hnread ⟨rfl, rfl, rfl⟩ hframes
  rw [hread.complete] at hframed
  simp only [run_append Log.lawful_recorder, hrun, Option.bind_some]
  exact hframed

/-- A response with status 200 is one that the proxy can wait for. -/
theorem complete200_of_frames {h : ResponseHead} (hh : h.Valid)
    (hcode : decimalValue h.status.code = 200) (hupgrade : h.framing.flags.upgrade = false)
    {data body : Bytes} (hframes : Frames h.framing data body) :
    ∃ p l₀, Complete200 h.text data p l₀ { h.log with body := body, messageComplete := true } ∧
      p.wantsUpgrade = false ∧ p.messageNeedsEof = false := by
  obtain ⟨p, hread, hrun⟩ := run_responseHead Log.lawful_recorder Log.empty hh
  rw [h.deliver_recorder] at hrun
  have hplain := hread.plain hupgrade
  have hwithout : p.withoutUpgrade = p := Complete200.withoutUpgrade_eq hplain.upgrade
  obtain ⟨⟨q, -, hwhole⟩, hpart⟩ := run_response hh hupgrade hframes
  simp only [run_append Log.lawful_recorder, hrun, Option.bind_some] at hwhole hpart
  have hstatus : h.log.statusCode = 200 := by
    show ((decimalValue h.status.code : ℕ) : ℤ) = 200
    rw [hcode]
    rfl
  have hneeds : p.messageNeedsEof = false := by
    refine messageNeedsEof_of_framed ?_
    rw [hread.flags, hread.contentLength]
    cases hframes with
    | chunked hf => exact Or.inl hf
    | length _ hmax => exact Or.inr hmax
  refine ⟨p, _, ⟨hrun, hread.atHeadEnd, ⟨rfl, rfl, rfl⟩, hread.statusCode.trans hcode, ⟨q, ?_⟩,
    Or.inr ⟨⟨rfl, hstatus, rfl⟩, fun x y hxy hy r hr => ?_⟩⟩, hplain.upgrade, hneeds⟩
  · rw [hwithout, hwhole]
  · rw [hwithout] at hr
    obtain ⟨q', b, hq'⟩ := hpart x y hxy hy
    obtain rfl := Option.some.inj (hr.symm.trans hq')
    exact fun _ => ⟨hstatus, rfl⟩

end ImageProxy.Http
