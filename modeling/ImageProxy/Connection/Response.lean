import ImageProxy.Connection.Reading
import ImageProxy.Http.Response

set_option autoImplicit false

/-! # The response of the server

The connection reads a response until it has a redirect, a status to pass on, an error, or the whole
file. Here is what its handler does in terms of what has been delivered, and when the file arrives:
`deliver` says it of the reads and the parser alone, `receive_documents` that the connection does the
same, `servesBody_iff` which complete responses are served. -/

namespace ImageProxy

open Ascii Cpcl Http

namespace Sys

/-! ## One read -/

theorem step_readResponse (t : Sys) {ec : Outcome} {data : Bytes} (hlen : data.length ≤ bufferSize)
    (a : Answers) :
    step (t.start .readResponse) (.readResponse ec data a)
      = some (t.handleReadWebhdfsResponse ec data a) := by
  simp only [step, if_pos hlen, complete, start, takeOp, if_true, Option.map_some]

/-- What the handler makes of a response whose log is `l`. -/
def respond (ec : Outcome) (a : Answers) (l : Log) (t : Sys) : Sys :=
  if l.headersComplete then
    if l.statusCode ∈ redirectStatusCodes then t.redirect a
    else if l.statusCode ≠ 200 then t.sendResponse l.statusCode
    else if l.messageComplete then t.sendPage a
    else if ec = .eof then t.sendResponse 500
    else t.start .readResponse
  else if ec = .eof then t.sendResponse 500
  else t.start .readResponse

variable {s₀ t : Sys} {image : StreamId} {p : Parser} {l : Log}

/-- One read of a response, in terms of what has been delivered. -/
theorem Reading.handleReadWebhdfsResponse (h : Reading s₀ image p l t) {ec : Outcome} {data : Bytes}
    (hec : ec ≠ .error) (hlen : data.length ≤ bufferSize) (hgoing : data ≠ [] → p.Going)
    (a : Answers) :
    match run Log.recorder p l data with
    | some r => ∃ t', Reading s₀ image r.1 r.2 t' ∧
        t.handleReadWebhdfsResponse ec data a = t'.respond ec a r.2
    | none => t.handleReadWebhdfsResponse ec data a = (t.parse data).2.sendResponse 500 := by
  have hparse := h.parse hlen hgoing
  rw [handleReadWebhdfsResponse_eq hec]
  revert hparse
  cases run Log.recorder p l data with
  | none => exact fun hinvalid => by rw [if_pos hinvalid]
  | some r =>
      rintro ⟨hvalid, hreading⟩
      refine ⟨_, hreading, ?_⟩
      have hheaders : (t.parse data).2.conn.parser.headersComplete = r.2.headersComplete :=
        hreading.agrees.headersComplete
      have hstatus : (t.parse data).2.conn.parser.statusCode = r.2.statusCode :=
        hreading.agrees.statusCode
      have hmessage : (t.parse data).2.conn.parser.messageComplete = r.2.messageComplete :=
        hreading.agrees.messageComplete
      rw [if_neg (by simp [hvalid]), hheaders, hstatus, hmessage]
      rfl

theorem respond_waiting (hl : l.Waiting) (a : Answers) (t : Sys) :
    t.respond .success a l = t.start .readResponse := by
  simp only [respond]
  cases hheaders : l.headersComplete with
  | false => rfl
  | true =>
      obtain ⟨hcode, hmessage⟩ := hl hheaders
      rw [if_pos rfl, if_neg (by rw [hcode]; decide), if_neg (by simp [hcode]),
        if_neg (by simp [hmessage]), if_neg (by simp)]

theorem respond_arrived (hl : l.Arrived) (ec : Outcome) (a : Answers) (t : Sys) :
    t.respond ec a l = t.sendPage a := by
  obtain ⟨hheaders, hcode, hmessage⟩ := hl
  rw [respond, if_pos hheaders, if_neg (by rw [hcode]; decide), if_neg (by simp [hcode]),
    if_pos hmessage]

/-- Reads that leave more to come. -/
theorem run_reads (a : Answers) (reads : List Bytes) (h : Reading s₀ image p l t)
    (hlen : ∀ read ∈ reads, read.length ≤ bufferSize) {r : Parser × Log}
    (hr : run Log.recorder p l reads.flatten = some r)
    (hwaiting : ∀ x y, reads.flatten = x ++ y → ∀ q, run Log.recorder p l x = some q → q.2.Waiting) :
    ∃ t', StepSystem.run step (t.start .readResponse)
        (reads.map fun read => .readResponse .success read a) = some (t'.start .readResponse) ∧
      Reading s₀ image r.1 r.2 t' := by
  induction reads generalizing p l t with
  | nil =>
      obtain rfl := Option.some.inj hr
      exact ⟨t, rfl, h⟩
  | cons read reads ih =>
      rw [List.flatten_cons] at hr hwaiting
      rw [run_append Log.lawful_recorder] at hr
      obtain ⟨q, hq, hr⟩ := Option.bind_eq_some_iff.1 hr
      have hread := hlen read (by simp)
      have hnext := h.handleReadWebhdfsResponse (by simp : Outcome.success ≠ .error) hread
        (going_of_run hq) a
      rw [hq] at hnext
      obtain ⟨t', hreading, hrespond⟩ := hnext
      rw [respond_waiting (hwaiting read _ rfl q hq)] at hrespond
      rw [List.map_cons, StepSystem.run_cons, step_readResponse t hread a, hrespond]
      refine ih hreading (fun read' h' => hlen read' (by simp [h'])) hr ?_
      intro x y hxy s hs
      refine hwaiting (read ++ x) y (by rw [hxy, List.append_assoc]) s ?_
      rw [run_append Log.lawful_recorder, hq]
      exact hs

/-! ## What does not touch the documents -/

@[simp] theorem beginResponse_documents (code : ℤ) (n : ℕ) (s : Sys) :
    (s.beginResponse code n).documents = s.documents := rfl

@[simp] theorem sendResponse_documents (code : ℤ) (s : Sys) :
    (s.sendResponse code).documents = s.documents := by
  simp only [sendResponse]
  split_ifs
  · cases s.conn.image with
    | none => rfl
    | some image =>
        simp only
        split_ifs <;> rfl
  · rfl

/-- What is left to complete after an answer is a part of it. -/
theorem sendResponse_pending (code : ℤ) (s : Sys) :
    ∃ data, (s.sendResponse code).pending = .writeResponse data :: s.pending := by
  simp only [sendResponse]
  split_ifs
  · cases s.conn.image with
    | none => exact ⟨_, rfl⟩
    | some image =>
        simp only
        split_ifs <;> exact ⟨_, rfl⟩
  · exact ⟨_, rfl⟩

@[simp] theorem showPage_documents (a : Answers) (page : PageInfo) (s : Sys) :
    (s.showPage a page).documents = s.documents := by
  simp only [showPage]
  split_ifs
  · rw [sendResponse_documents]
    rfl
  · rfl
  · rw [sendResponse_documents]
    rfl

/-- `SendPage` hands the content of the image to `LoadDoc`. -/
theorem sendPage_documents (a : Answers) {s : Sys} (himage : s.conn.image = some image) :
    (s.sendPage a).documents = s.documents ++ [(s.streams image).content] := by
  have hseek : ((s.seek image 0).streams image).content = (s.streams image).content := by
    simp only [seek, putStream, Function.update_self, DynamicMemoryStream.seek_zero]
    rfl
  have hload : ((s.seek image 0).loadDoc a image).documents
      = s.documents ++ [(s.streams image).content] := by rw [← hseek]; rfl
  simp only [sendPage, himage]
  rcases a.document with _ | _ | page
  · simp only [sendResponse_documents, hload]
  · exact hload
  · simp only [showPage_documents]
    exact hload

theorem setLocation_image (uri : Bytes) (c : Connection) :
    (c.setLocation uri).2.image = c.image := by
  simp only [Connection.setLocation]
  split_ifs <;> rfl

/-- A redirect asks again for the image that is being fetched. -/
theorem redirect_documents (a : Answers) {s : Sys} (himage : s.conn.image = some image) :
    (s.redirect a).documents = s.documents := by
  simp only [redirect]
  cases HttpParser.getHeader s.conn.parser.toFields (lit "Location") with
  | none => exact sendResponse_documents 500 s
  | some uri =>
      simp only
      split_ifs
      · exact sendResponse_documents 500 _
      · simp only [sendRequest]
        split_ifs
        · exact sendResponse_documents 404 _
        · simp only [fetchImage, modify, setLocation_image, himage]
          rfl

/-! ## What is outstanding afterwards -/

theorem not_readResponse_sendResponse (code : ℤ) {s : Sys} (hidle : s.pending = []) :
    .readResponse ∉ (s.sendResponse code).pending := by
  obtain ⟨data, hdata⟩ := sendResponse_pending code s
  simp [hdata, hidle]

theorem not_readResponse_showPage (a : Answers) (page : PageInfo) {s : Sys} (hidle : s.pending = []) :
    .readResponse ∉ (s.showPage a page).pending := by
  simp only [showPage]
  split_ifs
  · exact not_readResponse_sendResponse 200 hidle
  · simp [start, modify, newStream, putStream, hidle]
  · exact not_readResponse_sendResponse 500 hidle

theorem not_readResponse_sendPage (a : Answers) {s : Sys} (hidle : s.pending = []) :
    .readResponse ∉ (s.sendPage a).pending := by
  simp only [sendPage]
  cases s.conn.image with
  | none => simp [hidle]
  | some image =>
      rcases a.document with _ | _ | page
      · exact not_readResponse_sendResponse 500 hidle
      · simp [loadDoc, seek, putStream, hidle]
      · exact not_readResponse_showPage a page hidle

theorem not_readResponse_redirect (a : Answers) {s : Sys} (hidle : s.pending = [])
    (himage : s.conn.image = some image) : .readResponse ∉ (s.redirect a).pending := by
  simp only [redirect]
  cases HttpParser.getHeader s.conn.parser.toFields (lit "Location") with
  | none => exact not_readResponse_sendResponse 500 hidle
  | some uri =>
      simp only
      split_ifs
      · exact not_readResponse_sendResponse 500 hidle
      · simp only [sendRequest]
        split_ifs
        · exact not_readResponse_sendResponse 404 hidle
        · simp only [fetchImage, modify, setLocation_image, himage]
          simp [resolve, start, modify, seek, putStream, hidle]

/-- Reading ends when there is something to answer with, or nothing more to come. -/
theorem respond_ends {ec : Outcome} (hends : ¬(l.Waiting ∧ ec ≠ .eof)) (a : Answers)
    (hidle : t.pending = []) (himage : t.conn.image = some image) :
    .readResponse ∉ (t.respond ec a l).pending ∧
      (¬l.Arrived → (t.respond ec a l).documents = t.documents) := by
  simp only [respond]
  split_ifs with hheaders hredirect hcode hmessage heof heof
  · exact ⟨not_readResponse_redirect a hidle himage, fun _ => redirect_documents a himage⟩
  · exact ⟨not_readResponse_sendResponse _ hidle, fun _ => sendResponse_documents _ t⟩
  · exact ⟨not_readResponse_sendPage a hidle,
      fun h => absurd ⟨hheaders, not_not.1 hcode, hmessage⟩ h⟩
  · exact ⟨not_readResponse_sendResponse _ hidle, fun _ => sendResponse_documents _ t⟩
  · exact absurd ⟨fun _ => ⟨not_not.1 hcode, by simpa using hmessage⟩, heof⟩ hends
  · exact ⟨not_readResponse_sendResponse _ hidle, fun _ => sendResponse_documents _ t⟩
  · exact absurd ⟨fun h => absurd h hheaders, heof⟩ hends

/-! ## Reading to the end -/

/-- The reads of a response while the connection asks for more; the last comes with the end. -/
def receive (a : Answers) : Sys → (reads : List Bytes) → Option Sys
  | s, [] => some s
  | s, read :: reads =>
      if .readResponse ∈ s.pending then
        (step s (.readResponse (if reads.isEmpty then .eof else .success) read a)).bind fun s' =>
          receive a s' reads
      else some s

theorem receive_of_not_reading (a : Answers) {s : Sys} (h : .readResponse ∉ s.pending)
    (reads : List Bytes) : receive a s reads = some s := by
  cases reads with
  | nil => rfl
  | cons read reads => rw [receive, if_neg h]

/-- The content of a stream after a body was written to it. -/
def contentAfter (stream : DynamicMemoryStream) (body : Bytes) : Bytes :=
  if stream.pOffset = stream.pSize then stream.content ++ body else stream.content

theorem Reading.content (h : Reading s₀ image p l t) :
    (t.streams image).content = contentAfter (s₀.streams image) l.body := by
  rw [contentAfter]
  split_ifs with hend
  · exact (h.agrees.stream.atEnd hend).1
  · exact (h.agrees.stream.notAtEnd hend).1

theorem Reading.sendPage_documents (h : Reading s₀ image p l t) (a : Answers)
    (himage : s₀.conn.image = some image) :
    (t.sendPage a).documents = s₀.documents ++ [contentAfter (s₀.streams image) l.body] := by
  rw [← h.content]
  obtain ⟨⟨parser, buffer, streams, rfl⟩, -, -⟩ := h
  exact Sys.sendPage_documents a himage

/-- **The connection hands to `LoadDoc` what the reads deliver.** -/
theorem receive_documents (a : Answers) (reads : List Bytes) (h : Reading s₀ image p l t)
    (hidle : s₀.pending = []) (himage : s₀.conn.image = some image)
    (hlen : ∀ read ∈ reads, read.length ≤ bufferSize) (hl : l.Waiting)
    (hsteady : Steady p l reads.flatten) :
    ∃ s', receive a (t.start .readResponse) reads = some s' ∧
      s'.documents = s₀.documents ++
        ((deliver p l reads).map (contentAfter (s₀.streams image))).toList := by
  induction reads generalizing p l t with
  | nil => exact ⟨_, rfl, by simp [deliver, start, h.documents_eq]⟩
  | cons read reads ih =>
      rw [List.flatten_cons] at hsteady
      have hread := hlen read (by simp)
      have hgoing : read ≠ [] → p.Going := fun hne =>
        hsteady [] (read ++ reads.flatten) rfl (by simp [hne]) (p, l) rfl hl
      have hec : (if reads.isEmpty then Outcome.eof else .success) ≠ .error := by
        split_ifs <;> simp
      have hnext := h.handleReadWebhdfsResponse hec hread hgoing a
      rw [receive, if_pos (by simp [start]), step_readResponse t hread a, Option.bind_some, deliver]
      cases hrun : run Log.recorder p l read with
      | none =>
          rw [hrun] at hnext
          simp only at hnext
          rw [hnext, receive_of_not_reading a (not_readResponse_sendResponse 500 ?_)]
          · exact ⟨_, rfl, (sendResponse_documents 500 _).trans
              (h.documents_eq.trans (List.append_nil _).symm)⟩
          · exact h.idle hidle
      | some r =>
          rw [hrun] at hnext
          obtain ⟨t', hreading, hrespond⟩ := hnext
          rw [hrespond]
          have himage' : t'.conn.image = some image := hreading.image_eq.trans himage
          by_cases hwaiting : r.2.Waiting
          · simp only [if_pos hwaiting]
            cases hreads : reads with
            | nil =>
                obtain ⟨hnot, hdocuments⟩ := respond_ends
                  (by simp : ¬(r.2.Waiting ∧ Outcome.eof ≠ .eof)) a (hreading.idle hidle) himage'
                refine ⟨_, rfl, ?_⟩
                rw [List.isEmpty_nil, if_pos rfl, hdocuments fun h => h.not_waiting hwaiting,
                  hreading.documents_eq]
                simp [deliver]
            | cons read' reads' =>
                rw [List.isEmpty_cons, if_neg (by simp), respond_waiting hwaiting]
                rw [← hreads]
                exact ih hreading (fun read' h' => hlen read' (by simp [h'])) hwaiting
                  (hsteady.drop hrun)
          · obtain ⟨hnot, hdocuments⟩ := respond_ends (fun h => hwaiting h.1 :
              ¬(r.2.Waiting ∧ (if reads.isEmpty then Outcome.eof else .success) ≠ .eof)) a
              (hreading.idle hidle) himage'
            simp only [if_neg hwaiting]
            rw [receive_of_not_reading a hnot]
            refine ⟨_, rfl, ?_⟩
            by_cases harrived : r.2.Arrived
            · rw [if_pos harrived, respond_arrived harrived, hreading.sendPage_documents a himage]
              rfl
            · rw [if_neg harrived, hdocuments harrived, hreading.documents_eq]
              simp

/-! ## Which complete responses are served -/

/-- The request is written and the response is to be read, into `image`. -/
structure Awaiting (image : StreamId) (t : Sys) : Prop where
  idle : t.pending = []
  image_eq : t.conn.image = some image
  parser : ∃ parser : HttpParser, parser.content = some image ∧ t.conn.parser = parser.reset false

theorem Awaiting.reading (h : Awaiting image t) :
    Reading t image (Parser.init .response) Log.empty t := by
  obtain ⟨parser, hcontent, hreset⟩ := h.parser
  exact ⟨⟨t.conn.parser, t.conn.buffer, t.streams, rfl⟩, by rw [hreset]; rfl,
    by rw [hreset]; exact Agrees.empty t.streams false hcontent⟩

/-- The completions of the reads of a response. -/
def readEvents (a : Answers) (ec : Outcome) (reads : List Bytes) (last : Bytes) : List Event :=
  (reads.map fun read => .readResponse .success read a) ++ [.readResponse ec last a]

/-- Reads that leave more to come, and then one more. -/
theorem run_readEvents (h : Awaiting image t) {reads : List Bytes} {last : Bytes} {q : Parser × Log}
    (hlen : ∀ read ∈ reads ++ [last], read.length ≤ bufferSize)
    (hwaiting : ∀ x y, reads.flatten = x ++ y →
      ∀ r, run Log.recorder (Parser.init .response) Log.empty x = some r → r.2.Waiting)
    (hwhole : run Log.recorder (Parser.init .response) Log.empty (reads.flatten ++ last) = some q)
    {ec : Outcome} (hec : ec ≠ .error) (a : Answers) :
    ∃ t', Reading t image q.1 q.2 t' ∧
      StepSystem.run step (t.start .readResponse) (readEvents a ec reads last)
        = some (t'.respond ec a q.2) := by
  rw [run_append Log.lawful_recorder] at hwhole
  obtain ⟨r, hr, hlast⟩ := Option.bind_eq_some_iff.1 hwhole
  obtain ⟨t₁, hrun, hreading⟩ := run_reads a reads h.reading
    (fun read hread => hlen read (by simp [hread])) hr hwaiting
  have hlen' : last.length ≤ bufferSize := hlen last (by simp)
  have hnext := hreading.handleReadWebhdfsResponse hec hlen' (going_of_run hlast) a
  rw [hlast] at hnext
  obtain ⟨t', hreading', hrespond⟩ := hnext
  refine ⟨t', hreading', ?_⟩
  rw [readEvents, StepSystem.run_append, hrun, Option.bind_some, StepSystem.run_cons,
    step_readResponse t₁ hlen' a, hrespond]
  rfl

/-- Reading the response ends in `SendPage` with the stream holding exactly `body`. -/
def ServesBody (a : Answers) (t : Sys) (reads : List Bytes) (body : Bytes) : Prop :=
  ∃ s', receive a (t.start .readResponse) reads = some s' ∧ s'.documents = t.documents ++ [body]

/-- A stream that has exactly `body` after it was written: it is empty, or it takes no bytes and has
these already. -/
def TakesBody (stream : DynamicMemoryStream) (body : Bytes) : Prop :=
  stream.content = [] ∨ stream.pOffset ≠ stream.pSize ∧ stream.content = body

theorem contentAfter_eq_iff (stream : DynamicMemoryStream) (body : Bytes) :
    contentAfter stream body = body ↔ TakesBody stream body := by
  have hlen := stream.length_content
  rw [contentAfter, TakesBody]
  split_ifs with hend
  · simp [hend]
  · rw [or_iff_right_iff_imp.2 fun hnil => ?_, and_iff_right hend]
    -- an empty stream is at its end
    have hoffset := stream.offset_le
    rw [hnil, List.length_nil] at hlen
    omega

theorem contentAfter_nil (stream : DynamicMemoryStream) :
    contentAfter stream [] = stream.content := by
  rw [contentAfter, List.append_nil, ite_self]

/-- **A complete file is served exactly when its end can be seen before the connection is closed, and
the stream takes it.** If the response asks for an upgrade, nothing of its body is written: it is served
if the stream has it already, as an empty stream has an empty body, and no byte comes in one read with
the end of its head. -/
theorem servesBody_iff (h : Awaiting image t) {H D : Bytes} {p : Parser} {l₀ l : Log}
    (hresponse : Complete200 H D p l₀ l) {reads : List Bytes} (hreads : reads.flatten = H ++ LF :: D)
    (hlen : ∀ read ∈ reads, read.length ≤ bufferSize) (a : Answers) :
    ServesBody a t reads l.body ↔
      if p.wantsUpgrade then (t.streams image).content = l.body ∧ CutAtHeadEnd H reads
      else p.messageNeedsEof = false ∧ TakesBody (t.streams image) l.body := by
  obtain ⟨s', hs', hdocuments⟩ := receive_documents a reads h.reading h.idle h.image_eq hlen
    Log.waiting_empty (hreads ▸ hresponse.steady)
  have hserves : ServesBody a t reads l.body ↔
      (deliver (Parser.init .response) Log.empty reads).map (contentAfter (t.streams image))
        = some l.body := by
    rw [ServesBody, hs']
    simp only [Option.some.injEq, exists_eq_left', hdocuments, List.append_right_inj]
    cases (deliver (Parser.init .response) Log.empty reads).map (contentAfter (t.streams image)) <;>
      simp
  rw [hserves]
  cases hupgrade : p.wantsUpgrade with
  | true =>
      -- the parser leaves at the end of the head
      obtain ⟨hcut, hnot⟩ := hresponse.deliver_upgrade hupgrade hreads
      rw [if_pos rfl]
      by_cases hread : CutAtHeadEnd H reads
      · rw [hcut hread, Option.map_some, contentAfter_nil, Option.some.injEq]
        exact (and_iff_left hread).symm
      · rw [hnot hread]
        exact iff_of_false (by simp) fun h => hread h.2
  | false =>
      rw [if_neg (by simp), hresponse.deliver_framed hupgrade hreads, ← contentAfter_eq_iff]
      cases p.messageNeedsEof <;> simp

/-- A connection that has asked the server for `/a`. -/
def awaitingSys : Sys :=
  { exampleInit with
    conn := { exampleInit.conn with
      image := some 1
      webhdfsPath := lit "/a"
      imagePath := lit "/a"
      parser := HttpParser.reset { exampleInit.conn.parser with content := some 1 } false }
    streams := Function.update exampleInit.streams 1 DynamicMemoryStream.fresh
    nextStream := 2
    requested := [lit "/a"]
    accepted := true
    pending := [] }

/-- Such states are reached. -/
example : ∃ t : Sys, StepSystem.run step exampleInit
      [.readRequest .success (lit "GET /a HTTP/1.1\x0d\n\x0d\n") exampleAnswers,
        .resolved (some 0), .connected true, .wroteRequest true] = some (t.start .readResponse) ∧
    Awaiting 1 t ∧ (t.streams 1).content = [] :=
  ⟨_, rfl, ⟨rfl, rfl, _, rfl, rfl⟩, rfl⟩

/-- The head, without its last line feed, of a response that ends with the connection. -/
def closeHead : Bytes := lit "HTTP/1.1 200 OK\x0d\n\x0d"

theorem not_servesBody_closeHead :
    ∃ p l₀ l, Awaiting 1 awaitingSys ∧ (awaitingSys.streams 1).content = [] ∧
      Complete200 closeHead (lit "hi") p l₀ l ∧ l.body = lit "hi" ∧
      (receive exampleAnswers (awaitingSys.start .readResponse)
        [closeHead ++ LF :: lit "hi", []]).map (fun s => s.sent) = some [500] ∧
      ¬ServesBody exampleAnswers awaitingSys [closeHead ++ LF :: lit "hi", []] (lit "hi") := by
  refine ⟨_, _, _, ⟨rfl, rfl, _, rfl, rfl⟩, rfl, ⟨rfl, ⟨by decide, rfl, rfl⟩, ⟨rfl, rfl, rfl⟩, rfl,
    ⟨_, rfl⟩, Or.inl rfl⟩, rfl, by decide +kernel, ?_⟩
  rintro ⟨s', hs', hdocuments⟩
  have hnone : (receive exampleAnswers (awaitingSys.start .readResponse)
      [closeHead ++ LF :: lit "hi", []]).map (fun s => s.documents) = some [] := by decide +kernel
  rw [hs', Option.map_some, hdocuments] at hnone
  exact absurd hnone (by simp)

/-- The head, without its last line feed, of a response with a length. -/
def lengthHead : Bytes := lit "HTTP/1.1 200 OK\x0d\nContent-Length: 2\x0d\n\x0d"

theorem complete200_lengthHead :
    ∃ p l₀ l, Complete200 lengthHead (lit "hi") p l₀ l ∧ l.body = lit "hi" ∧
      p.wantsUpgrade = false ∧ p.messageNeedsEof = false := by
  refine ⟨_, _, _, ⟨rfl, ⟨by decide, rfl, rfl⟩, ⟨rfl, rfl, rfl⟩, rfl, ⟨_, rfl⟩,
    Or.inr ⟨⟨rfl, rfl, rfl⟩, fun x y hxy hy r hr => ?_⟩⟩, rfl, rfl, rfl⟩
  rcases x with _ | ⟨b, _ | ⟨c, x⟩⟩
  · obtain rfl := Option.some.inj (hr.symm.trans rfl)
    exact fun _ => ⟨rfl, rfl⟩
  · obtain ⟨rfl, -⟩ := List.cons.inj hxy
    obtain rfl := Option.some.inj (hr.symm.trans rfl)
    exact fun _ => ⟨rfl, rfl⟩
  · obtain ⟨-, hxy⟩ := List.cons.inj hxy
    obtain ⟨-, hxy⟩ := List.cons.inj hxy
    exact absurd (List.append_eq_nil_iff.1 hxy.symm).2 hy

theorem servesBody_lengthHead :
    ∃ p l₀ l, Complete200 lengthHead (lit "hi") p l₀ l ∧ l.body = lit "hi" ∧
      p.wantsUpgrade = false ∧ p.messageNeedsEof = false ∧
      (ServesBody exampleAnswers awaitingSys [lit "HTTP/1.1 2", (lengthHead ++ LF :: lit "hi").drop 10, []]
          l.body ↔
        if p.wantsUpgrade then (awaitingSys.streams 1).content = l.body ∧ CutAtHeadEnd lengthHead
          [lit "HTTP/1.1 2", (lengthHead ++ LF :: lit "hi").drop 10, []]
        else p.messageNeedsEof = false ∧ TakesBody (awaitingSys.streams 1) l.body) := by
  obtain ⟨p, l₀, l, hresponse, hbody, hupgrade, hframed⟩ := complete200_lengthHead
  exact ⟨p, l₀, l, hresponse, hbody, hupgrade, hframed,
    servesBody_iff ⟨rfl, rfl, _, rfl, rfl⟩ hresponse rfl (by decide) exampleAnswers⟩

end Sys

end ImageProxy
