import ImageProxy.Connection.Handlers

set_option autoImplicit false

/-! # What a handler leaves behind

Nine handlers and four helpers call each other. Whichever way they go, they end in one of three ways:
one operation is started that is not a response, the one response is started, or nothing is. The
first two are `Continued`; the third is a request that is dropped unless it was answered before.

From this follow the two invariants of a connection: never two operations and never two responses
(`atMostOne_of_reachable`), and no accepted request without a response in exactly the runs without one
of the steps that start nothing (`everyState_answered_iff`). -/

namespace ImageProxy

open Ascii Cpcl Http

/-- The operation that writes a part of the response. -/
def Op.isResponse : Op → Bool
  | .writeResponse _ => true
  | _ => false

/-- The operations of an exchange with the server. -/
def Op.isUpstream : Op → Bool
  | .resolve _ _ | .connect _ | .writeRequest _ | .readResponse => true
  | _ => false

namespace Sys

/-- `s'` has one more operation outstanding than `s`: the first part of a response that is the only
new one, or no response and no new one. Once the request is read it has been accepted, and an exchange
with the server has an image to receive. -/
inductive Continued (s s' : Sys) : Prop where
  | started (op : Op) (hop : op.isResponse = false) (pending : s'.pending = op :: s.pending)
      (sent : s'.sent = s.sent) (clientError : s'.clientError = s.clientError)
      (accepted : op ≠ .readRequest → s'.accepted = true)
      (image : op.isUpstream = true → s'.conn.image.isSome = true)
  | answered (data : Bytes) (code : ℤ) (pending : s'.pending = .writeResponse data :: s.pending)
      (sent : s'.sent = s.sent ++ [code]) (clientError : s'.clientError = s.clientError)

/-- `s'` has the operations and the responses of `s`. -/
structure Dropped (s s' : Sys) : Prop where
  pending : s'.pending = s.pending
  sent : s'.sent = s.sent
  clientError : s'.clientError = s.clientError

theorem Continued.of_dropped {s t s' : Sys} (h : Continued t s') (hst : Dropped s t) :
    Continued s s' := by
  cases h with
  | started op hop pending sent clientError accepted image =>
      exact .started op hop (by rw [pending, hst.pending]) (by rw [sent, hst.sent])
        (by rw [clientError, hst.clientError]) accepted image
  | answered data code pending sent clientError =>
      exact .answered data code (by rw [pending, hst.pending]) (by rw [sent, hst.sent])
        (by rw [clientError, hst.clientError])

/-! ## The helpers -/

theorem beginResponse_continued (code : ℤ) (responseLen : ℕ) (s : Sys) :
    Continued s (s.beginResponse code responseLen) := .answered _ code rfl rfl rfl

theorem sendResponse_continued (code : ℤ) (s : Sys) : Continued s (s.sendResponse code) := by
  simp only [sendResponse]
  split_ifs
  · cases s.conn.image with
    | none => exact beginResponse_continued 500 0 s
    | some image =>
        simp only
        split_ifs
        · exact (beginResponse_continued 500 0 (s.seek image 0)).of_dropped ⟨rfl, rfl, rfl⟩
        · exact (beginResponse_continued code _ (s.seek image 0)).of_dropped ⟨rfl, rfl, rfl⟩
  · exact (beginResponse_continued code 0 (s.modify _)).of_dropped ⟨rfl, rfl, rfl⟩

theorem showPage_continued (a : Answers) (page : PageInfo) (s : Sys) (haccepted : s.accepted = true) :
    Continued s (s.showPage a page) := by
  simp only [showPage]
  split_ifs
  · exact (sendResponse_continued 200 _).of_dropped ⟨rfl, rfl, rfl⟩
  · exact .started _ rfl rfl rfl rfl (fun _ => haccepted)
      (fun h => absurd h (by simp [Op.isUpstream]))
  · exact (sendResponse_continued 500 _).of_dropped ⟨rfl, rfl, rfl⟩

/-- `SendPage` starts something unless the document has no page. -/
theorem sendPage_continued (a : Answers) (s : Sys) (haccepted : s.accepted = true)
    (himage : s.conn.image.isSome = true) :
    Continued s (s.sendPage a) ∨ a.document = some none := by
  obtain ⟨image, himage⟩ := Option.isSome_iff_exists.1 himage
  simp only [sendPage, himage]
  rcases a.document with _ | _ | page
  · exact Or.inl ((sendResponse_continued 500 _).of_dropped ⟨rfl, rfl, rfl⟩)
  · exact Or.inr rfl
  · exact Or.inl ((showPage_continued a page _ (by exact haccepted)).of_dropped ⟨rfl, rfl, rfl⟩)

theorem resolve_continued (s : Sys) (haccepted : s.accepted = true)
    (himage : s.conn.image.isSome = true) : Continued s s.resolve :=
  .started _ rfl rfl rfl rfl (fun _ => haccepted) fun _ => himage

/-- The image is neither being fetched already nor missing from the cache. -/
def Cached (a : Answers) (requestPath : Bytes) (s : Sys) : Prop :=
  s.conn.image = none ∧ (s.cache.get a.getLocked s.nextStream requestPath).2 = true

theorem fetchImage_continued (a : Answers) (s : Sys) (haccepted : s.accepted = true) :
    Continued s (s.fetchImage a) ∨ (Cached a s.conn.webhdfsPath s ∧ a.document = some none) := by
  cases himage : s.conn.image with
  | none =>
      simp only [fetchImage, himage]
      split_ifs with hhit
      · rcases sendPage_continued a (s.getImage a).2 haccepted rfl with h | hdocument
        · exact Or.inl (h.of_dropped ⟨rfl, rfl, rfl⟩)
        · exact Or.inr ⟨⟨himage, hhit⟩, hdocument⟩
      · exact Or.inl ((resolve_continued (s.getImage a).2 haccepted rfl).of_dropped ⟨rfl, rfl, rfl⟩)
  | some image =>
      simp only [fetchImage, himage]
      exact Or.inl ((resolve_continued _ (by exact haccepted) (by exact himage ▸ rfl)).of_dropped
        ⟨rfl, rfl, rfl⟩)

/-- `SendRequest` starts something unless the cached document has no page. -/
theorem sendRequest_continued (a : Answers) (requestPath : Bytes) (s : Sys)
    (haccepted : s.accepted = true) :
    Continued s (s.sendRequest a requestPath) ∨
      (stringEqualsIgnoreCaseASCII requestPath (lit "/favicon.ico") = false ∧
        Cached a requestPath s ∧ a.document = some none) := by
  simp only [sendRequest]
  split_ifs with hfavicon
  · exact Or.inl ((sendResponse_continued 404 _).of_dropped ⟨rfl, rfl, rfl⟩)
  · rcases fetchImage_continued a
      (modify (fun c => { c with webhdfsPath := requestPath })
        { s with requested := s.requested ++ [requestPath] }) haccepted with h | hcached
    · exact Or.inl (h.of_dropped ⟨rfl, rfl, rfl⟩)
    · exact Or.inr ⟨by simpa using hfavicon, hcached⟩

/-! ## The handlers -/

/-- `GetQuery` throws on the target of the request, or gives a path whose image is cached and has no
page. -/
def DropsRequest (a : Answers) (s : Sys) : Prop :=
  Query.get s.conn.parser.url = none ∨
    ∃ query, Query.get s.conn.parser.url = some query ∧ s.conn.parser.parser.method = .get ∧
      2 ≤ query.requestPath.length ∧
      stringEqualsIgnoreCaseASCII query.requestPath (lit "/favicon.ico") = false ∧
      Cached a query.requestPath s ∧ a.document = some none

theorem acceptRequest_continued (a : Answers) (s : Sys) :
    Continued s (s.acceptRequest a) ∨ DropsRequest a s := by
  simp only [acceptRequest]
  cases hquery : Query.get s.conn.parser.url with
  | none => exact Or.inr (Or.inl hquery)
  | some query =>
      simp only
      split_ifs with hbad
      · exact Or.inl ((sendResponse_continued 400 _).of_dropped ⟨rfl, rfl, rfl⟩)
      · rw [not_or, not_not] at hbad
        rcases sendRequest_continued a query.requestPath
          (modify (fun c => { c with query := query, webhdfsPath := query.requestPath })
            { s with accepted := true }) rfl with h | hcached
        · exact Or.inl (h.of_dropped ⟨rfl, rfl, rfl⟩)
        · exact Or.inr (Or.inr ⟨query, hquery, hbad.1, Nat.le_of_not_lt hbad.2, hcached⟩)

/-- A request read is answered or passed on, unless it is complete and dropped. -/
theorem handleReadRequest_continued (ec : Outcome) (data : Bytes) (a : Answers) (s : Sys)
    (hec : ec ≠ .error) :
    Continued s (s.handleReadRequest ec data a) ∨
      ((s.parse data).1 = false ∧ (s.parse data).2.conn.parser.headersComplete = true ∧
        DropsRequest a (s.parse data).2) := by
  rw [handleReadRequest_eq hec]
  split_ifs with hinvalid hcomplete heof
  · exact Or.inl ((sendResponse_continued 400 _).of_dropped ⟨rfl, rfl, rfl⟩)
  · rcases acceptRequest_continued a (s.parse data).2 with h | hdrops
    · exact Or.inl (h.of_dropped ⟨rfl, rfl, rfl⟩)
    · exact Or.inr ⟨by simpa using hinvalid, hcomplete, hdrops⟩
  · exact Or.inl ((sendResponse_continued 400 _).of_dropped ⟨rfl, rfl, rfl⟩)
  · exact Or.inl (.started .readRequest rfl rfl rfl rfl (fun h => absurd rfl h)
      fun h => absurd h (by simp [Op.isUpstream]))

theorem handleResolve_continued (endpoints : ℕ) (s : Sys) (haccepted : s.accepted = true)
    (himage : s.conn.image.isSome = true) : Continued s (s.handleResolve (some endpoints)) :=
  .started (.connect endpoints) rfl rfl rfl rfl (fun _ => haccepted) fun _ => himage

theorem handleConnect_continued (ok : Bool) (endpointsLeft : ℕ) (s : Sys)
    (haccepted : s.accepted = true) (himage : s.conn.image.isSome = true) :
    Continued s (s.handleConnect ok endpointsLeft) ∨ (ok = false ∧ endpointsLeft = 0) := by
  cases ok with
  | true =>
      simp only [handleConnect, if_true]
      generalize buildRequest s.conn.host s.conn.webhdfsPath = text
      exact Or.inl (.started _ rfl rfl rfl rfl (fun _ => haccepted) fun _ => himage)
  | false =>
      cases endpointsLeft with
      | zero => exact Or.inr ⟨rfl, rfl⟩
      | succ n =>
          exact Or.inl (.started (.connect n) rfl rfl rfl rfl (fun _ => haccepted) fun _ => himage)

theorem handleWriteRequest_continued (s : Sys) (haccepted : s.accepted = true)
    (himage : s.conn.image.isSome = true) : Continued s (s.handleWriteRequest true) :=
  .started .readResponse rfl rfl rfl rfl (fun _ => haccepted) fun _ => himage

/-- A redirect never finds its image in the cache: the one of the first request is still there. -/
theorem redirect_continued (a : Answers) (s : Sys) (haccepted : s.accepted = true)
    (himage : s.conn.image.isSome = true) : Continued s (s.redirect a) := by
  simp only [redirect]
  cases HttpParser.getHeader s.conn.parser.toFields (lit "Location") with
  | none => exact sendResponse_continued 500 s
  | some uri =>
      simp only
      have himage' : (s.conn.setLocation uri).2.image = s.conn.image := by
        simp only [Connection.setLocation]
        split_ifs <;> rfl
      split_ifs
      · exact (sendResponse_continued 500 _).of_dropped ⟨rfl, rfl, rfl⟩
      · rcases sendRequest_continued a (s.conn.setLocation uri).2.webhdfsPath
          { s with conn := (s.conn.setLocation uri).2 } haccepted with h | ⟨-, ⟨hnone, -⟩, -⟩
        · exact h.of_dropped ⟨rfl, rfl, rfl⟩
        · rw [himage'.symm.trans hnone] at himage
          exact absurd himage (by simp)

/-- The file has arrived. -/
def Arrived (s : Sys) : Prop :=
  s.conn.parser.headersComplete = true ∧ s.conn.parser.statusCode = 200 ∧
    s.conn.parser.messageComplete = true

theorem handleReadWebhdfsResponse_continued (ec : Outcome) (data : Bytes) (a : Answers) (s : Sys)
    (hec : ec ≠ .error) (haccepted : s.accepted = true) (himage : s.conn.image.isSome = true) :
    Continued s (s.handleReadWebhdfsResponse ec data a) ∨
      ((s.parse data).1 = false ∧ Arrived (s.parse data).2 ∧ a.document = some none) := by
  have hparse : Dropped s (s.parse data).2 := ⟨rfl, rfl, rfl⟩
  have himage' : (s.parse data).2.conn.image.isSome = true := himage
  have hread : Continued s ((s.parse data).2.start .readResponse) :=
    .started .readResponse rfl rfl rfl rfl (fun _ => haccepted) fun _ => himage
  rw [handleReadWebhdfsResponse_eq hec]
  split_ifs with hinvalid hheaders hredirect hcode hmessage heof heof
  · exact Or.inl ((sendResponse_continued _ _).of_dropped hparse)
  · exact Or.inl ((redirect_continued a _ (by exact haccepted) himage').of_dropped hparse)
  · exact Or.inl ((sendResponse_continued _ _).of_dropped hparse)
  · rcases sendPage_continued a (s.parse data).2 haccepted himage' with h | hdocument
    · exact Or.inl (h.of_dropped hparse)
    · exact Or.inr ⟨by simpa using hinvalid, ⟨hheaders, not_not.1 hcode, hmessage⟩, hdocument⟩
  · exact Or.inl ((sendResponse_continued _ _).of_dropped hparse)
  · exact Or.inl hread
  · exact Or.inl ((sendResponse_continued _ _).of_dropped hparse)
  · exact Or.inl hread

/-- A part of the response is followed by the next part, or by nothing. -/
theorem handleWriteResponse_pending (ok : Bool) (s : Sys) :
    ((s.handleWriteResponse ok).pending = s.pending ∨
      ∃ data, (s.handleWriteResponse ok).pending = .writeResponse data :: s.pending) ∧
    (s.handleWriteResponse ok).sent = s.sent ∧
    ((s.handleWriteResponse ok).pending ≠ s.pending →
      (s.handleWriteResponse ok).clientError = s.clientError) := by
  cases ok with
  | false => exact ⟨Or.inl rfl, rfl, fun h => absurd rfl h⟩
  | true =>
      simp only [handleWriteResponse, if_true]
      by_cases hcode : s.conn.statusCode = 200
      · rw [if_pos hcode]
        cases s.conn.image with
        | none => exact ⟨Or.inl rfl, rfl, fun _ => rfl⟩
        | some image =>
            simp only [writeChunk]
            split
            · exact ⟨Or.inl rfl, rfl, fun _ => rfl⟩
            · exact ⟨Or.inr ⟨_, rfl⟩, rfl, fun _ => rfl⟩
      · rw [if_neg hcode]
        exact ⟨Or.inl rfl, rfl, fun _ => rfl⟩

theorem handleRendered_continued (pieces : List Bytes) (ok : Bool) (out : StreamId) (s : Sys) :
    Continued s (s.handleRendered pieces ok out) :=
  (sendResponse_continued _ _).of_dropped ⟨rfl, rfl, rfl⟩


/-! ## What is dropped -/

/-- Nothing has been started, and nothing has happened to the request and the task pool. -/
structure Kept (s s' : Sys) : Prop extends Dropped s s' where
  accepted : s'.accepted = s.accepted
  stopped : s'.stopped = s.stopped

theorem Kept.of_eq {s t s' : Sys} (h : Kept t s') (hst : Kept s t) : Kept s s' :=
  ⟨⟨h.pending.trans hst.pending, h.sent.trans hst.sent, h.clientError.trans hst.clientError⟩,
    h.accepted.trans hst.accepted, h.stopped.trans hst.stopped⟩

theorem sendPage_kept {a : Answers} (hdocument : a.document = some none) (s : Sys) :
    Kept s (s.sendPage a) := by
  simp only [sendPage, hdocument]
  cases s.conn.image with
  | none => exact ⟨⟨rfl, rfl, rfl⟩, rfl, rfl⟩
  | some image => exact ⟨⟨rfl, rfl, rfl⟩, rfl, rfl⟩

theorem sendRequest_kept {a : Answers} {requestPath : Bytes} {s : Sys}
    (hfavicon : stringEqualsIgnoreCaseASCII requestPath (lit "/favicon.ico") = false)
    (hcached : Cached a requestPath s) (hdocument : a.document = some none) :
    Kept s (s.sendRequest a requestPath) := by
  obtain ⟨himage, hhit⟩ := hcached
  simp only [sendRequest, hfavicon, Bool.false_eq_true, if_false, fetchImage, modify, himage]
  rw [if_pos (by exact hhit)]
  exact (sendPage_kept hdocument (getImage a _).2).of_eq ⟨⟨rfl, rfl, rfl⟩, rfl, rfl⟩

theorem acceptRequest_kept {a : Answers} {s : Sys} (h : DropsRequest a s) :
    Kept { s with accepted := true } (s.acceptRequest a) := by
  rcases h with hnone | ⟨query, hquery, hmethod, hlength, hfavicon, hcached, hdocument⟩
  · simp only [acceptRequest, hnone]
    exact ⟨⟨rfl, rfl, rfl⟩, rfl, rfl⟩
  · have hgood : ¬(s.conn.parser.parser.method ≠ .get ∨ query.requestPath.length < 2) := by
      rw [not_or, not_not]
      exact ⟨hmethod, Nat.not_lt.2 hlength⟩
    simp only [acceptRequest, hquery]
    rw [if_neg (by exact hgood)]
    exact (sendRequest_kept hfavicon (by exact hcached) hdocument).of_eq ⟨⟨rfl, rfl, rfl⟩, rfl, rfl⟩

theorem handleReadRequest_kept {ec : Outcome} {data : Bytes} {a : Answers} {s : Sys}
    (hec : ec ≠ .error) (hvalid : (s.parse data).1 = false)
    (hheaders : (s.parse data).2.conn.parser.headersComplete = true)
    (hdrops : DropsRequest a (s.parse data).2) :
    Kept { s with accepted := true } (s.handleReadRequest ec data a) := by
  rw [handleReadRequest_eq hec, if_neg (by simp [hvalid]), if_pos hheaders]
  exact (acceptRequest_kept hdrops).of_eq ⟨⟨rfl, rfl, rfl⟩, rfl, rfl⟩

theorem handleReadWebhdfsResponse_kept {ec : Outcome} {data : Bytes} {a : Answers} {s : Sys}
    (hec : ec ≠ .error) (hvalid : (s.parse data).1 = false) (harrived : Arrived (s.parse data).2)
    (hdocument : a.document = some none) : Kept s (s.handleReadWebhdfsResponse ec data a) := by
  obtain ⟨hheaders, hcode, hmessage⟩ := harrived
  rw [handleReadWebhdfsResponse_eq hec, if_neg (by simp [hvalid]), if_pos hheaders,
    if_neg (by rw [hcode]; decide), if_neg (by simp [hcode]), if_pos hmessage]
  exact (sendPage_kept hdocument _).of_eq ⟨⟨rfl, rfl, rfl⟩, rfl, rfl⟩

/-! ## One step -/

/-- What holds in every state of a connection. -/
structure Inv (s : Sys) : Prop where
  pending : s.pending.length ≤ 1
  sent : s.sent.length ≤ 1
  unanswered : ∀ op ∈ s.pending, op.isResponse = false → s.sent = []
  answered : ∀ op ∈ s.pending, op.isResponse = true → s.sent ≠ []
  accepted : ∀ op ∈ s.pending, op.isResponse = false → op ≠ .readRequest → s.accepted = true
  image : ∀ op ∈ s.pending, op.isUpstream = true → s.conn.image.isSome = true
  clientError : s.pending ≠ [] → s.clientError = false

theorem takeOp_singleton {β : Type} {f : Op → Option β} {op : Op} {r : β × List Op}
    (h : takeOp f [op] = some r) : f op = some r.1 ∧ r.2 = [] := by
  simp only [takeOp] at h
  cases hf : f op with
  | none => simp [hf] at h
  | some b =>
      rw [hf] at h
      cases h
      exact ⟨rfl, rfl⟩

/-- The operation that completes is the one outstanding. -/
theorem Inv.complete {s : Sys} (h : Inv s) {β : Type} {f : Op → Option β} {r : β × Sys}
    (hr : s.complete f = some r) :
    ∃ op, s.pending = [op] ∧ f op = some r.1 ∧ r.2 = { s with pending := [] } := by
  obtain ⟨r', hr', rfl⟩ := Option.map_eq_some_iff.1 hr
  match hpending : s.pending, h.pending with
  | [], _ => simp [hpending, takeOp] at hr'
  | [op], _ =>
      rw [hpending] at hr'
      obtain ⟨hf, hnil⟩ := takeOp_singleton hr'
      exact ⟨op, rfl, hf, by rw [hnil]⟩

/-- The event starts nothing, and it is not the client's or the task pool's doing: the server is not
found, cannot be connected to, or breaks off; or `DropsRequest`; or the file that arrived has no page. -/
def Drops (s : Sys) : Event → Prop
  | .readRequest ec data a =>
      ec ≠ .error ∧ (s.parse data).1 = false ∧
        (s.parse data).2.conn.parser.headersComplete = true ∧ DropsRequest a (s.parse data).2
  | .resolved endpoints => endpoints = none
  | .connected ok => ok = false ∧ .connect 0 ∈ s.pending
  | .wroteRequest ok => ok = false
  | .readResponse ec data a =>
      ec = .error ∨ ((s.parse data).1 = false ∧ Arrived (s.parse data).2 ∧ a.document = some none)
  | _ => False

/-- The ways in which an event leads from `s` to `s'`. -/
inductive Turn (s : Sys) (e : Event) (s' : Sys) : Prop where
  | aside (dropped : Dropped s s') (image : s'.conn.image = s.conn.image)
      (accepted : s'.accepted = s.accepted) (stopped : s.stopped = true → s'.stopped = true)
      (hdrops : ¬Drops s e)
  | continued (op : Op) (pending : s.pending = [op]) (hop : op.isResponse = false)
      (next : Continued { s with pending := [] } s') (hdrops : ¬Drops s e)
  | dropped (op : Op) (pending : s.pending = [op]) (hop : op.isResponse = false)
      (next : Kept { s with pending := [], accepted := true } s') (hdrops : Drops s e)
  | ended (op : Op) (pending : s.pending = [op]) (hop : op.isResponse = false)
      (next : s'.pending = []) (sent : s'.sent = s.sent)
      (why : s'.clientError = true ∨ s'.stopped = true) (hdrops : ¬Drops s e)
  | written (op : Op) (pending : s.pending = [op]) (hop : op.isResponse = true)
      (next : s'.pending = [] ∨
        (∃ data, s'.pending = [.writeResponse data]) ∧ s'.clientError = s.clientError)
      (sent : s'.sent = s.sent) (hdrops : ¬Drops s e)

theorem Inv.complete_event {s : Sys} (h : Inv s) {β : Type} {f : Op → Option β}
    {g : β × Sys → Sys} {s' : Sys} (hstep : (s.complete f).map g = some s') :
    ∃ op b, s.pending = [op] ∧ f op = some b ∧ s' = g (b, { s with pending := [] }) := by
  obtain ⟨r, hr, rfl⟩ := Option.map_eq_some_iff.1 hstep
  obtain ⟨op, hpending, hop, hs⟩ := h.complete hr
  exact ⟨op, r.1, hpending, hop, by rw [← hs]⟩

theorem readRequest_turn {s s' : Sys} {ec : Outcome} {data : Bytes} {a : Answers} (h : Inv s)
    (hstep : step s (.readRequest ec data a) = some s') : Turn s (.readRequest ec data a) s' := by
  simp only [step] at hstep
  split at hstep
  · obtain ⟨op, b, hpending, hop, rfl⟩ := h.complete_event hstep
    split at hop
    · next hread =>
        subst hread
        by_cases hec : ec = .error
        · subst hec
          exact .ended .readRequest hpending rfl rfl rfl (Or.inl rfl) fun h => h.1 rfl
        · by_cases hdrops : Drops s (.readRequest ec data a)
          · obtain ⟨-, hvalid, hheaders, hrequest⟩ := id hdrops
            exact .dropped .readRequest hpending rfl
              (handleReadRequest_kept (s := { s with pending := [] }) hec hvalid hheaders hrequest)
              hdrops
          · rcases handleReadRequest_continued ec data a { s with pending := [] } hec with hnext | hd
            · exact .continued .readRequest hpending rfl hnext hdrops
            · exact absurd ⟨hec, hd⟩ hdrops
    · exact absurd hop (by simp)
  · exact absurd hstep (by simp)

theorem readResponse_turn {s s' : Sys} {ec : Outcome} {data : Bytes} {a : Answers} (h : Inv s)
    (hstep : step s (.readResponse ec data a) = some s') : Turn s (.readResponse ec data a) s' := by
  simp only [step] at hstep
  split at hstep
  · obtain ⟨op, b, hpending, hop, rfl⟩ := h.complete_event hstep
    split at hop
    · next hread =>
        subst hread
        have haccepted : s.accepted = true := h.accepted .readResponse (by simp [hpending]) rfl (by simp)
        have himage : s.conn.image.isSome = true := h.image .readResponse (by simp [hpending]) rfl
        by_cases hec : ec = .error
        · subst hec
          exact .dropped .readResponse hpending rfl ⟨⟨rfl, rfl, rfl⟩, haccepted, rfl⟩ (Or.inl rfl)
        · by_cases hdrops : Drops s (.readResponse ec data a)
          · obtain ⟨hvalid, harrived, hdocument⟩ := hdrops.resolve_left hec
            have hkept := handleReadWebhdfsResponse_kept (s := { s with pending := [] })
              hec hvalid harrived hdocument
            exact .dropped .readResponse hpending rfl
              (hkept.of_eq ⟨⟨rfl, rfl, rfl⟩, haccepted, rfl⟩) hdrops
          · rcases handleReadWebhdfsResponse_continued ec data a { s with pending := [] } hec
              haccepted himage with hnext | hd
            · exact .continued .readResponse hpending rfl hnext hdrops
            · exact absurd (Or.inr hd) hdrops
    · exact absurd hop (by simp)
  · exact absurd hstep (by simp)

theorem step_turn {s s' : Sys} {e : Event} (h : Inv s) (hstep : step s e = some s') :
    Turn s e s' := by
  have haccepted : ∀ op, s.pending = [op] → op.isUpstream = true → s.accepted = true :=
    fun op hpending hop => h.accepted op (by simp [hpending])
      (by cases op <;> simp_all [Op.isUpstream, Op.isResponse])
      (by rintro rfl; exact absurd hop (by simp [Op.isUpstream]))
  have himage : ∀ op, s.pending = [op] → op.isUpstream = true → s.conn.image.isSome = true :=
    fun op hpending => h.image op (by simp [hpending])
  cases e with
  | readRequest ec data a => exact readRequest_turn h hstep
  | resolved endpoints =>
      obtain ⟨op, b, hpending, hop, rfl⟩ := h.complete_event hstep
      cases op <;> simp at hop
      cases endpoints with
      | none =>
          exact .dropped _ hpending rfl ⟨⟨rfl, rfl, rfl⟩, haccepted _ hpending rfl, rfl⟩ rfl
      | some n =>
          exact .continued _ hpending rfl (handleResolve_continued n { s with pending := [] }
            (haccepted _ hpending rfl) (himage _ hpending rfl)) fun h => absurd h (by simp [Drops])
  | connected ok =>
      obtain ⟨op, b, hpending, hop, rfl⟩ := h.complete_event hstep
      obtain ⟨rfl⟩ : op = .connect b := by cases op <;> simp_all
      by_cases hdrops : Drops s (.connected ok)
      · obtain ⟨rfl, hlast⟩ := id hdrops
        simp only [hpending, List.mem_singleton, Op.connect.injEq] at hlast
        subst hlast
        exact .dropped _ hpending rfl ⟨⟨rfl, rfl, rfl⟩, haccepted _ hpending rfl, rfl⟩ hdrops
      · rcases handleConnect_continued ok b { s with pending := [] }
          (haccepted _ hpending rfl) (himage _ hpending rfl) with hnext | ⟨hfailed, hlast⟩
        · exact .continued _ hpending rfl hnext hdrops
        · exact absurd ⟨hfailed, by simp [hpending, hlast]⟩ hdrops
  | wroteRequest ok =>
      obtain ⟨op, b, hpending, hop, rfl⟩ := h.complete_event hstep
      cases op <;> simp at hop
      cases ok with
      | true =>
          exact .continued _ hpending rfl (handleWriteRequest_continued { s with pending := [] }
            (haccepted _ hpending rfl) (himage _ hpending rfl)) fun h => absurd h (by simp [Drops])
      | false =>
          exact .dropped _ hpending rfl ⟨⟨rfl, rfl, rfl⟩, haccepted _ hpending rfl, rfl⟩ rfl
  | readResponse ec data a => exact readResponse_turn h hstep
  | rendered pieces ok =>
      obtain ⟨op, out, hpending, hop, rfl⟩ := h.complete_event hstep
      cases op <;> simp at hop
      exact .continued _ hpending rfl
        (handleRendered_continued pieces ok out { s with pending := [] }) fun h => h
  | wroteResponse ok =>
      obtain ⟨op, b, hpending, hop, rfl⟩ := h.complete_event hstep
      cases op <;> simp at hop
      obtain ⟨hnext, hsent, hclient⟩ := handleWriteResponse_pending ok { s with pending := [] }
      refine .written _ hpending rfl (hnext.imp_right fun ⟨data, hdata⟩ => ⟨⟨data, hdata⟩, ?_⟩) hsent
        fun h => h
      exact hclient (by rw [hdata]; simp)
  | stop =>
      cases hstep
      exact .aside ⟨rfl, rfl, rfl⟩ rfl rfl (fun _ => rfl) fun h => h
  | abandoned =>
      simp only [step] at hstep
      split at hstep
      · next hstopped =>
          obtain ⟨op, b, hpending, hop, rfl⟩ := h.complete_event hstep
          cases op <;> simp at hop
          exact .ended _ hpending rfl rfl rfl (Or.inr hstopped) fun h => h
      · exact absurd hstep (by simp)
  | others cache =>
      cases hstep
      exact .aside ⟨rfl, rfl, rfl⟩ rfl rfl id fun h => h

/-! ## Whole runs -/

theorem Continued.inv {s s' : Sys} (h : Inv s) {op : Op} (hpending : s.pending = [op])
    (hop : op.isResponse = false) (hnext : Continued { s with pending := [] } s') : Inv s' := by
  have hsent : s.sent = [] := h.unanswered op (by simp [hpending]) hop
  have hclient : s.clientError = false := h.clientError (by simp [hpending])
  cases hnext with
  | started op' hop' pending sent clientError accepted image =>
      have honly : ∀ op'' ∈ s'.pending, op'' = op' := by simp [pending]
      have hnone : s'.sent = [] := sent.trans hsent
      exact {
        pending := by simp [pending]
        sent := by simp [hnone]
        unanswered := fun _ _ _ => hnone
        answered := fun op'' hmem hresponse => by
          rw [honly op'' hmem, hop'] at hresponse
          exact absurd hresponse (by simp)
        accepted := fun op'' hmem _ hread => accepted (honly op'' hmem ▸ hread)
        image := fun op'' hmem hupstream => image (honly op'' hmem ▸ hupstream)
        clientError := fun _ => clientError.trans hclient }
  | answered data code pending sent clientError =>
      have honly : ∀ op'' ∈ s'.pending, op'' = .writeResponse data := by simp [pending]
      exact {
        pending := by simp [pending]
        sent := by simp [sent, hsent]
        unanswered := fun op'' hmem hresponse => by
          rw [honly op'' hmem] at hresponse
          exact absurd hresponse (by simp [Op.isResponse])
        answered := fun _ _ _ => by simp [sent]
        accepted := fun op'' hmem hresponse _ => by
          rw [honly op'' hmem] at hresponse
          exact absurd hresponse (by simp [Op.isResponse])
        image := fun op'' hmem hupstream => by
          rw [honly op'' hmem] at hupstream
          exact absurd hupstream (by simp [Op.isUpstream])
        clientError := fun _ => clientError.trans hclient }

theorem inv_of_no_pending {s : Sys} (hpending : s.pending = []) (hsent : s.sent.length ≤ 1) :
    Inv s :=
  ⟨by simp [hpending], hsent, by simp [hpending], by simp [hpending], by simp [hpending],
    by simp [hpending], by simp [hpending]⟩

theorem step_inv (s : Sys) (e : Event) (s' : Sys) (h : Inv s) (hstep : step s e = some s') :
    Inv s' := by
  cases step_turn h hstep with
  | aside dropped image accepted stopped hdrops =>
      obtain ⟨hpending, hsent, hclient⟩ := dropped
      exact {
        pending := hpending ▸ h.pending
        sent := hsent ▸ h.sent
        unanswered := hpending ▸ hsent ▸ h.unanswered
        answered := hpending ▸ hsent ▸ h.answered
        accepted := hpending ▸ accepted ▸ h.accepted
        image := by rw [hpending, image]; exact h.image
        clientError := hpending ▸ hclient ▸ h.clientError }
  | continued op pending hop next hdrops => exact Continued.inv h pending hop next
  | dropped op pending hop next hdrops => exact inv_of_no_pending next.pending (next.sent ▸ h.sent)
  | ended op pending hop next sent why hdrops => exact inv_of_no_pending next (sent ▸ h.sent)
  | written op pending hop next sent hdrops =>
      have hanswered : s.sent ≠ [] := h.answered op (by simp [pending]) hop
      have hclient : s.clientError = false := h.clientError (by simp [pending])
      rcases next with hnil | ⟨⟨data, hdata⟩, hsame⟩
      · exact inv_of_no_pending hnil (sent ▸ h.sent)
      · exact {
          pending := by simp [hdata]
          sent := sent ▸ h.sent
          unanswered := by simp [hdata, Op.isResponse]
          answered := fun _ _ _ => sent ▸ hanswered
          accepted := by simp [hdata, Op.isResponse]
          image := by simp [hdata, Op.isUpstream]
          clientError := fun _ => hsame.trans hclient }

section

variable {host port : Bytes} {buffer : Buffer} {streams : Streams} {nextStream : StreamId}
  {cache : ImageCache Bytes StreamId} {pixfmts : List ℕ}

theorem inv_init : Inv (init host port buffer streams nextStream cache pixfmts) where
  pending := Nat.le_refl 1
  sent := Nat.zero_le 1
  unanswered := fun _ _ _ => rfl
  answered := by simp [init, Op.isResponse]
  accepted := by simp [init]
  image := by simp [init, Op.isUpstream]
  clientError := fun _ => rfl

/-- **Whatever completes, in whatever order and with whatever outcome, at most one operation of the
connection is outstanding, and at most one response is ever started.** -/
theorem atMostOne_of_reachable {s : Sys}
    (h : StepSystem.Reachable step (init host port buffer streams nextStream cache pixfmts) s) :
    s.pending.length ≤ 1 ∧ s.sent.length ≤ 1 :=
  have h := h.invariant step_inv inv_init
  ⟨h.pending, h.sent⟩

/-- The server redirects the request, and the other server does not have the file. -/
def redirectRun : List Event :=
  [.readRequest .success (lit "GET /a HTTP/1.1\x0d\n\x0d\n") exampleAnswers, .resolved (some 0),
    .connected true, .wroteRequest true,
    .readResponse .success (lit "HTTP/1.1 307 Moved\x0d\nLocation: http://b:80/a\x0d\n\x0d\n")
      exampleAnswers,
    .resolved (some 0), .connected true, .wroteRequest true,
    .readResponse .success (lit "HTTP/1.1 404 Not Found\x0d\n\x0d\n") exampleAnswers]

theorem atMostOne_redirectRun :
    ∃ s : Sys, StepSystem.run step exampleInit redirectRun = some s ∧ s.conn.host = lit "b" ∧
      s.sent = [404] ∧ s.pending.length ≤ 1 ∧ s.sent.length ≤ 1 := by
  have hredirected : (StepSystem.run step exampleInit redirectRun).map
      (fun s => (s.conn.host, s.sent)) = some (lit "b", [404]) := by decide +kernel
  obtain ⟨s, hrun, hs⟩ := Option.map_eq_some_iff.1 hredirected
  obtain ⟨hhost, hsent⟩ := Prod.ext_iff.1 hs
  exact ⟨s, hrun, hhost, hsent, atMostOne_of_reachable ⟨redirectRun, hrun⟩⟩

/-! ## Dropped requests -/

/-- The request has been answered, unless something is still to complete, or the client or the task
pool has given up. -/
def Answered (s : Sys) : Prop :=
  s.accepted = true → s.pending = [] → s.clientError = false → s.stopped = false → s.sent ≠ []

/-- The event does not drop the request, if it happens before `Stop`. -/
def KeepsRequest (s : Sys) (e : Event) : Prop :=
  s.stopped = false → (step s e).isSome = true → ¬Drops s e

theorem step_answered (s : Sys) (e : Event) (s' : Sys) (h : Inv s ∧ Answered s)
    (hkeeps : KeepsRequest s e) (hstep : step s e = some s') : Inv s' ∧ Answered s' := by
  refine ⟨step_inv s e s' h.1 hstep, fun haccepted hpending hclient hstopped => ?_⟩
  cases step_turn h.1 hstep with
  | aside dropped image accepted stopped hdrops =>
      rw [dropped.sent]
      refine h.2 (accepted ▸ haccepted) (dropped.pending ▸ hpending) (dropped.clientError ▸ hclient) ?_
      by_contra hs
      exact absurd (stopped (by simpa using hs)) (by simp [hstopped])
  | continued op pending hop next hdrops =>
      cases next with
      | started op' hop' pending' => simp [hpending] at pending'
      | answered data code pending' => simp [hpending] at pending'
  | dropped op pending hop next hdrops =>
      exact absurd hdrops (hkeeps (next.stopped.symm.trans hstopped) (by simp [hstep]))
  | ended op pending hop next sent why hdrops =>
      rcases why with why | why
      · exact absurd why (by simp [hclient])
      · exact absurd why (by simp [hstopped])
  | written op pending hop next sent hdrops =>
      rw [sent]
      exact h.1.answered op (by simp [pending]) hop

theorem not_answered_of_drops {s s' : Sys} {e : Event} (h : Inv s) (hstopped : s.stopped = false)
    (hstep : step s e = some s') (hdrops : Drops s e) : ¬Answered s' := by
  cases step_turn h hstep with
  | aside dropped image accepted stopped hkeeps => exact absurd hdrops hkeeps
  | continued op pending hop next hkeeps => exact absurd hdrops hkeeps
  | dropped op pending hop next _ =>
      intro hanswered
      exact hanswered next.accepted next.pending
        (next.clientError.trans (h.clientError (by simp [pending]))) (next.stopped.trans hstopped)
        (next.sent.trans (h.unanswered op (by simp [pending]) hop))
  | ended op pending hop next sent why hkeeps => exact absurd hdrops hkeeps
  | written op pending hop next sent hkeeps => exact absurd hdrops hkeeps

theorem everyStep_keepsRequest {s : Sys} {es : List Event} (hinv : Inv s)
    (h : StepSystem.EveryState step Answered s es) :
    StepSystem.EveryStep step KeepsRequest s es := by
  induction es generalizing s with
  | nil => trivial
  | cons e es ih =>
      refine ⟨fun hstopped hsome hdrops => ?_, fun s' he => ih (step_inv s e s' hinv he) (h.2 s' he)⟩
      obtain ⟨s', hs'⟩ := Option.isSome_iff_exists.1 hsome
      exact not_answered_of_drops hinv hstopped hs' hdrops (h.2 s' hs').head

/-- **A run leaves an accepted request without a response exactly when one of its steps drops it.** -/
theorem everyState_answered_iff (es : List Event) :
    StepSystem.EveryState step Answered
        (init host port buffer streams nextStream cache pixfmts) es ↔
      StepSystem.EveryStep step KeepsRequest
        (init host port buffer streams nextStream cache pixfmts) es := by
  constructor
  · exact everyStep_keepsRequest inv_init
  · intro h
    exact (StepSystem.EveryState.of_steps step_answered
      ⟨inv_init, fun haccepted => absurd haccepted (by simp [init])⟩ h).mono fun s h => h.2

/-- The name of the server cannot be resolved. -/
def unresolvedRun : List Event :=
  [.readRequest .success (lit "GET /a HTTP/1.1\x0d\n\x0d\n") exampleAnswers, .resolved none]

theorem not_answered_unresolvedRun :
    ∃ s : Sys, StepSystem.run step exampleInit unresolvedRun = some s ∧ ¬Answered s :=
  ⟨_, rfl, fun h => h rfl rfl rfl rfl rfl⟩

end

end Sys

end ImageProxy
