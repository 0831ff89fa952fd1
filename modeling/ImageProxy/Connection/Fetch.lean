import ImageProxy.Connection.Redirect
import ImageProxy.Connection.Request

set_option autoImplicit false

/-! # Fetching a file through redirects

One stream serves all the hops of a fetch. The body of a redirect goes there as well, as far as it
comes in one read with the end of the head, and `SendRequest` rewinds the stream without emptying it.
A stream takes data at its end only, so what it gets first is what it keeps. -/

namespace ImageProxy

open Ascii Cpcl Http

namespace Sys

/-! ## A connection that is about to ask -/

/-- The image at `path` is being fetched from the server. The answer goes to `image`, which is at its
beginning and has `content`. -/
structure Fetching (path : Bytes) (image : StreamId) (cache : ImageCache Bytes StreamId)
    (content : Bytes) (s : Sys) : Prop where
  pending : ∃ host port, s.pending = [.resolve host port]
  image_eq : s.conn.image = some image
  target : s.conn.parser.content = some image
  imagePath : s.conn.imagePath = path
  content_eq : (s.streams image).content = content
  rewound : (s.streams image).pOffset = 0
  allocated : image < s.nextStream
  cache_eq : s.cache = cache
  documents : s.documents = []

/-- The request is written. -/
structure Asked (path : Bytes) (image : StreamId) (cache : ImageCache Bytes StreamId)
    (content : Bytes) (t : Sys) : Prop extends Awaiting image t where
  imagePath : t.conn.imagePath = path
  content_eq : (t.streams image).content = content
  rewound : (t.streams image).pOffset = 0
  allocated : image < t.nextStream
  cache_eq : t.cache = cache
  documents : t.documents = []

/-- The completions that lead to a request, with the endpoints that could not be connected. -/
def connectEvents (endpoints failed : ℕ) : List Event :=
  .resolved (some endpoints) :: List.replicate failed (.connected false)
    ++ [.connected true, .wroteRequest true]

variable {path : Bytes} {image : StreamId} {cache : ImageCache Bytes StreamId} {content : Bytes}
  {s t : Sys}

theorem run_failed (s : Sys) {endpoints failed : ℕ}
    (hle : failed ≤ endpoints) :
    StepSystem.run step (s.start (.connect endpoints)) (List.replicate failed (.connected false))
      = some (s.start (.connect (endpoints - failed))) := by
  induction failed generalizing endpoints with
  | zero => rfl
  | succ failed ih =>
      obtain ⟨n, rfl⟩ : ∃ n, endpoints = n + 1 := ⟨endpoints - 1, by omega⟩
      have hstep : step (s.start (.connect (n + 1))) (.connected false)
          = some (s.start (.connect n)) := by
        simp only [step, complete, start, takeOp, Option.map_some, handleConnect,
          Bool.false_eq_true, if_false]
      rw [List.replicate_succ, StepSystem.run_cons, hstep, Option.bind_some, ih (by omega)]
      congr 3
      omega

theorem Fetching.run_connect (h : Fetching path image cache content s) {endpoints failed : ℕ}
    (hle : failed ≤ endpoints) :
    ∃ t, StepSystem.run step s (connectEvents endpoints failed) = some (t.start .readResponse) ∧
      Asked path image cache content t := by
  obtain ⟨host, port, hpending⟩ := h.pending
  have hresolved : step s (.resolved (some endpoints)) = some (s.quiet.start (.connect endpoints)) := by
    simp only [step, complete, hpending, takeOp, Option.map_some, handleResolve]
    rfl
  have hconnected : ∀ n, step (s.quiet.start (.connect n)) (.connected true)
      = some ((s.quiet.modify fun c => { c with
          buffer := c.buffer.fill (buildRequest s.conn.host s.conn.webhdfsPath) }).start
            (.writeRequest (buildRequest s.conn.host s.conn.webhdfsPath))) := fun n => by
    simp only [step, complete, start, takeOp, Option.map_some, handleConnect, if_true]
    rfl
  rw [connectEvents, List.cons_append, StepSystem.run_cons, hresolved, Option.bind_some,
    StepSystem.run_append, run_failed s.quiet hle, Option.bind_some, StepSystem.run_cons,
    hconnected]
  generalize buildRequest s.conn.host s.conn.webhdfsPath = text
  refine ⟨(s.quiet.modify fun c => { c with buffer := c.buffer.fill text }).modify
    fun c => { c with parser := c.parser.reset false }, rfl, ?_⟩
  exact
    { idle := rfl
      image_eq := h.image_eq
      parser := ⟨s.conn.parser, h.target, rfl⟩
      imagePath := h.imagePath
      content_eq := h.content_eq
      rewound := h.rewound
      allocated := h.allocated
      cache_eq := h.cache_eq
      documents := h.documents }

/-! ## A hop -/

/-- What a stream at its beginning has after a body was written to it: an empty one takes it. -/
def keepFirst (content body : Bytes) : Bytes := if content = [] then body else content

theorem contentAfter_rewound {stream : DynamicMemoryStream} (h : stream.pOffset = 0) (body : Bytes) :
    contentAfter stream body = keepFirst stream.content body := by
  have hlen := stream.length_content
  rw [contentAfter, keepFirst, h]
  split_ifs with hsize hnil hnil
  · rw [hnil, List.nil_append]
  · exact absurd (List.length_eq_zero_iff.1 (hlen.trans hsize.symm)) hnil
  · exact absurd (by rw [← hlen, hnil]; rfl) hsize
  · rfl

/-- A request that is answered with a redirect: the endpoints that were tried, and the reads. -/
structure Hop where
  endpoints : ℕ
  failed : ℕ
  reads : List Bytes
  last : Bytes
  ec : Outcome
  answers : Answers
  result : Parser × Log

/-- Its completions. -/
def Hop.events (hop : Hop) : List Event :=
  connectEvents hop.endpoints hop.failed ++ readEvents hop.answers hop.ec hop.reads hop.last

/-- What comes of its body in one read with the end of its head. -/
def Hop.body (hop : Hop) : Bytes := hop.result.2.body

/-- The redirect has a location that can be followed. -/
def Usable (l : Log) : Prop :=
  ∃ uri, l.keptHeader (lit "Location") = some uri ∧ Located uri ∧
    stringEqualsIgnoreCaseASCII (stripPrefix ((httpParserParseUrl uri).2.piece .path uri))
      (lit "/favicon.ico") = false

structure Hop.Valid (hop : Hop) : Prop extends RedirectIn hop.reads hop.last hop.result where
  failed_le : hop.failed ≤ hop.endpoints
  ec_ne : hop.ec ≠ .error
  single : hop.result.2.single = true
  usable : Usable hop.result.2

theorem locate_webhdfsPath {uri : Bytes} (hlocated : Located uri) (s : Sys) :
    (s.locate uri).conn.webhdfsPath = stripPrefix ((httpParserParseUrl uri).2.piece .path uri) := by
  simp only [locate, Connection.setLocation, hlocated.1, hlocated.2, if_true]

theorem setLocation_frame (uri : Bytes) (c : Connection) :
    (c.setLocation uri).2.parser = c.parser ∧ (c.setLocation uri).2.imagePath = c.imagePath := by
  simp only [Connection.setLocation]
  split_ifs <;> exact ⟨rfl, rfl⟩

/-- A redirect that can be followed leads to the next request, for the same image. -/
theorem Asked.redirect (h : Asked path image cache content t) {q : Parser × Log} {t' : Sys}
    (hreading : Reading t image q.1 q.2 t') (hcomplete : q.2.headersComplete = true)
    (hsingle : q.2.single = true) (husable : Usable q.2) (a : Answers) :
    Fetching path image cache (keepFirst content q.2.body) (t'.redirect a) := by
  obtain ⟨uri, hkept, hlocated, hfavicon⟩ := husable
  have himage : (t'.locate uri).conn.image = some image :=
    (setLocation_image _ _).trans (hreading.image_eq.trans h.image_eq)
  have hcontent := hreading.content
  rw [contentAfter_rewound h.rewound, h.content_eq] at hcontent
  have htarget : t'.conn.parser.content = some image := hreading.agrees.content
  have hidle := hreading.idle h.idle
  rw [hreading.redirect hcomplete hsingle, hkept]
  simp only [if_pos hlocated]
  rw [locate_webhdfsPath hlocated, sendRequest_eq himage hfavicon]
  obtain ⟨⟨parser, buffer, streams, rfl⟩, -, -⟩ := hreading
  obtain ⟨hparser, hpath⟩ := setLocation_frame uri { t.conn with parser := parser, buffer := buffer }
  exact
    { pending := ⟨_, _, congrArg (_ :: ·) hidle⟩
      image_eq := himage
      target := himage
      imagePath := hpath.trans h.imagePath
      content_eq := by
        simp only [resolve, start, modify, seek, putStream, Function.update_self,
          DynamicMemoryStream.content_seek]
        exact hcontent
      rewound := by
        simp only [resolve, start, modify, seek, putStream, Function.update_self,
          DynamicMemoryStream.seek_zero]
      allocated := h.allocated
      cache_eq := h.cache_eq
      documents := h.documents }

/-- One hop. -/
theorem Fetching.hop (h : Fetching path image cache content s) {hop : Hop} (hhop : hop.Valid) :
    ∃ s', StepSystem.run step s hop.events = some s' ∧
      Fetching path image cache (keepFirst content hop.body) s' := by
  obtain ⟨t, ht, hasked⟩ := h.run_connect hhop.failed_le
  obtain ⟨t', hreading, ht'⟩ := hhop.toRedirectIn.run hasked.toAwaiting hhop.ec_ne hop.answers
  refine ⟨t'.redirect hop.answers, ?_, hasked.redirect hreading hhop.headersComplete hhop.single
    hhop.usable hop.answers⟩
  rw [Hop.events, StepSystem.run_append, ht]
  exact ht'

/-- Any number of hops. -/
theorem Fetching.run_hops (h : Fetching path image cache content s) (hops : List Hop)
    (hhops : ∀ hop ∈ hops, hop.Valid) :
    ∃ s', StepSystem.run step s (hops.flatMap Hop.events) = some s' ∧
      Fetching path image cache (hops.foldl (fun c hop => keepFirst c hop.body) content) s' := by
  induction hops generalizing s content with
  | nil => exact ⟨s, rfl, h⟩
  | cons hop hops ih =>
      obtain ⟨t, ht, hnext⟩ := h.hop (hhops hop (by simp))
      obtain ⟨s', hs', hfetching⟩ := ih hnext fun hop' h' => hhops hop' (by simp [h'])
      refine ⟨s', ?_, hfetching⟩
      rw [List.flatMap_cons, StepSystem.run_append, ht]
      exact hs'

/-! ## The file -/

/-- `reads` and then `last` bring the file, which is complete in `last`. -/
structure FileIn (reads : List Bytes) (last : Bytes) (q : Parser × Log) : Prop where
  length : ∀ read ∈ reads ++ [last], read.length ≤ bufferSize
  waiting : ∀ x y, reads.flatten = x ++ y →
    ∀ r, Http.run Log.recorder (Parser.init .response) Log.empty x = some r → r.2.Waiting
  whole : Http.run Log.recorder (Parser.init .response) Log.empty (reads.flatten ++ last) = some q
  arrived : q.2.Arrived

theorem exists_lastRead {reads : List Bytes} (h : reads.flatten ≠ []) :
    ∃ before last after, reads = before ++ last :: after ∧ last ≠ [] ∧ after.flatten = [] := by
  induction reads with
  | nil => exact absurd rfl h
  | cons read reads ih =>
      by_cases hrest : reads.flatten = []
      · rw [List.flatten_cons, hrest, List.append_nil] at h
        exact ⟨[], read, reads, rfl, h, hrest⟩
      · obtain ⟨before, last, after, rfl, hlast, hafter⟩ := ih hrest
        exact ⟨read :: before, last, after, rfl, hlast, hafter⟩

/-- However a complete response with a length or in chunks is cut, there are such reads. -/
theorem exists_fileIn {H D : Bytes} {p : Parser} {l₀ l : Log} (h : Complete200 H D p l₀ l)
    (hupgrade : p.wantsUpgrade = false) (hframed : p.messageNeedsEof = false) {reads : List Bytes}
    (hreads : reads.flatten = H ++ LF :: D) (hlen : ∀ read ∈ reads, read.length ≤ bufferSize) :
    ∃ before last after q, reads = before ++ last :: after ∧ after.flatten = [] ∧
      FileIn before last (q, l) := by
  have hopen := h.staysOpen hupgrade
  obtain ⟨q, hq⟩ := h.run_whole hupgrade
  rw [← hreads] at hopen hq
  obtain ⟨before, last, after, rfl, hlast, hafter⟩ := exists_lastRead
    (by simp [hreads] : reads.flatten ≠ [])
  rw [List.flatten_append, List.flatten_cons, hafter, List.append_nil] at hopen hq
  refine ⟨before, last, after, q, rfl, hafter, fun read hread => hlen read ?_, fun x y hxy r hr => ?_,
    hq, (h.ends.resolve_left (by simp [hframed])).1⟩
  · simp only [List.mem_append, List.mem_singleton] at hread
    rcases hread with hread | rfl <;> simp [*]
  · obtain ⟨r', hr', hwaiting⟩ := hopen x (y ++ last) (by rw [hxy, List.append_assoc]) (by simp [hlast])
    obtain rfl := Option.some.inj (hr.symm.trans hr')
    exact hwaiting

/-- The file is passed on in its last read. -/
theorem FileIn.run {reads : List Bytes} {last : Bytes} {q : Parser × Log} (hin : FileIn reads last q)
    (h : Awaiting image t) {ec : Outcome} (hec : ec ≠ .error) (a : Answers) :
    ∃ t', Reading t image q.1 q.2 t' ∧
      StepSystem.run step (t.start .readResponse) (readEvents a ec reads last)
        = some (t'.sendPage a) := by
  obtain ⟨t', hreading, hrun⟩ := run_readEvents h hin.length hin.waiting hin.whole hec a
  exact ⟨t', hreading, by rw [hrun, respond_arrived hin.arrived]⟩

/-- What is handed to `LoadDoc` is `body`, and that is what is put into the cache. -/
structure ServesFile (path : Bytes) (cache : ImageCache Bytes StreamId) (a : Answers) (body : Bytes)
    (s : Sys) : Prop where
  documents : s.documents = [body]
  cached : ∀ page, a.document = some (some page) → ∃ image,
    s.cache = cache.put a.putLocked path (some image) ∧ (s.streams image).content = body

theorem sendResponse_frame (code : ℤ) (s : Sys) :
    (s.sendResponse code).cache = s.cache ∧
      ∀ id, ((s.sendResponse code).streams id).content = (s.streams id).content := by
  have hseek : ∀ image id, ((s.seek image 0).streams id).content = (s.streams id).content := by
    intro image id
    by_cases hid : id = image
    · subst hid
      simp [seek, putStream]
    · simp [seek, putStream, hid]
  simp only [sendResponse]
  split_ifs
  · cases s.conn.image with
    | none => exact ⟨rfl, fun _ => rfl⟩
    | some image =>
        simp only
        split_ifs <;> exact ⟨rfl, hseek image⟩
  · exact ⟨rfl, fun _ => rfl⟩

theorem showPage_frame (a : Answers) (page : PageInfo) (s : Sys) :
    (s.showPage a page).cache = s.cache ∧ ∀ id, id < s.nextStream →
      ((s.showPage a page).streams id).content = (s.streams id).content := by
  have hnew : ∀ id, id < s.nextStream → s.newStream.2.streams id = s.streams id := fun id hid => by
    simp [newStream, putStream, Nat.ne_of_lt hid]
  simp only [showPage]
  split_ifs
  · obtain ⟨hcache, hcontent⟩ := sendResponse_frame 200
      (s.modify fun c => { c with page := page, image := none })
    exact ⟨hcache, fun id _ => hcontent id⟩
  · exact ⟨rfl, fun id hid => congrArg DynamicMemoryStream.content (hnew id hid)⟩
  · obtain ⟨hcache, hcontent⟩ := sendResponse_frame 500
      (s.newStream.2.modify fun c => { c with image := some s.newStream.1 })
    exact ⟨hcache, fun id hid =>
      (hcontent id).trans (congrArg DynamicMemoryStream.content (hnew id hid))⟩

/-- `SendPage` with the last read of the file. -/
theorem Asked.sendPage (h : Asked path image cache content t) {q : Parser × Log} {t' : Sys}
    (hreading : Reading t image q.1 q.2 t') (a : Answers) :
    ServesFile path cache a (keepFirst content q.2.body) (t'.sendPage a) := by
  have hcontent := hreading.content
  rw [contentAfter_rewound h.rewound, h.content_eq] at hcontent
  refine ⟨?_, fun page hpage => ⟨image, ?_⟩⟩
  · rw [Sys.sendPage_documents a (hreading.image_eq.trans h.image_eq), hreading.documents_eq,
      h.documents, hcontent]
    rfl
  · obtain ⟨⟨parser, buffer, streams, rfl⟩, -, -⟩ := hreading
    simp only [Sys.sendPage, h.image_eq, hpage]
    obtain ⟨hcache, hstreams⟩ := showPage_frame a page (((({ t with
      conn := { t.conn with parser := parser, buffer := buffer }
      streams := streams } : Sys).seek image 0).loadDoc a image).putImage a image)
    refine ⟨hcache.trans ?_, (hstreams image h.allocated).trans ?_⟩
    · simp only [putImage, loadDoc, seek, putStream]
      rw [h.cache_eq, h.imagePath]
    · simp only [putImage, loadDoc, seek, putStream, Function.update_self,
        DynamicMemoryStream.content_seek]
      exact hcontent

/-! ## From the request of the client -/

/-- `reads` and then `last` bring a request that goes on to the server or the cache. -/
structure ClientRequest (reads : List Bytes) (last : Bytes) (q : Parser × Log) (query : Query) : Prop
    extends HeadIn .request reads last q where
  query_eq : Query.get q.2.url = some query
  goesOn : GoesOn q.1 query
  notFavicon : stringEqualsIgnoreCaseASCII query.requestPath (lit "/favicon.ico") = false

theorem get_miss {K V : Type} [DecidableEq K] {c : ImageCache K V} {locked : Bool} {fresh : V} {k : K}
    (h : (c.get locked fresh k).2 = false) : c.get locked fresh k = (fresh, false) := by
  simp only [ImageCache.get] at h ⊢
  cases locked with
  | false => rfl
  | true => cases hlookup : c.map.lookup k with
    | none => rfl
    | some v => simp [hlookup] at h

/-- A miss allocates the stream. -/
theorem sendRequest_miss {s : Sys} (himage : s.conn.image = none)
    (hpath : stringEqualsIgnoreCaseASCII path (lit "/favicon.ico") = false) {a : Answers}
    (hmiss : (s.cache.get a.getLocked s.nextStream path).2 = false) :
    s.sendRequest a path = (({ s with requested := s.requested ++ [path] } : Sys).newStream.2.modify
      fun c => { c with
        webhdfsPath := path, imagePath := path, image := some s.nextStream }).resolve := by
  simp only [sendRequest, hpath, Bool.false_eq_true, if_false, fetchImage, modify, himage, getImage,
    newStream, putStream]
  rw [get_miss hmiss]
  rfl

/-- A request for a file that is not in the cache. -/
theorem ClientRequest.fetching {reads : List Bytes} {last : Bytes} {q : Parser × Log} {query : Query}
    (h : ClientRequest reads last q query) {a : Answers} (host port : Bytes) (buffer : Buffer)
    (streams : Streams) (nextStream : StreamId) (pixfmts : List ℕ)
    (hmiss : (cache.get a.getLocked (nextStream + 1) query.requestPath).2 = false) :
    ∃ s, StepSystem.run step (init host port buffer streams nextStream cache pixfmts)
        (requestEvents a reads last) = some s ∧
      Fetching query.requestPath (nextStream + 1) cache [] s := by
  obtain ⟨r, hr, hincomplete, hlast⟩ := h.before
  obtain ⟨t, hrun, hreading⟩ := run_requestReads a reads
    (reading_init host port buffer streams nextStream cache pixfmts)
    (fun read hread => h.length read (by simp [hread])) hr hincomplete
  have hstart : (init host port buffer streams nextStream cache pixfmts).quiet.start .readRequest
      = init host port buffer streams nextStream cache pixfmts := rfl
  rw [hstart] at hrun
  have hlen : last.length ≤ bufferSize := h.length last (by simp)
  have hnext := hreading.handleReadRequest hlen (going_of_run hlast) a
  rw [hlast] at hnext
  obtain ⟨t', hreading', haccept⟩ := hnext
  rw [if_pos h.headersComplete] at haccept
  refine ⟨t'.acceptRequest a, ?_, ?_⟩
  · rw [requestEvents, StepSystem.run_append, hrun, Option.bind_some, StepSystem.run_cons,
      step_readRequest t hlen a, haccept]
    rfl
  have hurl : Query.get t'.conn.parser.url = some query := by
    have hagrees : t'.conn.parser.url = q.2.url := hreading'.agrees.url
    rw [hagrees, h.query_eq]
  have hgoes : GoesOn t'.conn.parser.parser query := by
    rw [hreading'.parser]
    exact h.goesOn
  rw [acceptRequest_goesOn hurl hgoes]
  obtain ⟨⟨parser, buffer', streams', rfl⟩, -, -⟩ := hreading'
  rw [sendRequest_miss (by rfl) h.notFavicon (by exact hmiss)]
  exact
    { pending := ⟨_, _, rfl⟩
      image_eq := rfl
      target := rfl
      imagePath := rfl
      content_eq := by simp [resolve, start, modify, newStream, putStream, init, quiet, withQuery]
      rewound := by simp [resolve, start, modify, newStream, putStream, init, quiet, withQuery]
      allocated := Nat.lt_succ_self _
      cache_eq := rfl
      documents := rfl }

/-! ## What is served in the end -/

/-- No redirect before the file has left anything else in the stream. -/
def NothingBefore (hops : List Hop) (body : Bytes) : Prop :=
  ∀ first, (hops.map Hop.body).find? (· ≠ []) = some first → first = body

theorem foldl_keepFirst (content : Bytes) (hops : List Hop) :
    hops.foldl (fun c hop => keepFirst c hop.body) content
      = keepFirst content (((hops.map Hop.body).find? (· ≠ [])).getD []) := by
  induction hops generalizing content with
  | nil =>
      rw [keepFirst]
      split_ifs with h <;> simp [h]
  | cons hop hops ih =>
      rw [List.foldl_cons, ih, List.map_cons]
      by_cases hcontent : content = []
      · by_cases hbody : hop.body = [] <;> simp [keepFirst, hcontent, hbody]
      · simp [keepFirst, hcontent]

theorem keepFirst_eq_iff (hops : List Hop) (body : Bytes) :
    keepFirst (hops.foldl (fun c hop => keepFirst c hop.body) []) body = body ↔
      NothingBefore hops body := by
  rw [foldl_keepFirst, NothingBefore]
  cases hfind : (hops.map Hop.body).find? (· ≠ []) with
  | none => simp [keepFirst]
  | some first =>
      have hne : first ≠ [] := by simpa using List.find?_some hfind
      simp [keepFirst, hne]

/-- **A file is served as it is exactly when no redirect on the way to it has left anything else in the
stream.** -/
theorem servesFile_iff {requestReads : List Bytes} {requestLast : Bytes} {request : Parser × Log}
    {query : Query} (hrequest : ClientRequest requestReads requestLast request query) {a₀ : Answers}
    (host port : Bytes) (buffer : Buffer) (streams : Streams) (nextStream : StreamId)
    (pixfmts : List ℕ)
    (hmiss : (cache.get a₀.getLocked (nextStream + 1) query.requestPath).2 = false)
    {hops : List Hop} (hhops : ∀ hop ∈ hops, hop.Valid) {endpoints failed : ℕ}
    (hfailed : failed ≤ endpoints) {H D : Bytes} {p : Parser} {l₀ l : Log}
    (hresponse : Complete200 H D p l₀ l) (hupgrade : p.wantsUpgrade = false)
    (hframed : p.messageNeedsEof = false) {reads : List Bytes}
    (hreads : reads.flatten = H ++ LF :: D) (hlen : ∀ read ∈ reads, read.length ≤ bufferSize)
    {ec : Outcome} (hec : ec ≠ .error) (a : Answers) :
    ∃ before last after s, reads = before ++ last :: after ∧ after.flatten = [] ∧
      StepSystem.run step (init host port buffer streams nextStream cache pixfmts)
        (requestEvents a₀ requestReads requestLast ++ (hops.flatMap Hop.events ++
          (connectEvents endpoints failed ++ readEvents a ec before last))) = some s ∧
      (ServesFile query.requestPath cache a l.body s ↔ NothingBefore hops l.body) := by
  obtain ⟨before, last, after, q, hsplit, hafter, hin⟩ :=
    exists_fileIn hresponse hupgrade hframed hreads hlen
  obtain ⟨s₁, hs₁, hfetching⟩ :=
    hrequest.fetching host port buffer streams nextStream pixfmts hmiss
  obtain ⟨s₂, hs₂, hfetching'⟩ := hfetching.run_hops hops hhops
  obtain ⟨t, ht, hasked⟩ := hfetching'.run_connect hfailed
  obtain ⟨t', hreading, ht'⟩ := hin.run hasked.toAwaiting hec a
  have hserves := hasked.sendPage hreading a
  refine ⟨before, last, after, t'.sendPage a, hsplit, hafter, ?_, ?_⟩
  · rw [StepSystem.run_append, hs₁, Option.bind_some, StepSystem.run_append, hs₂, Option.bind_some,
      StepSystem.run_append, ht]
    exact ht'
  · rw [← keepFirst_eq_iff]
    constructor
    · intro hfile
      have hdocuments := hserves.documents.symm.trans hfile.documents
      simpa using hdocuments
    · intro heq
      rwa [heq] at hserves

/-- What the parser makes of a response that comes in one read. -/
def resultOf (last : Bytes) : Parser × Log :=
  (Http.run Log.recorder (Parser.init .response) Log.empty last).getD
    (Parser.init .response, Log.empty)

/-- A redirect in one read. -/
def exampleHop (last : Bytes) : Hop := ⟨0, 0, [], last, .success, exampleAnswers, resultOf last⟩

theorem exampleHop_valid {last : Bytes} (uri : Bytes) (hlen : last.length ≤ bufferSize)
    (hwhole : Http.run Log.recorder (Parser.init .response) Log.empty last = some (resultOf last))
    (hhead : (resultOf last).2.headersComplete = true ∧
      (resultOf last).2.statusCode ∈ redirectStatusCodes ∧ (resultOf last).2.single = true)
    (hkept : (resultOf last).2.keptHeader (lit "Location") = some uri) (hlocated : Located uri)
    (hfavicon : stringEqualsIgnoreCaseASCII (stripPrefix ((httpParserParseUrl uri).2.piece .path uri))
      (lit "/favicon.ico") = false) : (exampleHop last).Valid where
  length := by simpa [exampleHop] using hlen
  head := fun q hq => by
    obtain rfl := Option.some.inj hq
    rfl
  whole := hwhole
  headersComplete := hhead.1
  status := hhead.2.1
  failed_le := Nat.le_refl 0
  ec_ne := by simp [exampleHop]
  single := hhead.2.2
  usable := ⟨uri, hkept, hlocated, hfavicon⟩

/-- A redirect with the body `no`. -/
def bodyRedirect : Bytes :=
  lit "HTTP/1.1 307 X\x0d\nLocation: http://h/webhdfs/v1/a\x0d\nContent-Length: 2\x0d\n\x0d\nno"

/-- The body of the redirect is served instead of the file. -/
theorem not_servesFile_bodyRedirect :
    (exampleHop bodyRedirect).Valid ∧
    ∃ p l₀ l s, Complete200 lengthHead (lit "hi") p l₀ l ∧ l.body = lit "hi" ∧
      StepSystem.run step exampleInit
        (requestEvents exampleAnswers [] (getHead ++ [LF]) ++
          ([exampleHop bodyRedirect].flatMap Hop.events ++
            (connectEvents 0 0 ++
              readEvents exampleAnswers .success [] (lengthHead ++ LF :: lit "hi")))) = some s ∧
      s.documents = [lit "no"] ∧
      ¬ServesFile (lit "/a") exampleInit.cache exampleAnswers (lit "hi") s := by
  refine ⟨exampleHop_valid (lit "http://h/webhdfs/v1/a") (by decide) (by decide +kernel)
    (by decide +kernel) (by decide +kernel) (by decide +kernel) (by decide +kernel), ?_⟩
  obtain ⟨p, l₀, l, hresponse, hbody, -⟩ := complete200_lengthHead
  obtain ⟨s, hs, hdocuments⟩ := Option.map_eq_some_iff.1
    (by decide +kernel : (StepSystem.run step exampleInit
      (requestEvents exampleAnswers [] (getHead ++ [LF]) ++
        ([exampleHop bodyRedirect].flatMap Hop.events ++
          (connectEvents 0 0 ++ readEvents exampleAnswers .success []
            (lengthHead ++ LF :: lit "hi"))))).map (·.documents) = some [lit "no"])
  refine ⟨p, l₀, l, s, hresponse, hbody, hs, hdocuments, fun hserves => ?_⟩
  exact absurd (hdocuments.symm.trans hserves.documents) (by decide)

theorem servesFile_datanodeRedirect :
    ∃ (l : Log) (before : List Bytes) (last : Bytes) (after : List Bytes) (s : Sys),
      [lit "HTTP/1.1 2", (lengthHead ++ LF :: lit "hi").drop 10] = before ++ last :: after ∧
      after.flatten = [] ∧
      StepSystem.run step exampleInit
        (requestEvents exampleAnswers [] (getHead ++ [LF]) ++
          ([exampleHop datanodeRedirect].flatMap Hop.events ++
            (connectEvents 1 1 ++ readEvents exampleAnswers .success before last))) = some s ∧
      (ServesFile (lit "/a") exampleInit.cache exampleAnswers l.body s ↔
        NothingBefore [exampleHop datanodeRedirect] l.body) := by
  have hrequest : ClientRequest [] (getHead ++ [LF]) _ ⟨lit "/a", 0, 0, false⟩ :=
    ⟨⟨by decide, fun q hq => by obtain rfl := Option.some.inj hq; rfl, rfl, rfl⟩, by decide +kernel,
      ⟨rfl, by decide⟩, by decide⟩
  have hhop : (exampleHop datanodeRedirect).Valid :=
    exampleHop_valid (lit "http://h:50075/webhdfs/v1/a?op=OPEN") (by decide)
      (by decide +kernel) (by decide +kernel) (by decide +kernel) (by decide +kernel)
      (by decide +kernel)
  obtain ⟨p, l₀, l, hresponse, -, hupgrade, hframed⟩ := complete200_lengthHead
  exact ⟨l, servesFile_iff hrequest _ _ _ _ _ _ rfl (by simpa using hhop) (Nat.le_refl 1) hresponse
    hupgrade hframed rfl (by decide) (by decide) exampleAnswers⟩

end Sys

end ImageProxy
