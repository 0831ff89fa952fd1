import ImageProxy.Connection.BuildRequest
import ImageProxy.Connection.Proxy
import ImageProxy.Http.Message
import ImageProxy.Http.RequestHead
import ImageProxy.Http.UrlBytes

set_option autoImplicit false

/-! # The requests that go upstream

A path comes from a client or from the `Location` of a server, a host from the configuration or from
such a `Location`. Both have passed through `http_parser`, so they have visible bytes only, and a
request that is put together from them is one request and nothing else: no client and no server can
have the proxy send a header line or a second request of theirs (`requests_intact`). -/

namespace ImageProxy

open Ascii Cpcl Http

/-- Visible bytes only. -/
def Visible (s : Bytes) : Prop := ∀ b ∈ s, isVisible b = true

theorem Visible.append {s t : Bytes} (hs : Visible s) (ht : Visible t) : Visible (s ++ t) := by
  intro b hb
  rcases List.mem_append.1 hb with hb | hb
  · exact hs b hb
  · exact ht b hb

theorem Visible.take {s : Bytes} (h : Visible s) (n : ℕ) : Visible (s.take n) :=
  fun b hb => h b (List.mem_of_mem_take hb)

theorem Visible.drop {s : Bytes} (h : Visible s) (n : ℕ) : Visible (s.drop n) :=
  fun b hb => h b (List.mem_of_mem_drop hb)

/-! ## What the parser of a connection knows -/

/-- The callbacks of `HttpParser` keep the URL visible. -/
theorem accepts_settings : settings.Accepts fun u => Visible u.1.url where
  data m x u hu hx := by
    cases m with
    | url => exact hu.append hx
    | headerField =>
        show Visible (u.1.onHeaderField x).url
        simp only [Fields.onHeaderField]
        split_ifs <;> exact hu
    | headerValue =>
        show Visible (u.1.onHeaderValue x).url
        simp only [Fields.onHeaderValue]
        split_ifs <;> exact hu
    | body =>
        show Visible (u.1.onBody x u.2).2.1.url
        cases hcontent : u.1.content <;> simp only [Fields.onBody, hcontent] <;> exact hu
  notice n u hu := by cases n <;> exact hu
  headersComplete _ _ hu := hu

theorem HttpParser.visible_parse {p : HttpParser} (h : Visible p.url) (streams : Streams)
    (data : Bytes) : Visible (p.parse streams data).2.1.url :=
  execute_strings accepts_settings p.parser h data

/-! ## What a connection knows -/

/-- What requests are made of. The path is one of `uint16_t` bytes. -/
structure Connection.Clean (c : Connection) : Prop where
  host : Visible c.host
  path : Visible c.webhdfsPath
  length : c.webhdfsPath.length < 2 ^ 16
  url : Visible c.parser.url

theorem length_piece_path_lt (uri : Bytes) :
    ((httpParserParseUrl uri).2.piece .path uri).length < 2 ^ 16 := by
  have hle : ((httpParserParseUrl uri).2.piece .path uri).length
      ≤ ((httpParserParseUrl uri).2.fieldData .path).len := List.length_take_le _ _
  rw [(httpParserParseUrl_part uri (by decide) (by decide) (by decide)).2] at hle
  exact Nat.lt_of_le_of_lt hle (Nat.mod_lt _ (by decide))

/-- A query's path is that of a URL. -/
theorem Query.visible_get {uri : Bytes} {query : Query} (h : get uri = some query) :
    Visible query.requestPath ∧ query.requestPath.length < 2 ^ 16 := by
  rw [get_requestPath h]
  split_ifs
  · exact ⟨httpParserParseUrl_visible uri (Or.inr rfl), length_piece_path_lt uri⟩
  · exact ⟨fun b hb => absurd hb List.not_mem_nil, by decide⟩

theorem Connection.Clean.setLocation {c : Connection} (h : c.Clean) (uri : Bytes) :
    (c.setLocation uri).2.Clean := by
  have hhost : Visible ((httpParserParseUrl uri).2.piece .host uri) :=
    httpParserParseUrl_visible uri (Or.inl rfl)
  have hpath : Visible ((httpParserParseUrl uri).2.piece .path uri) :=
    httpParserParseUrl_visible uri (Or.inr rfl)
  have hlength := length_piece_path_lt uri
  have hstrip : Visible (stripPrefix ((httpParserParseUrl uri).2.piece .path uri)) ∧
      (stripPrefix ((httpParserParseUrl uri).2.piece .path uri)).length < 2 ^ 16 := by
    rw [stripPrefix]
    split_ifs
    · refine ⟨hpath.drop _, Nat.lt_of_le_of_lt ?_ hlength⟩
      rw [List.length_drop]
      exact Nat.sub_le _ _
    · exact ⟨hpath, hlength⟩
  simp only [Connection.setLocation]
  split_ifs <;> first
    | exact ⟨hhost, hstrip.1, hstrip.2, h.url⟩
    | exact ⟨hhost, h.path, h.length, h.url⟩
    | exact h

namespace Sys

variable {s t s' : Sys}

/-- The handler has not touched what requests are made of, and has not started to write one. -/
structure Aside (s s' : Sys) : Prop where
  host : s'.conn.host = s.conn.host
  path : s'.conn.webhdfsPath = s.conn.webhdfsPath
  url : s'.conn.parser.url = s.conn.parser.url
  requests : ∀ text, .writeRequest text ∈ s'.pending → .writeRequest text ∈ s.pending

theorem Aside.refl (s : Sys) : Aside s s := ⟨rfl, rfl, rfl, fun _ h => h⟩

theorem Aside.trans (h : Aside s t) (h' : Aside t s') : Aside s s' :=
  ⟨h'.host.trans h.host, h'.path.trans h.path, h'.url.trans h.url,
    fun text hin => h.requests text (h'.requests text hin)⟩

theorem Aside.clean (h : Aside s s') (hclean : s.conn.Clean) : s'.conn.Clean :=
  ⟨h.host ▸ hclean.host, h.path ▸ hclean.path, h.path ▸ hclean.length, h.url ▸ hclean.url⟩

/-- Starting another operation. -/
theorem aside_start {op : Op} (h : ∀ text, op ≠ .writeRequest text) (s : Sys) : Aside s (s.start op) :=
  ⟨rfl, rfl, rfl, fun text hin => (List.mem_cons.1 hin).resolve_left fun heq => h text heq.symm⟩

theorem aside_beginResponse (code : ℤ) (n : ℕ) (s : Sys) : Aside s (s.beginResponse code n) := by
  refine Aside.trans ?_ (aside_start (by simp) _)
  exact ⟨rfl, rfl, rfl, fun _ h => h⟩

theorem aside_sendResponse (code : ℤ) (s : Sys) : Aside s (s.sendResponse code) := by
  simp only [sendResponse]
  split_ifs
  · cases s.conn.image with
    | none => exact aside_beginResponse 500 0 s
    | some image =>
        have hseek : Aside s (s.seek image 0) := ⟨rfl, rfl, rfl, fun _ h => h⟩
        simp only
        split_ifs
        · exact hseek.trans (aside_beginResponse 500 0 _)
        · exact hseek.trans (aside_beginResponse code _ _)
  · refine Aside.trans ?_ (aside_beginResponse code 0 _)
    exact ⟨rfl, rfl, rfl, fun _ h => h⟩

theorem aside_showPage (a : Answers) (page : PageInfo) (s : Sys) : Aside s (s.showPage a page) := by
  simp only [showPage]
  split_ifs
  · refine Aside.trans ?_ (aside_sendResponse 200 _)
    exact ⟨rfl, rfl, rfl, fun _ h => h⟩
  · refine Aside.trans ?_ (aside_start (by simp) _)
    exact ⟨rfl, rfl, rfl, fun _ h => h⟩
  · refine Aside.trans ?_ (aside_sendResponse 500 _)
    exact ⟨rfl, rfl, rfl, fun _ h => h⟩

theorem aside_sendPage (a : Answers) (s : Sys) : Aside s (s.sendPage a) := by
  simp only [sendPage]
  cases s.conn.image with
  | none => exact Aside.refl s
  | some image =>
      have hload : Aside s ((s.seek image 0).loadDoc a image) := ⟨rfl, rfl, rfl, fun _ h => h⟩
      rcases a.document with _ | _ | page
      · exact hload.trans (aside_sendResponse 500 _)
      · exact hload
      · refine hload.trans (Aside.trans ?_ (aside_showPage a page _))
        exact ⟨rfl, rfl, rfl, fun _ h => h⟩

theorem aside_resolve (s : Sys) : Aside s s.resolve := by
  refine Aside.trans ?_ (aside_start (by simp) _)
  exact ⟨rfl, rfl, rfl, fun _ h => h⟩

theorem aside_fetchImage (a : Answers) (s : Sys) : Aside s (s.fetchImage a) := by
  simp only [fetchImage]
  cases s.conn.image with
  | none =>
      have hget : Aside s (s.getImage a).2 := ⟨rfl, rfl, rfl, fun _ h => h⟩
      simp only
      split_ifs
      · exact hget.trans (aside_sendPage a _)
      · exact hget.trans (aside_resolve _)
  | some image =>
      refine Aside.trans ?_ (aside_resolve _)
      exact ⟨rfl, rfl, rfl, fun _ h => h⟩

theorem aside_writeChunk (image : StreamId) (s : Sys) : Aside s (s.writeChunk image) := by
  simp only [writeChunk]
  split
  · exact ⟨rfl, rfl, rfl, fun _ h => h⟩
  · refine Aside.trans ?_ (aside_start (by simp) _)
    exact ⟨rfl, rfl, rfl, fun _ h => h⟩

theorem aside_handleWriteResponse (ok : Bool) (s : Sys) : Aside s (s.handleWriteResponse ok) := by
  simp only [handleWriteResponse]
  split_ifs
  · cases s.conn.image with
    | none => exact Aside.refl s
    | some image => exact aside_writeChunk image s
  · exact Aside.refl s
  · exact ⟨rfl, rfl, rfl, fun _ h => h⟩

theorem aside_handleRendered (pieces : List Bytes) (ok : Bool) (out : StreamId) (s : Sys) :
    Aside s (s.handleRendered pieces ok out) := by
  refine Aside.trans ?_ (aside_sendResponse _ _)
  exact ⟨rfl, rfl, rfl, fun _ h => h⟩

/-! ## The invariant -/

/-- A request that is being written is the one for the path of the connection. -/
structure Intact (s : Sys) : Prop where
  conn : s.conn.Clean
  requests : ∀ text, .writeRequest text ∈ s.pending →
    text = buildRequest s.conn.host s.conn.webhdfsPath

theorem Aside.intact (h : Aside s s') (hs : s.Intact) : s'.Intact := by
  refine ⟨h.clean hs.conn, fun text hin => ?_⟩
  rw [h.host, h.path]
  exact hs.requests text (h.requests text hin)

/-- In a handler nothing else is outstanding. -/
theorem intact_of_idle (hclean : s.conn.Clean) (hidle : s.pending = []) : s.Intact :=
  ⟨hclean, fun text hin => absurd hin (by simp [hidle])⟩

theorem intact_start (hclean : s.conn.Clean) (hidle : s.pending = []) {op : Op}
    (hop : ∀ text, op ≠ .writeRequest text) : (s.start op).Intact :=
  (aside_start hop s).intact (intact_of_idle hclean hidle)

theorem intact_sendRequest (hclean : s.conn.Clean) (hidle : s.pending = []) {path : Bytes}
    (hpath : Visible path) (hlength : path.length < 2 ^ 16) (a : Answers) :
    (s.sendRequest a path).Intact := by
  simp only [sendRequest]
  split_ifs
  · refine (aside_sendResponse 404 _).intact (intact_of_idle ?_ ?_)
    · exact hclean
    · exact hidle
  · refine (aside_fetchImage a _).intact (intact_of_idle ?_ ?_)
    · exact ⟨hclean.host, hpath, hlength, hclean.url⟩
    · exact hidle

theorem clean_parse (hclean : s.conn.Clean) (data : Bytes) : (s.parse data).2.conn.Clean := by
  refine ⟨hclean.host, hclean.path, hclean.length, ?_⟩
  simp only [parse]
  split_ifs
  · exact HttpParser.visible_parse hclean.url s.streams data
  · exact hclean.url

theorem intact_acceptRequest (hclean : s.conn.Clean) (hidle : s.pending = []) (a : Answers) :
    (s.acceptRequest a).Intact := by
  simp only [acceptRequest]
  cases hquery : Query.get s.conn.parser.url with
  | none =>
      refine intact_of_idle ?_ ?_
      · exact hclean
      · exact hidle
  | some query =>
      obtain ⟨hpath, hlength⟩ := Query.visible_get hquery
      simp only
      split_ifs
      · refine (aside_sendResponse 400 _).intact (intact_of_idle ?_ ?_)
        · exact ⟨hclean.host, hclean.path, hclean.length, hclean.url⟩
        · exact hidle
      · refine intact_sendRequest ?_ ?_ hpath hlength a
        · exact ⟨hclean.host, hpath, hlength, hclean.url⟩
        · exact hidle

theorem intact_redirect (hclean : s.conn.Clean) (hidle : s.pending = []) (a : Answers) :
    (s.redirect a).Intact := by
  simp only [redirect]
  cases HttpParser.getHeader s.conn.parser.toFields (lit "Location") with
  | none => exact (aside_sendResponse 500 s).intact (intact_of_idle hclean hidle)
  | some uri =>
      have hlocated := hclean.setLocation uri
      simp only
      split_ifs
      · refine (aside_sendResponse 500 _).intact (intact_of_idle ?_ ?_)
        · exact hlocated
        · exact hidle
      · refine intact_sendRequest ?_ ?_ hlocated.path hlocated.length a
        · exact hlocated
        · exact hidle

theorem intact_handleConnect (hclean : s.conn.Clean) (hidle : s.pending = []) (ok : Bool)
    (endpointsLeft : ℕ) : (s.handleConnect ok endpointsLeft).Intact := by
  simp only [handleConnect]
  generalize hrequest : buildRequest s.conn.host s.conn.webhdfsPath = request
  split_ifs
  · refine ⟨⟨hclean.host, hclean.path, hclean.length, hclean.url⟩, fun text hin => ?_⟩
    rcases List.mem_cons.1 hin with heq | hin
    · exact (Op.writeRequest.inj heq).trans hrequest.symm
    · exact absurd (hidle ▸ hin) List.not_mem_nil
  · cases endpointsLeft with
    | zero => exact intact_of_idle hclean hidle
    | succ n => exact intact_start hclean hidle (by simp)

theorem intact_handleReadRequest (hclean : s.conn.Clean) (hidle : s.pending = []) (ec : Outcome)
    (data : Bytes) (a : Answers) : (s.handleReadRequest ec data a).Intact := by
  by_cases hec : ec = .error
  · rw [hec]
    exact intact_of_idle hclean hidle
  · have hparse := clean_parse hclean data
    rw [handleReadRequest_eq hec]
    split_ifs
    · exact (aside_sendResponse 400 _).intact (intact_of_idle hparse hidle)
    · exact intact_acceptRequest hparse hidle a
    · exact (aside_sendResponse 400 _).intact (intact_of_idle hparse hidle)
    · exact intact_start hparse hidle (by simp)

theorem intact_handleReadWebhdfsResponse (hclean : s.conn.Clean) (hidle : s.pending = [])
    (ec : Outcome) (data : Bytes) (a : Answers) :
    (s.handleReadWebhdfsResponse ec data a).Intact := by
  by_cases hec : ec = .error
  · rw [hec]
    exact intact_of_idle hclean hidle
  · have hparse := clean_parse hclean data
    have hread := intact_of_idle hparse hidle
    rw [handleReadWebhdfsResponse_eq hec]
    split_ifs
    · exact (aside_sendResponse 500 _).intact hread
    · exact intact_redirect hparse hidle a
    · exact (aside_sendResponse _ _).intact hread
    · exact (aside_sendPage a _).intact hread
    · exact (aside_sendResponse 500 _).intact hread
    · exact intact_start hparse hidle (by simp)
    · exact (aside_sendResponse 500 _).intact hread
    · exact intact_start hparse hidle (by simp)

/-- **A step keeps requests intact**, whatever it reads. -/
theorem Intact.step {e : Event} (h : s.Intact) (hinv : s.Inv) (hstep : s.step e = some s') :
    s'.Intact := by
  have hclean : ({ s with pending := [] } : Sys).conn.Clean := h.conn
  have hnothing : ({ s with pending := [] } : Sys).Intact := intact_of_idle hclean rfl
  cases e with
  | readRequest ec data a =>
      simp only [Sys.step] at hstep
      split at hstep
      · obtain ⟨op, b, -, -, rfl⟩ := hinv.complete_event hstep
        exact intact_handleReadRequest hclean rfl ec data a
      · exact absurd hstep (by simp)
  | resolved endpoints =>
      obtain ⟨op, b, -, -, rfl⟩ := hinv.complete_event hstep
      cases endpoints with
      | none => exact hnothing
      | some n => exact (aside_start (by simp) _).intact hnothing
  | connected ok =>
      obtain ⟨op, b, -, -, rfl⟩ := hinv.complete_event hstep
      exact intact_handleConnect hclean rfl ok b
  | wroteRequest ok =>
      obtain ⟨op, b, -, -, rfl⟩ := hinv.complete_event hstep
      simp only [handleWriteRequest]
      split_ifs
      · -- `Reset` clears the URL; the rest is as it was
        refine intact_start ?_ rfl (by simp)
        exact ⟨hclean.host, hclean.path, hclean.length, fun b hb => absurd hb List.not_mem_nil⟩
      · exact hnothing
  | readResponse ec data a =>
      simp only [Sys.step] at hstep
      split at hstep
      · obtain ⟨op, b, -, -, rfl⟩ := hinv.complete_event hstep
        exact intact_handleReadWebhdfsResponse hclean rfl ec data a
      · exact absurd hstep (by simp)
  | rendered pieces ok =>
      obtain ⟨op, b, -, -, rfl⟩ := hinv.complete_event hstep
      exact (aside_handleRendered pieces ok b _).intact hnothing
  | wroteResponse ok =>
      obtain ⟨op, b, -, -, rfl⟩ := hinv.complete_event hstep
      exact (aside_handleWriteResponse ok _).intact hnothing
  | stop =>
      cases hstep
      exact ⟨h.conn, h.requests⟩
  | abandoned =>
      simp only [Sys.step] at hstep
      split at hstep
      · obtain ⟨op, b, -, -, rfl⟩ := hinv.complete_event hstep
        exact hnothing
      · exact absurd hstep (by simp)
  | others cache =>
      cases hstep
      exact ⟨h.conn, h.requests⟩

end Sys

/-! ## What the server reads -/

/-- The head that `BuildRequest` writes. -/
def askHead (host path : Bytes) : RequestHead where
  request := ⟨.get, webhdfsRequestPrefix ++ path ++ lit "?op=OPEN", lit "1", lit "1"⟩
  lines := [⟨⟨lit "Host", host⟩, lit " "⟩, ⟨⟨lit "Connection", lit "close"⟩, lit " "⟩]

/-- What is to be read of it. -/
def askLog (host path : Bytes) : Log :=
  { Log.empty with
    url := webhdfsRequestPrefix ++ path ++ lit "?op=OPEN"
    headers := [⟨lit "Host", host⟩, ⟨lit "Connection", lit "close"⟩]
    statusCode := 0
    headersComplete := true
    messageComplete := true }

theorem wholeRequest_eq (host path : Bytes) :
    wholeRequest host path = (askHead host path).text ++ [LF] := by
  simp only [wholeRequest, askHead, RequestHead.text, RequestLine.text, HeaderLine.text,
    List.map_cons, List.map_nil, List.flatten_cons, List.flatten_nil, List.append_nil,
    List.append_assoc, webhdfsRequestPrefix]
  rfl

theorem length_wholeRequest (host path : Bytes) :
    (wholeRequest host path).length = host.length + path.length + 63 := by
  have hlits : (lit "GET /webhdfs/v1").length = 15 ∧ (lit "?op=OPEN HTTP/1.1\r\n").length = 19 ∧
      (lit "Host").length = 4 ∧ (lit ": ").length = 2 ∧ (lit "\r\n").length = 2 ∧
      (lit "Connection").length = 10 ∧ (lit "close").length = 5 := by decide
  obtain ⟨h1, h2, h3, h4, h5, h6, h7⟩ := hlits
  simp only [wholeRequest, List.length_append]
  omega

/-- The path and what comes after it. -/
def fromPath (s : State) : Bool := s == .reqPath || s.afterPath

theorem isVisible_cases {c : UInt8} (h : isVisible c = true) :
    isUrlChar c = true ∨ c = asc '?' ∨ c = asc '#' := by
  rw [isVisible] at h
  by_cases hquery : c = asc '?'
  · exact Or.inr (Or.inl hquery)
  · by_cases hhash : c = asc '#'
    · exact Or.inr (Or.inr hhash)
    · left
      simp [isUrlChar, h, hquery, hhash]

theorem isVisible_ne {c d : UInt8} (hc : isVisible c = true) (hd : isVisible d = false) : c ≠ d := by
  rintro rfl
  rw [hc] at hd
  exact absurd hd (by simp)

/-- Any visible byte leads on in the URL. -/
theorem fromPath_parseUrlChar {s : State} (hs : fromPath s = true) {c : UInt8}
    (hc : isVisible c = true) : fromPath (parseUrlChar s c) = true := by
  have hspace : c ≠ asc ' ' := isVisible_ne hc (by decide)
  have hcr : c ≠ CR := isVisible_ne hc (by decide)
  have hlf : c ≠ LF := isVisible_ne hc (by decide)
  have htab : c ≠ asc '\t' := isVisible_ne hc (by decide)
  have hfeed : c ≠ 12 := isVisible_ne hc (by decide)
  have hq : isUrlChar (asc '?') = false := by decide
  have hh : isUrlChar (asc '#') = false := by decide
  have hne : asc '#' ≠ asc '?' := by decide
  rcases isVisible_cases hc with hurl | rfl | rfl <;> cases s <;>
    first
    | exact absurd hs (by decide)
    | simp [parseUrlChar, parseUrlChar.query, fromPath, State.afterPath, *]

theorem fromPath_urlAfter {cs : Bytes} (hcs : Visible cs) {s : State} (hs : fromPath s = true) :
    fromPath (urlAfter s cs) = true := by
  induction cs generalizing s with
  | nil => exact hs
  | cons c cs ih =>
      rw [urlAfter_cons]
      exact ih (fun b hb => hcs b (by simp [hb])) (fromPath_parseUrlChar hs (hcs c (by simp)))

theorem urlEnd_of_fromPath {s : State} (h : fromPath s = true) : s.urlEnd = true := by
  revert h
  cases s <;> decide

variable {host path : Bytes}

theorem valid_askHead (hhost : Visible host) (hpath : Visible path)
    (hlength : host.length + path.length + 63 < maxHeaderSize) : (askHead host path).Valid where
  request :=
    { url := by
        -- the prefix leads into the path, which no visible byte leaves for the dead state
        have hprefix : urlAfter .reqSpacesBeforeUrl webhdfsRequestPrefix = .reqPath := by decide
        have hend : Visible (lit "?op=OPEN") := by
          have hall : (lit "?op=OPEN").all isVisible = true := by decide
          exact List.all_eq_true.1 hall
        show (urlAfter .reqSpacesBeforeUrl (webhdfsRequestPrefix ++ path ++ lit "?op=OPEN")).urlEnd
          = true
        rw [List.append_assoc, urlAfter_append, hprefix]
        exact urlEnd_of_fromPath (fromPath_urlAfter (hpath.append hend) rfl)
      major := isNumber_of_check (show isNumberCheck (lit "1") = true by decide)
      zero := show (lit "1").head? ≠ some (asc '0') by decide
      minor := isNumber_of_check (show isNumberCheck (lit "1") = true by decide) }
  lines l hl := by
    simp only [askHead, List.mem_cons, List.not_mem_nil, or_false] at hl
    rcases hl with rfl | rfl
    · have hkind : Header.kind ⟨lit "Host", host⟩ ≠ .contentLength := by
        show HeaderKind.of ((lit "Host").map token) ≠ _
        decide +kernel
      refine ⟨⟨show lit "Host" ≠ [] by decide, ?_, fun c hc => ?_, fun c hc => ?_,
        fun h => absurd h hkind, fun h => absurd h hkind⟩, fun c hc => Or.inl (List.mem_singleton.1 hc)⟩
      · have htokens : (lit "Host").all (fun c => token c != 0) = true := by decide +kernel
        intro c hc
        simpa using List.all_eq_true.1 htokens c hc
      · exact ⟨isVisible_ne (hhost c hc) (by decide), isVisible_ne (hhost c hc) (by decide)⟩
      · have hc' := hhost c (List.mem_of_mem_head? hc)
        exact not_or.2 ⟨isVisible_ne hc' (by decide), isVisible_ne hc' (by decide)⟩
    · exact HeaderLine.valid_of_check (by decide +kernel)
  length := by
    have hlen := length_wholeRequest host path
    rw [wholeRequest_eq, List.length_append, List.length_singleton] at hlen
    omega

theorem framing_askHead (host path : Bytes) :
    (askHead host path).framing = ⟨{ Flags.none with connectionClose := true }, ullongMax⟩ := by
  have hkind : Header.kind ⟨lit "Host", host⟩ = .other := by
    show HeaderKind.of ((lit "Host").map token) = _
    decide +kernel
  have hhost : Framing.none.add ⟨lit "Host", host⟩ = Framing.none := by
    rw [Framing.add, hkind]
    rfl
  show (Framing.none.add ⟨lit "Host", host⟩).add ⟨lit "Connection", lit "close"⟩ = _
  rw [hhost]
  decide +kernel

theorem deliver_askHead (host path : Bytes) : (askHead host path).deliver Log.recorder Log.empty
    = { Log.empty with
      url := webhdfsRequestPrefix ++ path ++ lit "?op=OPEN"
      headers := [⟨lit "Host", host⟩, ⟨lit "Connection", lit "close"⟩] } :=
  deliverLines_recorder rfl rfl (askHead host path).lines

/-- The whole request is read as what it is. -/
theorem run_wholeRequest (hhost : Visible host) (hpath : Visible path)
    (hlength : host.length + path.length + 63 < maxHeaderSize) : ∃ q : Parser, q.Going ∧
      q.method = .get ∧ run Log.recorder (Parser.init .request) Log.empty (wholeRequest host path)
        = some (q, askLog host path) := by
  have hvalid := valid_askHead hhost hpath hlength
  obtain ⟨p, hread, hrun⟩ := run_requestHead Log.lawful_recorder Log.empty hvalid
  rw [deliver_askHead] at hrun
  have hflags := hread.flags
  have hcontent := hread.contentLength
  rw [framing_askHead] at hflags hcontent
  have hmethod : p.method = .get := hread.method
  have hplain : Parser.AtHeadEnd.Plain p :=
    ⟨by rw [hflags]; rfl, by rw [Parser.wantsUpgrade, hflags, hmethod]; rfl⟩
  have hnread : p.nread < maxHeaderSize := by
    rw [hread.nread]
    exact hvalid.length
  have heof : p.messageNeedsEof = false := by
    rw [Parser.messageNeedsEof, hread.type]
    rfl
  obtain ⟨state, hlf⟩ := hread.atHeadEnd.run_bodiless (l := _) hplain hnread (by rw [hflags]; rfl)
    hcontent heof
  refine ⟨Parser.AtHeadEnd.afterHead p state, ⟨hread.atHeadEnd.going.1, rfl⟩, hmethod, ?_⟩
  rw [wholeRequest_eq, run_append Log.lawful_recorder, hrun, Option.bind_some, hlf, Log.complete,
    hread.statusCode]
  rfl

/-! ## Requests that do not fit -/

/-- Where a text is cut, only so much of a part of it matters. -/
theorem take_shorten (n : ℕ) (x y z : Bytes) : (x ++ y ++ z).take n = (x ++ y.take n ++ z).take n := by
  by_cases hle : y.length ≤ n
  · rw [List.take_of_length_le hle]
  · have hlong : n ≤ (x ++ y.take n).length := by
      rw [List.length_append, List.length_take]
      omega
    rw [List.take_append_of_le_length (by rw [List.length_append]; omega),
      List.take_append_of_le_length hlong, List.take_append, List.take_append, List.take_take,
      Nat.min_eq_left (Nat.sub_le n x.length)]

/-- So a request that is cut could have been one for a short path at a short host. -/
theorem fitting_wholeRequest (host path : Bytes) : fitting (wholeRequest host path)
    = fitting (wholeRequest (host.take (bufferSize - 1)) (path.take (bufferSize - 1))) := by
  have hpath : fitting (wholeRequest host path)
      = fitting (wholeRequest host (path.take (bufferSize - 1))) := by
    simpa only [fitting, wholeRequest, List.append_assoc] using
      take_shorten (bufferSize - 1) (lit "GET /webhdfs/v1") path
        (lit "?op=OPEN HTTP/1.1\r\n" ++ (lit "Host" ++ lit ": " ++ host ++ lit "\r\n") ++
          (lit "Connection" ++ lit ": " ++ lit "close" ++ lit "\r\n") ++ lit "\r\n")
  rw [hpath]
  simpa only [fitting, wholeRequest, List.append_assoc] using
    take_shorten (bufferSize - 1) (lit "GET /webhdfs/v1" ++ path.take (bufferSize - 1)
      ++ lit "?op=OPEN HTTP/1.1\r\n" ++ (lit "Host" ++ lit ": ")) host
        (lit "\r\n" ++ (lit "Connection" ++ lit ": " ++ lit "close" ++ lit "\r\n") ++ lit "\r\n")

/-- What is left of a request that does not fit is a part of a head. -/
theorem run_cutRequest (hhost : Visible host) (hpath : Visible path)
    (hcut : bufferSize ≤ (wholeRequest host path).length) :
    ∃ (q : Parser) (l : Log), q.Going ∧ l.headersComplete = false ∧
      run Log.recorder (Parser.init .request) Log.empty (fitting (wholeRequest host path))
        = some (q, l) := by
  have hlength := length_wholeRequest host path
  have hshort := length_wholeRequest (host.take (bufferSize - 1)) (path.take (bufferSize - 1))
  rw [List.length_take, List.length_take] at hshort
  have hsmall : (host.take (bufferSize - 1)).length + (path.take (bufferSize - 1)).length + 63
      < maxHeaderSize := by
    rw [List.length_take, List.length_take, bufferSize, maxHeaderSize]
    omega
  -- the short request has the head that is cut, and all of it is read
  obtain ⟨q, hread, hrun⟩ := run_requestHead Log.lawful_recorder Log.empty
    (valid_askHead (hhost.take (bufferSize - 1)) (hpath.take (bufferSize - 1)) hsmall)
  have hlen : bufferSize - 1
      ≤ (askHead (host.take (bufferSize - 1)) (path.take (bufferSize - 1))).text.length := by
    rw [wholeRequest_eq, List.length_append, List.length_singleton] at hshort
    rw [bufferSize] at hcut hshort ⊢
    omega
  rw [fitting_wholeRequest, wholeRequest_eq, fitting, List.take_append_of_le_length hlen]
  rw [deliver_askHead, ← List.take_append_drop (bufferSize - 1) (RequestHead.text _),
    run_append Log.lawful_recorder] at hrun
  obtain ⟨⟨p, l⟩, hp, hrest⟩ := Option.bind_eq_some_iff.1 hrun
  refine ⟨p, l, ?_, ?_, hp⟩
  · by_cases hnil : (askHead (host.take (bufferSize - 1)) (path.take (bufferSize - 1))).text.drop
        (bufferSize - 1) = []
    · rw [hnil, run_nil, Option.some.injEq, Prod.mk.injEq] at hrest
      obtain rfl := hrest.1
      exact hread.atHeadEnd.going
    · exact Sys.going_of_run hrest hnil
  · -- a head that is complete stays so, but in front of its last line feed it is not
    by_contra hcomplete
    have hlater := Log.run_headersComplete hrest (by simpa using hcomplete)
    exact absurd hlater (by simp [Log.empty])

/-! ## Every request -/

/-- However the request is cut into reads, a server reads it as one for the path, and as nothing else;
if it does not fit in the buffer, its head never ends. -/
def ReadAsRequest (host path text : Bytes) : Prop :=
  ∀ reads : List Bytes, reads.flatten = text → (∀ data ∈ reads, data ≠ []) →
    ReadsThrough Log.recorder (Parser.init .request) Log.empty reads ∧
    if (wholeRequest host path).length < bufferSize then
      (executeAll Log.recorder (Parser.init .request) Log.empty reads).1.method = .get ∧
      (executeAll Log.recorder (Parser.init .request) Log.empty reads).2 = askLog host path
    else (executeAll Log.recorder (Parser.init .request) Log.empty reads).2.headersComplete = false

theorem readAsRequest_fitting (hhost : Visible host) (hpath : Visible path) :
    ReadAsRequest host path (fitting (wholeRequest host path)) := by
  intro reads hreads hne
  have hinit : (Parser.init .request).Going := by decide
  split_ifs with hfits
  · have hlength := length_wholeRequest host path
    rw [bufferSize] at hfits
    obtain ⟨q, hq, hmethod, hrun⟩ := run_wholeRequest hhost hpath (by rw [maxHeaderSize]; omega)
    have hwhole : fitting (wholeRequest host path) = wholeRequest host path :=
      fitting_of_lt (by rw [bufferSize]; exact hfits)
    obtain ⟨hthrough, hexec⟩ := readsThrough_of_run Log.lawful_recorder hinit (hreads.trans hwhole)
      hne hrun hq
    rw [hexec]
    exact ⟨hthrough, hmethod, rfl⟩
  · obtain ⟨q, l, hq, hincomplete, hrun⟩ := run_cutRequest hhost hpath (Nat.not_lt.1 hfits)
    obtain ⟨hthrough, hexec⟩ := readsThrough_of_run Log.lawful_recorder hinit hreads hne hrun hq
    rw [hexec]
    exact ⟨hthrough, hincomplete⟩

theorem buildRequest_visible (hpath : Visible path) (hlength : path.length < 2 ^ 16) :
    buildRequest host path = fitting (wholeRequest host path) := by
  have hnul : (0 : UInt8) ∉ path := fun h => absurd (hpath 0 h) (by decide)
  have hlits : (lit "GET /webhdfs/v1").length = 15 ∧ (lit "?op=OPEN HTTP/1.1\r\n").length = 19 := by
    decide
  rw [buildRequest_eq_fitting, cString_of_not_mem hnul]
  rw [cString_of_not_mem hnul, List.length_append, List.length_append]
  omega

namespace Proxy

/-- The requests of all connections are intact, and so are those to come. -/
structure Intact (P : Proxy) : Prop where
  inv : P.Inv
  host : Visible P.host
  conns : ∀ s ∈ P.conns, s.Intact

theorem Intact.join {P : Proxy} {s : Sys} (h : s.Intact) : (P.join s).Intact := ⟨h.conn, h.requests⟩

theorem step_intact (P : Proxy) (e : Event) (P' : Proxy) (h : P.Intact) (hstep : P.step e = some P') :
    P'.Intact := by
  refine ⟨step_inv P e P' h.inv hstep, ?_, ?_⟩
  · cases e with
    | accept buffer =>
        cases hstep
        exact h.host
    | turn i e =>
        obtain ⟨s, s', -, -, -, rfl⟩ := step_turn hstep
        exact h.host
    | stop =>
        cases hstep
        exact h.host
  · cases e with
    | accept buffer =>
        cases hstep
        intro t ht
        rcases List.mem_append.1 ht with ht | ht
        · exact h.conns t ht
        · rw [List.mem_singleton.1 ht]
          have hnil : Visible [] := fun b hb => absurd hb List.not_mem_nil
          have hshort : ([] : Bytes).length < 2 ^ 16 := by decide
          exact ⟨⟨h.host, hnil, hshort, hnil⟩, fun text hin => absurd hin (by simp [Sys.init])⟩
    | turn i e =>
        obtain ⟨s, s', hs, -, hconn, rfl⟩ := step_turn hstep
        have hmem := List.mem_of_getElem? hs
        intro t ht
        rcases mem_put ht with rfl | ht
        · exact (Intact.join (h.conns s hmem)).step (sound_join h.inv hmem).inv hconn
        · exact h.conns t ht
    | stop =>
        cases hstep
        intro t ht
        obtain ⟨s, hs, rfl⟩ := mem_stopped ht
        have hintact := h.conns s hs
        exact ⟨hintact.conn, hintact.requests⟩

/-- **Every request that goes upstream is one request for the path of its connection**, whatever the
clients and the servers have sent, in whatever order the connections have had their turns: a server reads
from it GET, that path behind the prefix of webhdfs, and the two headers that `BuildRequest` gives. -/
theorem requests_intact {host port : Bytes} {pixfmts : List ℕ} {itemsCap : ℕ} (hhost : Visible host)
    {es : List Event} {P : Proxy}
    (hrun : StepSystem.run step (init host port pixfmts itemsCap) es = some P) :
    ∀ s ∈ P.conns, ∀ text, .writeRequest text ∈ s.pending →
      ReadAsRequest s.conn.host s.conn.webhdfsPath text := by
  have hinit : (init host port pixfmts itemsCap).Intact :=
    ⟨inv_init, hhost, fun s hs => absurd hs List.not_mem_nil⟩
  have hintact : P.Intact := StepSystem.run_invariant step_intact hrun hinit
  intro s hs text hin
  obtain ⟨hclean, hrequests⟩ := hintact.conns s hs
  rw [hrequests text hin, buildRequest_visible hclean.path hclean.length]
  exact readAsRequest_fitting hclean.host hclean.path

/-- A server sends the proxy to another place, and tries to add to the request line. -/
def sentOn : List Event :=
  [.accept ⟨_, length_zeros⟩,
    .turn 0 (.readRequest .success (lit "GET /a HTTP/1.1\x0d\n\x0d\n") Sys.exampleAnswers),
    .turn 0 (.resolved (some 0)), .turn 0 (.connected true), .turn 0 (.wroteRequest true),
    .turn 0 (.readResponse .success
      (lit "HTTP/1.1 307 R\x0d\nLocation: http://b/c d HTTP/1.0\x0d\nContent-Length: 0\x0d\n\x0d\n")
      Sys.exampleAnswers),
    .turn 0 (.resolved (some 0)), .turn 0 (.connected true)]

theorem requests_intact_sentOn : ∃ P : Proxy, StepSystem.run step exampleInit sentOn = some P ∧
    P.conns.map Sys.pending = [[.writeRequest (wholeRequest (lit "b") (lit "/c"))]] ∧
    ∀ s ∈ P.conns, ∀ text, .writeRequest text ∈ s.pending →
      ReadAsRequest s.conn.host s.conn.webhdfsPath text := by
  have hsent : (StepSystem.run step exampleInit sentOn).map (fun P => P.conns.map Sys.pending)
      = some [[.writeRequest (wholeRequest (lit "b") (lit "/c"))]] := by decide +kernel
  have hall : (lit "localhost").all isVisible = true := by decide
  obtain ⟨P, hrun, hP⟩ := Option.map_eq_some_iff.1 hsent
  exact ⟨P, hrun, hP, requests_intact (List.all_eq_true.1 hall) hrun⟩

end Proxy

end ImageProxy
