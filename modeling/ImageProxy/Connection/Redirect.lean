import Mathlib.Data.List.TakeWhile
import ImageProxy.Connection.Response
import ImageProxy.Http.UrlHost

set_option autoImplicit false

/-! # Redirects

The value of `Location` goes through a header buffer of 512 bytes, `http_parser_parse_url` (whose
return value nobody looks at), the prefix that `SetLocation` takes off and the one that `BuildRequest`
puts on. `followsLocation_iff` says when what comes out is what was sent. -/

namespace ImageProxy

open Ascii Cpcl Http

/-! ## The request that is built -/

/-- The target in a request line `GET target HTTP/1.1`. -/
def requestTarget (text : Bytes) : Bytes := (text.drop 4).takeWhile (· ≠ asc ' ')

theorem takeWhile_append_cons {f : UInt8 → Bool} {x : Bytes} (hx : ∀ c ∈ x, f c = true) {c : UInt8}
    (hc : f c = false) (y : Bytes) : (x ++ c :: y).takeWhile f = x := by
  rw [List.takeWhile_append_of_pos hx, List.takeWhile_cons_of_neg (by simp [hc]), List.append_nil]

theorem prefix_writeHeader (text name value : Bytes) : text <+: writeHeader text name value :=
  (List.prefix_append _ _).trans <| (List.prefix_append _ _).trans <|
    (List.prefix_append _ _).trans <| List.prefix_append _ _

theorem cString_of_not_mem {s : Bytes} (h : (0 : UInt8) ∉ s) : cString s = s :=
  Pieces.takeWhile_of_not_mem h

/-- The request line, if the path fits. -/
theorem prefix_buildRequest (host : Bytes) {path : Bytes} (hlen : path.length < 0xf00)
    (hnul : (0 : UInt8) ∉ path) :
    lit "GET /webhdfs/v1" ++ path ++ lit "?op=OPEN HTTP/1.1\r\n" <+: buildRequest host path := by
  have hformat : stringFormat bufferSize
      (lit "GET /webhdfs/v1" ++ path ++ lit "?op=OPEN HTTP/1.1\r\n")
      = lit "GET /webhdfs/v1" ++ path ++ lit "?op=OPEN HTTP/1.1\r\n" := by
    refine stringFormat_of_lt ?_ (by decide)
    have hstart : (lit "GET /webhdfs/v1").length = 15 := rfl
    have hend : (lit "?op=OPEN HTTP/1.1\r\n").length = 19 := rfl
    rw [List.length_append, List.length_append, hstart, hend, bufferSize]
    omega
  simp only [buildRequest, cString_of_not_mem hnul, hformat]
  exact (prefix_writeHeader _ _ _).trans <| (prefix_writeHeader _ _ _).trans <|
    List.prefix_append _ _

/-- The path in the request line is the one given, behind the prefix. -/
theorem pathComponent_buildRequest (host : Bytes) {path : Bytes} (hlen : path.length < 0xf00)
    (hnul : (0 : UInt8) ∉ path) (hspace : asc ' ' ∉ path) (hpath : ∀ c ∈ path, isPathChar c = true) :
    pathComponent (requestTarget (buildRequest host path)) = webhdfsRequestPrefix ++ path := by
  obtain ⟨rest, hrest⟩ := prefix_buildRequest host hlen hnul
  have hdrop : (buildRequest host path).drop 4
      = (webhdfsRequestPrefix ++ path ++ lit "?op=OPEN") ++ asc ' ' :: (lit "HTTP/1.1\r\n" ++ rest) := by
    rw [← hrest, List.append_assoc, List.append_assoc, List.append_assoc, List.append_assoc]
    rfl
  have htarget : requestTarget (buildRequest host path)
      = webhdfsRequestPrefix ++ path ++ asc '?' :: lit "op=OPEN" := by
    rw [requestTarget, hdrop]
    refine takeWhile_append_cons (fun c hc => ?_) (by decide) _
    rw [List.mem_append, List.mem_append] at hc
    simp only [ne_eq, decide_eq_true_eq]
    rintro rfl
    rcases hc with (hc | hc) | hc
    · exact absurd hc (by decide)
    · exact hspace hc
    · exact absurd hc (by decide)
  rw [htarget, Http.pathComponent, pathOffset, if_pos (by rfl), List.drop_zero]
  refine takeWhile_append_cons (fun c hc => ?_) (by decide) _
  rcases List.mem_append.1 hc with hc | hc
  · have hall : webhdfsRequestPrefix.all isPathChar = true := by decide
    exact List.all_eq_true.1 hall c hc
  · exact hpath c hc

/-! ## The location that is kept -/

/-- The value of the first `Location`. -/
def location (l : Log) : Option Bytes :=
  (l.headers.find? fun g => stringEqualsIgnoreCaseASCII g.field (lit "Location")).map fun g => g.value

/-- If it is kept, 511 bytes of it are. -/
theorem keptHeader_location {l : Log} {L uri : Bytes} (hL : location l = some L)
    (hkept : l.keptHeader (lit "Location") = some uri) : uri = L.take 0x1ff := by
  rw [Log.keptHeader] at hkept
  split_ifs at hkept
  obtain ⟨g, hg, rfl⟩ := Option.map_eq_some_iff.1 hkept
  rw [location, ← List.take_append_drop maxHeaders l.headers, List.find?_append, hg, Option.some_or,
    Option.map_some, Option.some.injEq] at hL
  rw [hL]

/-- `SetLocation` takes `uri`: it has a host and a path. -/
def Located (uri : Bytes) : Prop :=
  (httpParserParseUrl uri).2.fieldSet .host = true ∧ (httpParserParseUrl uri).2.fieldSet .path = true

instance (uri : Bytes) : Decidable (Located uri) := inferInstanceAs (Decidable (_ ∧ _))

theorem setLocation_fst (uri : Bytes) (c : Connection) :
    (c.setLocation uri).1 = decide (Located uri) := by
  simp only [Connection.setLocation, Located]
  split_ifs with hhost hpath <;> simp [*]

/-- The path is the same behind a prefix that was taken off and put on, or put on only. -/
def KeepsPath (uri L : Bytes) : Prop :=
  if webhdfsRequestPrefix.isPrefixOf (pathComponent uri) then pathComponent uri = pathComponent L
  else webhdfsRequestPrefix ++ pathComponent uri = pathComponent L

theorem keepsPath_iff (uri L : Bytes) :
    KeepsPath uri L ↔ webhdfsRequestPrefix ++ stripPrefix (pathComponent uri) = pathComponent L := by
  rw [KeepsPath, stripPrefix]
  split_ifs with hbegins
  · obtain ⟨rest, hrest⟩ := List.isPrefixOf_iff_prefix.1 hbegins
    rw [← hrest, List.drop_left]
  · rfl

/-- The redirect keeps its target: there is nothing left of it to follow, or what is left of it comes
to the same. -/
def KeepsTarget (l : Log) (L : Bytes) : Prop :=
  ∀ uri, l.keptHeader (lit "Location") = some uri → Located uri →
    (httpParserParseUrl L).1 = true ∧ KeepsPath uri L ∧
      stringEqualsIgnoreCaseASCII (stripPrefix (pathComponent uri)) (lit "/favicon.ico") = false

theorem located_iff {uri : Bytes} (halive : (urlLoop id 0 UrlScan.init uri).1 = true) :
    Located uri ↔ authority uri ≠ [] ∧ pathComponent uri ≠ [] := by
  have hparts := urlLoop_parts uri halive
  have hnarrow : urlLoop u16 0 UrlScan.init uri
      = ((urlLoop id 0 UrlScan.init uri).1, (urlLoop id 0 UrlScan.init uri).2.narrowed) :=
    urlLoop_narrowed uri 0 UrlScan.init
  have hhost : (httpParserParseUrl uri).2.fieldSet .host = !(authority uri).isEmpty := by
    rw [httpParserParseUrl, (parseUrl_frame u16 uri).1 .host (by simp) (by simp), hnarrow]
    exact hparts.host
  rw [Located, hhost, (httpParserParseUrl_path uri halive).1]
  simp

/-- What `SetLocation` makes of the beginning of a URL that is accepted. -/
theorem setLocation_of_accepted {uri z : Bytes} (hlen : uri.length < 2 ^ 16)
    (haccepted : (httpParserParseUrl (uri ++ z)).1 = true) (hlocated : Located uri) (c : Connection) :
    (c.setLocation uri).2 = { c with
      host := hostComponent (uri ++ z)
      port := (portComponent (uri ++ z)).getD (lit "80")
      webhdfsPath := stripPrefix (pathComponent uri) } := by
  have halive' := alive_of_accepted haccepted
  have halive := alive_prefix uri z halive'
  obtain ⟨hA, hP⟩ := (located_iff halive).1 hlocated
  have hpath : uri.drop (pathOffset uri) ≠ [] := fun hnil => hP (by rw [Http.pathComponent, hnil]; rfl)
  obtain ⟨hauthority, hoffset⟩ := authority_append hA hpath z
  obtain ⟨hhostz, hportz⟩ := host_append hA hpath z
  have hbound : authorityOffset uri + (authority uri).length ≤ uri.length := by
    have hle := congrArg List.length (drop_authority uri hA)
    rw [List.length_drop, List.length_append] at hle
    have hpos := List.length_pos_iff.2 hA
    omega
  have hfinal := hostRun_of_accepted haccepted (by rw [hauthority]; exact hA)
    (by rw [hauthority, hoffset]; omega)
  rw [hauthority] at hfinal
  obtain ⟨hhost, hset, hport⟩ := httpParserParseUrl_host hlen halive hA hfinal
  have hpiece := httpParserParseUrl_path_short hlen halive hP
  simp only [Connection.setLocation, hlocated.1, hlocated.2, if_true, hhost, hpiece, hset, hhostz,
    hportz]
  cases hcase : portComponent uri with
  | none => rfl
  | some port => rw [hport port hcase]; rfl

/-- The path in the next request. -/
theorem pathComponent_nextRequest (host : Bytes) {uri : Bytes} (hlen : uri.length < 0xf00)
    (halive : (urlLoop id 0 UrlScan.init uri).1 = true) :
    pathComponent (requestTarget (buildRequest host (stripPrefix (pathComponent uri))))
      = webhdfsRequestPrefix ++ stripPrefix (pathComponent uri) := by
  have hstrip : stripPrefix (pathComponent uri) <:+ pathComponent uri := by
    rw [stripPrefix]
    split_ifs
    · exact List.drop_suffix _ _
    · exact List.suffix_refl _
  have hpath : pathComponent uri <:+: uri :=
    (List.takeWhile_prefix _).isInfix.trans (List.drop_suffix _ _).isInfix
  have hmem : ∀ c ∈ stripPrefix (pathComponent uri), c ∈ uri := fun c hc =>
    hpath.subset (hstrip.subset hc)
  have hle : (stripPrefix (pathComponent uri)).length ≤ uri.length :=
    hstrip.length_le.trans hpath.length_le
  exact pathComponent_buildRequest host (by omega)
    (fun hc => not_mem_of_alive parseUrlChar_nul uri halive (hmem _ hc))
    (fun hc => not_mem_of_alive parseUrlChar_space uri halive (hmem _ hc))
    (fun c hc => by
      have hpc := hstrip.subset hc
      rw [Http.pathComponent] at hpc
      exact List.mem_takeWhile_imp hpc)

namespace Sys

/-! ## Reading a redirect -/

/-- `reads` and then `last` bring a redirect whose head ends in `last`. -/
structure RedirectIn (reads : List Bytes) (last : Bytes) (q : Parser × Log) : Prop extends
    HeadIn .response reads last q where
  status : q.2.statusCode ∈ redirectStatusCodes

variable {s t : Sys} {image : StreamId} {reads : List Bytes} {last : Bytes} {l : Log}
  {q : Parser × Log}

/-- The redirect is acted on in its last read. -/
theorem RedirectIn.run (hin : RedirectIn reads last q) (h : Awaiting image t) {ec : Outcome}
    (hec : ec ≠ .error) (a : Answers) :
    ∃ t', Reading t image q.1 q.2 t' ∧
      StepSystem.run step (t.start .readResponse) (readEvents a ec reads last)
        = some (t'.redirect a) := by
  obtain ⟨r, hr, hincomplete, -⟩ := hin.before
  obtain ⟨t', hreading, hrun⟩ := run_readEvents h hin.length (fun x y hxy s hs hcomplete => by
    rw [hxy, run_append Log.lawful_recorder, hs] at hr
    exact absurd (Log.run_headersComplete hr hcomplete) (by simp [hincomplete])) hin.whole hec a
  refine ⟨t', hreading, ?_⟩
  rw [hrun, respond, if_pos hin.headersComplete, if_pos hin.status]

/-! ## Where it leads -/

/-- The next connection goes to the host and the port of `L`, and the path in its request line is that
of `L`. -/
structure AsksFor (L : Bytes) (t s : Sys) : Prop where
  accepted : (httpParserParseUrl L).1 = true
  sent : s.sent = t.sent
  pending : s.pending = [.resolve (hostComponent L) ((portComponent L).getD (lit "80"))]
  path : ∀ n, ∃ text s', StepSystem.run step s [.resolved (some n), .connected true] = some s' ∧
    s'.pending = [.writeRequest text] ∧ pathComponent (requestTarget text) = pathComponent L

/-- The client is answered 500, or the request goes where `L` says. -/
def FollowsLocation (L : Bytes) (t s : Sys) : Prop := s.sent = t.sent ++ [500] ∨ AsksFor L t s

theorem run_connect {s : Sys} {host port : Bytes} (hpending : s.pending = [.resolve host port])
    (n : ℕ) : ∃ s', StepSystem.run step s [.resolved (some n), .connected true] = some s' ∧
      s'.pending = [.writeRequest (buildRequest s.conn.host s.conn.webhdfsPath)] := by
  simp only [StepSystem.run_cons, StepSystem.run_nil, step, complete, hpending, takeOp,
    Option.map_some, Option.bind_some, handleResolve, start, handleConnect, if_true]
  exact ⟨_, rfl, rfl⟩

/-- `SetLocation` of a location that has a host and a path. -/
def locate (uri : Bytes) (s : Sys) : Sys := { s with conn := (s.conn.setLocation uri).2 }

/-- The redirect branch, with what was kept of the location. -/
theorem Reading.redirect {s₀ : Sys} {p : Parser} (h : Reading s₀ image p l t)
    (hcomplete : l.headersComplete = true) (hsingle : l.single = true) (a : Answers) :
    t.redirect a = match l.keptHeader (lit "Location") with
      | none => t.sendResponse 500
      | some uri =>
          if Located uri then (t.locate uri).sendRequest a (t.locate uri).conn.webhdfsPath
          else (t.locate uri).sendResponse 500 := by
  rw [Sys.redirect, (h.agrees.headers hsingle).getHeader hcomplete (by decide)]
  cases l.keptHeader (lit "Location") with
  | none => rfl
  | some uri =>
      simp only [setLocation_fst]
      by_cases hlocated : Located uri <;> simp [hlocated, locate]

/-- The request for the image that is being fetched already. -/
theorem sendRequest_eq {s : Sys} (himage : s.conn.image = some image) {path : Bytes}
    (hpath : stringEqualsIgnoreCaseASCII path (lit "/favicon.ico") = false) (a : Answers) :
    s.sendRequest a path = ((({ s with requested := s.requested ++ [path] } : Sys).modify
      fun c => { c with webhdfsPath := path }).seek image 0).resolve := by
  simp only [sendRequest, hpath, Bool.false_eq_true, if_false, fetchImage, modify, himage]

theorem sendRequest_again {s : Sys} (himage : s.conn.image = some image) {path : Bytes}
    (hpath : stringEqualsIgnoreCaseASCII path (lit "/favicon.ico") = false) (a : Answers) :
    (s.sendRequest a path).sent = s.sent ∧
      (s.sendRequest a path).pending = .resolve s.conn.host s.conn.port :: s.pending ∧
      (s.sendRequest a path).conn.host = s.conn.host ∧
      (s.sendRequest a path).conn.webhdfsPath = path := by
  rw [sendRequest_eq himage hpath a]
  exact ⟨rfl, rfl, rfl, rfl⟩

theorem sendRequest_favicon {s : Sys} {path : Bytes}
    (hpath : stringEqualsIgnoreCaseASCII path (lit "/favicon.ico") = true) (a : Answers) :
    (s.sendRequest a path).sent = s.sent ++ [404] := by
  simp only [sendRequest, hpath, if_true]
  exact sent_sendResponse (by decide) _

/-- It is never answered 500. -/
theorem followsLocation_sendRequest (himage : s.conn.image = some image) (hsent : s.sent = t.sent)
    (L path : Bytes) (a : Answers) :
    FollowsLocation L t (s.sendRequest a path) ↔
      stringEqualsIgnoreCaseASCII path (lit "/favicon.ico") = false ∧
        AsksFor L t (s.sendRequest a path) := by
  cases hfavicon : stringEqualsIgnoreCaseASCII path (lit "/favicon.ico") with
  | true =>
      have h404 : (s.sendRequest a path).sent = t.sent ++ [404] := by
        rw [sendRequest_favicon hfavicon, hsent]
      simp only [Bool.true_eq_false, false_and, iff_false]
      rintro (h500 | hasks)
      · rw [h404, List.append_right_inj] at h500
        exact absurd h500 (by decide)
      · have hnone := hasks.sent
        rw [h404] at hnone
        exact absurd hnone (by simp)
  | false =>
      refine ⟨fun h => ⟨rfl, h.resolve_left fun h500 => ?_⟩, fun h => Or.inr h.2⟩
      rw [(sendRequest_again himage hfavicon a).1, hsent] at h500
      exact absurd h500 (by simp)

theorem conn_locate {L : Bytes} (haccepted : (httpParserParseUrl L).1 = true)
    (hlocated : Located (L.take 0x1ff)) (s : Sys) :
    (s.locate (L.take 0x1ff)).conn = { s.conn with
      host := hostComponent L
      port := (portComponent L).getD (lit "80")
      webhdfsPath := stripPrefix (pathComponent (L.take 0x1ff)) } := by
  have hlen : (L.take 0x1ff).length ≤ 0x1ff := List.length_take_le _ _
  have hconn := setLocation_of_accepted (z := L.drop 0x1ff) (by omega)
    (by rwa [List.take_append_drop]) hlocated s.conn
  rwa [List.take_append_drop] at hconn

/-- A location that is followed, and accepted as it was sent. -/
theorem asksFor_iff (hidle : s.pending = []) (himage : s.conn.image = some image)
    (hsent : s.sent = t.sent) {L : Bytes} (haccepted : (httpParserParseUrl L).1 = true)
    (hlocated : Located (L.take 0x1ff)) (a : Answers)
    (hfavicon : stringEqualsIgnoreCaseASCII (stripPrefix (pathComponent (L.take 0x1ff)))
      (lit "/favicon.ico") = false) :
    AsksFor L t ((s.locate (L.take 0x1ff)).sendRequest a
      (stripPrefix (pathComponent (L.take 0x1ff)))) ↔ KeepsPath (L.take 0x1ff) L := by
  have hlen : (L.take 0x1ff).length ≤ 0x1ff := List.length_take_le _ _
  have halive : (urlLoop id 0 UrlScan.init (L.take 0x1ff)).1 = true := by
    rw [← List.take_append_drop 0x1ff L] at haccepted
    exact alive_prefix _ _ (alive_of_accepted haccepted)
  have hconn := conn_locate haccepted hlocated s
  have himage' : (s.locate (L.take 0x1ff)).conn.image = some image :=
    (setLocation_image _ _).trans himage
  obtain ⟨hsent', hpending, hhost, hpath⟩ := sendRequest_again himage' hfavicon a
  have hnext : ∀ host, pathComponent (requestTarget
      (buildRequest host (stripPrefix (pathComponent (L.take 0x1ff))))) = pathComponent L ↔
      KeepsPath (L.take 0x1ff) L := fun host => by
    rw [pathComponent_nextRequest host (by omega) halive, keepsPath_iff]
  have hresolve : ((s.locate (L.take 0x1ff)).sendRequest a
      (stripPrefix (pathComponent (L.take 0x1ff)))).pending
      = [.resolve (hostComponent L) ((portComponent L).getD (lit "80"))] := by
    rw [hpending, hconn, locate, hidle]
  constructor
  · intro hasks
    obtain ⟨text, s', hrun, htext, htarget⟩ := hasks.path 0
    obtain ⟨s'', hrun', htext'⟩ := run_connect hresolve 0
    rw [hrun, Option.some.injEq] at hrun'
    subst hrun'
    rw [htext, hpath] at htext'
    simp only [List.cons.injEq, Op.writeRequest.injEq, and_true] at htext'
    rw [htext'] at htarget
    exact (hnext _).1 htarget
  · intro hkeeps
    refine ⟨haccepted, hsent'.trans hsent, hresolve, fun n => ?_⟩
    obtain ⟨s', hrun, htext⟩ := run_connect hresolve n
    refine ⟨_, s', hrun, htext, ?_⟩
    rw [hpath]
    exact (hnext _).2 hkeeps

/-- **A redirect leads to its location exactly when the location is kept**: what fits of it, if it is
followed, is the beginning of a URL that is accepted, and its path is not changed. -/
theorem followsLocation_iff (h : Awaiting image t) (hin : RedirectIn reads last q)
    (hsingle : q.2.single = true) {L : Bytes} (hL : location q.2 = some L) {ec : Outcome}
    (hec : ec ≠ .error) (a : Answers) :
    ∃ s, StepSystem.run step (t.start .readResponse) (readEvents a ec reads last) = some s ∧
      (FollowsLocation L t s ↔ KeepsTarget q.2 L) := by
  obtain ⟨t', hreading, hrun⟩ := hin.run h hec a
  refine ⟨_, hrun, ?_⟩
  rw [hreading.redirect hin.headersComplete hsingle, KeepsTarget]
  have hsent : t'.sent = t.sent := hreading.sent_eq
  cases hkept : q.2.keptHeader (lit "Location") with
  | none =>
      refine iff_of_true (Or.inl ?_) (fun uri huri => absurd huri (by simp))
      rw [← hsent]
      exact sent_sendResponse (by decide) t'
  | some uri =>
      obtain rfl := keptHeader_location hL hkept
      simp only [Option.some.injEq, forall_eq']
      by_cases hlocated : Located (L.take 0x1ff)
      · have himage : t'.conn.image = some image := hreading.image_eq.trans h.image_eq
        have hidle : t'.pending = [] := hreading.idle h.idle
        have himage' : (t'.locate (L.take 0x1ff)).conn.image = some image :=
          (setLocation_image _ _).trans himage
        rw [if_pos hlocated, followsLocation_sendRequest himage' hsent, imp_iff_right hlocated]
        by_cases haccepted : (httpParserParseUrl L).1 = true
        · have hpath := congrArg Connection.webhdfsPath (conn_locate haccepted hlocated t')
          rw [hpath]
          constructor
          · rintro ⟨hfavicon, hasks⟩
            exact ⟨haccepted, (asksFor_iff hidle himage hsent haccepted hlocated a hfavicon).1 hasks,
              hfavicon⟩
          · rintro ⟨-, hkeeps, hfavicon⟩
            exact ⟨hfavicon,
              (asksFor_iff hidle himage hsent haccepted hlocated a hfavicon).2 hkeeps⟩
        · exact iff_of_false (fun h => haccepted h.2.accepted) fun h => haccepted h.1
      · rw [if_neg hlocated]
        refine iff_of_true (Or.inl ?_) fun hnot => absurd hnot hlocated
        rw [← hsent]
        exact sent_sendResponse (by decide) _

/-- A redirect whose location has a space in its path. -/
def spaceRedirect : Bytes :=
  lit "HTTP/1.1 307 X\x0d\nLocation: http://h/webhdfs/v1/a b\x0d\nContent-Length: 0\x0d\n\x0d\n"

/-- It is no URL, and `/webhdfs/v1/a` is asked for. -/
theorem not_followsLocation_space :
    ∃ (q : Parser × Log) (s : Sys), Awaiting 1 awaitingSys ∧ RedirectIn [] spaceRedirect q ∧ q.2.single = true ∧
      location q.2 = some (lit "http://h/webhdfs/v1/a b") ∧
      StepSystem.run step (awaitingSys.start .readResponse)
        (readEvents exampleAnswers .success [] spaceRedirect) = some s ∧
      s.pending = [.resolve (lit "h") (lit "80")] ∧
      pathComponent (requestTarget (buildRequest s.conn.host s.conn.webhdfsPath))
        = lit "/webhdfs/v1/a" ∧
      ¬FollowsLocation (lit "http://h/webhdfs/v1/a b") awaitingSys s := by
  refine ⟨_, _, ⟨rfl, rfl, _, rfl, rfl⟩, ⟨⟨by decide, fun q hq => ?_, rfl, rfl⟩, by decide⟩, rfl, rfl,
    rfl, rfl, by decide +kernel, ?_⟩
  · obtain rfl := Option.some.inj hq
    rfl
  · rintro (h | h)
    · exact absurd h (by decide)
    · exact absurd h.accepted (by decide)

/-- A redirect to a datanode. -/
def datanodeRedirect : Bytes :=
  lit "HTTP/1.1 307 X\x0d\nLocation: http://h:50075/webhdfs/v1/a?op=OPEN\x0d\n\x0d\n"

theorem followsLocation_datanode :
    ∃ (q : Parser × Log) (s : Sys), location q.2 = some (lit "http://h:50075/webhdfs/v1/a?op=OPEN") ∧
      StepSystem.run step (awaitingSys.start .readResponse)
        (readEvents exampleAnswers .success [datanodeRedirect.take 9] (datanodeRedirect.drop 9))
        = some s ∧
      (FollowsLocation (lit "http://h:50075/webhdfs/v1/a?op=OPEN") awaitingSys s ↔
        KeepsTarget q.2 (lit "http://h:50075/webhdfs/v1/a?op=OPEN")) := by
  have hin : RedirectIn [datanodeRedirect.take 9] (datanodeRedirect.drop 9) _ :=
    ⟨⟨by decide, fun q hq => by obtain rfl := Option.some.inj (hq.symm.trans rfl); rfl, rfl, rfl⟩,
      by decide⟩
  obtain ⟨s, hs, hiff⟩ := followsLocation_iff (t := awaitingSys) ⟨rfl, rfl, _, rfl, rfl⟩ hin rfl rfl
    (by simp : Outcome.success ≠ .error) exampleAnswers
  exact ⟨_, s, rfl, hs, hiff⟩

end Sys

end ImageProxy
