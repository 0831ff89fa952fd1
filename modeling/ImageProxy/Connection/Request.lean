import ImageProxy.Connection.LongPath
import ImageProxy.Connection.Reading
import ImageProxy.Http.Response

set_option autoImplicit false

/-! # The request of the client

The connection reads until it has a complete head, and then looks at the URL and the method that the
parser has. Both may come from more than one request: the parser goes on in the data it was given, and
`on_url` appends. `answersTarget_iff` says when the answer is to the first. -/

namespace ImageProxy

open Ascii Cpcl Http

namespace Sys

/-! ## One read -/

theorem step_readRequest (t : Sys) {ec : Outcome} {data : Bytes} (hlen : data.length ≤ bufferSize)
    (a : Answers) :
    step (t.start .readRequest) (.readRequest ec data a) = some (t.handleReadRequest ec data a) := by
  simp only [step, if_pos hlen, complete, start, takeOp, if_true, Option.map_some]

variable {s₀ s t : Sys} {target : StreamId} {p : Parser} {l : Log} {q : Parser × Log}

/-- One read of a request, in terms of what has been delivered. -/
theorem Reading.handleReadRequest (h : Reading s₀ target p l t) {data : Bytes}
    (hlen : data.length ≤ bufferSize) (hgoing : data ≠ [] → p.Going) (a : Answers) :
    match run Log.recorder p l data with
    | some r => ∃ t', Reading s₀ target r.1 r.2 t' ∧
        t.handleReadRequest .success data a
          = if r.2.headersComplete then t'.acceptRequest a else t'.start .readRequest
    | none => ∃ parser buffer streams,
        t.handleReadRequest .success data a = ({ s₀ with
          conn := { s₀.conn with parser := parser, buffer := buffer }
          streams := streams } : Sys).sendResponse 400 := by
  have hparse := h.parse hlen hgoing
  rw [handleReadRequest_eq (by simp)]
  revert hparse
  cases run Log.recorder p l data with
  | none =>
      intro hinvalid
      rw [if_pos hinvalid]
      obtain ⟨⟨parser, buffer, streams, rfl⟩, -, -⟩ := h
      exact ⟨_, _, _, rfl⟩
  | some r =>
      rintro ⟨hvalid, hreading⟩
      refine ⟨_, hreading, ?_⟩
      have hheaders : (t.parse data).2.conn.parser.headersComplete = r.2.headersComplete :=
        hreading.agrees.headersComplete
      rw [if_neg (by simp [hvalid]), hheaders, if_neg (by simp : ¬Outcome.success = .eof)]

/-- Reads before the end of the head. -/
theorem run_requestReads (a : Answers) (reads : List Bytes) (h : Reading s₀ target p l t)
    (hlen : ∀ read ∈ reads, read.length ≤ bufferSize) {r : Parser × Log}
    (hr : run Log.recorder p l reads.flatten = some r) (hincomplete : r.2.headersComplete = false) :
    ∃ t', StepSystem.run step (t.start .readRequest)
        (reads.map fun read => .readRequest .success read a) = some (t'.start .readRequest) ∧
      Reading s₀ target r.1 r.2 t' := by
  induction reads generalizing p l t with
  | nil =>
      obtain rfl := Option.some.inj hr
      exact ⟨t, rfl, h⟩
  | cons read reads ih =>
      rw [List.flatten_cons, run_append Log.lawful_recorder] at hr
      obtain ⟨q, hq, hr⟩ := Option.bind_eq_some_iff.1 hr
      have hread := hlen read (by simp)
      have hnext := h.handleReadRequest hread (going_of_run hq) a
      rw [hq] at hnext
      obtain ⟨t', hreading, hnext⟩ := hnext
      have hq' : ¬q.2.headersComplete = true := fun hcomplete =>
        absurd (Log.run_headersComplete hr hcomplete) (by simp [hincomplete])
      rw [if_neg hq'] at hnext
      rw [List.map_cons, StepSystem.run_cons, step_readRequest t hread a, hnext]
      exact ih hreading (fun read' h' => hlen read' (by simp [h'])) hr

/-! ## What an answer does not change -/

/-- Nothing more was asked for, and the query is the same. -/
structure SameRequest (s s' : Sys) : Prop where
  requested : s'.requested = s.requested
  query : s'.conn.query = s.conn.query

theorem SameRequest.trans {s s' s'' : Sys} (h : SameRequest s s') (h' : SameRequest s' s'') :
    SameRequest s s'' :=
  ⟨h'.requested.trans h.requested, h'.query.trans h.query⟩

theorem sameRequest_sendResponse (code : ℤ) (s : Sys) : SameRequest s (s.sendResponse code) := by
  simp only [sendResponse]
  split_ifs
  · cases s.conn.image with
    | none => exact ⟨rfl, rfl⟩
    | some image =>
        simp only
        split_ifs <;> exact ⟨rfl, rfl⟩
  · exact ⟨rfl, rfl⟩

theorem sameRequest_showPage (a : Answers) (page : PageInfo) (s : Sys) :
    SameRequest s (s.showPage a page) := by
  simp only [showPage]
  split_ifs
  · refine SameRequest.trans ?_ (sameRequest_sendResponse 200 _)
    exact ⟨rfl, rfl⟩
  · exact ⟨rfl, rfl⟩
  · refine SameRequest.trans ?_ (sameRequest_sendResponse 500 _)
    exact ⟨rfl, rfl⟩

theorem sameRequest_sendPage (a : Answers) (s : Sys) : SameRequest s (s.sendPage a) := by
  simp only [sendPage]
  cases s.conn.image with
  | none => exact ⟨rfl, rfl⟩
  | some image =>
      rcases a.document with _ | _ | page
      · refine SameRequest.trans ?_ (sameRequest_sendResponse 500 _)
        exact ⟨rfl, rfl⟩
      · exact ⟨rfl, rfl⟩
      · refine SameRequest.trans ?_ (sameRequest_showPage a page _)
        exact ⟨rfl, rfl⟩

theorem sameRequest_fetchImage (a : Answers) (s : Sys) : SameRequest s (s.fetchImage a) := by
  simp only [fetchImage]
  cases s.conn.image with
  | none =>
      have hget : SameRequest s (s.getImage a).2 := ⟨rfl, rfl⟩
      simp only
      split_ifs
      · exact hget.trans (sameRequest_sendPage a _)
      · exact hget.trans ⟨rfl, rfl⟩
  | some image => exact ⟨rfl, rfl⟩

theorem sendRequest_requested (a : Answers) (path : Bytes) (s : Sys) :
    (s.sendRequest a path).requested = s.requested ++ [path] ∧
      (s.sendRequest a path).conn.query = s.conn.query := by
  simp only [sendRequest]
  split_ifs
  · obtain ⟨hrequested, hquery⟩ :=
      sameRequest_sendResponse 404 { s with requested := s.requested ++ [path] }
    exact ⟨hrequested, hquery⟩
  · obtain ⟨hrequested, hquery⟩ := sameRequest_fetchImage a
      ({ s with requested := s.requested ++ [path] }.modify fun c => { c with webhdfsPath := path })
    exact ⟨hrequested, hquery⟩

/-! ## The first request -/

/-- `H` is the head, without its last line feed, of a GET request for `U`. `p` and `l` are what the
parser makes of it. -/
structure GetRequest (H U : Bytes) (p : Parser) (l : Log) : Prop where
  head : run Log.recorder (Parser.init .request) Log.empty H = some (p, l)
  headEnd : p.AtHeadEnd
  inHead : l.InHead
  method : p.method = .get
  url : l.url = U

/-- The client's request is answered as a request for `U`: 400 if its path is too short, else its path
is asked for and its query kept. -/
def AnswersTarget (U : Bytes) (s : Sys) : Prop :=
  if (pathComponent U).length < 2 then s.sent = [400] ∧ s.requested = []
  else s.requested = [pathComponent U] ∧ Query.get U = some s.conn.query

/-- What the parser has goes on to `SendRequest`. -/
def GoesOn (p : Parser) (query : Query) : Prop := p.method = .get ∧ 2 ≤ query.requestPath.length

/-- The bytes `E` that come in one read with the end of the head leave the target as it is: the parser
takes them, and the method it has is still GET. `V` are the targets of further requests in them, which
`on_url` puts behind `U`: sixteen bits leave the same path and numbers of both, and the whole path of `U`,
and neither makes `GetQuery` throw. If the path of `U` is too short, all that matters is that they do not
make it longer. -/
def TargetKept (U : Bytes) (p : Parser) (l : Log) (E : Bytes) : Prop :=
  if (pathComponent U).length < 2 then
    ∀ r, run Log.recorder p l (LF :: E) = some r → ∀ V, r.2.url = U ++ V →
      Query.returns (U ++ V) = true ∧ ¬GoesOn r.1 (Query.found (U ++ V))
  else
    ∃ r, run Log.recorder p l (LF :: E) = some r ∧ ∃ V, r.2.url = U ++ V ∧ r.1.method = .get ∧
      Query.returns (U ++ V) = true ∧ Query.found (U ++ V) = Query.found U ∧
      Query.returns U = true ∧ Query.cutPath (Query.taken U) = pathComponent U

/-- `query = GetQuery()`. -/
def withQuery (query : Query) (s : Sys) : Sys :=
  { s with accepted := true }.modify fun c => { c with query := query }

theorem acceptRequest_goesOn {query : Query} (hquery : Query.get s.conn.parser.url = some query)
    (hgoes : GoesOn s.conn.parser.parser query) (a : Answers) :
    s.acceptRequest a = ((s.withQuery query).modify fun c =>
      { c with webhdfsPath := query.requestPath }).sendRequest a query.requestPath := by
  have hgoes' : ¬(s.conn.parser.parser.method ≠ .get ∨ query.requestPath.length < 2) := by
    rw [not_or, not_not, Nat.not_lt]
    exact hgoes
  simp only [acceptRequest, hquery]
  exact if_neg hgoes'

theorem acceptRequest_invalid {query : Query} (hquery : Query.get s.conn.parser.url = some query)
    (hgoes : ¬GoesOn s.conn.parser.parser query) (a : Answers) :
    s.acceptRequest a = (s.withQuery query).sendResponse 400 := by
  have hgoes' : s.conn.parser.parser.method ≠ .get ∨ query.requestPath.length < 2 := by
    by_contra h
    rw [not_or, not_not] at h
    exact hgoes ⟨h.1, by omega⟩
  simp only [acceptRequest, hquery]
  exact if_pos hgoes'

/-- The request is answered with what the parser has. -/
theorem answersTarget_acceptRequest (U : Bytes) (hsent : s.sent = []) (hrequested : s.requested = [])
    (a : Answers) :
    AnswersTarget U (s.acceptRequest a) ↔
      if (pathComponent U).length < 2 then
        ∃ query, Query.get s.conn.parser.url = some query ∧ ¬GoesOn s.conn.parser.parser query
      else s.conn.parser.parser.method = .get ∧ Query.get s.conn.parser.url = Query.get U ∧
        ∃ query, Query.get U = some query ∧ query.requestPath = pathComponent U := by
  rw [AnswersTarget]
  cases hquery : Query.get s.conn.parser.url with
  | none =>
      have hanswer : s.acceptRequest a = { s with accepted := true } := by
        simp only [acceptRequest, hquery]
      rw [hanswer]
      simp only [hsent, hrequested]
      split_ifs
      · simp
      · refine iff_of_false (by simp) ?_
        rintro ⟨-, hnone, query, hsome, -⟩
        exact absurd (hnone.trans hsome) (by simp)
  | some query =>
      by_cases hgoes : GoesOn s.conn.parser.parser query
      · obtain ⟨hasked, hkept⟩ := sendRequest_requested a query.requestPath
          ((s.withQuery query).modify fun c => { c with webhdfsPath := query.requestPath })
        have hasked' : (s.acceptRequest a).requested = [query.requestPath] := by
          rw [acceptRequest_goesOn hquery hgoes, hasked]
          exact congrArg (· ++ [query.requestPath]) hrequested
        have hkept' : (s.acceptRequest a).conn.query = query := by
          rw [acceptRequest_goesOn hquery hgoes, hkept]
          rfl
        rw [hasked', hkept']
        split_ifs
        · simp [hgoes]
        · constructor
          · rintro ⟨hpath, hU⟩
            exact ⟨hgoes.1, hU.symm, query, hU, by simpa using hpath⟩
          · rintro ⟨-, hU, query', hquery', hpath⟩
            obtain rfl := Option.some.inj (hU.trans hquery')
            exact ⟨by rw [hpath], hquery'⟩
      · have hsent' : (s.acceptRequest a).sent = [400] := by
          rw [acceptRequest_invalid hquery hgoes, sent_sendResponse (by decide)]
          exact congrArg (· ++ [400]) hsent
        have hrequested' : (s.acceptRequest a).requested = [] := by
          rw [acceptRequest_invalid hquery hgoes]
          exact (sameRequest_sendResponse 400 _).requested.trans hrequested
        rw [hsent', hrequested']
        split_ifs with hshort
        · simp [hgoes]
        · refine iff_of_false (by simp) ?_
          rintro ⟨hget, hU, query', hquery', hpath⟩
          obtain rfl := Option.some.inj (hU.trans hquery')
          exact hgoes ⟨hget, by rw [hpath]; omega⟩

/-- `GetQuery` returns the same for two URLs, and `path` is the path that it finds. -/
theorem sameQuery_iff (path uri uri' : Bytes) :
    (Query.get uri = Query.get uri' ∧ ∃ query, Query.get uri' = some query ∧ query.requestPath = path) ↔
      Query.returns uri = true ∧ Query.found uri = Query.found uri' ∧ Query.returns uri' = true ∧
        Query.cutPath (Query.taken uri') = path := by
  constructor
  · rintro ⟨hsame, query, hquery, hpath⟩
    rw [hquery] at hsame
    obtain ⟨hreturns, hfound⟩ := Query.get_eq_some_iff.1 hsame
    obtain ⟨hreturns', hfound'⟩ := Query.get_eq_some_iff.1 hquery
    exact ⟨hreturns, hfound.trans hfound'.symm, hreturns', by rw [← hpath, ← hfound']; rfl⟩
  · rintro ⟨hreturns, hfound, hreturns', hpath⟩
    have hquery := Query.get_eq_some_iff.2 ⟨hreturns', rfl⟩
    exact ⟨(Query.get_eq_some_iff.2 ⟨hreturns, hfound⟩).trans hquery.symm, _, hquery, hpath⟩

/-- `last` is the read in which the head `H` ends; `E` comes with it. -/
structure HeadRead (H : Bytes) (reads : List Bytes) (last E : Bytes) : Prop where
  flatten : reads.flatten ++ last = H ++ LF :: E
  length : reads.flatten.length ≤ H.length

/-- However the stream is cut, there is such a read. -/
theorem exists_headRead {H D : Bytes} {reads : List Bytes} (h : reads.flatten = H ++ LF :: D) :
    ∃ before last after E, reads = before ++ last :: after ∧ HeadRead H before last E := by
  induction reads generalizing H with
  | nil => exact absurd h (by simp)
  | cons read reads ih =>
      rw [List.flatten_cons] at h
      have hcases : (∃ z, H = read ++ z ∧ reads.flatten = z ++ LF :: D) ∨
          ∃ z, read = H ++ LF :: z := by
        rcases List.append_eq_append_iff.1 h with ⟨z, hz⟩ | ⟨_ | ⟨c, z⟩, rfl, hz⟩
        · exact Or.inl ⟨z, hz⟩
        · exact Or.inl ⟨[], by simp, by simpa using hz.symm⟩
        · rw [List.cons_append, List.cons.injEq] at hz
          exact Or.inr ⟨z, by rw [hz.1]⟩
      rcases hcases with ⟨z, rfl, hz⟩ | ⟨z, rfl⟩
      · obtain ⟨before, last, after, E, rfl, hhead⟩ := ih hz
        refine ⟨read :: before, last, after, E, rfl, ?_, ?_⟩
        · rw [List.flatten_cons, List.append_assoc, hhead.flatten, List.append_assoc]
        · have hle := hhead.length
          rw [List.flatten_cons, List.length_append, List.length_append]
          omega
      · exact ⟨[], _, reads, z, rfl, by simp, by simp⟩

/-- The completions of these reads. -/
def requestEvents (a : Answers) (reads : List Bytes) (last : Bytes) : List Event :=
  (reads.map fun read => .readRequest .success read a) ++ [.readRequest .success last a]

/-- The read in which the head ends. -/
theorem Reading.answersTarget (h : Reading s₀ target q.1 q.2 t) (hsent : s₀.sent = [])
    (hrequested : s₀.requested = []) (hend : p.AtHeadEnd) {z : Bytes}
    (hz : run Log.recorder q.1 q.2 z = some (p, l)) (U E : Bytes) (hU : l.url = U)
    (hlen : (z ++ LF :: E).length ≤ bufferSize) (a : Answers) :
    AnswersTarget U (t.handleReadRequest .success (z ++ LF :: E) a) ↔ TargetKept U p l E := by
  have hrun : run Log.recorder q.1 q.2 (z ++ LF :: E) = run Log.recorder p l (LF :: E) := by
    rw [run_append Log.lawful_recorder, hz]
    rfl
  have hgoing : z ++ LF :: E ≠ [] → q.1.Going := fun _ => by
    by_cases hnil : z = []
    · rw [hnil, run_nil, Option.some.injEq] at hz
      have hp : q.1 = p := congrArg Prod.fst hz
      rw [hp]
      exact hend.going
    · exact going_of_run hz hnil
  have hnext := h.handleReadRequest hlen hgoing a
  rw [hrun] at hnext
  rw [TargetKept]
  revert hnext
  cases hr : run Log.recorder p l (LF :: E) with
  | none =>
      rintro ⟨parser, buffer, streams, hanswer⟩
      rw [hanswer, AnswersTarget, sent_sendResponse (by decide),
        (sameRequest_sendResponse 400 _).requested]
      simp only [hsent, hrequested]
      split_ifs <;> simp
  | some r =>
      rintro ⟨t', hreading, hanswer⟩
      obtain ⟨V, hV⟩ : U <+: r.2.url := hU ▸ Log.run_url hr
      have hparser : t'.conn.parser.parser = r.1 := hreading.parser
      have hurl : t'.conn.parser.url = r.2.url := hreading.agrees.url
      rw [hanswer, if_pos (hend.headersComplete_of_run hr),
        answersTarget_acceptRequest U (hreading.sent_eq.trans hsent)
          (hreading.requested_eq.trans hrequested), hparser, hurl]
      simp only [Option.some.injEq, forall_eq', exists_eq_left', ← hV, List.append_cancel_left_eq]
      split_ifs
      · simp only [Query.get_eq_some_iff, and_assoc, exists_and_left, exists_eq_left']
      · rw [and_congr_right_iff]
        intro
        exact sameQuery_iff (pathComponent U) (U ++ V) U

/-- Nothing is outstanding. -/
def quiet (s : Sys) : Sys := { s with pending := [] }

section Init

variable (host port : Bytes) (buffer : Buffer) (streams : Streams) (nextStream : StreamId)
  (cache : ImageCache Bytes StreamId) (pixfmts : List ℕ)

/-- The connection before its first read. -/
theorem reading_init :
    Reading (init host port buffer streams nextStream cache pixfmts).quiet nextStream
      (Parser.init .request) Log.empty
      (init host port buffer streams nextStream cache pixfmts).quiet :=
  ⟨⟨_, _, _, rfl⟩, rfl, Agrees.empty (p := { HttpParser.new true with content := some nextStream }) _
    true rfl⟩

/-- **A request is answered as what it is exactly when what comes in one read with the end of its head
leaves the target as it is.** -/
theorem answersTarget_iff {H U D : Bytes} {p : Parser} {l : Log} (hrequest : GetRequest H U p l)
    {reads : List Bytes} (hreads : reads.flatten = H ++ LF :: D)
    (hlen : ∀ read ∈ reads, read.length ≤ bufferSize) (a : Answers) :
    ∃ before last after E s, reads = before ++ last :: after ∧ HeadRead H before last E ∧
      StepSystem.run step (init host port buffer streams nextStream cache pixfmts)
        (requestEvents a before last) = some s ∧
      (AnswersTarget U s ↔ TargetKept U p l E) := by
  obtain ⟨before, last, after, E, rfl, hread⟩ := exists_headRead hreads
  have hbefore : ∀ read ∈ before, read.length ≤ bufferSize := fun read h => hlen read (by simp [h])
  have hlast : last.length ≤ bufferSize := hlen last (by simp)
  -- what is left of the head for the last read
  obtain ⟨z, rfl, rfl⟩ : ∃ z, H = before.flatten ++ z ∧ last = z ++ LF :: E := by
    rcases List.append_eq_append_iff.1 hread.flatten with ⟨z, rfl, hz⟩ | ⟨z, hflatten, hz⟩
    · exact ⟨z, rfl, hz⟩
    · have hle := hread.length
      rw [hflatten, List.length_append] at hle
      obtain rfl := List.length_eq_zero_iff.1 (by omega : z.length = 0)
      exact ⟨[], by simpa using hflatten.symm, by simpa using hz.symm⟩
  have hhead := hrequest.head
  rw [run_append Log.lawful_recorder] at hhead
  obtain ⟨q, hq, hz⟩ := Option.bind_eq_some_iff.1 hhead
  have hincomplete : q.2.headersComplete = false := by
    by_contra hcomplete
    have hlater := Log.run_headersComplete hz (by simpa using hcomplete)
    exact absurd hlater (by simp [hrequest.inHead.headersComplete])
  obtain ⟨t, hrun, hreading⟩ := run_requestReads a before
    (reading_init host port buffer streams nextStream cache pixfmts) hbefore hq hincomplete
  have hstart : (init host port buffer streams nextStream cache pixfmts).quiet.start .readRequest
      = init host port buffer streams nextStream cache pixfmts := rfl
  rw [hstart] at hrun
  refine ⟨before, _, after, E, _, rfl, hread, ?_,
    hreading.answersTarget rfl rfl hrequest.headEnd hz U E hrequest.url hlast a⟩
  rw [requestEvents, StepSystem.run_append, hrun, Option.bind_some, StepSystem.run_cons,
    step_readRequest t hlast a]
  rfl

end Init

/-- The head, without its last line feed, of a request for `/a`. -/
def getHead : Bytes := lit "GET /a HTTP/1.1\x0d\n\x0d"

/-- The first of two requests in one read: `/a/b` is asked for. -/
theorem not_answersTarget_pipelined :
    ∃ p l s, GetRequest getHead (lit "/a") p l ∧
      StepSystem.run step exampleInit (requestEvents exampleAnswers []
        (getHead ++ LF :: lit "GET /b HTTP/1.1\x0d\n\x0d\n")) = some s ∧
      s.requested = [lit "/a/b"] ∧ ¬AnswersTarget (lit "/a") s := by
  refine ⟨_, _, _, ⟨rfl, ⟨by decide, rfl, rfl⟩, ⟨rfl, rfl, rfl⟩, rfl, rfl⟩, rfl, rfl, ?_⟩
  rw [AnswersTarget, if_neg (by decide)]
  exact fun h => absurd h.1 (by decide)

theorem answersTarget_getHead :
    ∃ p l before last after E s, [lit "GET /", getHead.drop 5 ++ [LF]] = before ++ last :: after ∧
      HeadRead getHead before last E ∧
      StepSystem.run step exampleInit (requestEvents exampleAnswers before last) = some s ∧
      (AnswersTarget (lit "/a") s ↔ TargetKept (lit "/a") p l E) := by
  have hrequest : GetRequest getHead (lit "/a") _ _ :=
    ⟨rfl, ⟨by decide, rfl, rfl⟩, ⟨rfl, rfl, rfl⟩, rfl, rfl⟩
  exact ⟨_, _, answersTarget_iff _ _ _ _ _ _ _ hrequest
    (by rfl : [lit "GET /", getHead.drop 5 ++ [LF]].flatten = getHead ++ LF :: []) (by decide)
    exampleAnswers⟩

end Sys

end ImageProxy
