import ImageProxy.Connection.Messages
import ImageProxy.Http.HttpParse
import ImageProxy.ImageCache
import ImageProxy.Library.StepSystem

set_option autoImplicit false

/-! # A connection (`connection.h`, `connection.cpp`)

A `Connection` serves one client request: it reads the request, asks the webhdfs server for the file,
follows its redirects, has the first page of the file rendered by the task pool, and writes the image
back. Everything happens in completion handlers. A handler starts the next asynchronous operation, or
none, in which case the last reference to the connection is gone.

`Sys` is the connection with what its handlers can see of the rest: the streams, the image cache, the
operations outstanding. An `Event` is the completion of one of these, with the answers of the
components that the handler then calls. plcl, which reads documents and renders pages, is not part of
the repository; its answers are inputs. -/

namespace ImageProxy

open Ascii Cpcl Http

/-! ## The state -/

/-- The members of `Connection`. -/
structure Connection where
  host : Bytes
  port : Bytes
  buffer : Buffer
  parser : HttpParser
  image : Option StreamId
  webhdfsPath : Bytes
  imagePath : Bytes
  statusCode : ℤ
  page : PageInfo
  query : Query

/-- A call that changes the size of a page. -/
inductive PageCall where
  | width (n : ℕ)
  | height (n : ℕ)
deriving DecidableEq, Repr

/-- The asynchronous operations, and the render task. -/
inductive Op where
  | readRequest
  | resolve (host port : Bytes)
  | connect (endpointsLeft : ℕ)
  | writeRequest (data : Bytes)
  | readResponse
  | render (calls : List PageCall) (out : StreamId)
  | writeResponse (data : Bytes)
deriving DecidableEq, Repr

/-- The connection and what is around it. The last group of fields is not in the source: it notes the
calls of `SendRequest`, what was handed to `LoadDoc`, the responses started, and what has happened to
the request, the client and the task pool. -/
structure Sys where
  conn : Connection
  streams : Streams
  nextStream : StreamId
  cache : ImageCache Bytes StreamId
  pixfmts : List ℕ
  pending : List Op
  fault : Bool
  requested : List Bytes
  documents : List Bytes
  sent : List ℤ
  accepted : Bool
  clientError : Bool
  stopped : Bool

/-- What the components called by a handler answer. `document` is what `LoadDoc` returns, and in it
what `GetPage(0)` returns; `cursor` is where `LoadDoc` leaves the cursor of the stream;
`scaledHeight` is the height of the page after a change of its width. -/
structure Answers where
  getLocked : Bool
  putLocked : Bool
  document : Option (Option PageInfo)
  cursor : ℕ
  scaledHeight : ℕ
  addTask : Bool

/-- How a read ends. -/
inductive Outcome where
  | success
  | eof
  | error
deriving DecidableEq, Repr

namespace Sys

/-- Start an asynchronous operation. -/
def start (op : Op) (s : Sys) : Sys := { s with pending := op :: s.pending }

def modify (f : Connection → Connection) (s : Sys) : Sys := { s with conn := f s.conn }

def putStream (id : StreamId) (stream : DynamicMemoryStream) (s : Sys) : Sys :=
  { s with streams := Function.update s.streams id stream }

/-- `stream->Seek(position, SEEK_SET, NULL)`. -/
def seek (id : StreamId) (position : ℤ) (s : Sys) : Sys :=
  s.putStream id ((s.streams id).seek position .set).2

/-- `new DynamicMemoryStream()`. -/
def newStream (s : Sys) : StreamId × Sys :=
  (s.nextStream,
    { s with nextStream := s.nextStream + 1 }.putStream s.nextStream DynamicMemoryStream.fresh)

/-! ## Answering the client -/

/-- The end of `SendResponse`: the status is kept and the head of the response is written. -/
def beginResponse (code : ℤ) (responseLen : ℕ) (s : Sys) : Sys :=
  let text := buildResponse s.pixfmts code s.conn.query.json s.conn.page responseLen
  let s := s.modify fun c => { c with statusCode := code, buffer := c.buffer.fill text }
  { s with sent := s.sent ++ [code] }.start (.writeResponse text)

/-- `Connection::SendResponse`. -/
def sendResponse (code : ℤ) (s : Sys) : Sys :=
  if code = 200 ∧ !s.conn.query.json then
    match s.conn.image with
    | none => s.beginResponse 500 0
    | some image =>
        let s := s.seek image 0
        let responseLen := (s.streams image).size.toNat
        if responseLen = 0 then s.beginResponse 500 0 else s.beginResponse code responseLen
  else (s.modify fun c => { c with image := none }).beginResponse code 0

/-- The next part of the image, as a chunk. An access outside the buffer is a fault. -/
def writeChunk (image : StreamId) (s : Sys) : Sys :=
  let (data, stream) := (s.streams image).read maxChunkSize
  let s := s.putStream image stream
  let s := s.modify fun c => { c with image := if data.length = 0 then none else c.image }
  match (s.conn.buffer.put chunkOffset data).bind (buildChunk · data.length) with
  | none => { s with fault := true }
  | some (buffer, chunk) =>
      (s.modify fun c => { c with buffer := buffer }).start (.writeResponse chunk)

/-- `Connection::handle_write_response`. -/
def handleWriteResponse (ok : Bool) (s : Sys) : Sys :=
  if ok then
    if s.conn.statusCode = 200 then
      match s.conn.image with
      | none => s
      | some image => s.writeChunk image
    else s
  else { s with clientError := true }

/-! ## Making the page -/

/-- `plugin_list->LoadDoc(image.get())`. -/
def loadDoc (a : Answers) (image : StreamId) (s : Sys) : Sys :=
  { s with documents := s.documents ++ [(s.streams image).content] }.seek image a.cursor

/-- `image_cache->Put(image_path, image)`. -/
def putImage (a : Answers) (image : StreamId) (s : Sys) : Sys :=
  { s with cache := s.cache.put a.putLocked s.conn.imagePath (some image) }

/-- `FitPage`. -/
def fitPage (a : Answers) (sw sh : ℕ) : List PageCall :=
  if a.scaledHeight > sh then [.width sw, .height sh] else [.width sw]

/-- The size that the query asks for. -/
def resizePage (a : Answers) (query : Query) : List PageCall :=
  if query.width > 0 ∧ query.height > 0 then fitPage a query.width query.height
  else if query.width = 0 ∧ query.height > 0 then [.height query.height]
  else if query.width > 0 ∧ query.height = 0 then [.width query.width]
  else []

/-- The part of `SendPage` that has a page. -/
def showPage (a : Answers) (page : PageInfo) (s : Sys) : Sys :=
  if s.conn.query.json then
    (s.modify fun c => { c with page := page, image := none }).sendResponse 200
  else
    let (out, s) := s.newStream
    let s := s.modify fun c => { c with image := some out }
    if a.addTask then s.start (.render (resizePage a s.conn.query) out) else s.sendResponse 500

/-- `Connection::SendPage`. It is never called without an image. -/
def sendPage (a : Answers) (s : Sys) : Sys :=
  match s.conn.image with
  | none => s
  | some image =>
      let s := (s.seek image 0).loadDoc a image
      match a.document with
      | some (some page) => (s.putImage a image).showPage a page
      | some none => s
      | none => s.sendResponse 500

/-! ## Asking the server -/

/-- The end of `SendRequest`: `parser.content = image`, and the resolver is asked. -/
def resolve (s : Sys) : Sys :=
  let s := s.modify fun c => { c with parser := { c.parser with content := c.image } }
  s.start (.resolve s.conn.host s.conn.port)

/-- The part of `SendRequest` that looks for the image in the cache; a miss allocates the stream. -/
def getImage (a : Answers) (s : Sys) : Bool × Sys :=
  let s := s.modify fun c => { c with imagePath := c.webhdfsPath }
  let (fresh, s) := s.newStream
  let (image, hit) := s.cache.get a.getLocked fresh s.conn.imagePath
  (hit, s.modify fun c => { c with image := some image })

/-- The image, from the cache or from the server. -/
def fetchImage (a : Answers) (s : Sys) : Sys :=
  match s.conn.image with
  | none =>
      let (hit, s) := s.getImage a
      if hit then s.sendPage a else s.resolve
  | some image => (s.seek image 0).resolve

/-- `Connection::SendRequest`. -/
def sendRequest (a : Answers) (requestPath : Bytes) (s : Sys) : Sys :=
  let s := { s with requested := s.requested ++ [requestPath] }
  if stringEqualsIgnoreCaseASCII requestPath (lit "/favicon.ico") then s.sendResponse 404
  else (s.modify fun c => { c with webhdfsPath := requestPath }).fetchImage a

/-- `if (bytes_transferred > 0) invalid = !parser.Parse(...)`. -/
def parse (data : Bytes) (s : Sys) : Bool × Sys :=
  let s := s.modify fun c => { c with buffer := c.buffer.fill data }
  let (ok, parser, streams) :=
    if data.length > 0 then s.conn.parser.parse s.streams data
    else (true, s.conn.parser, s.streams)
  (!ok, { s.modify fun c => { c with parser := parser } with streams := streams })

/-- The part of `handle_read_request` that has a complete head. If `GetQuery` throws, the handler is
left and nothing is started. -/
def acceptRequest (a : Answers) (s : Sys) : Sys :=
  let s := { s with accepted := true }
  match Query.get s.conn.parser.url with
  | none => s
  | some query =>
      let s := s.modify fun c => { c with query := query }
      if s.conn.parser.parser.method ≠ .get ∨ query.requestPath.length < 2 then s.sendResponse 400
      else
        (s.modify fun c => { c with webhdfsPath := query.requestPath }).sendRequest a
          query.requestPath

/-- `Connection::handle_read_request`. -/
def handleReadRequest (ec : Outcome) (data : Bytes) (a : Answers) (s : Sys) : Sys :=
  if ec ≠ .error then
    let (invalidRequest, s) := s.parse data
    let invalidRequest :=
      if !invalidRequest ∧ ec = .eof then !s.conn.parser.headersComplete else invalidRequest
    if invalidRequest then s.sendResponse 400
    else if s.conn.parser.headersComplete then s.acceptRequest a
    else s.start .readRequest
  else { s with clientError := true }

/-- `Connection::handle_resolve`; `endpoints` is the number of endpoints after the first. -/
def handleResolve (endpoints : Option ℕ) (s : Sys) : Sys :=
  match endpoints with
  | some n => s.start (.connect n)
  | none => s

/-- `Connection::handle_connect`. -/
def handleConnect (ok : Bool) (endpointsLeft : ℕ) (s : Sys) : Sys :=
  if ok then
    let text := buildRequest s.conn.host s.conn.webhdfsPath
    (s.modify fun c => { c with buffer := c.buffer.fill text }).start (.writeRequest text)
  else
    match endpointsLeft with
    | n + 1 => s.start (.connect n)
    | 0 => s

/-- `Connection::handle_write_request`. -/
def handleWriteRequest (ok : Bool) (s : Sys) : Sys :=
  if ok then (s.modify fun c => { c with parser := c.parser.reset false }).start .readResponse
  else s

end Sys

/-! ## Redirects -/

/-- `WEBHDFS_REQUEST_PREFIX`. -/
def webhdfsRequestPrefix : Bytes := lit "/webhdfs/v1"

/-- A path without the prefix that `BuildRequest` puts before it. -/
def stripPrefix (path : Bytes) : Bytes :=
  if webhdfsRequestPrefix.isPrefixOf path then path.drop webhdfsRequestPrefix.length else path

/-- `Connection::SetLocation`: the members it assigns before it fails stay assigned. -/
def Connection.setLocation (uri : Bytes) (c : Connection) : Bool × Connection :=
  let url := (httpParserParseUrl uri).2
  if url.fieldSet .host then
    let c := { c with host := url.piece .host uri }
    let c := { c with port := if url.fieldSet .port then url.piece .port uri else lit "80" }
    if url.fieldSet .path then
      (true, { c with webhdfsPath := stripPrefix (url.piece .path uri) })
    else (false, c)
  else (false, c)

/-- `redirect_status_codes`. -/
def redirectStatusCodes : List ℤ := [301, 302, 303, 307]

namespace Sys

/-- The redirect branch of `handle_read_webhdfs_response`. -/
def redirect (a : Answers) (s : Sys) : Sys :=
  match HttpParser.getHeader s.conn.parser.toFields (lit "Location") with
  | none => s.sendResponse 500
  | some uri =>
      let (located, conn) := s.conn.setLocation uri
      let s := { s with conn := conn }
      if !located then s.sendResponse 500 else s.sendRequest a s.conn.webhdfsPath

/-- `Connection::handle_read_webhdfs_response`. -/
def handleReadWebhdfsResponse (ec : Outcome) (data : Bytes) (a : Answers) (s : Sys) : Sys :=
  if ec ≠ .error then
    let (invalidResponse, s) := s.parse data
    let parser := s.conn.parser
    let invalidResponse :=
      if !invalidResponse ∧ ec = .eof ∧ !parser.headersComplete then true else invalidResponse
    if invalidResponse then s.sendResponse 500
    else if parser.headersComplete ∧ parser.statusCode ∈ redirectStatusCodes then s.redirect a
    else if parser.headersComplete then
      if parser.statusCode ≠ 200 then s.sendResponse parser.statusCode
      else if parser.messageComplete then s.sendPage a
      else if ec = .eof then s.sendResponse 500
      else s.start .readResponse
    else s.start .readResponse
  else s

/-- An answer that is no image. -/
theorem sent_sendResponse {code : ℤ} (hcode : code ≠ 200) (s : Sys) :
    (s.sendResponse code).sent = s.sent ++ [code] := by
  rw [sendResponse, if_neg (by simp [hcode])]
  rfl

/-- `handle_read_request` without its flag. -/
theorem handleReadRequest_eq {ec : Outcome} (hec : ec ≠ .error) (data : Bytes) (a : Answers)
    (s : Sys) :
    s.handleReadRequest ec data a =
      if (s.parse data).1 then (s.parse data).2.sendResponse 400
      else if (s.parse data).2.conn.parser.headersComplete then (s.parse data).2.acceptRequest a
      else if ec = .eof then (s.parse data).2.sendResponse 400
      else (s.parse data).2.start .readRequest := by
  simp only [handleReadRequest, if_pos hec]
  cases (s.parse data).1 <;> cases (s.parse data).2.conn.parser.headersComplete <;>
    by_cases heof : ec = .eof <;> simp [heof]

/-- `handle_read_webhdfs_response` without its flags. -/
theorem handleReadWebhdfsResponse_eq {ec : Outcome} (hec : ec ≠ .error) (data : Bytes) (a : Answers)
    (s : Sys) :
    s.handleReadWebhdfsResponse ec data a =
      if (s.parse data).1 then (s.parse data).2.sendResponse 500
      else if (s.parse data).2.conn.parser.headersComplete then
        if (s.parse data).2.conn.parser.statusCode ∈ redirectStatusCodes then
          (s.parse data).2.redirect a
        else if (s.parse data).2.conn.parser.statusCode ≠ 200 then
          (s.parse data).2.sendResponse (s.parse data).2.conn.parser.statusCode
        else if (s.parse data).2.conn.parser.messageComplete then (s.parse data).2.sendPage a
        else if ec = .eof then (s.parse data).2.sendResponse 500
        else (s.parse data).2.start .readResponse
      else if ec = .eof then (s.parse data).2.sendResponse 500
      else (s.parse data).2.start .readResponse := by
  simp only [handleReadWebhdfsResponse, if_pos hec]
  cases (s.parse data).1 <;> cases (s.parse data).2.conn.parser.headersComplete <;>
    by_cases heof : ec = .eof <;> simp [heof]

/-- The worker that renders the page: it writes the pieces of the image, and answers. -/
def handleRendered (pieces : List Bytes) (ok : Bool) (out : StreamId) (s : Sys) : Sys :=
  let stream := pieces.foldl (fun stream piece => (stream.write piece).2) (s.streams out)
  (s.putStream out stream).sendResponse (if ok then 200 else 500)

/-! ## Runs -/

/-- The operation that completes, found in the list of those outstanding. -/
def takeOp {β : Type} (f : Op → Option β) : List Op → Option (β × List Op)
  | [] => none
  | op :: ops =>
      match f op with
      | some b => some (b, ops)
      | none => (takeOp f ops).map fun r => (r.1, op :: r.2)

/-- Take the operation out of those outstanding. -/
def complete {β : Type} (f : Op → Option β) (s : Sys) : Option (β × Sys) :=
  (takeOp f s.pending).map fun r => (r.1, { s with pending := r.2 })

/-- What can happen. `abandoned` is a render task that `TaskPool::Stop` takes away, or whose worker
exits without answering. `others` is what other connections do to the cache. -/
inductive Event where
  | readRequest (ec : Outcome) (data : Bytes) (a : Answers)
  | resolved (endpoints : Option ℕ)
  | connected (ok : Bool)
  | wroteRequest (ok : Bool)
  | readResponse (ec : Outcome) (data : Bytes) (a : Answers)
  | rendered (pieces : List Bytes) (ok : Bool)
  | wroteResponse (ok : Bool)
  | stop
  | abandoned
  | others (cache : ImageCache Bytes StreamId)

/-- One event; `none` if it cannot happen. A read transfers no more than the buffer holds. -/
def step (s : Sys) : Event → Option Sys
  | .readRequest ec data a =>
      if data.length ≤ bufferSize then
        (s.complete fun op => if op = .readRequest then some () else none).map
          fun r => r.2.handleReadRequest ec data a
      else none
  | .resolved endpoints =>
      (s.complete fun op => match op with | .resolve _ _ => some () | _ => none).map
        fun r => r.2.handleResolve endpoints
  | .connected ok =>
      (s.complete fun op => match op with | .connect n => some n | _ => none).map
        fun r => r.2.handleConnect ok r.1
  | .wroteRequest ok =>
      (s.complete fun op => match op with | .writeRequest _ => some () | _ => none).map
        fun r => r.2.handleWriteRequest ok
  | .readResponse ec data a =>
      if data.length ≤ bufferSize then
        (s.complete fun op => if op = .readResponse then some () else none).map
          fun r => r.2.handleReadWebhdfsResponse ec data a
      else none
  | .rendered pieces ok =>
      (s.complete fun op => match op with | .render _ out => some out | _ => none).map
        fun r => r.2.handleRendered pieces ok r.1
  | .wroteResponse ok =>
      (s.complete fun op => match op with | .writeResponse _ => some () | _ => none).map
        fun r => r.2.handleWriteResponse ok
  | .stop => some { s with stopped := true }
  | .abandoned =>
      if s.stopped then
        (s.complete fun op => match op with | .render _ _ => some () | _ => none).map fun r => r.2
      else none
  | .others cache => some { s with cache := cache }

/-- `Connection::Connection` and `Connection::Start`, with whatever streams and cache there are, and
whatever is in the buffer. -/
def init (host port : Bytes) (buffer : Buffer) (streams : Streams) (nextStream : StreamId)
    (cache : ImageCache Bytes StreamId) (pixfmts : List ℕ) : Sys where
  conn :=
    { host := host
      port := port
      buffer := buffer
      parser := { HttpParser.new true with content := some nextStream }
      image := none
      webhdfsPath := []
      imagePath := []
      statusCode := -1
      page := ⟨0, 0, pixfmts.headD 0⟩
      query := Query.empty }
  streams := Function.update streams nextStream DynamicMemoryStream.fresh
  nextStream := nextStream + 1
  cache := cache
  pixfmts := pixfmts
  pending := [.readRequest]
  fault := false
  requested := []
  documents := []
  sent := []
  accepted := false
  clientError := false
  stopped := false

/-- A connection with an empty cache: the fixed runs start here. -/
def exampleInit : Sys :=
  init (lit "localhost") (lit "50070") ⟨List.replicate bufferSize 0, by simp⟩
    (fun _ => DynamicMemoryStream.fresh) 0 (ImageCache.new 0x10) [0]

/-- What the components answer in the fixed runs: the document and its page are there. -/
def exampleAnswers : Answers := ⟨true, true, some (some ⟨100, 100, 0⟩), 0, 100, true⟩

end Sys

end ImageProxy
