import ImageProxy.Library.Ascii

set_option autoImplicit false

/-! # The HTTP parser: states, character classes, switch (`http_parser.h`, `http_parser.c`)

`http_parser_execute` is a loop over the bytes around one big `switch` on the state. This file has
the parser record and the switch. A case of the switch does two kinds of things: it changes the
fields of the parser, and it runs the macros that touch the caller's data (`MARK`, `CALLBACK_DATA`,
`CALLBACK_NOTIFY`). The first is computed at once, the second is returned as a small program `Code`
for the loop to run, so that the switch can be read, and reasoned about, without any callback.

The build is the default one, `HTTP_PARSER_STRICT` set. A `goto reexecute_byte` is a call of the case
of the new state. -/

namespace ImageProxy.Http

open Ascii

/-! ## The parser -/

inductive ParserType where
  | request
  | response
  | both
deriving DecidableEq, Repr

/-- `enum http_method`, in the order of the source. -/
inductive Method where
  | delete | get | head | post | put
  | connect | options | trace
  | copy | lock | mkcol | move | propfind | proppatch | search | unlock
  | report | mkactivity | checkout | merge
  | msearch | notify | subscribe | unsubscribe
  | patch | purge
deriving DecidableEq, Repr

/-- `enum http_errno`. The first group is raised by callbacks. -/
inductive Errno where
  | ok
  | cbMessageBegin | cbStatusComplete | cbUrl | cbHeaderField | cbHeaderValue | cbHeadersComplete
  | cbBody | cbMessageComplete
  | invalidEofState | headerOverflow | closedConnection | invalidVersion | invalidStatus
  | invalidMethod | invalidUrl | lfExpected | invalidHeaderToken | invalidContentLength
  | invalidChunkSize | invalidConstant | strict | unknown
deriving DecidableEq, Repr

/-- `enum state`. -/
inductive State where
  | dead
  | startReqOrRes | resOrRespH
  | startRes | resH | resHT | resHTT | resHTTP
  | resFirstHttpMajor | resHttpMajor | resFirstHttpMinor | resHttpMinor
  | resFirstStatusCode | resStatusCode | resStatus | resLineAlmostDone
  | startReq
  | reqMethod | reqSpacesBeforeUrl
  | reqSchema | reqSchemaSlash | reqSchemaSlashSlash | reqServerStart | reqServer | reqServerWithAt
  | reqPath | reqQueryStringStart | reqQueryString | reqFragmentStart | reqFragment
  | reqHttpStart | reqHttpH | reqHttpHT | reqHttpHTT | reqHttpHTTP
  | reqFirstHttpMajor | reqHttpMajor | reqFirstHttpMinor | reqHttpMinor | reqLineAlmostDone
  | headerFieldStart | headerField | headerValueStart | headerValue | headerValueLws
  | headerAlmostDone
  | chunkSizeStart | chunkSize | chunkParameters | chunkSizeAlmostDone
  | headersAlmostDone | headersDone
  | chunkData | chunkDataAlmostDone | chunkDataDone
  | bodyIdentity | bodyIdentityEof
  | messageDone
deriving DecidableEq, Repr

/-- `enum header_states`. -/
inductive HeaderState where
  | general | c | co | con
  | matchingConnection | matchingProxyConnection | matchingContentLength
  | matchingTransferEncoding | matchingUpgrade
  | connection | contentLength | transferEncoding | upgrade
  | matchingTransferEncodingChunked | matchingConnectionKeepAlive | matchingConnectionClose
  | transferEncodingChunked | connectionKeepAlive | connectionClose
deriving DecidableEq, Repr

/-- The `F_*` bits of `flags`. -/
structure Flags where
  chunked : Bool
  connectionKeepAlive : Bool
  connectionClose : Bool
  trailing : Bool
  upgrade : Bool
  skipbody : Bool
deriving DecidableEq, Repr

/-- `flags = 0`. -/
def Flags.none : Flags := ⟨false, false, false, false, false, false⟩

/-- `http_parser`. The narrow unsigned fields are natural numbers: the switch checks each of them
before it could outgrow its type. `content_length` is taken modulo 2 ^ 64 where it is computed. -/
structure Parser where
  type : ParserType
  flags : Flags
  state : State
  headerState : HeaderState
  index : ℕ
  nread : ℕ
  contentLength : ℕ
  httpMajor : ℕ
  httpMinor : ℕ
  statusCode : ℕ
  method : Method
  httpErrno : Errno
  upgrade : Bool
deriving DecidableEq, Repr

/-- `ULLONG_MAX`, the `content_length` of a message that has none. -/
def ullongMax : ℕ := 2 ^ 64 - 1

/-- `HTTP_MAX_HEADER_SIZE`. -/
def maxHeaderSize : ℕ := 80 * 1024

/-- `http_parser_init`; zeroing the record makes the method `HTTP_DELETE`. -/
def Parser.init (type : ParserType) : Parser where
  type := type
  flags := Flags.none
  state := match type with
    | .request => .startReq
    | .response => .startRes
    | .both => .startReqOrRes
  headerState := .general
  index := 0
  nread := 0
  contentLength := 0
  httpMajor := 0
  httpMinor := 0
  statusCode := 0
  method := .delete
  httpErrno := .ok
  upgrade := false

/-- `http_message_needs_eof`. -/
def Parser.messageNeedsEof (parser : Parser) : Bool :=
  if parser.type = .request then false
  else if parser.statusCode / 100 = 1 ∨ parser.statusCode = 204 ∨ parser.statusCode = 304
      ∨ parser.flags.skipbody then false
  else if parser.flags.chunked ∨ parser.contentLength ≠ ullongMax then false
  else true

/-- `http_should_keep_alive`. -/
def Parser.shouldKeepAlive (parser : Parser) : Bool :=
  if parser.httpMajor > 0 ∧ parser.httpMinor > 0 then
    if parser.flags.connectionClose then false else !parser.messageNeedsEof
  else
    if !parser.flags.connectionKeepAlive then false else !parser.messageNeedsEof

/-- `start_state`. -/
def Parser.startState (parser : Parser) : State :=
  if parser.type = .request then .startReq else .startRes

/-- `NEW_MESSAGE()`. -/
def Parser.newMessage (parser : Parser) : State :=
  if parser.shouldKeepAlive then parser.startState else .dead

/-- `PARSING_HEADER(state)`: the states up to `s_headers_done`. -/
def State.parsingHeader : State → Bool
  | .chunkData | .chunkDataAlmostDone | .chunkDataDone => false
  | .bodyIdentity | .bodyIdentityEof | .messageDone => false
  | _ => true

/-! ## Character classes -/

def CR : UInt8 := 13

def LF : UInt8 := 10

/-- `LOWER(c)`. -/
def lower (c : UInt8) : UInt8 := c ||| 0x20

def isAlpha (c : UInt8) : Bool := asc 'a' ≤ lower c && lower c ≤ asc 'z'

def isNum (c : UInt8) : Bool := asc '0' ≤ c && c ≤ asc '9'

def isAlphanum (c : UInt8) : Bool := isAlpha c || isNum c

def isHex (c : UInt8) : Bool := isNum c || (asc 'a' ≤ lower c && lower c ≤ asc 'f')

/-- `IS_MARK(c)`. -/
def isMark (c : UInt8) : Bool := (lit "-_.!~*'()").contains c

/-- `IS_USERINFO_CHAR(c)`. -/
def isUserinfoChar (c : UInt8) : Bool := isAlphanum c || isMark c || (lit "%;:&=+$,").contains c

/-- `IS_HOST_CHAR(c)`. -/
def isHostChar (c : UInt8) : Bool := isAlphanum c || c == asc '.' || c == asc '-'

/-- `IS_URL_CHAR(c)`: the bits set in `normal_url_char`, all visible characters but `#` and `?`. -/
def isUrlChar (c : UInt8) : Bool :=
  asc '!' ≤ c && c ≤ asc '~' && c != asc '#' && c != asc '?'

/-- `TOKEN(c)`, the table `tokens`: letters in lower case, digits and some punctuation stand for
themselves, every other byte is 0. -/
def token (c : UInt8) : UInt8 :=
  if isAlpha c then lower c
  else if isNum c || (lit "!#$%&'*+-.^_`|~").contains c then c
  else 0

/-- The table `unhex`. It has 256 entries of which only the first half is written out: above 127 the
rest of the initialiser is zero, so those bytes read as the digit 0. -/
def unhex (c : UInt8) : Option ℕ := if 128 ≤ c then some 0 else hexValue c

/-- `ch - '0'` of a digit. -/
def digitValue (c : UInt8) : ℕ := c.toNat - 48

/-! ## The URL automaton -/

/-- `parse_url_char`. -/
def parseUrlChar (s : State) (ch : UInt8) : State :=
  if ch = asc ' ' ∨ ch = CR ∨ ch = LF then .dead
  else if ch = asc '\t' ∨ ch = 12 then .dead
  else match s with
    | .reqSpacesBeforeUrl =>
        if ch = asc '/' ∨ ch = asc '*' then .reqPath
        else if isAlpha ch then .reqSchema
        else .dead
    | .reqSchema =>
        if isAlpha ch then .reqSchema
        else if ch = asc ':' then .reqSchemaSlash
        else .dead
    | .reqSchemaSlash => if ch = asc '/' then .reqSchemaSlashSlash else .dead
    | .reqSchemaSlashSlash => if ch = asc '/' then .reqServerStart else .dead
    | .reqServerWithAt => if ch = asc '@' then .dead else server ch
    | .reqServerStart => server ch
    | .reqServer => server ch
    | .reqPath =>
        if isUrlChar ch then .reqPath
        else if ch = asc '?' then .reqQueryStringStart
        else if ch = asc '#' then .reqFragmentStart
        else .dead
    | .reqQueryStringStart => query ch
    | .reqQueryString => query ch
    | .reqFragmentStart =>
        if isUrlChar ch then .reqFragment
        else if ch = asc '?' then .reqFragment
        else if ch = asc '#' then .reqFragmentStart
        else .dead
    | .reqFragment =>
        if isUrlChar ch then .reqFragment
        else if ch = asc '?' ∨ ch = asc '#' then .reqFragment
        else .dead
    | _ => .dead
where
  /-- The case shared by `s_req_server_start`, `s_req_server` and `s_req_server_with_at`. -/
  server (ch : UInt8) : State :=
    if ch = asc '/' then .reqPath
    else if ch = asc '?' then .reqQueryStringStart
    else if ch = asc '@' then .reqServerWithAt
    else if isUserinfoChar ch ∨ ch = asc '[' ∨ ch = asc ']' then .reqServer
    else .dead
  /-- The case shared by `s_req_query_string_start` and `s_req_query_string`. -/
  query (ch : UInt8) : State :=
    if isUrlChar ch then .reqQueryString
    else if ch = asc '?' then .reqQueryString
    else if ch = asc '#' then .reqFragmentStart
    else .dead

/-! ## What a case of the switch asks the loop to do -/

/-- The strings the parser marks in the data and passes to data callbacks. -/
inductive Mark where
  | headerField
  | headerValue
  | url
  | body
deriving DecidableEq, Repr

/-- The callbacks without data, `on_headers_complete` apart. -/
inductive Notice where
  | messageBegin
  | statusComplete
  | messageComplete
deriving DecidableEq, Repr

/-- The rest of a case. The parser an action carries is the record at that point. -/
inductive Code where
  /-- `break`: the loop goes on with `p++`. -/
  | next (parser : Parser)
  /-- `SET_ERRNO(errno); goto error`. -/
  | error (parser : Parser) (errno : Errno)
  /-- `return (p - data) + 1`. -/
  | leave (parser : Parser)
  /-- `MARK(m)`. -/
  | mark (m : Mark) (rest : Code)
  /-- `p += n`. -/
  | advance (n : ℕ) (rest : Code)
  /-- `CALLBACK_DATA_(m, p - m_mark + extra, p - data + consumed)`. -/
  | data (m : Mark) (parser : Parser) (extra consumed : ℕ) (rest : Code)
  /-- `CALLBACK_NOTIFY(n)`. -/
  | notify (n : Notice) (parser : Parser) (rest : Code)
  /-- `on_headers_complete`: it may fail, return 0, or return 1 for a message without body. -/
  | headersComplete (parser : Parser) (rest skipBody : Code)

/-- `CALLBACK_DATA(m)`. -/
def Code.callbackData (m : Mark) (parser : Parser) (rest : Code) : Code := .data m parser 0 1 rest

/-- `CALLBACK_DATA_NOADVANCE(m)`. -/
def Code.callbackDataNoadvance (m : Mark) (parser : Parser) (rest : Code) : Code :=
  .data m parser 0 0 rest

/-- `STRICT_CHECK(cond)`. -/
def strictCheck (cond : Bool) (parser : Parser) (rest : Code) : Code :=
  if cond then .error parser .strict else rest

/-! ## The cases of the switch -/

def caseDead (parser : Parser) (ch : UInt8) : Code :=
  if ch = CR ∨ ch = LF then .next parser else .error parser .closedConnection

/-- What the start states reset at the first byte of a message. -/
def Parser.beginMessage (parser : Parser) : Parser :=
  { parser with flags := Flags.none, contentLength := ullongMax }

/-- The method a first letter stands for until more of it is read. -/
def methodOfInitial (ch : UInt8) : Option Method :=
  if ch = asc 'C' then some .connect
  else if ch = asc 'D' then some .delete
  else if ch = asc 'G' then some .get
  else if ch = asc 'H' then some .head
  else if ch = asc 'L' then some .lock
  else if ch = asc 'M' then some .mkcol
  else if ch = asc 'N' then some .notify
  else if ch = asc 'O' then some .options
  else if ch = asc 'P' then some .post
  else if ch = asc 'R' then some .report
  else if ch = asc 'S' then some .subscribe
  else if ch = asc 'T' then some .trace
  else if ch = asc 'U' then some .unlock
  else none

def caseStartReq (parser : Parser) (ch : UInt8) : Code :=
  if ch = CR ∨ ch = LF then .next parser
  else
    let parser := parser.beginMessage
    if !isAlpha ch then .error parser .invalidMethod
    else match methodOfInitial ch with
      | none => .error { parser with method := .delete, index := 1 } .invalidMethod
      | some m =>
          let parser := { parser with method := m, index := 1, state := .reqMethod }
          .notify .messageBegin parser (.next parser)

def caseStartReqOrRes (parser : Parser) (ch : UInt8) : Code :=
  if ch = CR ∨ ch = LF then .next parser
  else
    let parser := parser.beginMessage
    if ch = asc 'H' then
      let parser := { parser with state := .resOrRespH }
      .notify .messageBegin parser (.next parser)
    else caseStartReq { parser with type := .request, state := .startReq } ch

def caseResOrRespH (parser : Parser) (ch : UInt8) : Code :=
  if ch = asc 'T' then .next { parser with type := .response, state := .resHT }
  else if ch ≠ asc 'E' then .error parser .invalidConstant
  else .next { parser with type := .request, method := .head, index := 2, state := .reqMethod }

def caseStartRes (parser : Parser) (ch : UInt8) : Code :=
  let parser := parser.beginMessage
  if ch = asc 'H' then
    let parser := { parser with state := .resH }
    .notify .messageBegin parser (.next parser)
  else if ch = CR ∨ ch = LF then .notify .messageBegin parser (.next parser)
  else .error parser .invalidConstant

/-- The cases that check one letter of `HTTP/`. -/
def caseLetter (letter : UInt8) (next : State) (parser : Parser) (ch : UInt8) : Code :=
  strictCheck (ch ≠ letter) parser (.next { parser with state := next })

def caseResFirstHttpMajor (parser : Parser) (ch : UInt8) : Code :=
  if ch < asc '0' ∨ ch > asc '9' then .error parser .invalidVersion
  else .next { parser with httpMajor := digitValue ch, state := .resHttpMajor }

/-- A further digit of the major version, or the dot after it. -/
def caseHttpMajor (next : State) (parser : Parser) (ch : UInt8) : Code :=
  if ch = asc '.' then .next { parser with state := next }
  else if !isNum ch then .error parser .invalidVersion
  else
    let parser := { parser with httpMajor := parser.httpMajor * 10 + digitValue ch }
    if parser.httpMajor > 999 then .error parser .invalidVersion else .next parser

/-- The first digit of the minor version. -/
def caseFirstHttpMinor (next : State) (parser : Parser) (ch : UInt8) : Code :=
  if !isNum ch then .error parser .invalidVersion
  else .next { parser with httpMinor := digitValue ch, state := next }

/-- A further digit of the minor version. -/
def moreHttpMinor (parser : Parser) (ch : UInt8) : Code :=
  if !isNum ch then .error parser .invalidVersion
  else
    let parser := { parser with httpMinor := parser.httpMinor * 10 + digitValue ch }
    if parser.httpMinor > 999 then .error parser .invalidVersion else .next parser

def caseResHttpMinor (parser : Parser) (ch : UInt8) : Code :=
  if ch = asc ' ' then .next { parser with state := .resFirstStatusCode }
  else moreHttpMinor parser ch

def caseResFirstStatusCode (parser : Parser) (ch : UInt8) : Code :=
  if !isNum ch then
    if ch = asc ' ' then .next parser else .error parser .invalidStatus
  else .next { parser with statusCode := digitValue ch, state := .resStatusCode }

def caseResStatusCode (parser : Parser) (ch : UInt8) : Code :=
  if !isNum ch then
    if ch = asc ' ' then .next { parser with state := .resStatus }
    else if ch = CR then .next { parser with state := .resLineAlmostDone }
    else if ch = LF then .next { parser with state := .headerFieldStart }
    else .error parser .invalidStatus
  else
    let parser := { parser with statusCode := parser.statusCode * 10 + digitValue ch }
    if parser.statusCode > 999 then .error parser .invalidStatus else .next parser

def caseResStatus (parser : Parser) (ch : UInt8) : Code :=
  if ch = CR then .next { parser with state := .resLineAlmostDone }
  else if ch = LF then .next { parser with state := .headerFieldStart }
  else .next parser

def caseResLineAlmostDone (parser : Parser) (ch : UInt8) : Code :=
  strictCheck (ch ≠ LF) parser
    (let parser := { parser with state := .headerFieldStart }
     .notify .statusComplete parser (.next parser))

/-- `method_strings`. -/
def Method.string : Method → String
  | .delete => "DELETE" | .get => "GET" | .head => "HEAD" | .post => "POST" | .put => "PUT"
  | .connect => "CONNECT" | .options => "OPTIONS" | .trace => "TRACE"
  | .copy => "COPY" | .lock => "LOCK" | .mkcol => "MKCOL" | .move => "MOVE"
  | .propfind => "PROPFIND" | .proppatch => "PROPPATCH" | .search => "SEARCH" | .unlock => "UNLOCK"
  | .report => "REPORT" | .mkactivity => "MKACTIVITY" | .checkout => "CHECKOUT" | .merge => "MERGE"
  | .msearch => "M-SEARCH" | .notify => "NOTIFY" | .subscribe => "SUBSCRIBE"
  | .unsubscribe => "UNSUBSCRIBE" | .patch => "PATCH" | .purge => "PURGE"

/-- A character of a C string, 0 at its end. -/
def charAt (s : Bytes) (i : ℕ) : UInt8 := s.getD i 0

/-- A character that is not the next one of the method so far: the method it turns out to be, or an
error. With the index at 2 a character that fits no method is let through. -/
def methodTurn (m : Method) (index : ℕ) (ch : UInt8) : Except Errno Method :=
  if m = .connect then
    if index = 1 ∧ ch = asc 'H' then .ok .checkout
    else if index = 2 ∧ ch = asc 'P' then .ok .copy
    else .error .unknown
  else if m = .mkcol then
    if index = 1 ∧ ch = asc 'O' then .ok .move
    else if index = 1 ∧ ch = asc 'E' then .ok .merge
    else if index = 1 ∧ ch = asc '-' then .ok .msearch
    else if index = 2 ∧ ch = asc 'A' then .ok .mkactivity
    else .error .unknown
  else if m = .subscribe then
    if index = 1 ∧ ch = asc 'E' then .ok .search
    else .error .unknown
  else if index = 1 ∧ m = .post then
    if ch = asc 'R' then .ok .propfind
    else if ch = asc 'U' then .ok .put
    else if ch = asc 'A' then .ok .patch
    else .error .unknown
  else if index = 2 then
    if m = .put then
      if ch = asc 'R' then .ok .purge else .ok m
    else if m = .unlock then
      if ch = asc 'S' then .ok .unsubscribe else .ok m
    else .ok m
  else if index = 4 ∧ m = .propfind ∧ ch = asc 'P' then .ok .proppatch
  else .error .invalidMethod

def caseReqMethod (parser : Parser) (ch : UInt8) : Code :=
  if ch = 0 then .error parser .invalidMethod
  else
    let matcher := charAt (lit parser.method.string) parser.index
    if ch = asc ' ' ∧ matcher = 0 then
      .next { parser with state := .reqSpacesBeforeUrl, index := parser.index + 1 }
    else if ch = matcher then .next { parser with index := parser.index + 1 }
    else match methodTurn parser.method parser.index ch with
      | .error e => .error parser e
      | .ok m => .next { parser with method := m, index := parser.index + 1 }

/-- A character of the URL: the next state of the URL automaton, or an error. -/
def urlChar (parser : Parser) (ch : UInt8) : Code :=
  let parser := { parser with state := parseUrlChar parser.state ch }
  if parser.state = .dead then .error parser .invalidUrl else .next parser

def caseReqSpacesBeforeUrl (parser : Parser) (ch : UInt8) : Code :=
  if ch = asc ' ' then .next parser
  else .mark .url
    (urlChar (if parser.method = .connect then { parser with state := .reqServerStart } else parser)
      ch)

/-- `s_req_schema` to `s_req_server_start`. -/
def caseReqSchema (parser : Parser) (ch : UInt8) : Code :=
  if ch = asc ' ' ∨ ch = CR ∨ ch = LF then .error parser .invalidUrl else urlChar parser ch

/-- `s_req_server` to `s_req_fragment`. -/
def caseReqUrl (parser : Parser) (ch : UInt8) : Code :=
  if ch = asc ' ' then
    let parser := { parser with state := .reqHttpStart }
    .callbackData .url parser (.next parser)
  else if ch = CR ∨ ch = LF then
    let parser := { parser with
      httpMajor := 0
      httpMinor := 9
      state := if ch = CR then .reqLineAlmostDone else .headerFieldStart }
    .callbackData .url parser (.next parser)
  else urlChar parser ch

def caseReqHttpStart (parser : Parser) (ch : UInt8) : Code :=
  if ch = asc 'H' then .next { parser with state := .reqHttpH }
  else if ch = asc ' ' then .next parser
  else .error parser .invalidConstant

def caseReqFirstHttpMajor (parser : Parser) (ch : UInt8) : Code :=
  if ch < asc '1' ∨ ch > asc '9' then .error parser .invalidVersion
  else .next { parser with httpMajor := digitValue ch, state := .reqHttpMajor }

def caseReqHttpMinor (parser : Parser) (ch : UInt8) : Code :=
  if ch = CR then .next { parser with state := .reqLineAlmostDone }
  else if ch = LF then .next { parser with state := .headerFieldStart }
  else moreHttpMinor parser ch

def caseReqLineAlmostDone (parser : Parser) (ch : UInt8) : Code :=
  if ch ≠ LF then .error parser .lfExpected
  else .next { parser with state := .headerFieldStart }

/-- `s_headers_done`. -/
def caseHeadersDone (parser : Parser) (ch : UInt8) : Code :=
  strictCheck (ch ≠ LF) parser
    (let parser := { parser with nread := 0 }
     let complete := { parser with state := parser.newMessage }
     if parser.upgrade then .notify .messageComplete complete (.leave complete)
     else if parser.flags.skipbody then .notify .messageComplete complete (.next complete)
     else if parser.flags.chunked then .next { parser with state := .chunkSizeStart }
     else if parser.contentLength = 0 then .notify .messageComplete complete (.next complete)
     else if parser.contentLength ≠ ullongMax then .next { parser with state := .bodyIdentity }
     else if parser.type = .request ∨ !parser.messageNeedsEof then
       .notify .messageComplete complete (.next complete)
     else .next { parser with state := .bodyIdentityEof })

/-- `s_headers_almost_done`: the end of a chunked message, or of the headers. -/
def caseHeadersAlmostDone (parser : Parser) (ch : UInt8) : Code :=
  strictCheck (ch ≠ LF) parser
    (if parser.flags.trailing then
       let parser := { parser with state := parser.newMessage }
       .notify .messageComplete parser (.next parser)
     else
       let parser := { parser with
         state := .headersDone
         upgrade := parser.flags.upgrade || parser.method = .connect }
       .headersComplete parser (caseHeadersDone parser ch)
         (caseHeadersDone { parser with flags := { parser.flags with skipbody := true } } ch))

/-- The header state a first letter of a field leads to. -/
def headerStateOfInitial (c : UInt8) : HeaderState :=
  if c = asc 'c' then .c
  else if c = asc 'p' then .matchingProxyConnection
  else if c = asc 't' then .matchingTransferEncoding
  else if c = asc 'u' then .matchingUpgrade
  else .general

def caseHeaderFieldStart (parser : Parser) (ch : UInt8) : Code :=
  if ch = CR then .next { parser with state := .headersAlmostDone }
  else if ch = LF then caseHeadersAlmostDone { parser with state := .headersAlmostDone } ch
  else if token ch = 0 then .error parser .invalidHeaderToken
  else .mark .headerField (.next { parser with
    index := 0
    state := .headerField
    headerState := headerStateOfInitial (token ch) })

/-- One more letter of a name being matched, at the index already advanced. -/
def matchLetter (name : Bytes) (matching matched : HeaderState) (index : ℕ) (c : UInt8) :
    HeaderState :=
  if index > name.length ∨ c ≠ charAt name index then .general
  else if index = name.length - 1 then matched
  else matching

/-- The inner switch of `s_header_field`. -/
def fieldLetter (parser : Parser) (ch c : UInt8) : Parser :=
  let index := parser.index + 1
  match parser.headerState with
  | .general => parser
  | .c => { parser with index := index, headerState := if c = asc 'o' then .co else .general }
  | .co => { parser with index := index, headerState := if c = asc 'n' then .con else .general }
  | .con => { parser with
      index := index
      headerState := if c = asc 'n' then .matchingConnection
        else if c = asc 't' then .matchingContentLength
        else .general }
  | .matchingConnection => { parser with
      index := index
      headerState := matchLetter (lit "connection") .matchingConnection .connection index c }
  | .matchingProxyConnection => { parser with
      index := index
      headerState :=
        matchLetter (lit "proxy-connection") .matchingProxyConnection .connection index c }
  | .matchingContentLength => { parser with
      index := index
      headerState := matchLetter (lit "content-length") .matchingContentLength .contentLength index c }
  | .matchingTransferEncoding => { parser with
      index := index
      headerState :=
        matchLetter (lit "transfer-encoding") .matchingTransferEncoding .transferEncoding index c }
  | .matchingUpgrade => { parser with
      index := index
      headerState := matchLetter (lit "upgrade") .matchingUpgrade .upgrade index c }
  | .connection | .contentLength | .transferEncoding | .upgrade =>
      if ch ≠ asc ' ' then { parser with headerState := .general } else parser
  | _ => parser

def caseHeaderField (parser : Parser) (ch : UInt8) : Code :=
  if token ch ≠ 0 then .next (fieldLetter parser ch (token ch))
  else if ch = asc ':' then
    let parser := { parser with state := .headerValueStart }
    .callbackData .headerField parser (.next parser)
  else if ch = CR then
    let parser := { parser with state := .headerAlmostDone }
    .callbackData .headerField parser (.next parser)
  else if ch = LF then
    let parser := { parser with state := .headerFieldStart }
    .callbackData .headerField parser (.next parser)
  else .error parser .invalidHeaderToken

/-- The switch on the header state at the first character of a value. -/
def valueInitial (parser : Parser) (ch : UInt8) : Code :=
  match parser.headerState with
  | .upgrade =>
      .next { parser with flags := { parser.flags with upgrade := true }, headerState := .general }
  | .transferEncoding => .next { parser with
      headerState := if lower ch = asc 'c' then .matchingTransferEncodingChunked else .general }
  | .contentLength =>
      if !isNum ch then .error parser .invalidContentLength
      else .next { parser with contentLength := digitValue ch }
  | .connection => .next { parser with
      headerState := if lower ch = asc 'k' then .matchingConnectionKeepAlive
        else if lower ch = asc 'c' then .matchingConnectionClose
        else .general }
  | _ => .next { parser with headerState := .general }

def caseHeaderValueStart (parser : Parser) (ch : UInt8) : Code :=
  if ch = asc ' ' ∨ ch = asc '\t' then .next parser
  else .mark .headerValue
    (let parser := { parser with state := .headerValue, index := 0 }
     if ch = CR then
       let parser := { parser with headerState := .general, state := .headerAlmostDone }
       .callbackData .headerValue parser (.next parser)
     else if ch = LF then
       let parser := { parser with state := .headerFieldStart }
       .callbackData .headerValue parser (.next parser)
     else valueInitial parser ch)

/-- `t = content_length * base + digit` in `uint64_t`, with the check that follows it. -/
def Parser.pushDigit (parser : Parser) (base digit : ℕ) : Code :=
  let t := (parser.contentLength * base % 2 ^ 64 + digit) % 2 ^ 64
  if t < parser.contentLength ∨ t = ullongMax then .error parser .invalidContentLength
  else .next { parser with contentLength := t }

/-- The switch on the header state at a later character of a value. -/
def valueLetter (parser : Parser) (ch : UInt8) : Code :=
  let c := lower ch
  let index := parser.index + 1
  match parser.headerState with
  | .general => .next parser
  | .connection | .transferEncoding => .next parser
  | .contentLength =>
      if ch = asc ' ' then .next parser
      else if !isNum ch then .error parser .invalidContentLength
      else parser.pushDigit 10 (digitValue ch)
  | .matchingTransferEncodingChunked => .next { parser with
      index := index
      headerState := matchLetter (lit "chunked") .matchingTransferEncodingChunked
        .transferEncodingChunked index c }
  | .matchingConnectionKeepAlive => .next { parser with
      index := index
      headerState := matchLetter (lit "keep-alive") .matchingConnectionKeepAlive
        .connectionKeepAlive index c }
  | .matchingConnectionClose => .next { parser with
      index := index
      headerState := matchLetter (lit "close") .matchingConnectionClose .connectionClose index c }
  | .transferEncodingChunked | .connectionKeepAlive | .connectionClose =>
      if ch ≠ asc ' ' then .next { parser with headerState := .general } else .next parser
  | _ => .next { parser with state := .headerValue, headerState := .general }

def caseHeaderAlmostDone (parser : Parser) (ch : UInt8) : Code :=
  strictCheck (ch ≠ LF) parser
    (let parser := { parser with state := .headerValueLws }
     match parser.headerState with
     | .connectionKeepAlive =>
         .next { parser with flags := { parser.flags with connectionKeepAlive := true } }
     | .connectionClose =>
         .next { parser with flags := { parser.flags with connectionClose := true } }
     | .transferEncodingChunked =>
         .next { parser with flags := { parser.flags with chunked := true } }
     | _ => .next parser)

def caseHeaderValue (parser : Parser) (ch : UInt8) : Code :=
  if ch = CR then
    let parser := { parser with state := .headerAlmostDone }
    .callbackData .headerValue parser (.next parser)
  else if ch = LF then
    let parser := { parser with state := .headerAlmostDone }
    .callbackDataNoadvance .headerValue parser (caseHeaderAlmostDone parser ch)
  else valueLetter parser ch

def caseHeaderValueLws (parser : Parser) (ch : UInt8) : Code :=
  if ch = asc ' ' ∨ ch = asc '\t' then .next { parser with state := .headerValueStart }
  else caseHeaderFieldStart { parser with state := .headerFieldStart } ch

def caseMessageDone (parser : Parser) : Code :=
  let parser := { parser with state := parser.newMessage }
  .notify .messageComplete parser (.next parser)

/-- `s_body_identity`; `avail` is `(data + len) - p`. -/
def caseBodyIdentity (parser : Parser) (avail : ℕ) : Code :=
  let toRead := min parser.contentLength avail
  .mark .body
    (let parser := { parser with contentLength := parser.contentLength - toRead }
     .advance (toRead - 1)
       (if parser.contentLength = 0 then
          let parser := { parser with state := .messageDone }
          .data .body parser 1 0 (caseMessageDone parser)
        else .next parser))

def caseBodyIdentityEof (parser : Parser) (avail : ℕ) : Code :=
  .mark .body (.advance (avail - 1) (.next parser))

def caseChunkSizeStart (parser : Parser) (ch : UInt8) : Code :=
  match unhex ch with
  | none => .error parser .invalidChunkSize
  | some d => .next { parser with contentLength := d, state := .chunkSize }

def caseChunkSize (parser : Parser) (ch : UInt8) : Code :=
  if ch = CR then .next { parser with state := .chunkSizeAlmostDone }
  else match unhex ch with
    | none =>
        if ch = asc ';' ∨ ch = asc ' ' then .next { parser with state := .chunkParameters }
        else .error parser .invalidChunkSize
    | some d => parser.pushDigit 16 d

def caseChunkParameters (parser : Parser) (ch : UInt8) : Code :=
  if ch = CR then .next { parser with state := .chunkSizeAlmostDone } else .next parser

def caseChunkSizeAlmostDone (parser : Parser) (ch : UInt8) : Code :=
  strictCheck (ch ≠ LF) parser
    (let parser := { parser with nread := 0 }
     if parser.contentLength = 0 then
       .next { parser with
         flags := { parser.flags with trailing := true }
         state := .headerFieldStart }
     else .next { parser with state := .chunkData })

def caseChunkData (parser : Parser) (avail : ℕ) : Code :=
  let toRead := min parser.contentLength avail
  .mark .body
    (let parser := { parser with contentLength := parser.contentLength - toRead }
     .advance (toRead - 1)
       (.next (if parser.contentLength = 0 then { parser with state := .chunkDataAlmostDone }
         else parser)))

def caseChunkDataAlmostDone (parser : Parser) (ch : UInt8) : Code :=
  strictCheck (ch ≠ CR) parser
    (let parser := { parser with state := .chunkDataDone }
     .callbackData .body parser (.next parser))

def caseChunkDataDone (parser : Parser) (ch : UInt8) : Code :=
  strictCheck (ch ≠ LF) parser (.next { parser with nread := 0, state := .chunkSizeStart })

/-- The switch of `http_parser_execute` at the byte `ch`, `avail` bytes before the end of the data. -/
def switch (parser : Parser) (ch : UInt8) (avail : ℕ) : Code :=
  match parser.state with
  | .dead => caseDead parser ch
  | .startReqOrRes => caseStartReqOrRes parser ch
  | .resOrRespH => caseResOrRespH parser ch
  | .startRes => caseStartRes parser ch
  | .resH => caseLetter (asc 'T') .resHT parser ch
  | .resHT => caseLetter (asc 'T') .resHTT parser ch
  | .resHTT => caseLetter (asc 'P') .resHTTP parser ch
  | .resHTTP => caseLetter (asc '/') .resFirstHttpMajor parser ch
  | .resFirstHttpMajor => caseResFirstHttpMajor parser ch
  | .resHttpMajor => caseHttpMajor .resFirstHttpMinor parser ch
  | .resFirstHttpMinor => caseFirstHttpMinor .resHttpMinor parser ch
  | .resHttpMinor => caseResHttpMinor parser ch
  | .resFirstStatusCode => caseResFirstStatusCode parser ch
  | .resStatusCode => caseResStatusCode parser ch
  | .resStatus => caseResStatus parser ch
  | .resLineAlmostDone => caseResLineAlmostDone parser ch
  | .startReq => caseStartReq parser ch
  | .reqMethod => caseReqMethod parser ch
  | .reqSpacesBeforeUrl => caseReqSpacesBeforeUrl parser ch
  | .reqSchema | .reqSchemaSlash | .reqSchemaSlashSlash | .reqServerStart =>
      caseReqSchema parser ch
  | .reqServer | .reqServerWithAt | .reqPath | .reqQueryStringStart | .reqQueryString
  | .reqFragmentStart | .reqFragment => caseReqUrl parser ch
  | .reqHttpStart => caseReqHttpStart parser ch
  | .reqHttpH => caseLetter (asc 'T') .reqHttpHT parser ch
  | .reqHttpHT => caseLetter (asc 'T') .reqHttpHTT parser ch
  | .reqHttpHTT => caseLetter (asc 'P') .reqHttpHTTP parser ch
  | .reqHttpHTTP => caseLetter (asc '/') .reqFirstHttpMajor parser ch
  | .reqFirstHttpMajor => caseReqFirstHttpMajor parser ch
  | .reqHttpMajor => caseHttpMajor .reqFirstHttpMinor parser ch
  | .reqFirstHttpMinor => caseFirstHttpMinor .reqHttpMinor parser ch
  | .reqHttpMinor => caseReqHttpMinor parser ch
  | .reqLineAlmostDone => caseReqLineAlmostDone parser ch
  | .headerFieldStart => caseHeaderFieldStart parser ch
  | .headerField => caseHeaderField parser ch
  | .headerValueStart => caseHeaderValueStart parser ch
  | .headerValue => caseHeaderValue parser ch
  | .headerValueLws => caseHeaderValueLws parser ch
  | .headerAlmostDone => caseHeaderAlmostDone parser ch
  | .chunkSizeStart => caseChunkSizeStart parser ch
  | .chunkSize => caseChunkSize parser ch
  | .chunkParameters => caseChunkParameters parser ch
  | .chunkSizeAlmostDone => caseChunkSizeAlmostDone parser ch
  | .headersAlmostDone => caseHeadersAlmostDone parser ch
  | .headersDone => caseHeadersDone parser ch
  | .chunkData => caseChunkData parser avail
  | .chunkDataAlmostDone => caseChunkDataAlmostDone parser ch
  | .chunkDataDone => caseChunkDataDone parser ch
  | .bodyIdentity => caseBodyIdentity parser avail
  | .bodyIdentityEof => caseBodyIdentityEof parser avail
  | .messageDone => caseMessageDone parser

/-- One turn of the loop: in a header state the byte is counted first. -/
def turn (parser : Parser) (ch : UInt8) (avail : ℕ) : Code :=
  if parser.state.parsingHeader then
    let parser := { parser with nread := parser.nread + 1 }
    if parser.nread > maxHeaderSize then .error parser .headerOverflow
    else switch parser ch avail
  else switch parser ch avail

end ImageProxy.Http
