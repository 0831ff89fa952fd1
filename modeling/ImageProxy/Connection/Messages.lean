import Mathlib.Data.Int.Notation
import ImageProxy.Cpcl.StringUtil
import ImageProxy.Connection.Query

set_option autoImplicit false

/-! # What a connection writes (`BuildRequest`, `BuildResponse`, `BuildChunk`)

All three build their text in the buffer that the connection also reads into. Texts are written by
`StringFormat` and `StringCopy`, which cut what does not fit; chunks are written by `memcpy`, which
does not. -/

namespace ImageProxy

open Ascii Cpcl

/-! ## The buffer -/

/-- `buffer.size()`. -/
def bufferSize : ℕ := 0x1000

/-- `boost::array<unsigned char, 0x1000>`. -/
structure Buffer where
  bytes : Bytes
  size : bytes.length = bufferSize

namespace Buffer

/-- `memcpy(buffer.data() + off, data, data.size())`; `none` if that leaves the buffer. -/
def put (b : Buffer) (off : ℕ) (data : Bytes) : Option Buffer :=
  if h : off + data.length ≤ bufferSize then
    some ⟨b.bytes.take off ++ data ++ b.bytes.drop (off + data.length), by
      simp only [List.length_append, List.length_take, List.length_drop, b.size]
      omega⟩
  else none

/-- The `len` bytes from `off` on; `none` if they are not all in the buffer. -/
def slice (b : Buffer) (off len : ℕ) : Option Bytes :=
  if off + len ≤ bufferSize then some ((b.bytes.drop off).take len) else none

/-- A text, or the bytes of a read, at the start of the buffer. -/
def fill (b : Buffer) (data : Bytes) : Buffer := (b.put 0 data).getD b

theorem put_bytes {b b' : Buffer} {off : ℕ} {data : Bytes} (h : b.put off data = some b') :
    b'.bytes = b.bytes.take off ++ data ++ b.bytes.drop (off + data.length) := by
  simp only [put] at h
  split at h
  · cases h
    rfl
  · exact absurd h (by simp)

theorem put_isSome {b : Buffer} {off : ℕ} {data : Bytes} (h : off + data.length ≤ bufferSize) :
    ∃ b', b.put off data = some b' := by
  rw [put, dif_pos h]
  exact ⟨_, rfl⟩

end Buffer

/-! ## Texts -/

/-- `StringAdvance`: copy `s` behind the text that is in the buffer already. -/
def stringAdvance (text s : Bytes) : Bytes := text ++ stringCopy (bufferSize - text.length) s

/-- `WriteHeader`. -/
def writeHeader (text name value : Bytes) : Bytes :=
  stringAdvance (stringAdvance (stringAdvance (stringAdvance text name) (lit ": ")) value)
    (lit "\r\n")

/-- `Connection::BuildRequest`: the bytes of the request. -/
def buildRequest (host requestPath : Bytes) : Bytes :=
  let text := stringFormat bufferSize
    (lit "GET /webhdfs/v1" ++ cString requestPath ++ lit "?op=OPEN HTTP/1.1\r\n")
  let text := writeHeader text (lit "Host") host
  let text := writeHeader text (lit "Connection") (lit "close")
  stringAdvance text (lit "\r\n")

/-- `responses`. -/
def responses : List (ℤ × Bytes) :=
  [(200, lit "OK"), (302, lit "Found"), (400, lit "Invalid request"), (404, lit "Not Found"),
   (500, lit "Server error")]

/-- The message of a status code: the entry `std::lower_bound` finds, if it has that code. -/
def statusMessage (code : ℤ) : Bytes :=
  match responses.find? fun r => !(r.1 < code) with
  | some r => if r.1 = code then r.2 else lit "Not Implemented"
  | none => lit "Not Implemented"

/-- `pf_s`. -/
def pixfmtNames : List Bytes :=
  [lit "invalid", lit "gray8", lit "rgb24", lit "bgr24", lit "rgba32", lit "argb32", lit "abgr32",
   lit "bgra32"]

/-- The name of a pixel format. `pf` are the values of the eight `PLCL_PIXEL_FORMAT_*` constants in
the order of `pf_s`, which ascend; the index of one that is not among them is 0. -/
def pixfmtName (pf : List ℕ) (pixfmt : ℕ) : Bytes :=
  let i := (pf.takeWhile (· < pixfmt)).length
  pixfmtNames.getD (if pf[i]? = some pixfmt then i else 0) []

/-- What a page says of itself. -/
structure PageInfo where
  width : ℕ
  height : ℕ
  pixfmt : ℕ
deriving DecidableEq, Repr

/-- The document of an `info` request. -/
def jsonResponse (pf : List ℕ) (page : PageInfo) : Bytes :=
  stringFormat 0x100
    (lit "\x7b'width' : '" ++ numeral 10 page.width ++ lit "', 'height' : '" ++ numeral 10 page.height
      ++ lit "', 'pf' : '" ++ pixfmtName pf page.pixfmt ++ lit "'\x7d")

/-- `Connection::BuildResponse`: the bytes of the response. The length it is given is not used. -/
def buildResponse (pf : List ℕ) (code : ℤ) (json : Bool) (page : PageInfo) (_responseLen : ℕ) :
    Bytes :=
  let text := stringFormat bufferSize
    (lit "HTTP/1.1 " ++ signedNumeral code ++ lit " " ++ statusMessage code ++ lit "\r\n")
  let text :=
    if code = 200 then
      let text := writeHeader text (lit "Connection") (lit "close")
      if !json then
        let text := writeHeader text (lit "Content-Type") (lit "image/jpeg")
        writeHeader text (lit "Transfer-Encoding") (lit "chunked")
      else
        let text := writeHeader text (lit "Content-Type") (lit "application/json")
        writeHeader text (lit "Content-Length")
          (stringFormat 0x10 (numeral 10 (jsonResponse pf page).length))
    else text
  let text := stringAdvance text (lit "\r\n")
  if code = 200 ∧ json then text ++ (jsonResponse pf page).take (bufferSize - text.length) else text

/-! ## Chunks -/

/-- `CHUNK_OFFSET`. -/
def chunkOffset : ℕ := 6

/-- `MAX_CHUNK_SIZE`. -/
def maxChunkSize : ℕ := 0x1000 - 8

/-- `Connection::BuildChunk` of the `chunkSize` bytes at `CHUNK_OFFSET`: the buffer, and the bytes to
write; `none` if an access leaves the buffer. -/
def buildChunk (buffer : Buffer) (chunkSize : ℕ) : Option (Buffer × Bytes) := do
  let tmp := stringFormat (chunkOffset + 1) (numeral 16 (chunkSize % 2 ^ 32) ++ lit "\r\n")
  let n := tmp.length
  let buffer ← buffer.put (chunkOffset - n) tmp
  let buffer ← buffer.put (chunkOffset + chunkSize) (lit "\r\n")
  let chunk ← buffer.slice (chunkOffset - n) (chunkSize + n + 2)
  some (buffer, chunk)

end ImageProxy
