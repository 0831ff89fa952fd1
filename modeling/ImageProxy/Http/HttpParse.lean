import Mathlib.Data.List.GetD
import ImageProxy.Cpcl.DynamicMemoryStream
import ImageProxy.Cpcl.StringUtil
import ImageProxy.Http.Bytewise

set_option autoImplicit false

/-! # The parser of the proxy (`http_parse.hpp`, `http_parse.cpp`)

`net::HttpParser` collects what the callbacks of `http_parser` deliver: the URL, up to sixteen header
fields in buffers of fixed size, the status code, two flags, and the body, which goes to a stream.

Most of that is easier to say without the bounds and without the stream: `Log` is what the callbacks
deliver, all of it. It is lawful, so it does not depend on how the data was cut into reads, and
`parse_eq` carries that over to the real thing. -/

namespace ImageProxy.Http

open Cpcl

/-! ## The source -/

/-- The streams behind the `shared_ptr`s: a pointer is the number of its stream. -/
abbrev StreamId := ℕ

abbrev Streams := StreamId → DynamicMemoryStream

/-- `HttpParser::Header`: the string pieces into `field_buf` and `value_buf`. -/
structure Header where
  field : Bytes
  value : Bytes
deriving DecidableEq, Repr

/-- `Header::Append` for a buffer of `N` bytes. -/
def Header.append (N : ℕ) (s data : Bytes) : Bytes :=
  let n := N - s.length
  if n ≠ 0 then s ++ stringCopy n data else s

def Header.appendField (h : Header) (data : Bytes) : Header :=
  { h with field := append 0x100 h.field data }

def Header.appendValue (h : Header) (data : Bytes) : Header :=
  { h with value := append 0x200 h.value data }

/-- The number of headers kept. -/
def maxHeaders : ℕ := 0x10

/-- The members of `HttpParser` that the callbacks use. `head`, `tail` and `header_it` are indices
into `headers`, of which there are `maxHeaders`. -/
structure Fields where
  headers : ℕ → Header
  head : ℕ
  tail : ℕ
  headerIt : ℕ
  url : Bytes
  statusCode : ℤ
  content : Option StreamId
  headersComplete : Bool
  messageComplete : Bool

/-- `HttpParser`. -/
structure HttpParser extends Fields where
  parser : Parser

namespace Fields

def onMessageBegin (p : Fields) : Fields := { p with headerIt := 0 }

def onHeadersComplete (parser : Parser) (p : Fields) : Fields :=
  { p with
    head := 0
    tail := p.headerIt
    headersComplete := true
    statusCode := parser.statusCode }

def onMessageComplete (p : Fields) : Fields := { p with messageComplete := true }

def onUrl (s : Bytes) (p : Fields) : Fields := { p with url := p.url ++ s }

def onHeaderField (s : Bytes) (p : Fields) : Fields :=
  let p := if p.head ≠ p.headerIt then { p with head := p.headerIt } else p
  if p.head ≠ p.tail then
    { p with headers := Function.update p.headers p.head ((p.headers p.head).appendField s) }
  else p

def onHeaderValue (s : Bytes) (p : Fields) : Fields :=
  if p.head ≠ p.tail then
    let p := if p.head = p.headerIt then { p with headerIt := p.headerIt + 1 } else p
    { p with headers := Function.update p.headers p.head ((p.headers p.head).appendValue s) }
  else p

/-- `on_body`: what `Write` returns is ignored. -/
def onBody (s : Bytes) (p : Fields) (streams : Streams) : ℤ × Fields × Streams :=
  match p.content with
  | none => (1, p, streams)
  | some content => (0, p, Function.update streams content ((streams content).write s).2)

end Fields

/-- The `settings` of `HttpParser`. -/
def settings : Settings (Fields × Streams) where
  onMessageBegin := fun u => (0, u.1.onMessageBegin, u.2)
  onUrl := fun s u => (0, u.1.onUrl s, u.2)
  onStatusComplete := fun u => (0, u)
  onHeaderField := fun s u => (0, u.1.onHeaderField s, u.2)
  onHeaderValue := fun s u => (0, u.1.onHeaderValue s, u.2)
  onHeadersComplete := fun parser u => (0, u.1.onHeadersComplete parser, u.2)
  onBody := fun s u => u.1.onBody s u.2
  onMessageComplete := fun u => (0, u.1.onMessageComplete, u.2)

namespace HttpParser

/-- `HTTP_REQUEST` or `HTTP_RESPONSE`. -/
def type (isRequest : Bool) : ParserType := if isRequest then .request else .response

/-- `HttpParser::HttpParser`; there is no content before `Connection::Start` sets it. -/
def new (isRequest : Bool) : HttpParser where
  headers := fun _ => ⟨[], []⟩
  head := 0
  tail := maxHeaders
  headerIt := 0
  url := []
  statusCode := -1
  content := none
  headersComplete := false
  messageComplete := false
  parser := Parser.init (type isRequest)

/-- `HttpParser::Reset`, with `ClearHeaders` in it. -/
def reset (p : HttpParser) (isRequest : Bool) : HttpParser :=
  { p with
    headers := fun _ => ⟨[], []⟩
    head := 0
    tail := maxHeaders
    headerIt := 0
    url := []
    statusCode := -1
    headersComplete := false
    messageComplete := false
    parser := Parser.init (type isRequest) }

/-- `HttpParser::Parse`: whether all the data was consumed, the parser, and the streams. -/
def parse (p : HttpParser) (streams : Streams) (data : Bytes) : Bool × HttpParser × Streams :=
  let r := execute settings p.parser (p.toFields, streams) data
  (r.consumed = data.length, { toFields := r.user.1, parser := r.parser }, r.user.2)

/-- `HttpParser::GetHeader`: the value of the first header in `[head, tail)` with that field. -/
def getHeader (p : Fields) (field : Bytes) : Option Bytes :=
  ((List.range' p.head (p.tail - p.head)).find? fun it =>
    stringEqualsIgnoreCaseASCII (p.headers it).field field).map fun it => (p.headers it).value

end HttpParser

/-! ## Everything the callbacks deliver -/

/-- What a message delivers. `headers` are the header fields that have got a value, `name` is the one
that has none yet. After `on_headers_complete` header fields are those of a chunked trailer, which
are only noted. `single` is lost when a message begins after header data of another. -/
structure Log where
  url : Bytes
  headers : List Header
  name : Option Bytes
  trailers : Bool
  single : Bool
  statusCode : ℤ
  headersComplete : Bool
  messageComplete : Bool
  body : Bytes
deriving DecidableEq, Repr

namespace Log

def empty : Log where
  url := []
  headers := []
  name := none
  trailers := false
  single := true
  statusCode := -1
  headersComplete := false
  messageComplete := false
  body := []

/-- More of the value of the header at `i`. -/
def extendValue (i : ℕ) (s : Bytes) (headers : List Header) : List Header :=
  headers.modify i fun h => { h with value := h.value ++ s }

def messageBegin (l : Log) : Log :=
  { l with single := l.single && l.headers.isEmpty && l.name.isNone && !l.headersComplete }

def headerField (s : Bytes) (l : Log) : Log :=
  if l.headersComplete then { l with trailers := true }
  else { l with name := some (l.name.getD [] ++ s) }

def headerValue (s : Bytes) (l : Log) : Log :=
  if l.headersComplete then
    if l.trailers then l else { l with headers := extendValue 0 s l.headers }
  else match l.name with
    | some name => { l with headers := l.headers ++ [⟨name, s⟩], name := none }
    | none =>
        if l.headers.isEmpty then { l with headers := [⟨[], s⟩] }
        else { l with headers := extendValue (l.headers.length - 1) s l.headers }

def complete (parser : Parser) (l : Log) : Log :=
  { l with headersComplete := true, trailers := false, statusCode := parser.statusCode }

/-- The callbacks that record. -/
def recorder : Settings Log where
  onMessageBegin := fun l => (0, l.messageBegin)
  onUrl := fun s l => (0, { l with url := l.url ++ s })
  onStatusComplete := fun l => (0, l)
  onHeaderField := fun s l => (0, l.headerField s)
  onHeaderValue := fun s l => (0, l.headerValue s)
  onHeadersComplete := fun parser l => (0, l.complete parser)
  onBody := fun s l => (0, { l with body := l.body ++ s })
  onMessageComplete := fun l => (0, { l with messageComplete := true })

theorem extendValue_append (i : ℕ) (x y : Bytes) (headers : List Header) :
    extendValue i (x ++ y) headers = extendValue i y (extendValue i x headers) := by
  rw [extendValue, extendValue, extendValue, List.modify_modify_eq]
  congr 1
  funext h
  simp

theorem extendValue_concat (s : Bytes) (headers : List Header) (h : Header) :
    extendValue headers.length s (headers ++ [h])
      = headers ++ [{ h with value := h.value ++ s }] := by
  induction headers with
  | nil => rfl
  | cons h' headers ih => simpa [extendValue] using ih

theorem headerField_append (x y : Bytes) (l : Log) :
    l.headerField (x ++ y) = (l.headerField x).headerField y := by
  by_cases h : l.headersComplete <;> simp [headerField, h]

theorem headerValue_append (x y : Bytes) (l : Log) :
    l.headerValue (x ++ y) = (l.headerValue x).headerValue y := by
  by_cases h : l.headersComplete
  · by_cases ht : l.trailers <;> simp [headerValue, h, ht, extendValue_append]
  · cases hn : l.name with
    | some name => simp [headerValue, h, hn, extendValue_concat]
    | none =>
        by_cases he : l.headers = []
        · simp [headerValue, h, hn, he, extendValue]
        · have hne : extendValue (l.headers.length - 1) x l.headers ≠ [] := by
            simpa [extendValue] using he
          have hlen : (extendValue (l.headers.length - 1) x l.headers).length = l.headers.length := by
            simp [extendValue]
          simp [headerValue, h, hn, he, hne, hlen, extendValue_append]

theorem lawful_recorder : Lawful recorder where
  notice := fun n u => by cases n <;> rfl
  headersComplete := fun parser u => rfl
  data := fun m x u => by cases m <;> rfl
  append := fun m x y u => by
    cases m
    · exact headerField_append x y u
    · exact headerValue_append x y u
    · simp [Settings.data, recorder]
    · simp [Settings.data, recorder]

/-- What is kept of a header: the first of the first sixteen with that field, cut to what fits. A
trailer takes them all away. -/
def keptHeader (l : Log) (field : Bytes) : Option Bytes :=
  if l.trailers then none
  else ((l.headers.take maxHeaders).find? fun g =>
    stringEqualsIgnoreCaseASCII g.field field).map fun g => g.value.take 0x1ff

/-- The URL only grows, whatever messages are read. -/
theorem run_url {p : Parser} {l : Log} {data : Bytes} {r : Parser × Log}
    (hr : run recorder p l data = some r) : l.url <+: r.2.url := by
  refine run_preserves lawful_recorder (P := fun l' => l.url <+: l'.url) (fun n u hu => ?_)
    (fun parser u hu => hu) (fun m x u hu => ?_) hr List.prefix_rfl
  · cases n <;> exact hu
  · cases m with
    | headerField =>
        simp only [Settings.data, recorder, headerField]
        split_ifs <;> exact hu
    | headerValue =>
        simp only [Settings.data, recorder, headerValue]
        split_ifs <;> first
          | exact hu
          | (cases u.name <;> exact hu)
    | url => exact hu.trans (List.prefix_append _ _)
    | body => exact hu

/-- Once the headers are complete, they stay complete. -/
theorem run_headersComplete {p : Parser} {l : Log} {data : Bytes} {r : Parser × Log}
    (hr : run recorder p l data = some r) (h : l.headersComplete = true) :
    r.2.headersComplete = true := by
  refine run_preserves lawful_recorder (P := fun l => l.headersComplete = true) (fun n u hu => ?_)
    (fun parser u _ => rfl) (fun m x u hu => ?_) hr h
  · cases n <;> exact hu
  · cases m with
    | headerField => simp only [Settings.data, recorder, headerField, hu, if_true]
    | headerValue =>
        simp only [Settings.data, recorder, headerValue, hu, if_true]
        split
        · exact hu
        · rfl
    | url => exact hu
    | body => exact hu

end Log

/-! ## The buffers hold what fits of it -/

/-- What the buffers of a header can hold. -/
def Header.clip (h : Header) : Header := ⟨h.field.take 0xff, h.value.take 0x1ff⟩

theorem Header.append_take (N : ℕ) (s data : Bytes) :
    append (N + 1) (s.take N) data = (s ++ data).take N := by
  have hlen : N + 1 - (s.take N).length - 1 = N - s.length := by
    rw [List.length_take]
    omega
  have hne : N + 1 - (s.take N).length ≠ 0 := by
    rw [List.length_take]
    omega
  rw [append, if_pos hne, stringCopy, hlen, List.take_append]

theorem Header.appendField_clip (field value data : Bytes) :
    (⟨field.take 0xff, value⟩ : Header).appendField data = ⟨(field ++ data).take 0xff, value⟩ := by
  rw [appendField, append_take]

theorem Header.appendValue_clip (h : Header) (data : Bytes) :
    h.clip.appendValue data = clip { h with value := h.value ++ data } := by
  rw [appendValue, clip, append_take, clip]

/-- The headers of a single message, in the buffers and in the log. -/
structure HeadersAgree (l : Log) (p : Fields) : Prop where
  kept : ∀ i h, i < maxHeaders → l.headers[i]? = some h → p.headers i = h.clip
  headerIt : p.headerIt = min l.headers.length maxHeaders
  rest : l.headersComplete = false → ∀ i, l.headers.length ≤ i → i < maxHeaders →
    p.headers i = ⟨if i = l.headers.length then (l.name.getD []).take 0xff else [], []⟩
  tail : p.tail = if l.headersComplete then p.headerIt else maxHeaders
  head : p.head =
    if l.headersComplete then (if l.trailers then p.tail else 0)
    else if l.name.isSome then p.headerIt
    else min (l.headers.length - 1) maxHeaders

namespace HeadersAgree

variable {l : Log} {p : Fields}

theorem messageBegin (h : HeadersAgree l p) (hsingle : l.messageBegin.single = true) :
    HeadersAgree l.messageBegin p.onMessageBegin := by
  simp only [Log.messageBegin, Bool.and_eq_true, List.isEmpty_iff, Option.isNone_iff_eq_none,
    Bool.not_eq_true'] at hsingle
  obtain ⟨⟨⟨-, hheaders⟩, hname⟩, hcomplete⟩ := hsingle
  have hit : p.headerIt = 0 := by rw [h.headerIt, hheaders]; rfl
  have hsame : p.onMessageBegin = p := by
    rw [Fields.onMessageBegin, ← hit]
  rw [hsame]
  exact ⟨h.kept, h.headerIt, h.rest, h.tail, h.head⟩

theorem complete (h : HeadersAgree l p) (parser : Parser) :
    HeadersAgree (l.complete parser) (p.onHeadersComplete parser) :=
  ⟨h.kept, h.headerIt, fun hfalse => absurd hfalse (by simp [Log.complete]), rfl, rfl⟩

/-- `head` is moved to the header that has no value yet. -/
theorem headerField (h : HeadersAgree l p) (s : Bytes) :
    HeadersAgree (l.headerField s) (p.onHeaderField s) := by
  have hmoved : (if p.head ≠ p.headerIt then { p with head := p.headerIt } else p)
      = { p with head := p.headerIt } := by
    split
    · rfl
    · next heq =>
        cases p
        cases Decidable.not_not.1 heq
        rfl
  simp only [Fields.onHeaderField, hmoved]
  by_cases hc : l.headersComplete = true
  · have htail : p.tail = p.headerIt := by rw [h.tail, if_pos hc]
    rw [if_neg (by simp [htail]), Log.headerField, if_pos hc]
    refine ⟨h.kept, h.headerIt, fun hfalse => absurd hfalse (by simp [hc]), h.tail, ?_⟩
    simp [hc, htail]
  · have htail : p.tail = maxHeaders := by rw [h.tail, if_neg hc]
    have hfalse : l.headersComplete = false := by simpa using hc
    rw [Log.headerField, if_neg hc]
    by_cases hroom : l.headers.length < maxHeaders
    · have hit : p.headerIt = l.headers.length := by rw [h.headerIt]; omega
      have hold := h.rest hfalse l.headers.length (Nat.le_refl _) hroom
      rw [if_pos rfl] at hold
      rw [if_pos (by simp only [htail, hit]; omega)]
      refine ⟨fun i g hi hg => ?_, h.headerIt, fun _ i hle hi => ?_, h.tail, by simp [hfalse]⟩
      · have hlt : i < l.headers.length := (List.getElem?_eq_some_iff.1 hg).1
        have hne : i ≠ p.headerIt := by omega
        simpa [hne] using h.kept i g hi hg
      · by_cases heq : i = l.headers.length
        · subst heq
          simp only [hit, Function.update_self, hold, Header.appendField_clip, if_true,
            Option.getD_some]
        · have hne : i ≠ p.headerIt := by omega
          simpa [hne, heq] using h.rest hfalse i hle hi
    · have hit : p.headerIt = maxHeaders := by rw [h.headerIt]; omega
      rw [if_neg (by simp [htail, hit])]
      exact ⟨h.kept, h.headerIt, fun _ i hle hi => absurd hle (by simp only; omega), h.tail,
        by simp [hfalse]⟩

/-- The value of the header that has none yet, at index `l.headers.length`. -/
theorem newValue (h : HeadersAgree l p) (s : Bytes) (hfalse : l.headersComplete = false)
    (hhead : p.head = p.headerIt) :
    HeadersAgree { l with headers := l.headers ++ [⟨l.name.getD [], s⟩], name := none }
      (p.onHeaderValue s) := by
  have htail : p.tail = maxHeaders := by rw [h.tail, if_neg (by simp [hfalse])]
  simp only [Fields.onHeaderValue]
  by_cases hroom : l.headers.length < maxHeaders
  · have hit : p.headerIt = l.headers.length := by rw [h.headerIt]; omega
    have hold := h.rest hfalse l.headers.length (Nat.le_refl _) hroom
    rw [if_pos rfl] at hold
    rw [if_pos (by simp only [hhead, htail, hit]; omega), if_pos hhead]
    refine ⟨fun i g hi hg => ?_, ?_, fun _ i hle hi => ?_, ?_, ?_⟩
    · by_cases heq : i = l.headers.length
      · subst heq
        simp only [List.getElem?_concat_length, Option.some.injEq] at hg
        subst hg
        have hclip := Header.appendValue_clip ⟨l.name.getD [], []⟩ s
        simpa [hhead, hit, hold, Header.clip] using hclip
      · have hlt : i < l.headers.length := by
          have hlt := (List.getElem?_eq_some_iff.1 hg).1
          simp only [List.length_append, List.length_singleton] at hlt
          omega
        rw [List.getElem?_append_left hlt] at hg
        have hne : i ≠ p.head := by omega
        simpa [hne] using h.kept i g hi hg
    · simp only [List.length_append, List.length_singleton, hit]
      omega
    · simp only [List.length_append, List.length_singleton] at hle ⊢
      have hne : i ≠ p.head := by omega
      have hne' : i ≠ l.headers.length := by omega
      simpa [hne, hne'] using h.rest hfalse i (by omega) hi
    · simpa [hfalse] using htail
    · simp only [hfalse, hhead, hit, List.length_append, List.length_singleton, Option.isSome_none,
        Bool.false_eq_true, if_false]
      omega
  · have hit : p.headerIt = maxHeaders := by rw [h.headerIt]; omega
    rw [if_neg (by simp [hhead, htail, hit])]
    refine ⟨fun i g hi hg => ?_, ?_, fun _ i hle hi => ?_, h.tail, ?_⟩
    · rw [List.getElem?_append_left (by omega)] at hg
      exact h.kept i g hi hg
    · simp only [List.length_append, List.length_singleton, hit]
      omega
    · simp only [List.length_append, List.length_singleton] at hle
      omega
    · simp only [hfalse, hhead, hit, List.length_append, List.length_singleton, Option.isSome_none,
        Bool.false_eq_true, if_false]
      omega

/-- More of a value that has begun, at index `i` of the log. -/
theorem moreValue (h : HeadersAgree l p) (s : Bytes) {i : ℕ} (hi : i < l.headers.length)
    (hhead : p.head = min i maxHeaders) (htail : i < maxHeaders → p.tail ≠ i)
    (htail' : maxHeaders ≤ i → p.tail = maxHeaders) :
    HeadersAgree { l with headers := Log.extendValue i s l.headers } (p.onHeaderValue s) := by
  have hlen : (Log.extendValue i s l.headers).length = l.headers.length := by
    simp [Log.extendValue]
  simp only [Fields.onHeaderValue]
  by_cases hroom : i < maxHeaders
  · have hhead' : p.head = i := by omega
    have hne : p.head ≠ p.headerIt := by rw [h.headerIt]; omega
    rw [if_pos (by simpa [hhead'] using (htail hroom).symm), if_neg hne]
    refine ⟨fun j g hj hg => ?_, by rw [hlen]; exact h.headerIt, fun hfalse j hle hj => ?_, h.tail,
      by rw [hlen]; exact h.head⟩
    · by_cases heq : j = i
      · subst heq
        obtain ⟨g', hg', rfl⟩ : ∃ g', l.headers[j]? = some g' ∧
            { g' with value := g'.value ++ s } = g := by
          simpa [Log.extendValue] using hg
        simp only [hhead', Function.update_self, h.kept j g' hj hg', Header.appendValue_clip]
      · have hg' : l.headers[j]? = some g := by
          rwa [Log.extendValue, List.getElem?_modify_ne _ _ (Ne.symm heq)] at hg
        have hne' : j ≠ p.head := by omega
        simpa [hne'] using h.kept j g hj hg'
    · rw [hlen] at hle ⊢
      have hne' : j ≠ p.head := by omega
      simpa [hne'] using h.rest hfalse j hle hj
  · rw [if_neg (by rw [hhead, htail' (by omega)]; simp only [ne_eq, not_not]; omega)]
    refine ⟨fun j g hj hg => ?_, by rw [hlen]; exact h.headerIt, fun hfalse j hle hj => ?_, h.tail,
      by rw [hlen]; exact h.head⟩
    · rw [Log.extendValue, List.getElem?_modify_ne _ _ (by omega)] at hg
      exact h.kept j g hj hg
    · rw [hlen] at hle
      omega

theorem headerValue (h : HeadersAgree l p) (s : Bytes) :
    HeadersAgree (l.headerValue s) (p.onHeaderValue s) := by
  by_cases hc : l.headersComplete = true
  · have htail : p.tail = p.headerIt := by rw [h.tail, if_pos hc]
    have hhead := h.head
    rw [if_pos hc] at hhead
    rw [Log.headerValue, if_pos hc]
    by_cases ht : l.trailers = true
    · rw [if_pos ht] at hhead ⊢
      rw [Fields.onHeaderValue, if_neg (by simp [hhead])]
      exact h
    · rw [if_neg ht] at hhead ⊢
      by_cases hempty : l.headers = []
      · -- no header has a value, and `head` is at the end
        have hzero : p.headerIt = 0 := by rw [h.headerIt, hempty]; rfl
        rw [Fields.onHeaderValue, if_neg (by simp [hhead, htail, hzero])]
        have hsame : Log.extendValue 0 s l.headers = l.headers := by rw [hempty]; rfl
        rw [hsame]
        exact h
      · have hpos : 0 < l.headers.length := List.length_pos_iff.2 hempty
        refine h.moreValue s hpos (by rw [hhead]; rfl) (fun _ => ?_) (fun hfull => ?_)
        · rw [htail, h.headerIt, maxHeaders]
          omega
        · exact absurd hfull (by decide)
  · have hfalse : l.headersComplete = false := by simpa using hc
    have hhead := h.head
    rw [if_neg hc] at hhead
    rw [Log.headerValue, if_neg hc]
    cases hn : l.name with
    | some name =>
        have hvalue := h.newValue s hfalse (by simpa [hn] using hhead)
        simpa [hn] using hvalue
    | none =>
        simp only [hn, Option.isSome_none, Bool.false_eq_true, if_false] at hhead
        by_cases hempty : l.headers = []
        · have hvalue := h.newValue s hfalse (by rw [hhead, h.headerIt, hempty]; rfl)
          simpa [hn, hempty] using hvalue
        · have hpos : 0 < l.headers.length := List.length_pos_iff.2 hempty
          have htail : p.tail = maxHeaders := by rw [h.tail, if_neg hc]
          have hvalue := h.moreValue s (i := l.headers.length - 1) (by omega) hhead
            (fun hroom => by omega) (fun _ => htail)
          simpa [hempty, hn] using hvalue

/-- The buffers before `header_it` hold what is kept of the log. -/
theorem entries (h : HeadersAgree l p) : (l.headers.take maxHeaders).map Header.clip
    = (List.range' 0 p.headerIt).map p.headers := by
  rw [h.headerIt]
  refine List.ext_getElem (by simp [Nat.min_comm]) ?_
  intro i hi hi'
  have hlt : i < l.headers.length ∧ i < maxHeaders := by
    simp only [List.length_map, List.length_take] at hi
    omega
  have hkept := h.kept i _ hlt.2 (List.getElem?_eq_getElem hlt.1)
  simp [hkept]

/-- `GetHeader` after the headers. -/
theorem getHeader (h : HeadersAgree l p) (hc : l.headersComplete = true) {field : Bytes}
    (hfield : field.length < 0xff) : HttpParser.getHeader p field = l.keptHeader field := by
  rw [Log.keptHeader]
  have htail := h.tail
  have hhead := h.head
  rw [if_pos hc] at htail hhead
  by_cases ht : l.trailers = true
  · rw [if_pos ht] at hhead ⊢
    simp [HttpParser.getHeader, hhead]
  · rw [if_neg ht] at hhead ⊢
    have hclip : ∀ g : Header, stringEqualsIgnoreCaseASCII g.clip.field field
        = stringEqualsIgnoreCaseASCII g.field field := by
      intro g
      by_cases hlong : g.field.length ≤ 0xff
      · rw [Header.clip, List.take_of_length_le hlong]
      · have hne : g.field.length ≠ field.length := by omega
        have hne' : (g.field.take 0xff).length ≠ field.length := by
          rw [List.length_take]
          omega
        simp only [stringEqualsIgnoreCaseASCII, Header.clip, beq_eq_false_iff_ne.2 hne,
          beq_eq_false_iff_ne.2 hne', Bool.false_and]
    rw [HttpParser.getHeader, hhead, htail, Nat.sub_zero]
    have hfind := congrArg (fun hs : List Header => (hs.find? fun g =>
      stringEqualsIgnoreCaseASCII g.field field).map Header.value) h.entries
    simp only [List.find?_map, Function.comp_def, hclip, Option.map_map] at hfind
    exact hfind.symm

end HeadersAgree

/-! ## The body goes to the stream -/

/-- What a stream is after the pieces of `body` were written to it: at its end it takes all of them,
elsewhere none. -/
structure Received (s₀ : DynamicMemoryStream) (body : Bytes) (s : DynamicMemoryStream) : Prop where
  atEnd : s₀.pOffset = s₀.pSize → s.content = s₀.content ++ body ∧ s.pOffset = s.pSize
  notAtEnd : s₀.pOffset ≠ s₀.pSize → s.content = s₀.content ∧ s.pOffset ≠ s.pSize

theorem Received.nothing (s : DynamicMemoryStream) : Received s [] s :=
  ⟨fun h => ⟨(List.append_nil _).symm, h⟩, fun h => ⟨rfl, h⟩⟩

theorem Received.write {s₀ s : DynamicMemoryStream} {body : Bytes} (h : Received s₀ body s)
    (data : Bytes) (hlen : data.length < 2 ^ 32) : Received s₀ (body ++ data) (s.write data).2 := by
  constructor
  · intro hend
    obtain ⟨hcontent, hoffset⟩ := h.atEnd hend
    obtain ⟨-, hwritten, hoffset'⟩ := s.write_atEnd data hlen hoffset
    exact ⟨by rw [hwritten, hcontent, List.append_assoc], hoffset'⟩
  · intro hnot
    obtain ⟨hcontent, hoffset⟩ := h.notAtEnd hnot
    rw [s.write_notAtEnd data hoffset]
    exact ⟨hcontent, hoffset⟩

/-! ## The parser of the proxy keeps up with the log -/

/-- What the proxy knows of the messages in `l`, received with the streams `streams₀`. -/
structure Agrees (target : StreamId) (streams₀ : Streams) (l : Log) (u : Fields × Streams) :
    Prop where
  url : u.1.url = l.url
  statusCode : u.1.statusCode = l.statusCode
  headersComplete : u.1.headersComplete = l.headersComplete
  messageComplete : u.1.messageComplete = l.messageComplete
  content : u.1.content = some target
  stream : Received (streams₀ target) l.body (u.2 target)
  others : ∀ id, id ≠ target → u.2 id = streams₀ id
  headers : l.single = true → HeadersAgree l u.1

variable {target : StreamId} {streams₀ : Streams}

theorem Agrees.empty {p : HttpParser} (streams : Streams) (isRequest : Bool)
    (h : p.content = some target) :
    Agrees target streams Log.empty ((p.reset isRequest).toFields, streams) where
  url := rfl
  statusCode := rfl
  headersComplete := rfl
  messageComplete := rfl
  content := h
  stream := Received.nothing _
  others := fun _ _ => rfl
  headers := fun _ => ⟨fun _ _ _ h => absurd h (by simp [Log.empty]), rfl,
    fun _ i _ _ => by simp [HttpParser.reset, Log.empty], rfl, rfl⟩

/-- A callback that gives a part of a header leaves the rest of the message as it is. -/
theorem Agrees.of_header {l l' : Log} {p p' : Fields} {streams : Streams}
    (h : Agrees target streams₀ l (p, streams))
    (hp : p'.url = p.url ∧ p'.statusCode = p.statusCode ∧
      p'.headersComplete = p.headersComplete ∧ p'.messageComplete = p.messageComplete ∧
      p'.content = p.content)
    (hl : l'.url = l.url ∧ l'.statusCode = l.statusCode ∧
      l'.headersComplete = l.headersComplete ∧ l'.messageComplete = l.messageComplete ∧
      l'.body = l.body ∧ l'.single = l.single)
    (hheader : HeadersAgree l p → HeadersAgree l' p') :
    Agrees target streams₀ l' (p', streams) := by
  obtain ⟨hurl, hstatus, hheaders, hmessage, hcontent⟩ := hp
  obtain ⟨hurl', hstatus', hheaders', hmessage', hbody, hsingle⟩ := hl
  exact
    { url := by rw [hurl, hurl']; exact h.url
      statusCode := by rw [hstatus, hstatus']; exact h.statusCode
      headersComplete := by rw [hheaders, hheaders']; exact h.headersComplete
      messageComplete := by rw [hmessage, hmessage']; exact h.messageComplete
      content := by rw [hcontent]; exact h.content
      stream := by rw [hbody]; exact h.stream
      others := h.others
      headers := fun hs => hheader (h.headers (hsingle ▸ hs)) }

theorem Agrees.headerField {l : Log} {p : Fields} {streams : Streams}
    (h : Agrees target streams₀ l (p, streams)) (s : Bytes) :
    Agrees target streams₀ (l.headerField s) (p.onHeaderField s, streams) := by
  refine h.of_header ?_ ?_ fun hheaders => hheaders.headerField s
  · simp only [Fields.onHeaderField]
    split_ifs <;> exact ⟨rfl, rfl, rfl, rfl, rfl⟩
  · simp only [Log.headerField]
    split_ifs <;> exact ⟨rfl, rfl, rfl, rfl, rfl, rfl⟩

theorem Agrees.headerValue {l : Log} {p : Fields} {streams : Streams}
    (h : Agrees target streams₀ l (p, streams)) (s : Bytes) :
    Agrees target streams₀ (l.headerValue s) (p.onHeaderValue s, streams) := by
  refine h.of_header ?_ ?_ fun hheaders => hheaders.headerValue s
  · simp only [Fields.onHeaderValue]
    split_ifs <;> exact ⟨rfl, rfl, rfl, rfl, rfl⟩
  · cases hn : l.name <;> simp only [Log.headerValue, hn] <;> split_ifs <;>
      exact ⟨rfl, rfl, rfl, rfl, rfl, rfl⟩

theorem Agrees.body {l : Log} {p : Fields} {streams : Streams}
    (h : Agrees target streams₀ l (p, streams)) (s : Bytes) (hlen : s.length < 2 ^ 32) :
    (p.onBody s streams).1 = 0 ∧
      Agrees target streams₀ { l with body := l.body ++ s } (p.onBody s streams).2 := by
  have hset : p.content = some target := h.content
  simp only [Fields.onBody, hset, true_and]
  exact
    { url := h.url
      statusCode := h.statusCode
      headersComplete := h.headersComplete
      messageComplete := h.messageComplete
      content := h.content
      stream := by simpa using h.stream.write s hlen
      others := fun id hid => by simpa [hid] using h.others id hid
      headers := fun hs =>
        have hheaders := h.headers hs
        ⟨hheaders.kept, hheaders.headerIt, hheaders.rest, hheaders.tail, hheaders.head⟩ }

/-- The callbacks of the proxy and those that record. -/
theorem simulates (target : StreamId) (streams₀ : Streams) :
    Simulates settings Log.recorder (2 ^ 32 - 1) fun u l => Agrees target streams₀ l u where
  notice := fun n u l h => by
    cases n with
    | messageBegin =>
        refine ⟨rfl, h.url, h.statusCode, h.headersComplete, h.messageComplete, h.content, h.stream,
          h.others, fun hs => ?_⟩
        have hsingle : l.single = true := by
          simp only [Settings.notice, Log.recorder, Log.messageBegin, Bool.and_eq_true] at hs
          exact hs.1.1.1
        exact (h.headers hsingle).messageBegin hs
    | statusComplete => exact ⟨rfl, h⟩
    | messageComplete =>
        refine ⟨rfl, h.url, h.statusCode, h.headersComplete, rfl, h.content, h.stream, h.others,
          fun hs => ?_⟩
        have hheaders := h.headers hs
        exact ⟨hheaders.kept, hheaders.headerIt, hheaders.rest, hheaders.tail, hheaders.head⟩
  headersComplete := fun parser u l h =>
    ⟨rfl, h.url, rfl, rfl, h.messageComplete, h.content, h.stream, h.others,
      fun hs => (h.headers hs).complete parser⟩
  data := fun m x u l hlen h => by
    cases m with
    | headerField => exact ⟨rfl, h.headerField x⟩
    | headerValue => exact ⟨rfl, h.headerValue x⟩
    | url =>
        refine ⟨rfl, by simp only [Settings.data, settings, Fields.onUrl, h.url, Log.recorder],
          h.statusCode, h.headersComplete, h.messageComplete, h.content, h.stream, h.others,
          fun hs => ?_⟩
        have hheaders := h.headers hs
        exact ⟨hheaders.kept, hheaders.headerIt, hheaders.rest, hheaders.tail, hheaders.head⟩
    | body => exact h.body x (by omega)

/-- **`Parse` succeeds when the parser consumes all the data, and what the proxy then knows is what
was delivered.** -/
theorem HttpParser.parse_eq {p : HttpParser} {streams : Streams} {l : Log}
    (h : Agrees target streams₀ l (p.toFields, streams)) (hok : p.parser.Going) {data : Bytes}
    (hne : data ≠ []) (hlen : data.length < 2 ^ 32) :
    match run Log.recorder p.parser l data with
    | some r => (p.parse streams data).1 = true ∧ (p.parse streams data).2.1.parser = r.1 ∧
        Agrees target streams₀ r.2
          ((p.parse streams data).2.1.toFields, (p.parse streams data).2.2)
    | none => (p.parse streams data).1 = false := by
  have hrelated := execute_related (simulates target streams₀) p.parser data (by omega) h
  rw [run_eq_execute Log.lawful_recorder hok l hne]
  simp only [HttpParser.parse, hrelated.consumed, hrelated.parser]
  split
  · next r hr =>
      split at hr
      · next hall =>
          simp only [Option.some.injEq] at hr
          rw [← hr]
          exact ⟨by simpa using hall, rfl, hrelated.user⟩
      · exact absurd hr (by simp)
  · next hr =>
      split at hr
      · exact absurd hr (by simp)
      · next hall => simpa using hall

end ImageProxy.Http
