import ImageProxy.Http.HttpParse

set_option autoImplicit false

/-! # The table of headers (`HttpParser::headers`)

The parser hands a header to the callbacks in pieces: its name, then its value. However it is cut,
the table between `head` and `tail` has the first sixteen headers, and of each what fits into its
buffers. -/

namespace ImageProxy.Http

open Cpcl

/-- A header as the callbacks get it: one or more pieces of the name, one or more of the value. -/
structure HeaderPieces where
  field : List Bytes
  value : List Bytes
  field_ne_nil : field ≠ []
  value_ne_nil : value ≠ []

/-- The header the pieces are of. -/
def HeaderPieces.header (h : HeaderPieces) : Header := ⟨h.field.flatten, h.value.flatten⟩

namespace Fields

/-- `HttpParser::ClearHeaders`. -/
def clearHeaders (p : Fields) : Fields :=
  { p with
    headers := fun _ => ⟨[], []⟩
    head := 0
    tail := maxHeaders
    headerIt := 0 }

/-- The callbacks of one header. -/
def readHeader (p : Fields) (h : HeaderPieces) : Fields :=
  h.value.foldl (fun p s => p.onHeaderValue s) (h.field.foldl (fun p s => p.onHeaderField s) p)

/-- The callbacks of a message up to `on_headers_complete`. -/
def readHeaders (parser : Parser) (url : List Bytes) (hs : List HeaderPieces) (p : Fields) : Fields :=
  (hs.foldl readHeader (url.foldl (fun p s => p.onUrl s) p.onMessageBegin)).onHeadersComplete parser

/-- The headers in `[head, tail)`. -/
def table (p : Fields) : List Header := (List.range' p.head (p.tail - p.head)).map p.headers

end Fields

/-! ## The log of the same callbacks -/

/-- The log of a message that has had these headers. -/
def Log.ofHeaders (headers : List Header) : Log := { Log.empty with headers := headers }

theorem HeadersAgree.clear (p : Fields) : HeadersAgree (Log.ofHeaders []) p.clearHeaders where
  kept := fun i h _ hget => absurd hget (by simp [Log.ofHeaders])
  headerIt := rfl
  rest := fun _ i _ _ => by split_ifs <;> rfl
  tail := rfl
  head := rfl

/-- `HeadersAgree` is about the table only. -/
theorem HeadersAgree.onUrl {l : Log} {p : Fields} (url : List Bytes) (h : HeadersAgree l p) :
    HeadersAgree l (url.foldl (fun p s => p.onUrl s) p) := by
  induction url generalizing p with
  | nil => exact h
  | cons s url ih => exact ih ⟨h.kept, h.headerIt, h.rest, h.tail, h.head⟩

/-- The pieces of a name, after the first of them. -/
theorem HeadersAgree.fields {headers : List Header} {p : Fields} (pieces : List Bytes) {name : Bytes}
    (h : HeadersAgree { Log.ofHeaders headers with name := some name } p) :
    HeadersAgree { Log.ofHeaders headers with name := some (name ++ pieces.flatten) }
      (pieces.foldl (fun p s => p.onHeaderField s) p) := by
  induction pieces generalizing p name with
  | nil => simpa using h
  | cons s pieces ih =>
      have hstep : HeadersAgree { Log.ofHeaders headers with name := some (name ++ s) }
          (p.onHeaderField s) := h.headerField s
      rw [List.flatten_cons, ← List.append_assoc]
      exact ih hstep

/-- The pieces of a value, after the first of them. -/
theorem HeadersAgree.values {headers : List Header} {p : Fields} (pieces : List Bytes)
    {name value : Bytes} (h : HeadersAgree (Log.ofHeaders (headers ++ [⟨name, value⟩])) p) :
    HeadersAgree (Log.ofHeaders (headers ++ [⟨name, value ++ pieces.flatten⟩]))
      (pieces.foldl (fun p s => p.onHeaderValue s) p) := by
  induction pieces generalizing p value with
  | nil => simpa using h
  | cons s pieces ih =>
      have hlog : (Log.ofHeaders (headers ++ [⟨name, value⟩])).headerValue s
          = Log.ofHeaders (headers ++ [⟨name, value ++ s⟩]) := by
        have hextend := Log.extendValue_concat s headers ⟨name, value⟩
        simp [Log.headerValue, Log.ofHeaders, Log.empty, hextend]
      have hstep := h.headerValue s
      rw [hlog] at hstep
      rw [List.flatten_cons, ← List.append_assoc]
      exact ih hstep

/-- One header. -/
theorem HeadersAgree.readHeader {headers : List Header} {p : Fields}
    (h : HeadersAgree (Log.ofHeaders headers) p) (hs : HeaderPieces) :
    HeadersAgree (Log.ofHeaders (headers ++ [hs.header])) (p.readHeader hs) := by
  obtain ⟨field, value, hfield, hvalue⟩ := hs
  cases field with
  | nil => exact absurd rfl hfield
  | cons s field =>
      cases value with
      | nil => exact absurd rfl hvalue
      | cons v value =>
          have hname : HeadersAgree { Log.ofHeaders headers with name := some s }
              (p.onHeaderField s) := h.headerField s
          have hfirst : HeadersAgree (Log.ofHeaders (headers ++ [⟨s ++ field.flatten, v⟩])) _ :=
            (hname.fields field).headerValue v
          exact hfirst.values value

theorem HeadersAgree.readHeaders {headers : List Header} {p : Fields}
    (h : HeadersAgree (Log.ofHeaders headers) p) (hs : List HeaderPieces) :
    HeadersAgree (Log.ofHeaders (headers ++ hs.map HeaderPieces.header))
      (hs.foldl Fields.readHeader p) := by
  induction hs generalizing headers p with
  | nil => simpa using h
  | cons h' hs ih => simpa using ih (h.readHeader h')

/-! ## The table -/

theorem stringEqualsIgnoreCaseASCII_iff (a b : Bytes) :
    stringEqualsIgnoreCaseASCII a b = true ↔ a.map charsASCII = b.map charsASCII := by
  induction a generalizing b with
  | nil => cases b <;> simp [stringEqualsIgnoreCaseASCII]
  | cons c a ih =>
      cases b with
      | nil => simp [stringEqualsIgnoreCaseASCII]
      | cons d b =>
          have hrest := ih b
          simp only [stringEqualsIgnoreCaseASCII, Bool.and_eq_true, beq_iff_eq] at hrest
          simp only [stringEqualsIgnoreCaseASCII, List.length_cons, List.zip_cons_cons, List.all_cons,
            Bool.and_eq_true, beq_iff_eq, List.map_cons, List.cons.injEq, ← hrest]
          constructor
          · rintro ⟨hlen, hhead, htail⟩
            exact ⟨hhead, by omega, htail⟩
          · rintro ⟨hhead, hlen, htail⟩
            exact ⟨by omega, hhead, htail⟩

/-- `GetHeader` looks through the table. -/
theorem HttpParser.getHeader_eq (p : Fields) (field : Bytes) : HttpParser.getHeader p field
    = (p.table.find? fun h => h.field.map charsASCII = field.map charsASCII).map Header.value := by
  have hsame : ∀ h : Header, stringEqualsIgnoreCaseASCII h.field field
      = decide (h.field.map charsASCII = field.map charsASCII) := by
    intro h
    rw [Bool.eq_iff_iff, stringEqualsIgnoreCaseASCII_iff, decide_eq_true_iff]
  rw [Fields.table, List.find?_map, Option.map_map, HttpParser.getHeader]
  simp only [hsame, Function.comp_def]

/-- **The table after the headers**, whatever pieces they came in. -/
theorem Fields.table_readHeaders (parser : Parser) (url : List Bytes) (hs : List HeaderPieces)
    (p : Fields) :
    let kept := ((hs.map HeaderPieces.header).take maxHeaders).map Header.clip
    let t := p.clearHeaders.readHeaders parser url hs
    (t.head = 0 ∧ t.tail = min maxHeaders hs.length ∧ t.table = kept) ∧
    ∀ field, HttpParser.getHeader t field
      = (kept.find? fun h => h.field.map charsASCII = field.map charsASCII).map Header.value := by
  intro kept t
  have hbegin : HeadersAgree (Log.ofHeaders []) p.clearHeaders.onMessageBegin :=
    HeadersAgree.clear p
  have hagree := (hbegin.onUrl url).readHeaders hs
  have htail : t.tail = min maxHeaders hs.length := by
    have hit := hagree.headerIt
    rw [List.nil_append, Log.ofHeaders, List.length_map, Nat.min_comm] at hit
    exact hit
  have htable : t.table = kept := by
    have hentries := hagree.entries
    rw [List.nil_append] at hentries
    exact hentries.symm
  refine ⟨⟨rfl, htail, htable⟩, fun field => ?_⟩
  rw [HttpParser.getHeader_eq, htable]

end ImageProxy.Http
