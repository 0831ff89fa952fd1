import ImageProxy.Http.HeaderTable

set_option autoImplicit false

/-! # Headers after the head of a message

The parser calls `on_header_field` and `on_header_value` for the trailer of a chunked body too, and
they move the same `head` that `GetHeader` starts from: `head` goes to `header_it`, which is `tail`,
and the table is empty. So a redirect whose chunked body has a trailer in the same read has lost its
`Location`. -/

namespace ImageProxy.Http

open Ascii Cpcl

/-! ## The callbacks -/

/-- What the parser delivers of a message behind its `on_headers_complete`: the body, the trailers and the
end. -/
inductive LaterCallback where
  | body (s : Bytes)
  | headerField (s : Bytes)
  | headerValue (s : Bytes)
  | messageComplete

/-- The callback of `settings`. -/
def LaterCallback.deliver (u : Fields × Streams) : LaterCallback → Fields × Streams
  | .body s => (settings.onBody s u).2
  | .headerField s => (settings.onHeaderField s u).2
  | .headerValue s => (settings.onHeaderValue s u).2
  | .messageComplete => (settings.onMessageComplete u).2

/-- The pieces of trailer values. -/
def LaterCallback.value? : LaterCallback → Option Bytes
  | .headerValue s => some s
  | _ => none

def LaterCallback.isHeaderField : LaterCallback → Bool
  | .headerField _ => true
  | _ => false

/-- `GetHeader` gives the same after the callbacks as right after `on_headers_complete`. -/
def KeepsHeaders (parser : Parser) (p : Fields) (streams : Streams) (cs : List LaterCallback) :
    Prop :=
  ∀ field, HttpParser.getHeader
      (cs.foldl LaterCallback.deliver (p.onHeadersComplete parser, streams)).1 field
    = HttpParser.getHeader (p.onHeadersComplete parser) field

/-! ## Appending to a full buffer -/

theorem Header.prefix_append (N : ℕ) (s data : Bytes) : s <+: append N s data := by
  unfold append
  simp only
  split_ifs
  · exact List.prefix_append _ _
  · exact List.prefix_rfl

theorem Header.append_eq_self_iff (N : ℕ) (s data : Bytes) :
    append N s data = s ↔ data = [] ∨ N - 1 ≤ s.length := by
  unfold append stringCopy
  simp only
  split_ifs with hroom
  · rw [List.append_right_eq_self, List.take_eq_nil_iff, or_comm]
    exact or_congr_right (by omega)
  · refine iff_of_true rfl (Or.inr ?_)
    omega

/-- Pieces leave a buffer as it is if each of them is empty or it is full. -/
theorem Header.foldl_append_eq_self_iff (N : ℕ) (s : Bytes) (pieces : List Bytes) :
    pieces.foldl (append N) s = s ↔ ∀ data ∈ pieces, data = [] ∨ N - 1 ≤ s.length := by
  have hgrows : ∀ (t : Bytes) (ds : List Bytes), t <+: ds.foldl (append N) t := by
    intro t ds
    induction ds generalizing t with
    | nil => exact List.prefix_rfl
    | cons d ds ih => exact (prefix_append N t d).trans (ih _)
  induction pieces with
  | nil => simp
  | cons data pieces ih =>
      rw [List.forall_mem_cons, ← append_eq_self_iff N s data, List.foldl_cons]
      refine Iff.trans ?_ (and_congr_right fun _ => ih)
      constructor
      · intro h
        have hrest := hgrows (append N s data) pieces
        rw [h] at hrest
        have hfirst : append N s data = s :=
          hrest.eq_of_length_le (prefix_append N s data).length_le
        rw [hfirst] at h
        exact ⟨hfirst, h⟩
      · rintro ⟨hfirst, hrest⟩
        rw [hfirst]
        exact hrest

/-! ## The table under the callbacks -/

/-- The table is `headers` up to `n`, and nothing was moved since `on_headers_complete`. -/
structure Fields.Intact (headers : ℕ → Header) (n : ℕ) (p : Fields) : Prop where
  headers : p.headers = headers
  head : p.head = 0
  tail : p.tail = n
  headerIt : p.headerIt = n

/-- `head` is at `tail`, and header callbacks do nothing. -/
def Fields.Lost (p : Fields) : Prop := p.head = p.tail ∧ p.headerIt = p.tail

theorem Fields.intact_onHeadersComplete (parser : Parser) (p : Fields) :
    (p.onHeadersComplete parser).Intact p.headers p.headerIt := ⟨rfl, rfl, rfl, rfl⟩

theorem Fields.Intact.lost {headers : ℕ → Header} {p : Fields} (h : p.Intact headers 0) : p.Lost :=
  ⟨by rw [h.head, h.tail], by rw [h.headerIt, h.tail]⟩

/-- What `GetHeader` looks at. -/
def Fields.SameTable (p p' : Fields) : Prop :=
  p'.headers = p.headers ∧ p'.head = p.head ∧ p'.tail = p.tail

theorem Fields.SameTable.getHeader {p p' : Fields} (h : p.SameTable p') (field : Bytes) :
    HttpParser.getHeader p' field = HttpParser.getHeader p field := by
  obtain ⟨hheaders, hhead, htail⟩ := h
  simp only [HttpParser.getHeader, hheaders, hhead, htail]

theorem fields_onBody (s : Bytes) (p : Fields) (streams : Streams) :
    (p.onBody s streams).2.1 = p := by
  unfold Fields.onBody
  split <;> rfl

/-- Behind the last header, a name moves `head` there. -/
theorem Fields.onHeaderField_atTail {p : Fields} (hit : p.headerIt = p.tail) (s : Bytes) :
    p.onHeaderField s = { p with head := p.tail } := by
  obtain ⟨headers, head, tail, headerIt, url, statusCode, content, complete, messageComplete⟩ := p
  obtain rfl : headerIt = tail := hit
  unfold onHeaderField
  by_cases hhead : head = headerIt <;> simp [hhead]

/-- Callbacks that are not about headers leave the table, and a lost table stays lost. -/
theorem deliver_lost {u : Fields × Streams} (h : u.1.Lost) (c : LaterCallback) :
    (c.deliver u).1.Lost ∧ u.1.SameTable (c.deliver u).1 := by
  obtain ⟨p, streams⟩ := u
  obtain ⟨hhead, hit⟩ := h
  cases c with
  | body s =>
      have hsame := fields_onBody s p streams
      show ((p.onBody s streams).2.1).Lost ∧ p.SameTable (p.onBody s streams).2.1
      rw [hsame]
      exact ⟨⟨hhead, hit⟩, rfl, rfl, rfl⟩
  | headerField s =>
      show (p.onHeaderField s).Lost ∧ p.SameTable (p.onHeaderField s)
      rw [p.onHeaderField_atTail hit]
      exact ⟨⟨rfl, hit⟩, rfl, hhead.symm, rfl⟩
  | headerValue s =>
      have hsame : p.onHeaderValue s = p := if_neg (not_not.2 hhead)
      show (p.onHeaderValue s).Lost ∧ p.SameTable (p.onHeaderValue s)
      rw [hsame]
      exact ⟨⟨hhead, hit⟩, rfl, rfl, rfl⟩
  | messageComplete => exact ⟨⟨hhead, hit⟩, rfl, rfl, rfl⟩

theorem deliverAll_lost {u : Fields × Streams} (h : u.1.Lost) (cs : List LaterCallback) :
    u.1.SameTable (cs.foldl LaterCallback.deliver u).1 := by
  induction cs generalizing u with
  | nil => exact ⟨rfl, rfl, rfl⟩
  | cons c cs ih =>
      obtain ⟨hlost, hsame⟩ := deliver_lost h c
      have hrest := ih hlost
      exact ⟨hrest.1.trans hsame.1, hrest.2.1.trans hsame.2.1, hrest.2.2.trans hsame.2.2⟩

/-- The headers with more of the value of the first. -/
def moreOfFirst (headers : ℕ → Header) (pieces : List Bytes) : ℕ → Header :=
  Function.update headers 0 { headers 0 with
    value := pieces.foldl (Header.append 0x200) (headers 0).value }

theorem moreOfFirst_nil (headers : ℕ → Header) : moreOfFirst headers [] = headers :=
  Function.update_eq_self 0 headers

theorem moreOfFirst_cons (headers : ℕ → Header) (s : Bytes) (pieces : List Bytes) :
    moreOfFirst headers (s :: pieces) = moreOfFirst (moreOfFirst headers [s]) pieces := by
  simp [moreOfFirst]

/-- Without a trailer name, values go to the first header. -/
theorem deliverAll_intact {headers : ℕ → Header} {n : ℕ} (hn : 0 < n) {u : Fields × Streams}
    (h : u.1.Intact headers n) {cs : List LaterCallback}
    (hcs : ∀ c ∈ cs, c.isHeaderField = false) :
    (cs.foldl LaterCallback.deliver u).1.Intact
      (moreOfFirst headers (cs.filterMap LaterCallback.value?)) n := by
  induction cs generalizing headers u with
  | nil =>
      rw [List.filterMap_nil, moreOfFirst_nil]
      exact h
  | cons c cs ih =>
      obtain ⟨hc, hrest⟩ := List.forall_mem_cons.1 hcs
      rw [List.foldl_cons]
      cases c with
      | headerField s => exact absurd hc (by simp [LaterCallback.isHeaderField])
      | body s =>
          refine ih (u := LaterCallback.deliver u (.body s)) ?_ hrest
          show ((u.1.onBody s u.2).2.1).Intact headers n
          rw [fields_onBody]
          exact h
      | messageComplete =>
          exact ih (u := LaterCallback.deliver u .messageComplete)
            ⟨h.headers, h.head, h.tail, h.headerIt⟩ hrest
      | headerValue s =>
          show Fields.Intact (moreOfFirst headers (s :: cs.filterMap LaterCallback.value?)) n _
          rw [moreOfFirst_cons]
          refine ih (u := LaterCallback.deliver u (.headerValue s)) ?_ hrest
          have hvalue : u.1.onHeaderValue s = { u.1 with
              headers := Function.update u.1.headers u.1.head
                ((u.1.headers u.1.head).appendValue s) } := by
            unfold Fields.onHeaderValue
            rw [if_pos (by rw [h.head, h.tail]; omega)]
            simp only
            rw [if_neg (by rw [h.head, h.headerIt]; omega)]
          show (u.1.onHeaderValue s).Intact (moreOfFirst headers [s]) n
          rw [hvalue]
          refine ⟨?_, h.head, h.tail, h.headerIt⟩
          simp only [h.head, h.headers]
          rfl

/-- A trailer name loses the table. -/
theorem deliver_headerField {headers : ℕ → Header} {n : ℕ} {u : Fields × Streams}
    (h : u.1.Intact headers n) (s : Bytes) : (LaterCallback.deliver u (.headerField s)).1.Lost := by
  have hit : u.1.headerIt = u.1.tail := by rw [h.headerIt, h.tail]
  show (u.1.onHeaderField s).Lost
  rw [Fields.onHeaderField_atTail hit]
  exact ⟨rfl, hit⟩

/-! ## When the headers are kept -/

theorem getHeader_lost {p : Fields} (h : p.Lost) (field : Bytes) :
    HttpParser.getHeader p field = none := by
  simp [HttpParser.getHeader, h.1]

/-- The first trailer name loses the table, and it stays lost. -/
theorem deliverAll_headerField {headers : ℕ → Header} {n : ℕ} (hn : 0 < n) {u : Fields × Streams}
    (h : u.1.Intact headers n) {cs : List LaterCallback}
    (hcs : ¬∀ c ∈ cs, c.isHeaderField = false) (field : Bytes) :
    HttpParser.getHeader (cs.foldl LaterCallback.deliver u).1 field = none := by
  induction cs generalizing headers u with
  | nil => exact absurd (by simp) hcs
  | cons c cs ih =>
      rw [List.forall_mem_cons] at hcs
      by_cases hc : c.isHeaderField = false
      · have hstep := deliverAll_intact hn h (List.forall_mem_singleton.2 hc)
        exact ih hstep fun hrest => hcs ⟨hc, hrest⟩
      · cases c with
        | headerField s =>
            have hlost := deliver_headerField h s
            rw [List.foldl_cons, (deliverAll_lost hlost cs).getHeader]
            exact getHeader_lost hlost field
        | body s | headerValue s | messageComplete => exact absurd rfl hc

/-- The first header is found under its name. -/
theorem getHeader_first {headers : ℕ → Header} {n : ℕ} (hn : 0 < n) {p : Fields}
    (h : p.Intact headers n) :
    HttpParser.getHeader p (headers 0).field = some (headers 0).value := by
  obtain ⟨n, rfl⟩ : ∃ k, n = k + 1 := ⟨n - 1, by omega⟩
  have hself : stringEqualsIgnoreCaseASCII (headers 0).field (headers 0).field = true :=
    (stringEqualsIgnoreCaseASCII_iff _ _).2 rfl
  simp only [HttpParser.getHeader, h.head, h.tail, h.headers, Nat.sub_zero, List.range'_succ]
  rw [List.find?_cons_of_pos (by exact hself)]
  rfl

/-- **The headers are kept** exactly if there are none, or no trailer name comes and what comes of
trailer values does not change the first header. -/
theorem keepsHeaders_iff (parser : Parser) (p : Fields) (streams : Streams)
    (cs : List LaterCallback) : KeepsHeaders parser p streams cs ↔
      p.headerIt = 0 ∨ (∀ c ∈ cs, c.isHeaderField = false) ∧
        ∀ s ∈ cs.filterMap LaterCallback.value?, s = [] ∨ 0x1ff ≤ (p.headers 0).value.length := by
  have hintact := p.intact_onHeadersComplete parser
  by_cases hzero : p.headerIt = 0
  · -- there is nothing to be found before and after
    rw [hzero] at hintact
    refine iff_of_true ?_ (Or.inl hzero)
    intro field
    exact (deliverAll_lost (u := (p.onHeadersComplete parser, streams)) hintact.lost cs).getHeader
      field
  have hpos : 0 < p.headerIt := Nat.pos_of_ne_zero hzero
  have hfirst := getHeader_first hpos hintact
  rw [or_iff_right hzero]
  by_cases hnames : ∀ c ∈ cs, c.isHeaderField = false
  · have hafter := deliverAll_intact hpos (u := (p.onHeadersComplete parser, streams)) hintact hnames
    rw [and_iff_right hnames, ← Header.foldl_append_eq_self_iff 0x200 (p.headers 0).value]
    generalize cs.filterMap LaterCallback.value? = pieces at hafter ⊢
    constructor
    · intro h
      have hvalue := getHeader_first hpos hafter
      have hname : (moreOfFirst p.headers pieces 0).field = (p.headers 0).field := by
        simp [moreOfFirst]
      rw [hname, h, hfirst] at hvalue
      have hsame : (p.headers 0).value = (moreOfFirst p.headers pieces 0).value :=
        Option.some.inj hvalue
      rw [moreOfFirst, Function.update_self] at hsame
      exact hsame.symm
    · intro h field
      have hheaders : moreOfFirst p.headers pieces = p.headers := by
        rw [moreOfFirst, h]
        exact Function.update_eq_self 0 p.headers
      rw [hheaders] at hafter
      have hsame : (p.onHeadersComplete parser).SameTable
          (cs.foldl LaterCallback.deliver (p.onHeadersComplete parser, streams)).1 :=
        ⟨hafter.headers, hafter.head, hafter.tail⟩
      exact hsame.getHeader field
  · refine iff_of_false ?_ fun h => hnames h.1
    intro h
    have hlost := deliverAll_headerField hpos (u := (p.onHeadersComplete parser, streams)) hintact
      hnames (p.headers 0).field
    rw [h, hfirst] at hlost
    exact absurd hlost (by simp)

/-! ### A redirect with a trailer -/

/-- The head of a redirect. -/
def redirectHead : Bytes :=
  lit "HTTP/1.1 302 Found\x0d\nLocation: http://d:1/a\x0d\nTransfer-Encoding: chunked\x0d\n\x0d\n"

/-- An empty chunked body and a trailer. -/
def trailerBody : Bytes := lit "0\x0d\nX: y\x0d\n\x0d\n"

/-- The parser of a response that goes to the stream 0. -/
def responseParser : HttpParser := { HttpParser.new false with content := some 0 }

/-- With the trailer in the same read, `Location` is gone. -/
theorem not_keepsHeaders_trailer :
    ¬KeepsHeaders (Parser.init .response)
      (Fields.readHeader (HttpParser.new false).toFields
        ⟨[lit "Location"], [lit "http://d:1/a"], by simp, by simp⟩)
      (fun _ => .new 1 Nat.one_pos) [.headerField (lit "X"), .headerValue (lit "y"), .messageComplete] ∧
    HttpParser.getHeader (responseParser.parse (fun _ => .new 1 Nat.one_pos) redirectHead).2.1.toFields
      (lit "Location") = some (lit "http://d:1/a") ∧
    (responseParser.parse (fun _ => .new 1 Nat.one_pos) (redirectHead ++ trailerBody)).1 = true ∧
    HttpParser.getHeader (responseParser.parse (fun _ => .new 1 Nat.one_pos)
      (redirectHead ++ trailerBody)).2.1.toFields (lit "Location") = none := by
  refine ⟨fun h => ?_, by decide +kernel, by decide +kernel, by decide +kernel⟩
  exact absurd (h (lit "Location")) (by decide +kernel)

end ImageProxy.Http
