import ImageProxy.Connection.Handlers

set_option autoImplicit false

/-! # Reading a message

While a connection reads, only its buffer, its parser and the stream behind `parser.content` change,
and the parser knows what has been delivered so far, whichever way the data was cut into reads. -/

namespace ImageProxy

open Ascii Cpcl Http

namespace Sys

/-- `s₀` after reads that took the parser to `p` and delivered `l`; the body goes to `target`. -/
structure Reading (s₀ : Sys) (target : StreamId) (p : Parser) (l : Log) (s : Sys) : Prop where
  frame : ∃ parser buffer streams,
    s = { s₀ with conn := { s₀.conn with parser := parser, buffer := buffer }, streams := streams }
  parser : s.conn.parser.parser = p
  agrees : Agrees target s₀.streams l (s.conn.parser.toFields, s.streams)

variable {s₀ s : Sys} {target : StreamId} {p : Parser} {l : Log}

theorem going_of_run {p : Parser} {l : Log} {data : Bytes} {r : Parser × Log}
    (hr : run Log.recorder p l data = some r) (hne : data ≠ []) : p.Going := by
  by_contra hstopped
  rw [run_of_stopped hstopped l hne] at hr
  exact absurd hr (by simp)

/-- `reads` and then `last` bring a message whose head ends in `last`; `q` is what the parser makes of
them. -/
structure HeadIn (type : ParserType) (reads : List Bytes) (last : Bytes) (q : Parser × Log) :
    Prop where
  length : ∀ read ∈ reads ++ [last], read.length ≤ bufferSize
  head : ∀ r, run Log.recorder (Parser.init type) Log.empty reads.flatten = some r →
    r.2.headersComplete = false
  whole : run Log.recorder (Parser.init type) Log.empty (reads.flatten ++ last) = some q
  headersComplete : q.2.headersComplete = true

/-- The parser before the last read. -/
theorem HeadIn.before {type : ParserType} {reads : List Bytes} {last : Bytes} {q : Parser × Log}
    (h : HeadIn type reads last q) :
    ∃ r, run Log.recorder (Parser.init type) Log.empty reads.flatten = some r ∧
      r.2.headersComplete = false ∧ run Log.recorder r.1 r.2 last = some q := by
  have hwhole := h.whole
  rw [run_append Log.lawful_recorder] at hwhole
  obtain ⟨r, hr, hlast⟩ := Option.bind_eq_some_iff.1 hwhole
  exact ⟨r, hr, h.head r hr, hlast⟩

/-- One more read. -/
theorem Reading.parse (h : Reading s₀ target p l s) {data : Bytes} (hlen : data.length ≤ bufferSize)
    (hgoing : data ≠ [] → p.Going) :
    match run Log.recorder p l data with
    | some r => (s.parse data).1 = false ∧ Reading s₀ target r.1 r.2 (s.parse data).2
    | none => (s.parse data).1 = true := by
  obtain ⟨⟨parser, buffer, streams, rfl⟩, rfl, hagrees⟩ := h
  by_cases hnil : data = []
  · subst hnil
    exact ⟨rfl, ⟨_, _, _, rfl⟩, rfl, hagrees⟩
  · have hpos : data.length > 0 := List.length_pos_iff.2 hnil
    have hsize : data.length < 2 ^ 32 := Nat.lt_of_le_of_lt hlen (by decide)
    have hparse := HttpParser.parse_eq hagrees (hgoing hnil) hnil hsize
    simp only [Sys.parse, modify, if_pos hpos]
    revert hparse
    cases run Log.recorder parser.parser l data with
    | none => exact fun hparse => by simp [hparse]
    | some r =>
        rintro ⟨hok, hparser, hagrees'⟩
        exact ⟨by simp [hok], ⟨_, _, _, rfl⟩, hparser, hagrees'⟩

/-! ## What reading leaves alone -/

theorem Reading.idle (h : Reading s₀ target p l s) (hidle : s₀.pending = []) : s.pending = [] := by
  obtain ⟨⟨parser, buffer, streams, rfl⟩, -, -⟩ := h
  exact hidle

theorem Reading.image_eq (h : Reading s₀ target p l s) : s.conn.image = s₀.conn.image := by
  obtain ⟨⟨parser, buffer, streams, rfl⟩, -, -⟩ := h
  rfl

theorem Reading.documents_eq (h : Reading s₀ target p l s) : s.documents = s₀.documents := by
  obtain ⟨⟨parser, buffer, streams, rfl⟩, -, -⟩ := h
  rfl

theorem Reading.requested_eq (h : Reading s₀ target p l s) : s.requested = s₀.requested := by
  obtain ⟨⟨parser, buffer, streams, rfl⟩, -, -⟩ := h
  rfl

theorem Reading.sent_eq (h : Reading s₀ target p l s) : s.sent = s₀.sent := by
  obtain ⟨⟨parser, buffer, streams, rfl⟩, -, -⟩ := h
  rfl

end Sys

end ImageProxy
