import ImageProxy.Library.ChunkedCoding
import ImageProxy.Http.HttpParse

set_option autoImplicit false

/-! # The chunked body

From the end of the head on the parser reads a chunked body chunk by chunk: a size line, as many bytes
as it says, a line end. Here a whole body is taken through its states, in any spelling that the
grammar allows (`Chunk.Valid`): either case of the digits, leading zeros, extensions. What is delivered
is the bytes of the chunks and nothing else (`run_chunked`). -/

namespace ImageProxy.Http

open Ascii ChunkedCoding

/-! ## The grammar -/

/-- The value of hexadecimal digits that follow a number `n`. -/
def hexNumber (n : ℕ) : Bytes → Option ℕ
  | [] => some n
  | c :: cs => (hexValue c).bind fun d => hexNumber (16 * n + d) cs

/-- A chunk as it is spelled. The last one has no data, and its second line end is the empty trailer. -/
structure Chunk where
  size : Bytes
  ext : Bytes
  data : Bytes

namespace Chunk

def text (c : Chunk) : Bytes := c.size ++ c.ext ++ crlf ++ c.data ++ crlf

/-- The size says how much data there is; a size line counts as a header to the parser. -/
structure Valid (c : Chunk) : Prop where
  size : c.size ≠ []
  number : hexNumber 0 c.size = some c.data.length
  ext : ∀ e, c.ext.head? = some e → e = asc ';' ∨ e = asc ' '
  noCr : CR ∉ c.ext
  line : c.size.length + c.ext.length + 2 ≤ maxHeaderSize
  length : c.data.length < 2 ^ 60

end Chunk

theorem le_hexNumber {cs : Bytes} {n m : ℕ} (h : hexNumber n cs = some m) : n ≤ m := by
  induction cs generalizing n with
  | nil => exact Nat.le_of_eq (Option.some.inj h)
  | cons c cs ih =>
      obtain ⟨d, -, hrest⟩ := Option.bind_eq_some_iff.1 h
      have hle := ih hrest
      omega

theorem unhex_eq {c : UInt8} {d : ℕ} (h : hexValue c = some d) : unhex c = some d := by
  have hlt : ¬128 ≤ c := by
    revert h
    have hall : (List.range 256).all (fun n => n < 128 || (hexValue (.ofNat n)).isNone) = true := by
      decide +kernel
    intro h hle
    have hc := List.all_eq_true.1 hall c.toNat (List.mem_range.2 c.toNat_lt)
    rw [UInt8.ofNat_toNat, h] at hc
    have hle' := UInt8.le_iff_toNat_le.1 hle
    simp only [Option.isNone_some, Bool.or_false, decide_eq_true_eq] at hc
    exact absurd hc (Nat.not_lt.2 hle')
  rw [unhex, if_neg hlt, h]

/-! ## The size line -/

variable {α : Type} {S : Settings α} {parser : Parser}

theorem caseChunkSize_digit {ch : UInt8} {d : ℕ} (hd : hexValue ch = some d)
    (hsmall : 16 * parser.contentLength + d < 2 ^ 60) :
    caseChunkSize parser ch = .next { parser with contentLength := 16 * parser.contentLength + d } := by
  have hcr : ch ≠ CR := by
    rintro rfl
    rw [show hexValue CR = none by decide] at hd
    exact absurd hd (by simp)
  have ht : (parser.contentLength * 16 % 2 ^ 64 + d) % 2 ^ 64 = 16 * parser.contentLength + d := by
    omega
  simp only [caseChunkSize, if_neg hcr, unhex_eq hd, Parser.pushDigit, ht]
  rw [if_neg (by simp only [ullongMax]; omega)]

theorem run_digits (hS : Lawful S) (u : α) {cs : Bytes} {m : ℕ} (hok : parser.Going)
    (hs : parser.state = .chunkSize) (hnumber : hexNumber parser.contentLength cs = some m)
    (hm : m < 2 ^ 60) (hnread : parser.nread + cs.length ≤ maxHeaderSize) :
    run S parser u cs
      = some ({ parser with contentLength := m, nread := parser.nread + cs.length }, u) := by
  induction cs generalizing parser with
  | nil =>
      obtain rfl := Option.some.inj hnumber
      rfl
  | cons c cs ih =>
      obtain ⟨d, hd, hrest⟩ := Option.bind_eq_some_iff.1 hnumber
      have hle := le_hexNumber hrest
      have hcount : parser.nread + 1 + cs.length = parser.nread + (cs.length + 1) := by omega
      rw [List.length_cons] at hnread ⊢
      have hturn : turn parser c 1 = .next { parser with
          nread := parser.nread + 1, contentLength := 16 * parser.contentLength + d } := by
        rw [turn_header (by rw [hs]; rfl) (by omega), switch]
        simp only [hs]
        exact caseChunkSize_digit hd (by exact Nat.lt_of_le_of_lt hle hm)
      rw [run_head hS u hok (by rw [hs]; rfl) hturn]
      rw [ih (by exact hok) (by exact hs) (by exact hrest) (by simp only; omega)]
      simp only [hcount]

theorem run_parameters (hS : Lawful S) (u : α) {cs : Bytes} (hok : parser.Going)
    (hs : parser.state = .chunkParameters) (hcr : CR ∉ cs)
    (hnread : parser.nread + cs.length ≤ maxHeaderSize) :
    run S parser u cs = some ({ parser with nread := parser.nread + cs.length }, u) := by
  induction cs generalizing parser with
  | nil => rfl
  | cons c cs ih =>
      have hc : c ≠ CR := fun h => hcr (by simp [h])
      have hcount : parser.nread + 1 + cs.length = parser.nread + (cs.length + 1) := by omega
      rw [List.length_cons] at hnread ⊢
      have hturn : turn parser c 1 = .next { parser with nread := parser.nread + 1 } := by
        rw [turn_header (by rw [hs]; rfl) (by omega), switch]
        simp only [hs, caseChunkParameters, if_neg hc]
      rw [run_head hS u hok (by rw [hs]; rfl) hturn]
      rw [ih (by exact hok) (by exact hs) (fun h => hcr (by simp [h])) (by simp only; omega)]
      simp only [hcount]

/-- What the line feed of a size line leads to. -/
def afterSize (parser : Parser) (n : ℕ) : Parser :=
  if n = 0 then
    { parser with
      contentLength := 0
      nread := 0
      flags := { parser.flags with trailing := true }
      state := .headerFieldStart }
  else { parser with contentLength := n, nread := 0, state := .chunkData }

theorem caseChunkSizeAlmostDone_lf :
    caseChunkSizeAlmostDone parser LF = .next (afterSize parser parser.contentLength) := by
  by_cases hzero : parser.contentLength = 0 <;>
    simp [caseChunkSizeAlmostDone, strictCheck, afterSize, hzero]

/-- The line end of a size line. -/
theorem run_sizeEnd (hS : Lawful S) (u : α) (hok : parser.Going)
    (hs : parser.state = .chunkSize ∨ parser.state = .chunkParameters)
    (hnread : parser.nread + 2 ≤ maxHeaderSize) :
    run S parser u crlf = some (afterSize parser parser.contentLength, u) := by
  have hopen : parser.state.openMark = none := by rcases hs with hs | hs <;> rw [hs] <;> rfl
  have hcr : turn parser CR 1 = .next { parser with
      nread := parser.nread + 1, state := .chunkSizeAlmostDone } := by
    rcases hs with hs | hs
    · rw [turn_header (by rw [hs]; rfl) (by omega), switch]
      simp only [hs]
      rfl
    · rw [turn_header (by rw [hs]; rfl) (by omega), switch]
      simp only [hs]
      rfl
  have hlf : turn { parser with nread := parser.nread + 1, state := .chunkSizeAlmostDone } LF 1
      = .next (afterSize parser parser.contentLength) := by
    rw [turn_header (by rfl) (by simp only; omega), switch]
    simp only
    rw [caseChunkSizeAlmostDone_lf]
    rfl
  rw [show crlf = [CR, LF] from rfl, run_head hS u hok hopen hcr]
  exact run_next (by exact hok) (by rfl) hlf u

/-- A whole size line. -/
theorem run_sizeLine (hS : Lawful S) (u : α) {c : Chunk} (hc : c.Valid) (hok : parser.Going)
    (hs : parser.state = .chunkSizeStart) (hnread : parser.nread = 0) :
    run S parser u (c.size ++ c.ext ++ crlf) = some (afterSize parser c.data.length, u) := by
  obtain ⟨b, digits, hsize⟩ := List.exists_cons_of_ne_nil hc.size
  have hnumber := hc.number
  have hline := hc.line
  rw [hsize] at hnumber hline
  rw [List.length_cons] at hline
  obtain ⟨d, hd, hrest⟩ := Option.bind_eq_some_iff.1 hnumber
  have hfirst : turn parser b 1 = .next { parser with
      nread := 1, contentLength := d, state := .chunkSize } := by
    rw [turn_header (by rw [hs]; rfl) (by omega), switch]
    simp only [hs, caseChunkSizeStart, unhex_eq hd, hnread]
  rw [hsize, List.append_assoc, List.cons_append, run_head hS u hok (by rw [hs]; rfl) hfirst,
    run_append hS, run_digits hS u (by exact hok) (by rfl) (by simpa using hrest) hc.length
      (by simp only; omega), Option.bind_some]
  cases hext : c.ext with
  | nil =>
      rw [List.nil_append, run_sizeEnd hS u (by exact hok) (Or.inl rfl) (by simp only; omega)]
      rfl
  | cons e ext =>
      rw [hext, List.length_cons] at hline
      have he := hc.ext e (by rw [hext]; rfl)
      have hnoCr : CR ∉ ext := fun h => hc.noCr (by rw [hext]; simp [h])
      -- a blank or a semicolon begins the extension, which is skipped up to its line end
      have hparameters : ∀ q : Parser, q.state = .chunkSize → q.nread < maxHeaderSize →
          turn q e 1 = .next { q with nread := q.nread + 1, state := .chunkParameters } := by
        intro q hq hlt
        rw [turn_header (by rw [hq]; rfl) hlt, switch]
        simp only [hq]
        rcases he with rfl | rfl <;> rfl
      rw [List.cons_append, run_head hS u (by exact hok) (by rfl)
        (hparameters _ rfl (by simp only; omega)), run_append hS,
        run_parameters hS u (by exact hok) (by rfl) hnoCr (by simp only; omega), Option.bind_some,
        run_sizeEnd hS u (by exact hok) (Or.inr rfl) (by simp only; omega)]
      rfl

/-! ## A chunk -/

/-- The bytes that the size has announced. -/
theorem run_data (hS : Lawful S) (u : α) {data : Bytes} (hok : parser.Going)
    (hs : parser.state = .chunkData) (hlength : parser.contentLength = data.length)
    (hne : data ≠ []) : run S parser u data
      = some ({ parser with contentLength := 0, state := .chunkDataAlmostDone },
        (S.data .body data u).2) := by
  obtain ⟨b, d, rfl⟩ := List.exists_cons_of_ne_nil hne
  rw [List.length_cons] at hlength
  have hstep : parser.bodyStep (d.length + 1) = d.length := by
    simp only [Parser.bodyStep]
    omega
  rw [run_chunkData hS hok hs, if_pos (by omega), hstep, List.drop_length, runFrom, settle_unmarked,
    List.take_of_length_le (by simp)]

/-- The line end after the data. -/
theorem run_dataEnd (hS : Lawful S) (u : α) (hok : parser.Going)
    (hs : parser.state = .chunkDataAlmostDone) :
    run S parser u crlf = some ({ parser with nread := 0, state := .chunkSizeStart }, u) := by
  have hcr : run S parser u [CR] = some ({ parser with state := .chunkDataDone }, u) := by
    have hheader : parser.state.parsingHeader = false := by rw [hs]; rfl
    have hturn : turn parser CR 1 = caseChunkDataAlmostDone parser CR := by
      rw [turn, hheader, if_neg (by simp), switch]
      simp only [hs]
    rw [run_of_unmarked hok (by rw [hs]; rfl), runFrom, List.length_nil, Nat.zero_add, hturn]
    simp only [caseChunkDataAlmostDone, strictCheck, Code.callbackData]
    simp [runCode, runFrom, settle_unmarked]
  rw [show crlf = [CR] ++ [LF] from rfl, run_append hS, hcr, Option.bind_some]
  exact run_next (by exact hok) rfl rfl u

/-- **A chunk is delivered as it is.** -/
theorem run_chunk (hS : Lawful S) (u : α) {c : Chunk} (hc : c.Valid) (hne : c.data ≠ [])
    (hok : parser.Going) (hs : parser.state = .chunkSizeStart) (hnread : parser.nread = 0) :
    run S parser u c.text
      = some ({ parser with contentLength := 0 }, (S.data .body c.data u).2) := by
  have hpos : c.data.length ≠ 0 := by simpa using hne
  have hafter : afterSize parser c.data.length
      = { parser with contentLength := c.data.length, nread := 0, state := .chunkData } := by
    rw [afterSize, if_neg hpos]
  rw [Chunk.text, List.append_assoc, run_append hS, run_sizeLine hS u hc hok hs hnread,
    Option.bind_some, hafter, run_append hS, run_data hS u (by exact hok) (by rfl) (by rfl) hne,
    Option.bind_some, run_dataEnd hS _ (by exact hok) (by rfl)]
  simp only [← hnread, ← hs]

/-- The chunk without data ends the message. -/
theorem run_lastChunk (hS : Lawful S) (u : α) {c : Chunk} (hc : c.Valid) (hnil : c.data = [])
    (hok : parser.Going) (hs : parser.state = .chunkSizeStart) (hnread : parser.nread = 0) :
    ∃ q : Parser, q.Going ∧ run S parser u c.text = some (q, (S.onMessageComplete u).2) := by
  have hcomplete : (S.onMessageComplete u).1 = 0 := hS.notice .messageComplete u
  have hafter : afterSize parser c.data.length = { parser with
      contentLength := 0
      nread := 0
      flags := { parser.flags with trailing := true }
      state := .headerFieldStart } := by
    rw [afterSize, if_pos (by simp [hnil])]
  rw [Chunk.text, hnil, List.append_nil, run_append hS, run_sizeLine hS u hc hok hs hnread,
    Option.bind_some, hafter, show crlf = [CR] ++ [LF] from rfl, run_append hS,
    run_next (by exact hok) rfl rfl, Option.bind_some, run_of_unmarked (by exact hok) rfl, runFrom]
  simp only [turn, State.parsingHeader, switch, caseHeadersAlmostDone, strictCheck, if_true]
  simp [runCode, runFrom, Settings.notice, hcomplete, settle_unmarked, maxHeaderSize]
  exact hok

/-! ## The body -/

/-- The head of a chunked message has been read, or a chunk. -/
structure Parser.AtChunk (parser : Parser) : Prop where
  going : parser.Going
  state : parser.state = .chunkSizeStart
  nread : parser.nread = 0

theorem run_chunks (hS : Lawful S) (u : α) {chunks : List Chunk}
    (hchunks : ∀ c ∈ chunks, c.Valid ∧ c.data ≠ []) (h : parser.AtChunk) :
    ∃ q : Parser, q.AtChunk ∧ run S parser u (chunks.map Chunk.text).flatten
      = some (q, chunks.foldl (fun u c => (S.onBody c.data u).2) u) := by
  induction chunks generalizing parser u with
  | nil => exact ⟨parser, h, rfl⟩
  | cons c chunks ih =>
      obtain ⟨hc, hne⟩ := hchunks c (by simp)
      have hnext : Parser.AtChunk { parser with contentLength := 0 } := ⟨h.going, h.state, h.nread⟩
      obtain ⟨q, hq, hrun⟩ :=
        ih (S.onBody c.data u).2 (fun c' hc' => hchunks c' (by simp [hc'])) hnext
      refine ⟨q, hq, ?_⟩
      rw [List.map_cons, List.flatten_cons, run_append hS,
        run_chunk hS u hc hne h.going h.state h.nread]
      exact hrun

/-- The chunks and the last chunk, however they are spelled. -/
theorem run_chunked (hS : Lawful S) (u : α) {chunks : List Chunk} {last : Chunk}
    (hchunks : ∀ c ∈ chunks, c.Valid ∧ c.data ≠ []) (hlast : last.Valid) (hnil : last.data = [])
    (h : parser.AtChunk) :
    ∃ q : Parser, q.Going ∧ run S parser u ((chunks.map Chunk.text).flatten ++ last.text)
      = some (q, (S.onMessageComplete (chunks.foldl (fun u c => (S.onBody c.data u).2) u)).2) := by
  obtain ⟨q, hq, hrun⟩ := run_chunks hS u hchunks h
  obtain ⟨q', hgoing, hrun'⟩ := run_lastChunk hS (chunks.foldl (fun u c => (S.onBody c.data u).2) u)
    hlast hnil hq.going hq.state hq.nread
  exact ⟨q', hgoing, by rw [run_append hS, hrun, Option.bind_some, hrun']⟩

/-- **A chunked body is read to its end, and what the application gets is the bytes of the chunks,
whichever way the body is spelled and cut into reads.** -/
theorem executeAll_chunked (hS : Lawful S) (u : α) {chunks : List Chunk} {last : Chunk}
    (hchunks : ∀ c ∈ chunks, c.Valid ∧ c.data ≠ []) (hlast : last.Valid) (hnil : last.data = [])
    (h : parser.AtChunk) {reads : List Bytes}
    (hreads : reads.flatten = (chunks.map Chunk.text).flatten ++ last.text)
    (hcut : ∀ data ∈ reads, data ≠ []) :
    ReadsThrough S parser u reads ∧ (executeAll S parser u reads).2
      = (S.onMessageComplete (chunks.foldl (fun u c => (S.onBody c.data u).2) u)).2 := by
  obtain ⟨q, hgoing, hrun⟩ := run_chunked hS u hchunks hlast hnil h
  obtain ⟨hthrough, hall⟩ := readsThrough_of_run hS h.going hreads hcut hrun hgoing
  exact ⟨hthrough, by rw [hall]⟩

/-- A size with a leading zero and an extension. -/
def spelledChunk : Chunk := ⟨lit "0C", lit ";x", lit "hello, image"⟩

def zeros : Chunk := ⟨lit "00", [], []⟩

theorem valid_spelledChunk : spelledChunk.Valid where
  size := by decide
  number := by decide
  ext e he := by
    obtain rfl := Option.some.inj he
    exact Or.inl rfl
  noCr := by decide
  line := by decide
  length := by decide

theorem valid_zeros : zeros.Valid where
  size := by decide
  number := by decide
  ext e he := absurd he (by simp [zeros])
  noCr := by decide
  line := by decide
  length := by decide

theorem executeAll_chunked_spelled :
    (executeAll Log.recorder { Parser.init .response with state := .chunkSizeStart } Log.empty
      [lit "0", lit "C;x\x0d\nhello, ", lit "image\x0d\n00\x0d", lit "\n\x0d\n"]).2
      = { Log.empty with messageComplete := true, body := lit "hello, image" } := by
  have hchunks : ∀ c ∈ [spelledChunk], c.Valid ∧ c.data ≠ [] := by
    intro c hc
    rw [List.mem_singleton.1 hc]
    exact ⟨valid_spelledChunk, by decide⟩
  exact (executeAll_chunked Log.lawful_recorder Log.empty hchunks valid_zeros rfl
    ⟨by decide, rfl, rfl⟩ (by decide) (by decide)).2

end ImageProxy.Http
