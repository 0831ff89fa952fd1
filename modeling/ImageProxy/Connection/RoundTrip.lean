import ImageProxy.Http.ChunkedBody
import ImageProxy.Connection.ChunkedResponse

set_option autoImplicit false

/-! # What the client reads

The proxy writes responses with one part of its code and reads them with another, `http_parser`. A
client with the same parser gets the image that was rendered, whatever the pieces in which it arrives
(`clientReads_image`). -/

namespace ImageProxy

open Ascii Cpcl Http ChunkedCoding

/-! ## The chunks that are written -/

theorem hexNumber_append (cs ds : Bytes) (n : ℕ) :
    hexNumber n (cs ++ ds) = (hexNumber n cs).bind fun m => hexNumber m ds := by
  induction cs generalizing n with
  | nil => rfl
  | cons c cs ih =>
      rw [List.cons_append, hexNumber, hexNumber, Option.bind_assoc]
      exact congrArg _ (funext fun d => ih (16 * n + d))

theorem hexNumber_numeral (n : ℕ) : hexNumber 0 (numeral 16 n) = some n := by
  refine numeral_induction (by decide) (P := fun n ds => hexNumber 0 ds = some n) ?_ ?_ n
  · intro n hn
    simp [hexNumber, hexValue_digit hn]
  · intro n _ ih
    have hdigit : n % 16 < 16 := Nat.mod_lt _ (by decide)
    rw [hexNumber_append, ih]
    simp [hexNumber, hexValue_digit hdigit, Nat.div_add_mod]

/-- A chunk as `BuildChunk` spells it. -/
def writtenChunk (data : Bytes) : Chunk := ⟨numeral 16 data.length, [], data⟩

theorem text_writtenChunk (data : Bytes) : (writtenChunk data).text = chunk data := by
  simp [writtenChunk, Chunk.text, chunk]

theorem valid_writtenChunk {data : Bytes} (h : data.length ≤ maxChunkSize) :
    (writtenChunk data).Valid where
  size := by
    rw [writtenChunk, numeral, ne_eq, List.map_eq_nil_iff]
    exact Nat.toDigits_ne_nil
  number := hexNumber_numeral data.length
  ext e he := absurd he (by simp [writtenChunk])
  noCr := by simp [writtenChunk]
  line := by
    have hlen : (numeral 16 data.length).length ≤ 4 :=
      (length_numeral_le_iff (by decide) (by decide)).2 (Nat.lt_of_le_of_lt h (by decide))
    simp only [writtenChunk, List.length_nil, maxHeaderSize]
    omega
  length := Nat.lt_of_le_of_lt h (by decide)

/-! ## The head -/

/-- The head of an image response. -/
def imageHead : Bytes :=
  lit "HTTP/1.1 200 OK\x0d\nConnection: close\x0d\nContent-Type: image/jpeg\x0d\n" ++
    lit "Transfer-Encoding: chunked\x0d\n\x0d\n"

theorem buildResponse_image (pf : List ℕ) (page : PageInfo) (responseLen : ℕ) :
    buildResponse pf 200 false page responseLen = imageHead := by
  simp only [buildResponse, Bool.not_false, if_true, Bool.false_eq_true, and_false, if_false]
  decide +kernel

/-- What a client knows once it has read the head. -/
def imageLog : Log :=
  { Log.empty with
    headers := [⟨lit "Connection", lit "close"⟩, ⟨lit "Content-Type", lit "image/jpeg"⟩,
      ⟨lit "Transfer-Encoding", lit "chunked"⟩]
    statusCode := 200
    headersComplete := true }

theorem run_imageHead : ∃ p : Parser, p.AtChunk ∧
    run Log.recorder (Parser.init .response) Log.empty imageHead = some (p, imageLog) := by
  have hhead : (run Log.recorder (Parser.init .response) Log.empty imageHead).map
      (fun r => (decide r.1.Going, r.1.state, r.1.nread, r.2))
      = some (true, .chunkSizeStart, 0, imageLog) := by decide +kernel
  obtain ⟨⟨p, l⟩, hrun, hp⟩ := Option.map_eq_some_iff.1 hhead
  simp only [Prod.mk.injEq, decide_eq_true_eq] at hp
  obtain ⟨hgoing, hstate, hnread, rfl⟩ := hp
  exact ⟨p, ⟨hgoing, hstate, hnread⟩, hrun⟩

/-! ## The whole response -/

theorem foldl_onBody (chunks : List Bytes) (l : Log) :
    (chunks.map writtenChunk).foldl (fun l c => (Log.recorder.onBody c.data l).2) l
      = { l with body := l.body ++ chunks.flatten } := by
  induction chunks generalizing l with
  | nil => simp
  | cons c chunks ih =>
      rw [List.map_cons, List.foldl_cons, ih]
      simp [Log.recorder, writtenChunk]

/-- The parser reads an image response as it was meant. -/
theorem run_imageResponse (body : Bytes) :
    ∃ q : Parser, q.Going ∧ run Log.recorder (Parser.init .response) Log.empty
      (imageHead ++ ((cut maxChunkSize body).map chunk ++ [chunk []]).flatten)
      = some (q, { imageLog with messageComplete := true, body := body }) := by
  have hpos : 0 < maxChunkSize := by decide
  obtain ⟨p, hp, hhead⟩ := run_imageHead
  have hchunks : ∀ c ∈ (cut maxChunkSize body).map writtenChunk, c.Valid ∧ c.data ≠ [] := by
    intro c hc
    obtain ⟨data, hdata, rfl⟩ := List.mem_map.1 hc
    exact ⟨valid_writtenChunk (length_le_of_mem_cut hdata), ne_nil_of_mem_cut hdata⟩
  have hlast : (writtenChunk []).Valid := valid_writtenChunk (Nat.zero_le _)
  obtain ⟨q, hgoing, hbody⟩ := run_chunked Log.lawful_recorder imageLog hchunks hlast rfl hp
  refine ⟨q, hgoing, ?_⟩
  have htext : ((cut maxChunkSize body).map chunk ++ [chunk []]).flatten
      = (((cut maxChunkSize body).map writtenChunk).map Chunk.text).flatten
        ++ (writtenChunk []).text := by
    rw [List.flatten_append, List.map_map, List.flatten_singleton, text_writtenChunk]
    congr 3
    funext data
    exact (text_writtenChunk data).symm
  rw [run_append Log.lawful_recorder, hhead, Option.bind_some, htext, hbody, foldl_onBody,
    flatten_cut hpos]
  rfl

namespace Sys

theorem sendResponse_head {s : Sys} {image : StreamId} (hpending : s.pending = [])
    (hjson : s.conn.query.json = false) (himage : s.conn.image = some image)
    (hne : (s.streams image).content ≠ []) (hsize : (s.streams image).content.length < 2 ^ 32) :
    (s.sendResponse 200).pending = [.writeResponse imageHead] := by
  have hpos := List.length_pos_iff.2 hne
  rw [DynamicMemoryStream.length_content] at hsize hpos
  have hlen : ((s.seek image 0).streams image).size.toNat ≠ 0 := by
    simp only [seek, putStream, Function.update_self, DynamicMemoryStream.seek_zero,
      DynamicMemoryStream.size]
    omega
  simp only [sendResponse, hjson, himage, Bool.not_false, and_self, if_true, if_neg hlen,
    beginResponse]
  rw [show (s.seek image 0).conn.query.json = false from hjson, buildResponse_image]
  exact congrArg _ hpending

/-- **The client reads the image.** When every write of the response has succeeded and none is left,
what has been written, cut into any reads, is for `http_parser` one complete message with status 200,
the headers of the response, and the image as its body. -/
theorem clientReads_image {s s' : Sys} {image : StreamId} {es : List Event}
    (hpending : s.pending = []) (hjson : s.conn.query.json = false)
    (himage : s.conn.image = some image) (hne : (s.streams image).content ≠ [])
    (hsize : (s.streams image).content.length < 2 ^ 32)
    (hrun : StepSystem.run step (s.sendResponse 200) es = some s') (hes : .wroteResponse false ∉ es)
    (hend : s'.pending = []) {reads : List Bytes}
    (hreads : reads.flatten = (writes (s.sendResponse 200) es).flatten)
    (hcut : ∀ data ∈ reads, data ≠ []) :
    ReadsThrough Log.recorder (Parser.init .response) Log.empty reads ∧
      (executeAll Log.recorder (Parser.init .response) Log.empty reads).2
        = { imageLog with messageComplete := true, body := (s.streams image).content } := by
  obtain ⟨⟨head, hsending⟩, -⟩ := sendResponse_sending hpending hjson himage hne hsize
  obtain ⟨ws, hws, hs', -⟩ := run_draining hsending.draining hes hrun
  have hhead : head = imageHead := by
    have hfirst := hsending.draining.pending_eq
    rw [sendResponse_head hpending hjson himage hne hsize] at hfirst
    simpa using hfirst.symm
  -- the image has been written to its end, with the empty chunk behind it
  have hnil : ws = [] := by
    have hlast := hs'.pending_eq
    rw [hend] at hlast
    cases ws with
    | nil => rfl
    | cons w ws => exact absurd hlast (by simp)
  rw [hnil, List.append_nil] at hws
  rw [hws, hhead, List.flatten_cons] at hreads
  obtain ⟨q, hgoing, hread⟩ := run_imageResponse (s.streams image).content
  have hinit : (Parser.init .response).Going := by decide
  obtain ⟨hthrough, hall⟩ := readsThrough_of_run Log.lawful_recorder hinit hreads hcut hread hgoing
  exact ⟨hthrough, by rw [hall]⟩

/-- The head cut in its middle, and the chunks cut across. -/
def imageReads : List Bytes :=
  [imageHead.take 60, imageHead.drop 60 ++ lit "4\x0d\njp", lit "eg\x0d\n0\x0d", lit "\n\x0d\n"]

theorem clientReads_image_renderedSys :
    (executeAll Log.recorder (Parser.init .response) Log.empty imageReads).2
      = { imageLog with messageComplete := true, body := lit "jpeg" } := by
  have hcontent : (renderedSys.streams 7).content = lit "jpeg" := by decide +kernel
  have hrun : (StepSystem.run step (renderedSys.sendResponse 200)
      (List.replicate 3 (.wroteResponse true))).map Sys.pending = some [] := by decide +kernel
  obtain ⟨s', hs', hend⟩ := Option.map_eq_some_iff.1 hrun
  have hreads : imageReads.flatten = (writes (renderedSys.sendResponse 200)
      (List.replicate 3 (.wroteResponse true))).flatten := by decide +kernel
  have hread := (clientReads_image (s := renderedSys) rfl rfl rfl (by rw [hcontent]; decide)
    (by rw [hcontent]; decide) hs' (by simp) hend hreads (by decide +kernel)).2
  rwa [hcontent] at hread

end Sys

end ImageProxy
