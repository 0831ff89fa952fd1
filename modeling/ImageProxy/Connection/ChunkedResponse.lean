import ImageProxy.Connection.Handlers
import ImageProxy.Cpcl.CopyTo
import ImageProxy.Library.ChunkedCoding

set_option autoImplicit false

/-! # The body of an image response

A response with an image is written by a loop of completions: each successful write reads the next
part of the image into the buffer, puts its size before it and a line end behind it, and starts the
next write; a read of nothing makes the last chunk and ends the loop. Here the writes of a whole
response are shown to be the encoding of the image, and the buffer never to be left. -/

namespace ImageProxy

open Ascii Cpcl Http ChunkedCoding

/-! ## One chunk -/

namespace Buffer

theorem put_of_split {b : Buffer} {off : ℕ} {x old data y : Bytes} (hb : b.bytes = x ++ old ++ y)
    (hx : x.length = off) (hold : old.length = data.length) :
    ∃ b', b.put off data = some b' ∧ b'.bytes = x ++ data ++ y := by
  have hsize := b.size
  rw [hb, List.length_append, List.length_append] at hsize
  obtain ⟨b', hb'⟩ := put_isSome (b := b) (by omega : off + data.length ≤ bufferSize)
  have htake : (x ++ old ++ y).take off = x := by rw [List.append_assoc, List.take_left' hx]
  have hdrop : (x ++ old ++ y).drop (off + data.length) = y :=
    List.drop_left' (by rw [List.length_append, hx, hold])
  exact ⟨b', hb', by rw [put_bytes hb', hb, htake, hdrop]⟩

theorem slice_of_split {b : Buffer} {off len : ℕ} {x data y : Bytes} (hb : b.bytes = x ++ data ++ y)
    (hx : x.length = off) (hdata : data.length = len) : b.slice off len = some data := by
  have hsize := b.size
  rw [hb, List.length_append, List.length_append] at hsize
  rw [slice, if_pos (by omega), hb, List.append_assoc, List.drop_left' hx, List.take_left' hdata]

end Buffer

theorem lit_crlf : lit "\r\n" = crlf := by decide

theorem exists_split (l : Bytes) (n : ℕ) (h : n ≤ l.length) :
    ∃ x y, l = x ++ y ∧ x.length = n :=
  ⟨l.take n, l.drop n, (List.take_append_drop n l).symm, List.length_take_of_le h⟩

/-- The size line of a chunk fits before `CHUNK_OFFSET`. -/
theorem length_sizeLine {n : ℕ} (hn : n ≤ maxChunkSize) :
    (numeral 16 n ++ crlf).length ≤ chunkOffset := by
  have hdigits : (numeral 16 n).length ≤ 4 :=
    (length_numeral_le_iff (by decide) (by decide)).2 (Nat.lt_of_le_of_lt hn (by decide))
  rw [List.length_append]
  exact Nat.add_le_add hdigits (Nat.le_refl 2)

/-- **The data at `CHUNK_OFFSET` becomes one chunk, written inside the buffer.** -/
theorem buildChunk_eq (buffer : Buffer) {data : Bytes} (hdata : data.length ≤ maxChunkSize) :
    ∃ buffer', (buffer.put chunkOffset data).bind (buildChunk · data.length)
      = some (buffer', chunk data) := by
  have hline := length_sizeLine hdata
  have hmax : chunkOffset + data.length + 2 ≤ bufferSize := Nat.add_le_add_right
    (Nat.add_le_add_left hdata chunkOffset) 2
  have htmp : stringFormat (chunkOffset + 1) (numeral 16 (data.length % 2 ^ 32) ++ lit "\r\n")
      = numeral 16 data.length ++ crlf := by
    rw [Nat.mod_eq_of_lt (Nat.lt_of_le_of_lt hdata (by decide))]
    exact stringFormat_of_lt (Nat.lt_succ_of_le hline) (by decide)
  generalize hsizeLine : numeral 16 data.length ++ crlf = line at hline htmp
  -- the buffer: unused bytes, the places of the size line, of the data and of the line end, the rest
  have hsize := buffer.size
  obtain ⟨p, q, hbytes, hp⟩ := exists_split buffer.bytes (chunkOffset - line.length) (by omega)
  rw [hbytes, List.length_append] at hsize
  obtain ⟨l, q, rfl, hl⟩ := exists_split q line.length (by omega)
  rw [List.length_append] at hsize
  obtain ⟨d, q, rfl, hd⟩ := exists_split q data.length (by omega)
  rw [List.length_append] at hsize
  obtain ⟨e, r, rfl, he⟩ := exists_split q 2 (by omega)
  have hdataAt : (p ++ l).length = chunkOffset := by
    rw [List.length_append]
    omega
  obtain ⟨b₁, hb₁, hbytes₁⟩ := Buffer.put_of_split
    (by simp [hbytes] : buffer.bytes = (p ++ l) ++ d ++ (e ++ r)) hdataAt hd
  obtain ⟨b₂, hb₂, hbytes₂⟩ := Buffer.put_of_split
    (by simp [hbytes₁] : b₁.bytes = p ++ l ++ (data ++ (e ++ r))) hp hl
  have hendAt : (p ++ line ++ data).length = chunkOffset + data.length := by
    rw [List.length_append, List.length_append]
    omega
  have hend : e.length = (lit "\r\n").length := he
  obtain ⟨b₃, hb₃, hbytes₃⟩ := Buffer.put_of_split
    (by simp [hbytes₂] : b₂.bytes = (p ++ line ++ data) ++ e ++ r) hendAt hend
  have hwritten : (line ++ (data ++ crlf)).length = data.length + line.length + 2 := by
    rw [List.length_append, List.length_append]
    show _ + (_ + 2) = _
    omega
  have hslice := Buffer.slice_of_split
    (by simp [hbytes₃, lit_crlf] : b₃.bytes = p ++ (line ++ (data ++ crlf)) ++ r) hp hwritten
  refine ⟨b₃, ?_⟩
  rw [hb₁, Option.bind_some, buildChunk, htmp]
  simp only [hb₂, hb₃, hslice, Option.bind_eq_bind, Option.bind_some, chunk]
  rw [hsizeLine, List.append_assoc]

theorem decode_cut (body : Bytes) :
    decode ((cut maxChunkSize body).map chunk ++ [chunk []]).flatten = some body := by
  have hdecode := decode_encode (cut maxChunkSize body) fun c hc => ne_nil_of_mem_cut hc
  rw [flatten_cut (by decide)] at hdecode
  rw [List.flatten_append, ← hdecode]
  simp [encode]

/-! ## The loop -/

namespace Sys

theorem read_maxChunkSize (t : DynamicMemoryStream) :
    (t.read maxChunkSize).1 = t.readable.take maxChunkSize ∧
      (t.read maxChunkSize).2.readable = t.readable.drop maxChunkSize :=
  ⟨t.read_readable (.ofNat maxChunkSize), t.readable_read (.ofNat maxChunkSize)⟩

/-- The next write is a chunk with the next part of the image; after an empty one there is no image. -/
theorem writeChunk_eq (s : Sys) (image : StreamId) :
    ∃ data buffer, data = (s.streams image).readable.take maxChunkSize ∧
      s.writeChunk image =
        ((s.modify fun c => { c with
            buffer := buffer, image := if data.length = 0 then none else c.image }).putStream image
          ((s.streams image).read maxChunkSize).2).start (.writeResponse (chunk data)) := by
  have hread := (read_maxChunkSize (s.streams image)).1
  have hlen : ((s.streams image).readable.take maxChunkSize).length ≤ maxChunkSize :=
    List.length_take_le _ _
  obtain ⟨buffer, hbuffer⟩ := buildChunk_eq s.conn.buffer hlen
  refine ⟨_, buffer, rfl, ?_⟩
  rw [← hread] at hbuffer ⊢
  simp only [writeChunk, modify, putStream, hbuffer]

/-- `ws` are the writes still to complete: the one outstanding and those the loop makes of what can be
read of the image. -/
def Draining (image : StreamId) (s : Sys) : List Bytes → Prop
  | [] => s.pending = []
  | w :: ws => s.pending = [.writeResponse w] ∧ s.conn.statusCode = 200 ∧
      ((s.conn.image = none ∧ ws = []) ∨
        (s.conn.image = some image ∧
          ws = (cut maxChunkSize (s.streams image).readable).map chunk ++ [chunk []]))

theorem Draining.pending_eq {image : StreamId} {s : Sys} {ws : List Bytes}
    (h : Draining image s ws) : s.pending = (ws.head?.map Op.writeResponse).toList := by
  cases ws with
  | nil => exact h
  | cons w ws => exact h.1

/-- `ws` are the writes still to complete: the one outstanding and those the loop makes of the rest of
the image. -/
def Sending (image : StreamId) (s : Sys) : List Bytes → Prop
  | [] => s.pending = []
  | w :: ws => s.pending = [.writeResponse w] ∧ s.conn.statusCode = 200 ∧
      ((s.conn.image = none ∧ ws = []) ∨
        (s.conn.image = some image ∧ (s.streams image).pSize < 2 ^ 32 ∧
          ws = (cut maxChunkSize ((s.streams image).content.drop (s.streams image).pOffset)).map chunk
            ++ [chunk []]))

/-- Below 2 ^ 32 bytes the rest of the image can be read. -/
theorem Sending.draining {image : StreamId} {s : Sys} {ws : List Bytes} (h : Sending image s ws) :
    Draining image s ws := by
  cases ws with
  | nil => exact h
  | cons w ws =>
      obtain ⟨hpending, hcode, himage⟩ := h
      refine ⟨hpending, hcode, himage.imp_right ?_⟩
      rintro ⟨himage, hsize, hws⟩
      have hall : (s.streams image).readable = (s.streams image).rest :=
        DynamicMemoryStream.readable_eq_rest_iff.2 (by omega)
      exact ⟨himage, by rw [hall]; exact hws⟩

theorem writeChunk_draining {s : Sys} {image : StreamId} (hpending : s.pending = [])
    (hcode : s.conn.statusCode = 200) (himage : s.conn.image = some image) :
    Draining image (s.writeChunk image)
        ((cut maxChunkSize (s.streams image).readable).map chunk ++ [chunk []]) ∧
      (s.writeChunk image).fault = s.fault := by
  obtain ⟨data, buffer, hdata, hnext⟩ := writeChunk_eq s image
  rw [hnext]
  refine ⟨?_, rfl⟩
  have hstream := (read_maxChunkSize (s.streams image)).2
  generalize hrest : (s.streams image).readable = rest at hdata hstream ⊢
  by_cases hempty : rest = []
  · -- nothing is left: this is the last chunk
    have hnil : data = [] := by rw [hdata, hempty, List.take_nil]
    subst hnil
    rw [hempty, cut_nil]
    exact ⟨by simp [start, putStream, modify, hpending], hcode, Or.inl ⟨rfl, rfl⟩⟩
  · have hne : data.length ≠ 0 := by
      rw [hdata, List.length_take]
      have hpos := List.length_pos_iff.2 hempty
      have hmax : 0 < maxChunkSize := by decide
      omega
    rw [cut_of_ne_nil (by decide) hempty, ← hdata]
    refine ⟨by simp [start, putStream, modify, hpending], hcode, Or.inr ⟨?_, ?_⟩⟩
    · simp [start, putStream, modify, hne, himage]
    · simp [start, putStream, modify, hstream]

/-- Sending goes on with what is left of the image. -/
theorem handleWriteResponse_draining {s : Sys} {image : StreamId} (hpending : s.pending = [])
    (hcode : s.conn.statusCode = 200) (himage : s.conn.image = some image) :
    Draining image (s.handleWriteResponse true)
        ((cut maxChunkSize (s.streams image).readable).map chunk ++ [chunk []]) ∧
      (s.handleWriteResponse true).fault = s.fault := by
  simp only [handleWriteResponse, if_true, hcode, himage]
  exact writeChunk_draining hpending hcode himage

/-- What the event writes to the client. -/
def writtenBy (s : Sys) : Event → List Bytes
  | .wroteResponse true =>
      ((takeOp (fun op => match op with | .writeResponse data => some data | _ => none)
        s.pending).map (·.1)).toList
  | _ => []

/-- The writes that complete in a run. -/
def writes : Sys → List Event → List Bytes
  | _, [] => []
  | s, e :: es => writtenBy s e ++
      match step s e with
      | some s' => writes s' es
      | none => []

theorem step_draining {s s' : Sys} {e : Event} {image : StreamId} {ws : List Bytes}
    (h : Draining image s ws) (he : ∀ ok, e = .wroteResponse ok → ok = true)
    (hstep : step s e = some s') :
    ∃ ws', writtenBy s e ++ ws' = ws ∧ Draining image s' ws' ∧ s'.fault = s.fault := by
  have hpending := h.pending_eq
  cases e with
  | wroteResponse ok =>
      cases he ok rfl
      cases ws with
      | nil => simp [step, complete, hpending, takeOp] at hstep
      | cons w ws =>
          obtain ⟨-, hcode, himage⟩ := h
          simp only [step, complete, hpending, List.head?_cons, Option.map_some, Option.toList_some,
            takeOp, Option.some.injEq] at hstep
          refine ⟨ws, by simp [writtenBy, hpending, takeOp], ?_⟩
          rw [← hstep]
          rcases himage with ⟨himage, rfl⟩ | ⟨himage, rfl⟩
          · simp only [handleWriteResponse, if_true, hcode, himage, and_true]
            rfl
          · exact handleWriteResponse_draining (s := { s with pending := [] }) rfl hcode himage
  | stop =>
      cases hstep
      refine ⟨ws, rfl, ?_, rfl⟩
      cases ws with
      | nil => exact h
      | cons w ws => exact h
  | others cache =>
      cases hstep
      refine ⟨ws, rfl, ?_, rfl⟩
      cases ws with
      | nil => exact h
      | cons w ws => exact h
  | _ => cases ws <;> simp [step, complete, hpending, takeOp] at hstep

theorem run_draining {s s' : Sys} {es : List Event} {image : StreamId} {ws : List Bytes}
    (h : Draining image s ws) (hes : .wroteResponse false ∉ es)
    (hrun : StepSystem.run step s es = some s') :
    ∃ ws', writes s es ++ ws' = ws ∧ Draining image s' ws' ∧ s'.fault = s.fault := by
  induction es generalizing s ws with
  | nil =>
      cases hrun
      exact ⟨ws, rfl, h, rfl⟩
  | cons e es ih =>
      rw [List.mem_cons, not_or] at hes
      obtain ⟨t, hstep, hrun⟩ := StepSystem.run_cons_eq_some.1 hrun
      obtain ⟨ws', rfl, ht, hfault⟩ := step_draining h (by
        rintro (_ | _) rfl
        · exact absurd rfl hes.1
        · rfl) hstep
      obtain ⟨ws'', rfl, hs', hfault'⟩ := ih ht hes.2 hrun
      exact ⟨ws'', by simp [writes, hstep], hs', hfault'.trans hfault⟩

/-- The loop comes to its end if every write succeeds. -/
theorem exists_run_drained {s : Sys} {image : StreamId} {ws : List Bytes} (h : Draining image s ws) :
    ∃ s', StepSystem.run step s (List.replicate ws.length (.wroteResponse true)) = some s' ∧
      s'.pending = [] := by
  induction ws generalizing s with
  | nil => exact ⟨s, rfl, h⟩
  | cons w ws ih =>
      have hstep : ∃ t, step s (.wroteResponse true) = some t := by
        simp [step, complete, h.1, takeOp]
      obtain ⟨t, ht⟩ := hstep
      obtain ⟨ws', hws, hdraining, -⟩ :=
        step_draining h (fun _ hok => (Event.wroteResponse.inj hok).symm) ht
      have hnext : ws' = ws := by simpa [writtenBy, h.1, takeOp] using hws
      subst hnext
      obtain ⟨s', hrun, hpending⟩ := ih hdraining
      refine ⟨s', ?_, hpending⟩
      rw [List.length_cons, List.replicate_succ, StepSystem.run_cons, ht]
      exact hrun

theorem beginResponse_sending {s : Sys} {image : StreamId} (responseLen : ℕ)
    (hpending : s.pending = []) (himage : s.conn.image = some image)
    (hsize : (s.streams image).pSize < 2 ^ 32) :
    Sending image (s.beginResponse 200 responseLen)
      (buildResponse s.pixfmts 200 s.conn.query.json s.conn.page responseLen ::
        ((cut maxChunkSize ((s.streams image).content.drop (s.streams image).pOffset)).map chunk
          ++ [chunk []])) :=
  ⟨congrArg _ hpending, rfl, Or.inr ⟨himage, hsize, rfl⟩⟩

theorem sendResponse_sending {s : Sys} {image : StreamId} (hpending : s.pending = [])
    (hjson : s.conn.query.json = false) (himage : s.conn.image = some image)
    (hne : (s.streams image).content ≠ []) (hsize : (s.streams image).content.length < 2 ^ 32) :
    (∃ head, Sending image (s.sendResponse 200)
      (head :: ((cut maxChunkSize (s.streams image).content).map chunk ++ [chunk []]))) ∧
      (s.sendResponse 200).fault = s.fault := by
  have hstream : (s.seek image 0).streams image =
      { s.streams image with pOffset := 0, offset_le := Nat.zero_le _ } := by
    simp [seek, putStream, DynamicMemoryStream.seek_zero]
  have hpos := List.length_pos_iff.2 hne
  rw [DynamicMemoryStream.length_content] at hsize hpos
  have hlen : ((s.seek image 0).streams image).size.toNat ≠ 0 := by
    rw [hstream]
    simp only [DynamicMemoryStream.size]
    omega
  have hbegin := beginResponse_sending (s := s.seek image 0)
    ((s.seek image 0).streams image).size.toNat hpending himage (by rw [hstream]; exact hsize)
  simp only [sendResponse, hjson, himage, Bool.not_false, and_self, if_true, if_neg hlen]
  refine ⟨⟨buildResponse s.pixfmts 200 s.conn.query.json s.conn.page
    ((s.seek image 0).streams image).size.toNat, ?_⟩, rfl⟩
  rw [hstream] at hbegin ⊢
  exact hbegin

/-- **The body of an image response.** After the head, the writes are the chunks of the image and the
last chunk, each once and in order; they decode to the image; no further write follows, and none of
them is built or sent from outside the buffer. If all of them succeed, the response is over. -/
theorem sendResponse_chunked {s : Sys} {image : StreamId} (hpending : s.pending = [])
    (hjson : s.conn.query.json = false) (himage : s.conn.image = some image)
    (hne : (s.streams image).content ≠ []) (hsize : (s.streams image).content.length < 2 ^ 32) :
    ∃ (head : Bytes) (chunks : List Bytes), (∀ c ∈ chunks, c ≠ []) ∧
      decode (chunks.map chunk ++ [chunk []]).flatten = some (s.streams image).content ∧
      (∃ s', StepSystem.run step (s.sendResponse 200)
          (List.replicate (chunks.length + 2) (.wroteResponse true)) = some s' ∧ s'.pending = []) ∧
      ∀ es s', StepSystem.run step (s.sendResponse 200) es = some s' →
        .wroteResponse false ∉ es →
        ∃ ws, writes (s.sendResponse 200) es ++ ws = head :: (chunks.map chunk ++ [chunk []]) ∧
          s'.pending = (ws.head?.map Op.writeResponse).toList ∧ s'.fault = s.fault := by
  obtain ⟨⟨head, hsending⟩, hfault⟩ := sendResponse_sending hpending hjson himage hne hsize
  refine ⟨head, cut maxChunkSize (s.streams image).content, fun c hc => ne_nil_of_mem_cut hc,
    decode_cut _, ?_, fun es s' hrun hes => ?_⟩
  · have hend := exists_run_drained hsending.draining
    rwa [List.length_cons, List.length_append, List.length_map, List.length_singleton] at hend
  · obtain ⟨ws, hws, hs', hfault'⟩ := run_draining hsending.draining hes hrun
    exact ⟨ws, hws, hs'.pending_eq, hfault'.trans hfault⟩

/-- A connection whose image has been rendered; the cursor of the stream is at its end. -/
def renderedSys : Sys :=
  { exampleInit.putStream 7 (DynamicMemoryStream.fresh.write (lit "jpeg")).2 with
    conn := { exampleInit.conn with image := some 7 }
    pending := [] }

theorem renderedSys_chunked :
    (renderedSys.streams 7).content = lit "jpeg" ∧
    ∃ (head : Bytes) (chunks : List Bytes), (∀ c ∈ chunks, c ≠ []) ∧
      decode (chunks.map chunk ++ [chunk []]).flatten = some (renderedSys.streams 7).content ∧
      (∃ s', StepSystem.run step (renderedSys.sendResponse 200)
          (List.replicate (chunks.length + 2) (.wroteResponse true)) = some s' ∧ s'.pending = []) ∧
      ∀ es s', StepSystem.run step (renderedSys.sendResponse 200) es = some s' →
        .wroteResponse false ∉ es →
        ∃ ws, writes (renderedSys.sendResponse 200) es ++ ws = head :: (chunks.map chunk ++ [chunk []]) ∧
          s'.pending = (ws.head?.map Op.writeResponse).toList ∧ s'.fault = renderedSys.fault :=
  ⟨by decide +kernel, sendResponse_chunked rfl rfl rfl (by decide +kernel) (by decide +kernel)⟩

end Sys

end ImageProxy
