import ImageProxy.Connection.Response
import ImageProxy.Http.Message

set_option autoImplicit false

/-! # The file that a server sends

What the connection makes of a response, in terms of the response itself: its head by the grammar of
heads, its body in chunks or of the length that the head gives. -/

namespace ImageProxy.Sys

open Ascii Cpcl Http ChunkedCoding

variable {t : Sys} {image : StreamId}

/-- **The connection loads the file.** A connection that waits for a response, and gets one with
status 200 that is framed in chunks or by a length and asks for no upgrade, hands to `LoadDoc` what its
stream has after the body was written, whatever the spelling of the head and of the chunks, and whatever
the pieces it arrives in. An empty stream has the body then; one that the body of a redirect went to has
what it had. -/
theorem receive_payload (h : Awaiting image t) {head : ResponseHead} (hhead : head.Valid)
    (hcode : decimalValue head.status.code = 200) (hupgrade : head.framing.flags.upgrade = false)
    {data body : Bytes} (hframes : Frames head.framing data body) {reads : List Bytes}
    (hreads : reads.flatten = head.text ++ LF :: data)
    (hlen : ∀ read ∈ reads, read.length ≤ bufferSize) (a : Answers) :
    ∃ s', receive a (t.start .readResponse) reads = some s' ∧
      s'.documents = t.documents ++ [contentAfter (t.streams image) body] := by
  obtain ⟨p, l₀, hresponse, hplain, hneeds⟩ := complete200_of_frames hhead hcode hupgrade hframes
  obtain ⟨s', hs', hdocuments⟩ := receive_documents a reads h.reading h.idle h.image_eq hlen
    Log.waiting_empty (hreads ▸ hresponse.steady)
  refine ⟨s', hs', ?_⟩
  rw [hdocuments, hresponse.deliver_framed hplain hreads, hneeds]
  rfl

/-- A head that is spelled in an unusual way. -/
def oddHead : ResponseHead where
  status := ⟨lit "1", lit "1", lit "0200", []⟩
  lines := [⟨⟨lit "CONTENT-length", lit "7"⟩, lit "\t  "⟩,
    ⟨⟨lit "Transfer-Encoding", lit "Chunked  "⟩, lit " "⟩, ⟨⟨lit "Upgrade", []⟩, []⟩]

/-- The response in three reads. -/
def oddReads : List Bytes :=
  [lit "HTTP/1.1 0200\x0d\nCONTENT-length:\t  7\x0d\nTransfer-Enc",
    lit "oding: Chunked  \x0d\nUpgrade:\x0d\n\x0d\n0C;x\x0d\nhello, ",
    lit "image\x0d\n00\x0d\n\x0d\n"]

theorem receive_payload_oddReads : ∃ s',
    receive exampleAnswers (awaitingSys.start .readResponse) oddReads = some s' ∧
      s'.documents = awaitingSys.documents ++ [lit "hello, image"] := by
  have hframes : Frames oddHead.framing
      (([spelledChunk].map Chunk.text).flatten ++ zeros.text)
      (([spelledChunk].map Chunk.data).flatten) := by
    refine .chunked (by decide +kernel) (fun c hc => ?_) valid_zeros rfl
    rw [List.mem_singleton.1 hc]
    exact ⟨valid_spelledChunk, by decide⟩
  have htakes : contentAfter (awaitingSys.streams 1) (([spelledChunk].map Chunk.data).flatten)
      = lit "hello, image" := (contentAfter_eq_iff _ _).2 (Or.inl rfl)
  rw [← htakes]
  exact receive_payload ⟨rfl, rfl, _, rfl, rfl⟩ (ResponseHead.valid_of_check (by decide +kernel))
    (by decide +kernel) (by decide +kernel) hframes (by decide +kernel) (by decide +kernel)
    exampleAnswers

end ImageProxy.Sys
