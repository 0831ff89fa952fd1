import ImageProxy.Connection.ChunkedResponse

set_option autoImplicit false

/-! # Reading a stream to its end

The loop of `handle_write_response` and that of `IOStream::CopyTo` take a `Read` of nothing for the
end of the stream. `DynamicMemoryStream::Read` cuts the number of bytes that are left to 32 bits, so
that it gives nothing at every multiple of 2 ^ 32 bytes before the end, and the loops stop there. -/

namespace ImageProxy

open Http ChunkedCoding

/-- `Read` gives nothing exactly at a multiple of 2 ^ 32 bytes before the end. -/
theorem DynamicMemoryStream.read_eq_nil_iff (s : DynamicMemoryStream) {n : UInt32}
    (hn : 0 < n.toNat) :
    (s.read n.toNat).1 = [] ↔ (s.pSize - s.pOffset) % 2 ^ 32 = 0 := by
  have hlen := s.length_rest
  rw [read_readable, readable, List.take_take, List.take_eq_nil_iff, ← hlen]
  constructor
  · rintro (h | h)
    · omega
    · rw [h, List.length_nil, Nat.zero_mod]
  · intro h
    exact .inl (by omega)

namespace Sys

variable {s : Sys} {image : StreamId}

/-- What reads the image to its end gets all that is left of it: each `Read`, the chunks that
`handle_write_response` writes until nothing is pending, and `IOStream::CopyTo`. -/
structure ReadToEnd (s : Sys) (image : StreamId) : Prop where
  read : ∀ n : UInt32, 0 < n.toNat → ((s.streams image).read n.toNat).1 ≠ []
  ends : ∃ es s', StepSystem.run step (s.handleWriteResponse true) es = some s' ∧
    .wroteResponse false ∉ es ∧ s'.pending = []
  chunks : ∀ es s', StepSystem.run step (s.handleWriteResponse true) es = some s' →
    .wroteResponse false ∉ es → s'.pending = [] →
    decode (writes (s.handleWriteResponse true) es).flatten = some (s.streams image).rest
  copyTo : ∀ (τ : Type) (write : WriteMethod τ) (received : τ → Bytes) (output : τ)
    (size : UInt32) (turns : ℕ), AcceptsAll write received → size.toNat < turns →
    ∃ count t output', IOStream.copyTo (fun t n => t.read n.toNat) write turns (s.streams image)
        output size.toNat = some (count, t, output') ∧
      Delivered received output ((s.streams image).rest.take size.toNat) (count, output')

/-- The chunks that are written until nothing is pending are those of what can be read. -/
theorem writes_drained (hpending : s.pending = []) (hcode : s.conn.statusCode = 200)
    (himage : s.conn.image = some image) {es : List Event} {s' : Sys}
    (hrun : StepSystem.run step (s.handleWriteResponse true) es = some s')
    (hes : .wroteResponse false ∉ es) (hend : s'.pending = []) :
    decode (writes (s.handleWriteResponse true) es).flatten
      = some (s.streams image).readable := by
  obtain ⟨ws, hws, hs', -⟩ :=
    run_draining (handleWriteResponse_draining hpending hcode himage).1 hes hrun
  have hnil : ws = [] := by
    have hlast := hs'.pending_eq
    rw [hend] at hlast
    cases ws with
    | nil => rfl
    | cons w ws => exact absurd hlast (by simp)
  rw [hnil, List.append_nil] at hws
  rw [hws, decode_cut]

theorem exists_run_handleWriteResponse (hpending : s.pending = [])
    (hcode : s.conn.statusCode = 200) (himage : s.conn.image = some image) :
    ∃ es s', StepSystem.run step (s.handleWriteResponse true) es = some s' ∧
      .wroteResponse false ∉ es ∧ s'.pending = [] := by
  obtain ⟨s', hrun, hend⟩ :=
    exists_run_drained (handleWriteResponse_draining hpending hcode himage).1
  refine ⟨_, s', hrun, fun hmem => ?_, hend⟩
  exact absurd (List.eq_of_mem_replicate hmem) (by simp)

/-- **Reading to the end.** On a connection that is sending an image of which something is left,
what reads until nothing comes gets all of it exactly if 32 bits are enough for its length. -/
theorem readToEnd_iff (hpending : s.pending = []) (hcode : s.conn.statusCode = 200)
    (himage : s.conn.image = some image)
    (hleft : (s.streams image).pOffset < (s.streams image).pSize) :
    ReadToEnd s image ↔ (s.streams image).pSize - (s.streams image).pOffset < 2 ^ 32 := by
  rw [← DynamicMemoryStream.readable_eq_rest_iff]
  constructor
  · rintro ⟨-, ⟨es, s', hrun, hes, hend⟩, hchunks, -⟩
    have hdrained := writes_drained hpending hcode himage hrun hes hend
    rw [hchunks es s' hrun hes hend] at hdrained
    exact (Option.some.inj hdrained).symm
  · intro hall
    have hlt := DynamicMemoryStream.readable_eq_rest_iff.1 hall
    refine ⟨fun n hn hnil => ?_, exists_run_handleWriteResponse hpending hcode himage,
      fun es s' hrun hes hend => ?_, ?_⟩
    · rw [(s.streams image).read_eq_nil_iff hn, Nat.mod_eq_of_lt hlt] at hnil
      omega
    · rw [writes_drained hpending hcode himage hrun hes hend, hall]
    · intro τ write received output size turns hsink hturns
      have hsize := size.toNat_lt
      obtain ⟨t, output', hloop, hreceived⟩ := IOStream.copyLoop_delivers
        DynamicMemoryStream.source hsink (s.streams image) output
        (by omega : 0 + size.toNat < 2 ^ 32) hturns
      rw [Nat.zero_add] at hloop
      rw [← hall]
      exact ⟨_, t, output', hloop, rfl, hreceived⟩

/-! ### An image of 2 ^ 32 bytes -/

/-- A stream to which `n` bytes were written twice. -/
def writtenTwice (n : ℕ) : DynamicMemoryStream :=
  (((DynamicMemoryStream.fresh.write (List.replicate n 0)).2.write (List.replicate n 0)).2.seek
    0 .set).2

theorem writtenTwice_eq {n : ℕ} (hn : n < 2 ^ 32) :
    (writtenTwice n).pOffset = 0 ∧ (writtenTwice n).pSize = n + n := by
  have hlen : (List.replicate n (0 : UInt8)).length < 2 ^ 32 := by
    rw [List.length_replicate]
    exact hn
  obtain ⟨-, hfirst, hend⟩ := DynamicMemoryStream.fresh.write_atEnd _ hlen rfl
  obtain ⟨-, hsecond, -⟩ := DynamicMemoryStream.write_atEnd _ _ hlen hend
  have hsize := congrArg List.length hsecond
  rw [hfirst, DynamicMemoryStream.length_content, DynamicMemoryStream.content_fresh,
    List.nil_append, List.length_append, List.length_replicate] at hsize
  rw [writtenTwice, DynamicMemoryStream.seek_zero]
  exact ⟨rfl, hsize⟩

/-- A connection that has written the head of a response with an image. -/
def respondingSys (t : DynamicMemoryStream) : Sys :=
  { exampleInit.putStream 7 t with
    conn := { exampleInit.conn with image := some 7, statusCode := 200 }
    pending := [] }

theorem streams_respondingSys (t : DynamicMemoryStream) : (respondingSys t).streams 7 = t := by
  simp [respondingSys, putStream]

theorem readToEnd_respondingSys_iff :
    ReadToEnd (respondingSys threeBytes) 7 ↔
      ((respondingSys threeBytes).streams 7).pSize - ((respondingSys threeBytes).streams 7).pOffset
        < 2 ^ 32 :=
  readToEnd_iff rfl rfl rfl (by rw [streams_respondingSys]; decide +kernel)

/-- Nothing of an image of 2 ^ 32 bytes can be read. -/
theorem not_readToEnd : ∃ (s : Sys) (image : StreamId), s.pending = [] ∧
    s.conn.statusCode = 200 ∧ s.conn.image = some image ∧
    (s.streams image).pOffset < (s.streams image).pSize ∧ ¬ReadToEnd s image := by
  obtain ⟨hoffset, hsize⟩ := writtenTwice_eq (n := 2 ^ 31) (by omega)
  refine ⟨respondingSys (writtenTwice (2 ^ 31)), 7, rfl, rfl, rfl, ?_, fun h => ?_⟩
  · rw [streams_respondingSys, hoffset, hsize]
    omega
  · refine h.read 1 (by decide) ?_
    rw [DynamicMemoryStream.read_eq_nil_iff _ (by decide), streams_respondingSys, hoffset, hsize]
    omega

end Sys

end ImageProxy
