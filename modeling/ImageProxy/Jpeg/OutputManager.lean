import ImageProxy.Cpcl.DynamicMemoryStream
import ImageProxy.Cpcl.IoStream

set_option autoImplicit false

/-! # The output of the JPEG compressor (`jpeg_compressor_stuff.cpp`)

The compressor stores its bytes into the buffer of a `JpegOutputManager` and calls it back: before the
first byte, whenever the buffer is full, and behind the last byte. What a manager has been given is
what its stream has received and the bytes that stand in the buffer (`JpegOutputManager.emitted`);
every byte is added to it, and the last callback empties the buffer. -/

namespace ImageProxy

/-- `arraysize(dest->buffer)`. -/
def outputBufferSize : ℕ := 0x1000

/-- `JpegOutputManager`. `nextOutputByte` is the offset in the buffer. -/
structure JpegOutputManager (τ : Type) where
  out : τ
  buffer : Bytes
  size : buffer.length = outputBufferSize
  nextOutputByte : ℕ
  freeInBuffer : ℕ

namespace JpegOutputManager

variable {τ : Type} (write : WriteMethod τ)

/-! ## The callbacks -/

/-- `method_init_destination`. -/
def initDestination (dest : JpegOutputManager τ) : JpegOutputManager τ :=
  { dest with nextOutputByte := 0, freeInBuffer := outputBufferSize }

/-- `method_empty_output_buffer`. -/
def emptyOutputBuffer (dest : JpegOutputManager τ) : JpegOutputManager τ :=
  { dest with
    out := (write dest.out dest.buffer).2
    nextOutputByte := 0
    freeInBuffer := outputBufferSize }

/-- `method_term_destination`. -/
def termDestination (dest : JpegOutputManager τ) : JpegOutputManager τ :=
  let size := outputBufferSize - dest.freeInBuffer
  if size > 0 then { dest with out := (write dest.out (dest.buffer.take size)).2 } else dest

/-! ## The compressor -/

/-- One byte of the compressor; `none` if it is stored outside the buffer. -/
def emit (b : UInt8) (dest : JpegOutputManager τ) : Option (JpegOutputManager τ) :=
  if dest.nextOutputByte < outputBufferSize then
    let dest : JpegOutputManager τ :=
      { dest with
        buffer := dest.buffer.set dest.nextOutputByte b
        size := by rw [List.length_set, dest.size]
        nextOutputByte := dest.nextOutputByte + 1
        freeInBuffer := dest.freeInBuffer - 1 }
    some (if dest.freeInBuffer = 0 then dest.emptyOutputBuffer write else dest)
  else none

/-- `jpeg_start_compress` and the bytes up to now. -/
def start (bytes : Bytes) (dest : JpegOutputManager τ) : Option (JpegOutputManager τ) :=
  bytes.foldlM (fun dest b => dest.emit write b) dest.initDestination

/-- All bytes, and `jpeg_finish_compress`. -/
def compress (bytes : Bytes) (dest : JpegOutputManager τ) : Option (JpegOutputManager τ) :=
  (dest.start write bytes).map (termDestination write)

/-- The stream has received the bytes, and whenever the compressor resumes there is room for the next
one. -/
structure Delivers (received : τ → Bytes) (bytes : Bytes) (dest : JpegOutputManager τ) : Prop where
  delivered : ∃ dest', dest.compress write bytes = some dest' ∧
    received dest'.out = received dest.out ++ bytes
  room : ∀ emitted, emitted <+: bytes →
    ∃ dest', dest.start write emitted = some dest' ∧ 0 < dest'.freeInBuffer

/-! ## What the manager has been given -/

variable {write} {received : τ → Bytes}

/-- What the stream has received, and what is in the buffer. -/
def emitted (received : τ → Bytes) (dest : JpegOutputManager τ) : Bytes :=
  received dest.out ++ dest.buffer.take dest.nextOutputByte

/-- The pointer and the count agree, and there is room. -/
structure Ready (dest : JpegOutputManager τ) : Prop where
  total : dest.nextOutputByte + dest.freeInBuffer = outputBufferSize
  room : 0 < dest.freeInBuffer

theorem ready_initDestination (dest : JpegOutputManager τ) : dest.initDestination.Ready :=
  ⟨by simp [initDestination], by simp [initDestination, outputBufferSize]⟩

theorem emitted_initDestination (dest : JpegOutputManager τ) :
    dest.initDestination.emitted received = received dest.out := by
  simp [emitted, initDestination]

/-- A byte is added to what the manager has been given, and there is room again. -/
theorem emit_ready (hsink : AcceptsAll write received) {dest : JpegOutputManager τ}
    (h : dest.Ready) (b : UInt8) : ∃ dest', dest.emit write b = some dest' ∧ dest'.Ready ∧
      dest'.emitted received = dest.emitted received ++ [b] := by
  obtain ⟨htotal, hroom⟩ := h
  have hlt : dest.nextOutputByte < dest.buffer.length := by rw [dest.size]; omega
  -- the bytes in the buffer, with the one that is stored
  have hstored : (dest.buffer.set dest.nextOutputByte b).take (dest.nextOutputByte + 1)
      = dest.buffer.take dest.nextOutputByte ++ [b] := by
    rw [List.take_add_one, List.take_set_of_le (Nat.le_refl _), List.getElem?_set_self hlt,
      Option.toList_some]
  rw [emit, if_pos (by omega)]
  refine ⟨_, rfl, ?_⟩
  by_cases hfull : dest.freeInBuffer - 1 = 0
  · -- it was the last free byte: the buffer is all there is, and it is written
    have hall : dest.nextOutputByte + 1 = (dest.buffer.set dest.nextOutputByte b).length := by
      rw [List.length_set, dest.size]
      omega
    rw [hall, List.take_length] at hstored
    have hlen : (dest.buffer.set dest.nextOutputByte b).length < 2 ^ 32 := by
      rw [List.length_set, dest.size]
      decide
    rw [if_pos hfull]
    refine ⟨⟨by simp [emptyOutputBuffer], by simp [emptyOutputBuffer, outputBufferSize]⟩, ?_⟩
    simp only [emitted, emptyOutputBuffer, List.take_zero, List.append_nil]
    rw [hsink.received _ _ hlen, hstored, List.append_assoc]
  · rw [if_neg hfull]
    refine ⟨⟨by simp only; omega, by simp only; omega⟩, ?_⟩
    simp only [emitted]
    rw [hstored, List.append_assoc]

/-- All bytes so far. -/
theorem foldlM_emit_ready (hsink : AcceptsAll write received) (bytes : Bytes)
    {dest : JpegOutputManager τ} (h : dest.Ready) :
    ∃ dest', bytes.foldlM (fun dest b => dest.emit write b) dest = some dest' ∧ dest'.Ready ∧
      dest'.emitted received = dest.emitted received ++ bytes := by
  induction bytes generalizing dest with
  | nil => exact ⟨dest, rfl, h, (List.append_nil _).symm⟩
  | cons b bytes ih =>
      obtain ⟨dest₁, hemit, hready₁, hgiven₁⟩ := emit_ready hsink h b
      obtain ⟨dest₂, hrest, hready₂, hgiven₂⟩ := ih hready₁
      refine ⟨dest₂, ?_, hready₂, ?_⟩
      · rw [List.foldlM_cons, hemit]
        exact hrest
      · rw [hgiven₂, hgiven₁, List.append_assoc, List.singleton_append]

theorem start_ready (hsink : AcceptsAll write received) (bytes : Bytes)
    (dest : JpegOutputManager τ) : ∃ dest', dest.start write bytes = some dest' ∧ dest'.Ready ∧
      dest'.emitted received = received dest.out ++ bytes := by
  obtain ⟨dest', hstart, hready, hgiven⟩ :=
    foldlM_emit_ready hsink bytes (ready_initDestination dest)
  rw [emitted_initDestination] at hgiven
  exact ⟨dest', hstart, hready, hgiven⟩

/-- The last callback empties the buffer: what the manager has been given has been received. -/
theorem received_termDestination (hsink : AcceptsAll write received) {dest : JpegOutputManager τ}
    (h : dest.Ready) : received (dest.termDestination write).out = dest.emitted received := by
  obtain ⟨htotal, hroom⟩ := h
  have hused : outputBufferSize - dest.freeInBuffer = dest.nextOutputByte := by omega
  have hlen : (dest.buffer.take dest.nextOutputByte).length < 2 ^ 32 := by
    have hle := List.length_take_le' dest.nextOutputByte dest.buffer
    rw [dest.size, outputBufferSize] at hle
    omega
  rw [termDestination, hused, emitted]
  split_ifs with hsome
  · exact hsink.received _ _ hlen
  · have hnone : dest.nextOutputByte = 0 := by omega
    rw [hnone, List.take_zero, List.append_nil]

/-- **The stream receives what the compressor emits.** Whatever the manager and the stream were before,
for every sequence of bytes, also if its length is a multiple of the size of the buffer. -/
theorem delivers_compress (hsink : AcceptsAll write received) (bytes : Bytes)
    (dest : JpegOutputManager τ) : Delivers write received bytes dest := by
  constructor
  · obtain ⟨dest', hstart, hready, hgiven⟩ := start_ready hsink bytes dest
    refine ⟨dest'.termDestination write, ?_, ?_⟩
    · rw [compress, hstart]
      rfl
    · rw [received_termDestination hsink hready, hgiven]
  · intro emitted _
    obtain ⟨dest', hstart, hready, -⟩ := start_ready hsink emitted dest
    exact ⟨dest', hstart, hready.room⟩

end JpegOutputManager

/-! ## A stream in memory -/

/-- A `DynamicMemoryStream` at its end. -/
structure AppendingStream where
  stream : DynamicMemoryStream
  atEnd : stream.pOffset = stream.pSize

namespace AppendingStream

/-- `DynamicMemoryStream::Write` of fewer than 2 ^ 32 bytes, which leaves the stream at its end. -/
def write : WriteMethod AppendingStream := fun s data =>
  if h : data.length < 2 ^ 32 then
    ((s.stream.write data).1, ⟨(s.stream.write data).2, (s.stream.write_atEnd data h s.atEnd).2.2⟩)
  else (0, s)

def content (s : AppendingStream) : Bytes := s.stream.content

theorem acceptsAll_write : AcceptsAll write content where
  count s data h := by
    rw [write, dif_pos h]
    exact (s.stream.write_atEnd data h s.atEnd).1
  received s data h := by
    rw [write, dif_pos h]
    exact (s.stream.write_atEnd data h s.atEnd).2.1

end AppendingStream

/-- A compressor that writes into a new stream. -/
theorem JpegOutputManager.delivers_fresh : Delivers AppendingStream.write AppendingStream.content
    (List.replicate (2 * outputBufferSize) 0xFF)
    ⟨⟨.fresh, rfl⟩, List.replicate outputBufferSize 0, List.length_replicate, 0, 0⟩ :=
  delivers_compress AppendingStream.acceptsAll_write _ _

end ImageProxy
