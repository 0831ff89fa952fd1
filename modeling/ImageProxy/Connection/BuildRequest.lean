import ImageProxy.Connection.Fetch

set_option autoImplicit false

/-! # The request that goes upstream

`BuildRequest` writes the request piece by piece behind what is in the buffer already, and every
writer cuts what does not fit. What comes out is the beginning of the whole request: 4095 bytes of
it, if it is longer. `sendsRequest_iff` says when nothing is cut. -/

namespace ImageProxy

open Ascii Cpcl

/-! ## The whole request -/

/-- The request for `path` at `host`. -/
def wholeRequest (host path : Bytes) : Bytes :=
  lit "GET /webhdfs/v1" ++ path ++ lit "?op=OPEN HTTP/1.1\r\n" ++
    (lit "Host" ++ lit ": " ++ host ++ lit "\r\n") ++
    (lit "Connection" ++ lit ": " ++ lit "close" ++ lit "\r\n") ++ lit "\r\n"

/-- `handle_connect` has gone from `s` to `t`: the whole request is in the buffer, and it is what is
being written. -/
structure Sys.SendsRequest (s t : Sys) : Prop where
  pending : t.pending = .writeRequest (wholeRequest s.conn.host s.conn.webhdfsPath) :: s.pending
  buffer : wholeRequest s.conn.host s.conn.webhdfsPath <+: t.conn.buffer.bytes

/-! ## What the writers cut -/

/-- What of a text fits in the buffer, with the NUL behind it. -/
def fitting (text : Bytes) : Bytes := text.take (bufferSize - 1)

theorem length_fitting_lt (text : Bytes) : (fitting text).length < bufferSize :=
  (List.length_take_le _ _).trans_lt (by decide)

theorem fitting_of_lt {text : Bytes} (h : text.length < bufferSize) : fitting text = text :=
  List.take_of_length_le (by omega)

/-- A writer goes on where the one before it has stopped, also if that had no room left. -/
theorem stringAdvance_fitting (text s : Bytes) :
    stringAdvance (fitting text) s = fitting (text ++ s) := by
  rw [stringAdvance, stringCopy, fitting, fitting, List.take_append, List.length_take]
  by_cases hroom : text.length < bufferSize
  · rw [Nat.min_eq_right (by omega), Nat.sub_right_comm]
  · have hnone : bufferSize - min (bufferSize - 1) text.length - 1 = 0 := by omega
    have hbehind : bufferSize - 1 - text.length = 0 := by omega
    rw [hnone, hbehind]

theorem writeHeader_fitting (text name value : Bytes) : writeHeader (fitting text) name value
    = fitting (text ++ (name ++ lit ": " ++ value ++ lit "\r\n")) := by
  simp only [writeHeader, stringAdvance_fitting, List.append_assoc]

theorem stringFormat_fitting {text : Bytes} (h : text.length < 2 ^ 31) :
    stringFormat bufferSize text = fitting text := by
  rw [stringFormat, if_neg (by decide), if_neg (by omega)]
  split_ifs with hlong
  · rfl
  · exact (fitting_of_lt (by omega)).symm

theorem stringFormat_failed {text : Bytes} (h : 2 ^ 31 ≤ text.length) :
    stringFormat bufferSize text = fitting [] := by
  rw [stringFormat, if_neg (by decide), if_pos h]
  rfl

/-- The headers and the empty line, behind what there is of the request line. -/
theorem buildRequest_of_line {host path line : Bytes}
    (hline : stringFormat bufferSize (lit "GET /webhdfs/v1" ++ cString path ++
      lit "?op=OPEN HTTP/1.1\r\n") = fitting line) :
    buildRequest host path = fitting (line ++ (lit "Host" ++ lit ": " ++ host ++ lit "\r\n") ++
      (lit "Connection" ++ lit ": " ++ lit "close" ++ lit "\r\n") ++ lit "\r\n") := by
  simp only [buildRequest, hline, writeHeader_fitting, stringAdvance_fitting]

/-- What is written is the beginning of the whole request for the path up to its first NUL. -/
theorem buildRequest_eq_fitting {host path : Bytes}
    (hlen : (lit "GET /webhdfs/v1" ++ cString path ++ lit "?op=OPEN HTTP/1.1\r\n").length < 2 ^ 31) :
    buildRequest host path = fitting (wholeRequest host (cString path)) :=
  buildRequest_of_line (stringFormat_fitting hlen)

theorem length_buildRequest_lt (host path : Bytes) :
    (buildRequest host path).length < bufferSize := by
  by_cases hlen : (lit "GET /webhdfs/v1" ++ cString path ++
      lit "?op=OPEN HTTP/1.1\r\n").length < 2 ^ 31
  · rw [buildRequest_eq_fitting hlen]
    exact length_fitting_lt _
  · rw [buildRequest_of_line (stringFormat_failed (by omega))]
    exact length_fitting_lt _

/-! ## When nothing is cut -/

theorem length_cString_le (s : Bytes) : (cString s).length ≤ s.length :=
  (List.takeWhile_prefix _).length_le

/-- The path can be read off the whole request. -/
theorem wholeRequest_inj {host path path' : Bytes}
    (h : wholeRequest host path = wholeRequest host path') : path = path' := by
  simpa [wholeRequest] using h

theorem length_line_le (host path : Bytes) :
    (lit "GET /webhdfs/v1" ++ path ++ lit "?op=OPEN HTTP/1.1\r\n").length
      ≤ (wholeRequest host path).length := by
  simp only [wholeRequest, List.length_append]
  omega

theorem buildRequest_eq_iff (host path : Bytes) : buildRequest host path = wholeRequest host path ↔
    (0 : UInt8) ∉ path ∧ (wholeRequest host path).length < bufferSize := by
  constructor
  · intro h
    have hlen : (wholeRequest host path).length < bufferSize := h ▸ length_buildRequest_lt host path
    refine ⟨fun hnul => ?_, hlen⟩
    -- the line is short, so what is cut is the path behind its NUL, and that is missed
    have hle := length_cString_le path
    have hline := length_line_le host path
    simp only [List.length_append] at hline
    rw [bufferSize] at hlen
    have hshort : (lit "GET /webhdfs/v1" ++ cString path ++
        lit "?op=OPEN HTTP/1.1\r\n").length < 2 ^ 31 := by
      simp only [List.length_append]
      omega
    have hcut : (wholeRequest host (cString path)).length ≤ (wholeRequest host path).length := by
      simp only [wholeRequest, List.length_append]
      omega
    rw [buildRequest_eq_fitting hshort, fitting_of_lt (by rw [bufferSize]; omega)] at h
    rw [← wholeRequest_inj h] at hnul
    exact zero_notMem_cString path hnul
  · rintro ⟨hnul, hlen⟩
    have hline := length_line_le host path
    rw [buildRequest_eq_fitting (by rw [cString_of_not_mem hnul]; rw [bufferSize] at hlen; omega),
      cString_of_not_mem hnul, fitting_of_lt hlen]

namespace Sys

/-- What `handle_connect` writes is what `BuildRequest` has put into the buffer. -/
theorem handleConnect_written (s : Sys) (endpointsLeft : ℕ) :
    (s.handleConnect true endpointsLeft).pending
      = .writeRequest (buildRequest s.conn.host s.conn.webhdfsPath) :: s.pending ∧
    buildRequest s.conn.host s.conn.webhdfsPath
      <+: (s.handleConnect true endpointsLeft).conn.buffer.bytes := by
  simp only [handleConnect, if_true, start, modify]
  refine ⟨trivial, ?_⟩
  have hlen := length_buildRequest_lt s.conn.host s.conn.webhdfsPath
  obtain ⟨b, hput⟩ : ∃ b, s.conn.buffer.put 0 (buildRequest s.conn.host s.conn.webhdfsPath) = some b :=
    Buffer.put_isSome (by omega)
  rw [Buffer.fill, hput, Option.getD_some, Buffer.put_bytes hput, List.take_zero, List.nil_append]
  exact List.prefix_append _ _

/-- **When the request goes upstream whole.** Exactly when its path has no NUL and all of it, with the
NUL behind it, fits in the buffer. -/
theorem sendsRequest_iff (s : Sys) (endpointsLeft : ℕ) :
    SendsRequest s (s.handleConnect true endpointsLeft) ↔ (0 : UInt8) ∉ s.conn.webhdfsPath ∧
      (wholeRequest s.conn.host s.conn.webhdfsPath).length < bufferSize := by
  obtain ⟨hpending, hbuffer⟩ := handleConnect_written s endpointsLeft
  rw [← buildRequest_eq_iff]
  constructor
  · intro h
    have hsame := hpending.symm.trans h.pending
    simpa using hsame
  · intro hsame
    rw [hsame] at hpending hbuffer
    exact ⟨hpending, hbuffer⟩

/-- A path of 4097 bytes. -/
def longPath : Bytes := asc '/' :: List.replicate 0x1000 (asc 'a')

theorem favicon_longPath : stringEqualsIgnoreCaseASCII longPath (lit "/favicon.ico") = false := by
  have hlen : (longPath.length == (lit "/favicon.ico").length) = false := by
    rw [longPath, List.length_cons, List.length_replicate]
    rfl
  rw [stringEqualsIgnoreCaseASCII, hlen, Bool.false_and]

/-- A long path is asked for: the request for it is sent in part. -/
theorem not_sendsRequest_long :
    ¬SendsRequest (exampleInit.sendRequest exampleAnswers longPath)
      ((exampleInit.sendRequest exampleAnswers longPath).handleConnect true 0) := by
  intro h
  have hlen := length_buildRequest_lt (lit "localhost") longPath
  have hasked := sendRequest_miss (s := exampleInit) rfl favicon_longPath (a := exampleAnswers) rfl
  have hpath : (exampleInit.sendRequest exampleAnswers longPath).conn.webhdfsPath = longPath := by
    rw [hasked]
    rfl
  have hhost : (exampleInit.sendRequest exampleAnswers longPath).conn.host = lit "localhost" := by
    rw [hasked]
    rfl
  have hsame := (handleConnect_written _ 0).1.symm.trans h.pending
  rw [hpath, hhost, List.cons.injEq, Op.writeRequest.injEq] at hsame
  rw [hsame.1, wholeRequest] at hlen
  simp only [List.length_append, longPath, List.length_cons, List.length_replicate] at hlen
  rw [bufferSize] at hlen
  omega

end Sys

end ImageProxy
