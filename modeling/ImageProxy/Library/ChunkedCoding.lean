import ImageProxy.Library.Ascii

set_option autoImplicit false

/-! # The chunked transfer coding

A chunked body is a sequence of chunks, each a hexadecimal size line, that many bytes and a line
end, closed by a chunk of size zero and an empty line. `encode` writes one, `decode` reads one: the
decoder is a byte-driven automaton that knows nothing about the encoder, accepts nothing after the
empty line, and is inverse to it on every list of non-empty chunks. -/

namespace ChunkedCoding

open Ascii

def crlf : Bytes := [13, 10]

/-! ## The encoder -/

/-- One chunk: its size in hexadecimal, and its bytes. -/
def chunk (c : Bytes) : Bytes := numeral 16 c.length ++ crlf ++ c ++ crlf

/-- The chunks, then the last chunk and the empty line. -/
def encode (chunks : List Bytes) : Bytes := (chunks.map chunk).flatten ++ chunk []

/-! ## The decoder -/

/-- What the decoder expects next. -/
inductive State where
  /-- A digit of a chunk size; `started` once one has been read. -/
  | size (n : ℕ) (started : Bool)
  | sizeLf (n : ℕ)
  /-- `n + 1` more bytes of the chunk. -/
  | data (n : ℕ)
  | dataCr
  | dataLf
  | lastCr
  | lastLf
  /-- The body is over. -/
  | done
deriving DecidableEq, Repr

/-- One byte: the next state and the byte of the body it delivers, if any. -/
def step : State → UInt8 → Option (State × Bytes)
  | .size n started, c =>
      match hexValue c with
      | some d => some (.size (16 * n + d) true, [])
      | none => if started ∧ c = 13 then some (.sizeLf n, []) else none
  | .sizeLf n, c =>
      if c = 10 then
        match n with
        | 0 => some (.lastCr, [])
        | n + 1 => some (.data n, [])
      else none
  | .data 0, c => some (.dataCr, [c])
  | .data (n + 1), c => some (.data n, [c])
  | .dataCr, c => if c = 13 then some (.dataLf, []) else none
  | .dataLf, c => if c = 10 then some (.size 0 false, []) else none
  | .lastCr, c => if c = 13 then some (.lastLf, []) else none
  | .lastLf, c => if c = 10 then some (.done, []) else none
  | .done, _ => none

/-- Read all of `bs` from state `s`, ending in `done`. -/
def decodeFrom : State → Bytes → Option Bytes
  | s, [] => if s = .done then some [] else none
  | s, c :: bs => (step s c).bind fun r => (decodeFrom r.1 bs).map (r.2 ++ ·)

/-- The body a chunked message carries, `none` when it is not a well-formed chunked body. -/
def decode (bs : Bytes) : Option Bytes := decodeFrom (.size 0 false) bs

/-! ## The decoder inverts the encoder -/

theorem decodeFrom_cons (s : State) (c : UInt8) (bs : Bytes) :
    decodeFrom s (c :: bs) = (step s c).bind fun r => (decodeFrom r.1 bs).map (r.2 ++ ·) := rfl

theorem hexValue_cr : hexValue 13 = none := by decide

/-- A size numeral adds its digits to the size read so far. -/
theorem decodeFrom_numeral (n : ℕ) (started : Bool) (bs : Bytes) :
    decodeFrom (.size 0 started) (numeral 16 n ++ bs) = decodeFrom (.size n true) bs := by
  have key : ∀ bs, decodeFrom (.size 0 started) (numeral 16 n ++ bs)
      = decodeFrom (.size n true) bs := by
    refine numeral_induction (by decide) (P := fun n ds => ∀ bs, decodeFrom (.size 0 started)
      (ds ++ bs) = decodeFrom (.size n true) bs) ?_ ?_ n
    · intro n hn bs
      simp [decodeFrom_cons, step, hexValue_digit hn]
    · intro n _ ih bs
      have hdigit : n % 16 < 16 := Nat.mod_lt _ (by decide)
      rw [List.append_assoc, ih]
      simp [decodeFrom_cons, step, hexValue_digit hdigit, Nat.div_add_mod]
  exact key bs

/-- The bytes of a chunk are delivered as they are. -/
theorem decodeFrom_data (c : UInt8) (cs bs : Bytes) :
    decodeFrom (.data cs.length) (c :: cs ++ bs) = (decodeFrom .dataCr bs).map (c :: cs ++ ·) := by
  induction cs generalizing c with
  | nil => simp [decodeFrom_cons, step]
  | cons d cs ih =>
      have htail := ih d
      simp only [List.cons_append] at htail
      rw [List.length_cons, List.cons_append, List.cons_append, decodeFrom_cons]
      simp only [step, Option.bind_some]
      rw [htail, Option.map_map]
      rfl

theorem decodeFrom_chunk (c : UInt8) (cs bs : Bytes) :
    decodeFrom (.size 0 false) (chunk (c :: cs) ++ bs)
      = (decodeFrom (.size 0 false) bs).map (c :: cs ++ ·) := by
  have hline := decodeFrom_numeral (cs.length + 1) false (13 :: 10 :: (c :: cs ++ 13 :: 10 :: bs))
  have hdata := decodeFrom_data c cs (13 :: 10 :: bs)
  simp only [List.cons_append] at hline hdata
  simp only [chunk, crlf, List.length_cons, List.append_assoc, List.cons_append, List.nil_append]
  rw [hline, decodeFrom_cons]
  simp only [step, hexValue_cr, and_self, if_true, Option.bind_some]
  rw [decodeFrom_cons]
  simp only [step, if_true, Option.bind_some]
  rw [hdata]
  simp [decodeFrom_cons, step, Function.comp_def]

theorem decodeFrom_last : decodeFrom (.size 0 false) (chunk []) = some [] := by decide

/-- **Decoding an encoded list of non-empty chunks gives their bytes in order.** -/
theorem decode_encode (chunks : List Bytes) (h : ∀ c ∈ chunks, c ≠ []) :
    decode (encode chunks) = some chunks.flatten := by
  induction chunks with
  | nil => exact decodeFrom_last
  | cons c chunks ih =>
      have htail := ih fun c' hc' => h c' (by simp [hc'])
      cases c with
      | nil => exact absurd rfl (h [] (by simp))
      | cons b bs =>
          simp only [decode, encode] at htail ⊢
          simp only [List.map_cons, List.flatten_cons, List.append_assoc]
          rw [decodeFrom_chunk, htail]
          rfl

/-! ## Cutting a body into chunks -/

/-- The body in chunks of `n` bytes, the last one possibly shorter. -/
def cut (n : ℕ) (body : Bytes) : List Bytes :=
  if _h : 0 < n ∧ body ≠ [] then body.take n :: cut n (body.drop n) else []
termination_by body.length
decreasing_by
  have := List.length_pos_iff.2 _h.2
  simp only [List.length_drop]
  omega

@[simp] theorem cut_nil (n : ℕ) : cut n [] = [] := by
  rw [cut, dif_neg (by simp)]

theorem cut_of_ne_nil {n : ℕ} {body : Bytes} (hn : 0 < n) (h : body ≠ []) :
    cut n body = body.take n :: cut n (body.drop n) := by
  rw [cut, dif_pos ⟨hn, h⟩]

theorem flatten_cut {n : ℕ} (hn : 0 < n) (body : Bytes) : (cut n body).flatten = body := by
  induction body using cut.induct n with
  | case1 body h ih => rw [cut_of_ne_nil hn h.2, List.flatten_cons, ih, List.take_append_drop]
  | case2 body h =>
      have hnil : body = [] := by simpa [hn] using h
      simp [hnil]

theorem ne_nil_of_mem_cut {n : ℕ} {body c : Bytes} (hc : c ∈ cut n body) : c ≠ [] := by
  induction body using cut.induct n with
  | case1 body h ih =>
      rw [cut_of_ne_nil h.1 h.2, List.mem_cons] at hc
      rcases hc with rfl | hc
      · simp only [ne_eq, List.take_eq_nil_iff, not_or]
        exact ⟨by omega, h.2⟩
      · exact ih hc
  | case2 body h =>
      rw [cut, dif_neg h] at hc
      exact absurd hc (by simp)

theorem length_le_of_mem_cut {n : ℕ} {body c : Bytes} (hc : c ∈ cut n body) : c.length ≤ n := by
  induction body using cut.induct n with
  | case1 body h ih =>
      rw [cut_of_ne_nil h.1 h.2, List.mem_cons] at hc
      rcases hc with rfl | hc
      · exact List.length_take_le n body
      · exact ih hc
  | case2 body h =>
      rw [cut, dif_neg h] at hc
      exact absurd hc (by simp)

end ChunkedCoding
