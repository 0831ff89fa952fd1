import ImageProxy.Cpcl.CsvFields
import ImageProxy.Cpcl.IoStream

set_option autoImplicit false

/-! # The reader of CSV (`csv_reader.hpp`)

The reader keeps the unread bytes in `line_buf` and fills the rest of it when they have no end of
line. It takes a `Read` that does not fill the buffer for the end of the stream. `Read` takes a
`uint32`, so it is asked for the free part of the buffer modulo 2 ^ 32. -/

namespace ImageProxy.Cpcl

open Ascii

/-- `CsvReader<N>`. `input` is whether the pointer is not null; `stream` is the object it points to,
or pointed to when it was set to null. `size` is `line_buf.Size()`, `head` is `head - line_buf.Data()`
and `unread` the bytes in `[head, tail)`. -/
structure CsvReader (σ : Type) where
  stream : σ
  input : Bool
  size : ℕ
  head : ℕ
  unread : Bytes
  replaceDoubleQuotes : Bool
  quoteChars : ℕ

namespace CsvReader

variable {σ : Type}

/-- `(((line_buf.Size() * 3) >> 1) + N - 1) & ~(N - 1)`, in 64 bits. -/
def grown (N size : ℕ) : ℕ := ((((size * 3) % 2 ^ 64) >>> 1) + N - 1) % 2 ^ 64 &&& (2 ^ 64 - N)

/-- The size of `line_buf` when `FillBuf` reads: if the unread bytes begin at its start, they are
copied to a larger one. -/
def sizeToFill (N : ℕ) (r : CsvReader σ) : ℕ :=
  if r.unread ≠ [] ∧ r.head = 0 then grown N r.size else r.size

/-- The size `FillBuf` passes to `Read`, before it becomes a `uint32`. -/
def free (N : ℕ) (r : CsvReader σ) : ℕ := r.sizeToFill N - r.unread.length

/-- `FillBuf`. -/
def fillBuf (N : ℕ) (src : ByteSource σ) (r : CsvReader σ) : CsvReader σ :=
  if !r.input then r
  else
    let data := (src.read r.stream (.ofNat (r.free N))).1
    { r with
      stream := (src.read r.stream (.ofNat (r.free N))).2
      size := r.sizeToFill N
      head := 0
      unread := r.unread ++ data
      input := data.length = r.free N }

/-- The loop of `Find`, with `head` at `offset` and `s` in `[head, tail)`: where the end of the line
is, and `quote_chars` after. -/
def find : (turns : ℕ) → (offset quoteChars : ℕ) → (s : Bytes) → Option ℕ × ℕ
  | 0, _, quoteChars, _ => (none, quoteChars)
  | turns + 1, offset, quoteChars, s =>
      if s.isEmpty then (none, quoteChars)
      else
        let line := s.takeWhile (· ≠ asc '\n')
        match s.dropWhile (· ≠ asc '\n') with
        | [] => (none, quoteChars + countChar s (asc '"'))
        | _ :: rest =>
            let quoteChars := quoteChars + countChar line (asc '"')
            if quoteChars % 2 = 0 then (some (offset + line.length), quoteChars)
            else find turns (offset + line.length + 1) quoteChars rest

/-- `Find(head + skip, tail)`, with `quote_chars` written back. -/
def search (skip : ℕ) (r : CsvReader σ) : Option ℕ × CsvReader σ :=
  let found := find (r.unread.length + 1) skip r.quoteChars (r.unread.drop skip)
  (found.1, { r with quoteChars := found.2 })

/-- `Next` before its loop. -/
def enter (r : CsvReader σ) : Option ℕ × CsvReader σ :=
  let r := { r with quoteChars := 0 }
  if r.unread ≠ [] then r.search 0 else (none, r)

/-- The body of the loop of `Next`. -/
def refill (N : ℕ) (src : ByteSource σ) (r : CsvReader σ) : Option ℕ × CsvReader σ :=
  (r.fillBuf N src).search r.unread.length

/-- `while (!eol && !!input)`; `none` if it takes more than `turns` turns. -/
def nextLoop (N : ℕ) (src : ByteSource σ) :
    (turns : ℕ) → Option ℕ × CsvReader σ → Option (Option ℕ × CsvReader σ)
  | 0, _ => none
  | turns + 1, (eol, r) =>
      if eol = none ∧ r.input then nextLoop N src turns (r.refill N src) else some (eol, r)

/-- `FieldIt(eol)`, `eol` being counted from `head`. -/
def fieldIt (r : CsvReader σ) (eol : ℕ) : FieldIterator :=
  let line := r.unread.take eol
  .new (if eol ≠ 0 ∧ eol ≠ r.unread.length ∧ line.getLast? = some (asc '\r') then line.dropLast
    else line) r.replaceDoubleQuotes

/-- `Next` behind its loop. -/
def leave (eol : Option ℕ) (r : CsvReader σ) : Option FieldIterator × CsvReader σ :=
  if r.unread = [] then (none, r)
  else
    let eol := eol.getD r.unread.length
    (some (r.fieldIt eol), { r with
      head := if eol ≠ r.unread.length then r.head + eol + 1 else r.head + eol
      unread := r.unread.drop (eol + 1) })

/-- `Next`: the record, or `none` for `false`, and the reader after. Every turn of its loop reads a
byte or ends the loop; `none` if it does not end. -/
def next (N : ℕ) (src : ByteSource σ) (r : CsvReader σ) : Option (Option FieldIterator × CsvReader σ) :=
  (nextLoop N src ((src.rest r.stream).length + 2) r.enter).map fun s => leave s.1 s.2

/-- Before the constructor calls `FillBuf`. -/
def alloc (N : ℕ) (s : σ) (replaceDoubleQuotes : Bool) : CsvReader σ where
  stream := s
  input := true
  size := N
  head := 0
  unread := []
  replaceDoubleQuotes := replaceDoubleQuotes
  quoteChars := 0

/-- `CsvReader(input, replace_double_quotes)`. -/
def new (N : ℕ) (src : ByteSource σ) (s : σ) (replaceDoubleQuotes : Bool) : CsvReader σ :=
  (alloc N s replaceDoubleQuotes).fillBuf N src

/-- What `Next` gives until it reports the end, and the reader then; `none` if a call does not
end or if there are more than `turns`. -/
def recordsLoop (N : ℕ) (src : ByteSource σ) :
    (turns : ℕ) → CsvReader σ → Option (List FieldIterator × CsvReader σ)
  | 0, _ => none
  | turns + 1, r =>
      match r.next N src with
      | none => none
      | some (none, r) => some ([], r)
      | some (some record, r) => (recordsLoop N src turns r).map fun p => (record :: p.1, p.2)

/-- The records of a stream. Every record takes a byte. -/
def records (N : ℕ) (src : ByteSource σ) (s : σ) (replaceDoubleQuotes : Bool) :
    Option (List FieldIterator × CsvReader σ) :=
  recordsLoop N src ((src.rest s).length + 1) (new N src s replaceDoubleQuotes)

/-! ## `Find` cuts the line -/

open QuotedSplit Pieces

theorem find_of_not_mem {s : Bytes} (h : asc '\n' ∉ s) (turns offset quoteChars : ℕ) :
    find (turns + 1) offset quoteChars s = (none, quoteChars + countChar s (asc '"')) := by
  unfold find
  rw [dropWhile_of_not_mem h]
  cases s <;> rfl

theorem find_end {line : Bytes} (h : asc '\n' ∉ line) (turns offset quoteChars : ℕ) (rest : Bytes) :
    find (turns + 1) offset quoteChars (line ++ asc '\n' :: rest)
      = if (quoteChars + line.count (asc '"')) % 2 = 0 then
          (some (offset + line.length), quoteChars + line.count (asc '"'))
        else find turns (offset + line.length + 1) (quoteChars + line.count (asc '"')) rest := by
  have hne : (line ++ asc '\n' :: rest).isEmpty = false := by simp
  simp only [find, countChar, hne, dropWhile_separator h, takeWhile_separator h,
    Bool.false_eq_true, if_false]

/-- `Find` stops at the first end of line outside of quotes, or has counted all the quotes. -/
theorem find_eq (turns offset quoteChars : ℕ) (s : Bytes) (h : s.length < turns) :
    (∀ p, cut (asc '"') (asc '\n') (decide (quoteChars % 2 = 1)) s = some p →
      (find turns offset quoteChars s).1 = some (offset + p.1.length)) ∧
    (cut (asc '"') (asc '\n') (decide (quoteChars % 2 = 1)) s = none →
      find turns offset quoteChars s = (none, quoteChars + s.count (asc '"'))) := by
  refine cut_induction (P := fun quoteChars s found => ∀ turns offset, s.length < turns →
    (∀ p, found = some p → (find turns offset quoteChars s).1 = some (offset + p.1.length)) ∧
    (found = none → find turns offset quoteChars s = (none, quoteChars + s.count (asc '"'))))
    (by decide) ?last ?found ?inside quoteChars s turns offset h
  case last =>
    intro quoteChars s hnot turns offset h
    obtain ⟨turns, rfl⟩ : ∃ t, turns = t + 1 := ⟨turns - 1, by omega⟩
    rw [find_of_not_mem hnot]
    exact ⟨fun p hp => absurd hp (by simp), fun _ => rfl⟩
  case found =>
    intro quoteChars line rest hnot heven turns offset h
    obtain ⟨turns, rfl⟩ : ∃ t, turns = t + 1 := ⟨turns - 1, by omega⟩
    rw [find_end hnot, if_pos heven]
    refine ⟨fun p hp => ?_, fun hnone => absurd hnone (by simp)⟩
    cases hp
    rfl
  case inside =>
    -- the end of line is in quotes
    intro quoteChars line rest r hnot hodd ih turns offset h
    obtain ⟨turns, rfl⟩ : ∃ t, turns = t + 1 := ⟨turns - 1, by omega⟩
    rw [List.length_append, List.length_cons] at h
    obtain ⟨hsome, hnone⟩ := ih turns (offset + line.length + 1) (by omega)
    rw [find_end hnot, if_neg hodd]
    constructor
    · intro p hp
      obtain ⟨q, hq, rfl⟩ := Option.map_eq_some_iff.1 hp
      rw [hsome q hq]
      simp only [List.length_append, List.length_cons, Option.some.injEq]
      omega
    · intro hr
      have hquote : (asc '\n' == asc '"') = false := by decide
      rw [hnone (Option.map_eq_none_iff.1 hr), List.count_append, List.count_cons, hquote]
      simp only [Bool.false_eq_true, if_false, Nat.add_zero, Nat.add_assoc]

/-- What is known when the loop of `Next` looks at `eol`: it is the end of the first line, or there
is none and all the quotes are counted. -/
structure Searched (eol : Option ℕ) (r : CsvReader σ) : Prop where
  found : ∀ e, eol = some e → ∃ p, cut (asc '"') (asc '\n') false r.unread = some p ∧ p.1.length = e
  none : eol = none → cut (asc '"') (asc '\n') false r.unread = none ∧
    r.quoteChars % 2 = r.unread.count (asc '"') % 2

theorem search_searched {r : CsvReader σ} {skip : ℕ} (hskip : skip ≤ r.unread.length)
    (hcut : cut (asc '"') (asc '\n') false (r.unread.take skip) = none)
    (hquotes : r.quoteChars % 2 = (r.unread.take skip).count (asc '"') % 2) :
    Searched (r.search skip).1 (r.search skip).2 := by
  have hodd : oddAfter (asc '"') false (r.unread.take skip) = decide (r.quoteChars % 2 = 1) := by
    have hcount := oddAfter_count (asc '"') 0 (r.unread.take skip)
    rw [Nat.zero_add] at hcount
    rw [hquotes]
    exact hcount
  have hwhole := cut_append hcut (r.unread.drop skip)
  rw [List.take_append_drop, hodd] at hwhole
  have hlen : (r.unread.drop skip).length < r.unread.length + 1 := by
    rw [List.length_drop]
    omega
  -- `Find` goes on from `skip` with the parity of the quotes before it
  obtain ⟨hsome, hnone⟩ := find_eq (r.unread.length + 1) skip r.quoteChars (r.unread.drop skip) hlen
  cases hrest : cut (asc '"') (asc '\n') (decide (r.quoteChars % 2 = 1)) (r.unread.drop skip) with
  | none =>
      have hfind := hnone hrest
      rw [hrest] at hwhole
      refine ⟨fun e he => ?_, fun _ => ⟨hwhole, ?_⟩⟩
      · rw [search, hfind] at he
        exact absurd he (by simp)
      · show (find _ skip r.quoteChars (r.unread.drop skip)).2 % 2 = r.unread.count (asc '"') % 2
        have hcount := congrArg (List.count (asc '"')) (List.take_append_drop skip r.unread)
        rw [List.count_append] at hcount
        rw [hfind]
        show (r.quoteChars + (r.unread.drop skip).count (asc '"')) % 2 = _
        omega
  | some p =>
      have hfind := hsome p hrest
      rw [hrest] at hwhole
      constructor
      · intro e he
        rw [search, hfind] at he
        cases he
        refine ⟨_, hwhole, ?_⟩
        show (r.unread.take skip ++ p.1).length = skip + p.1.length
        rw [List.length_append, List.length_take, Nat.min_eq_left hskip]
      · intro he
        rw [search, hfind] at he
        exact absurd he (by simp)

theorem enter_searched (r : CsvReader σ) : Searched r.enter.1 r.enter.2 := by
  unfold enter
  simp only
  split_ifs with hne
  · exact search_searched (Nat.zero_le _) (by rw [List.take_zero]; rfl) (by rw [List.take_zero]; rfl)
  · simp only [ne_eq, Decidable.not_not] at hne
    refine ⟨fun e he => absurd he (by simp), fun _ => ?_⟩
    simp [hne, cut]

/-! ## `FillBuf` -/

/-- What the masked number loses is less than `N`. -/
theorem le_and_mask {N x : ℕ} (hN : 0 < N) (hmax : N ≤ 2 ^ 64) (hx : x < 2 ^ 64) :
    x ≤ (x &&& (2 ^ 64 - N)) + (N - 1) := by
  -- what the mask keeps and what it drops add up to `x`
  have hdisjoint : (BitVec.ofNat 64 x &&& ~~~BitVec.ofNat 64 (N - 1)) &&&
      (BitVec.ofNat 64 x &&& BitVec.ofNat 64 (N - 1)) = 0#64 := by
    ext i hi
    simp only [BitVec.getElem_and, BitVec.getElem_not, BitVec.getElem_zero]
    cases (BitVec.ofNat 64 x)[i] <;> cases (BitVec.ofNat 64 (N - 1))[i] <;> rfl
  have hwhole : (BitVec.ofNat 64 x &&& ~~~BitVec.ofNat 64 (N - 1)) +
      (BitVec.ofNat 64 x &&& BitVec.ofNat 64 (N - 1)) = BitVec.ofNat 64 x := by
    rw [BitVec.add_eq_or_of_and_eq_zero _ _ hdisjoint]
    ext i hi
    simp only [BitVec.getElem_or, BitVec.getElem_and, BitVec.getElem_not]
    cases (BitVec.ofNat 64 x)[i] <;> cases (BitVec.ofNat 64 (N - 1))[i] <;> rfl
  have hsum := congrArg BitVec.toNat hwhole
  rw [BitVec.toNat_add_of_and_eq_zero hdisjoint] at hsum
  simp only [BitVec.toNat_and, BitVec.toNat_not, BitVec.toNat_ofNat] at hsum
  rw [Nat.mod_eq_of_lt hx, Nat.mod_eq_of_lt (by omega)] at hsum
  have hmask : 2 ^ 64 - 1 - (N - 1) = 2 ^ 64 - N := by omega
  have hle : x &&& (N - 1) ≤ N - 1 := Nat.and_le_right
  rw [hmask] at hsum
  omega

/-- The new buffer is larger by half at least, and by `N` more than that at most. -/
theorem grown_bounds {N size : ℕ} (hN : 0 < N) (hmax : N < 2 ^ 32) (hsize : 2 ≤ size)
    (hsize' : size < 2 ^ 34) : size < grown N size ∧ size * 3 / 2 ≤ grown N size ∧
      grown N size ≤ size * 3 / 2 + N := by
  have hshift : ((size * 3) % 2 ^ 64) >>> 1 = size * 3 / 2 := by
    rw [Nat.mod_eq_of_lt (by omega)]
    exact Nat.shiftRight_eq_div_pow _ _
  have hsum : (size * 3 / 2 + N - 1) % 2 ^ 64 = size * 3 / 2 + N - 1 :=
    Nat.mod_eq_of_lt (by omega)
  have hlow := le_and_mask (N := N) (x := size * 3 / 2 + N - 1) hN (by omega) (by omega)
  have hhigh : size * 3 / 2 + N - 1 &&& (2 ^ 64 - N) ≤ size * 3 / 2 + N - 1 := Nat.and_le_left
  rw [grown, hshift, hsum]
  omega

/-- The bytes that no record has had yet. -/
def pending (src : ByteSource σ) (r : CsvReader σ) : Bytes := r.unread ++ src.rest r.stream

/-- What holds between two calls of `FillBuf` on a stream of `L` bytes: as long as there is an input,
the unread bytes reach to the end of the buffer, which has been filled. -/
structure Inv (N : ℕ) (src : ByteSource σ) (L : ℕ) (r : CsvReader σ) : Prop where
  fits : r.head + r.unread.length ≤ r.size
  full : r.input = true → r.head + r.unread.length = r.size
  bounds : r.input = true → (0 < N ∧ N < 2 ^ 32) ∧ 2 ≤ r.size ∧ r.size < 2 ^ 34
  filled : r.input = true → r.size ≤ L
  left : (pending src r).length ≤ L

variable {N L : ℕ} {src : ByteSource σ}

/-- The size of the buffer when `FillBuf` reads. -/
theorem Inv.sizeToFill {r : CsvReader σ} (h : Inv N src L r) (hinput : r.input = true) :
    r.unread.length < r.sizeToFill N ∧
      (r.sizeToFill N = r.size ∨ (r.size < r.sizeToFill N ∧ r.unread.length = r.size ∧
        r.size * 3 / 2 ≤ r.sizeToFill N ∧ r.sizeToFill N ≤ r.size * 3 / 2 + N)) := by
  obtain ⟨⟨hN, hmax⟩, hsize, hsize'⟩ := h.bounds hinput
  have hfull := h.full hinput
  have hgrown := grown_bounds hN hmax hsize hsize'
  unfold CsvReader.sizeToFill
  by_cases hgrow : r.unread ≠ [] ∧ r.head = 0
  · rw [if_pos hgrow]
    omega
  · -- what is kept does not begin at the start of the buffer, so moving it there makes room
    rw [if_neg hgrow]
    refine ⟨?_, Or.inl rfl⟩
    by_cases hnil : r.unread = []
    · rw [hnil]
      exact Nat.lt_of_lt_of_le (by decide) hsize
    · have hhead : r.head ≠ 0 := fun hzero => hgrow ⟨hnil, hzero⟩
      omega


theorem fillBuf_of_input {r : CsvReader σ} (h : r.input = true) : r.fillBuf N src = { r with
    stream := (src.read r.stream (.ofNat (r.free N))).2
    size := r.sizeToFill N
    head := 0
    unread := r.unread ++ (src.read r.stream (.ofNat (r.free N))).1
    input := (src.read r.stream (.ofNat (r.free N))).1.length = r.free N } := by
  unfold fillBuf
  rw [h]
  rfl

theorem pending_fillBuf (src : ByteSource σ) (r : CsvReader σ) :
    pending src (r.fillBuf N src) = pending src r := by
  cases h : r.input with
  | false => simp [fillBuf, h]
  | true =>
      rw [fillBuf_of_input h]
      show (r.unread ++ _) ++ src.rest _ = r.unread ++ src.rest r.stream
      rw [List.append_assoc, src.read_append_rest]

theorem length_read_le_free (src : ByteSource σ) (r : CsvReader σ) :
    (src.read r.stream (.ofNat (r.free N))).1.length ≤ r.free N % 2 ^ 32 := by
  have hle := src.length_read_le r.stream (.ofNat (r.free N))
  rwa [UInt32.toNat_ofNat'] at hle

theorem Inv.fillBuf {r : CsvReader σ} (h : Inv N src L r) (hinput : r.input = true) :
    Inv N src L (r.fillBuf N src) := by
  obtain ⟨hroom, hsize⟩ := h.sizeToFill hinput
  obtain ⟨hN, htwo, hmax⟩ := h.bounds hinput
  have hread := length_read_le_free (N := N) src r
  have hleft := h.left
  rw [← pending_fillBuf (N := N)] at hleft
  rw [fillBuf_of_input hinput] at hleft ⊢
  refine ⟨?_, fun hfull => ?_, fun hfull => ⟨hN, ?_, ?_⟩, fun hfull => ?_, hleft⟩
  · show 0 + (r.unread ++ _).length ≤ r.sizeToFill N
    have hmod := Nat.mod_le (r.free N) (2 ^ 32)
    rw [List.length_append]
    unfold free at hread hmod ⊢
    omega
  · replace hfull := of_decide_eq_true hfull
    show 0 + (r.unread ++ _).length = r.sizeToFill N
    rw [List.length_append, hfull]
    unfold free
    omega
  · show 2 ≤ r.sizeToFill N
    omega
  · -- a full read is shorter than 2 ^ 32, which bounds what was added
    replace hfull := of_decide_eq_true hfull
    show r.sizeToFill N < 2 ^ 34
    have hlt := Nat.mod_lt (r.free N) (by decide : 0 < 2 ^ 32)
    rw [hfull] at hread
    unfold free at hread hlt
    omega
  · -- the buffer is full of bytes of the stream
    replace hfull := of_decide_eq_true hfull
    show r.sizeToFill N ≤ L
    unfold pending at hleft
    simp only [List.length_append, hfull] at hleft
    unfold free at hleft
    omega

/-- A read that fills the buffer takes a byte at least. -/
theorem Inv.length_rest_fillBuf {r : CsvReader σ} (h : Inv N src L r) (hinput : r.input = true)
    (hfull : (r.fillBuf N src).input = true) :
    (src.rest (r.fillBuf N src).stream).length < (src.rest r.stream).length := by
  have hroom := (h.sizeToFill hinput).1
  have hrest := congrArg List.length (src.read_append_rest r.stream (.ofNat (r.free N)))
  rw [fillBuf_of_input hinput] at hfull ⊢
  replace hfull := of_decide_eq_true hfull
  rw [List.length_append, hfull] at hrest
  unfold free at hrest
  show (src.rest (src.read r.stream (.ofNat (r.sizeToFill N - r.unread.length))).2).length < _
  omega

theorem inv_new (hN : 2 ≤ N) (src : ByteSource σ) (s : σ) (replaceDoubleQuotes : Bool) :
    Inv N src (src.rest s).length (new N src s replaceDoubleQuotes) := by
  have hread := length_read_le_free (N := N) src (alloc N s replaceDoubleQuotes)
  have hfree : (alloc N s replaceDoubleQuotes).free N = N := rfl
  rw [hfree] at hread
  have hleft := congrArg List.length
    (pending_fillBuf (N := N) src (alloc N s replaceDoubleQuotes))
  have hwhole : pending src (alloc N s replaceDoubleQuotes) = src.rest s := rfl
  rw [hwhole, fillBuf_of_input rfl, hfree] at hleft
  rw [new, fillBuf_of_input rfl, hfree]
  have hmod := Nat.mod_le N (2 ^ 32)
  refine ⟨?_, fun hfull => ?_, fun hfull => ?_, fun hfull => ?_, Nat.le_of_eq hleft⟩
  · show 0 + ([] ++ _).length ≤ N
    rw [List.nil_append]
    omega
  · replace hfull := of_decide_eq_true hfull
    show 0 + ([] ++ _).length = N
    rw [List.nil_append, hfull, Nat.zero_add]
  · replace hfull := of_decide_eq_true hfull
    rw [hfull] at hread
    have hlt := Nat.mod_lt N (by decide : 0 < 2 ^ 32)
    show (0 < N ∧ N < 2 ^ 32) ∧ 2 ≤ N ∧ N < 2 ^ 34
    omega
  · replace hfull := of_decide_eq_true hfull
    have hrest := congrArg List.length
      (src.read_append_rest (alloc N s replaceDoubleQuotes).stream (.ofNat N))
    rw [List.length_append, hfull] at hrest
    show N ≤ (src.rest s).length
    rw [show src.rest s = src.rest (alloc N s replaceDoubleQuotes).stream from rfl]
    omega

end CsvReader

end ImageProxy.Cpcl
