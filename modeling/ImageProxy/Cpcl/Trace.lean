import ImageProxy.Library.TextBuffer
import ImageProxy.Cpcl.StringUtil
import ImageProxy.Cpcl.TraceHeader

set_option autoImplicit false

/-! # The lines of the log (`trace_posix.cpp`, `string_util_posix.hpp`)

A line is put together in a local array: behind the place of the header the message, piece by piece,
each cut to the room that the pieces before have left; then a newline, and at last the header. The
sizes that are left are differences of `size_t`s. -/

namespace ImageProxy.Cpcl

open Ascii (asc lit)
open TextBuffer (store terminatedLength Holds)

/-! ## The source -/

/-- The difference of two `size_t`s. -/
def sizeSub (a b : ℕ) : ℕ := if b ≤ a then a - b else a + 2 ^ 64 - b

/-- What `vsnprintf` makes of a format and its arguments: the text, whose length is an `int`, or an
error after some bytes. -/
inductive Formatted
  | text (s : Bytes) (length_lt : s.length < 2 ^ 31)
  | error (n : ℤ) (n_neg : n < 0) (written : Bytes)

/-- What `strerror_r` makes of an error code: a static text, or one that it stores. -/
inductive SystemText
  | static (s : Bytes)
  | stored (s : Bytes)

/-- What `getpwuid_r` or `getgrgid_r` finds. -/
inductive Lookup
  | failed
  | missing
  | found (name : Bytes)
deriving DecidableEq

/-- `pw_name` or `gr_name`, or the text for a lookup that failed; `none` if there is no entry to take
the name from. -/
def Lookup.name (failure : Bytes) : Lookup → Option Bytes
  | .failed => some failure
  | .missing => none
  | .found name => some (cString name)

/-- The time, the process and its accounts. -/
structure Environment where
  t : Tm
  useconds : UInt32
  processId : UInt32
  threadId : UInt32
  user : Lookup
  group : Lookup

/-- `EACCES`. -/
def eacces : ℤ := 13

/-- `CPCL_TRACE_LEVEL_ERROR`. -/
def traceLevelError : UInt32 := 8

/-- The level with a value of `CPCL_TRACE_LEVEL`. -/
def traceLevelOf (v : UInt32) : TraceLevel :=
  if v = 2 then .info
  else if v = 1 then .debug
  else if v = 4 then .warning
  else if v = traceLevelError then .error
  else .other

section Arrays

variable (size : ℕ) (m : Memory UInt8)

/-- `StringCopy(buf + r, r_size, s)` in an array of `size` bytes: what it returns, and the array. -/
def stringCopyTo (r rSize : ℕ) (s : Bytes) : Option (ℕ × Memory UInt8) :=
  if rSize = 0 then some (0, m)
  else do
    let rSize := min (rSize - 1) s.length
    let m ← store size m r (s.take rSize)
    let m ← store size m (r + rSize) [0]
    return (rSize, m)

/-- `vsnprintf(buf + r, r_size, ..)`. -/
def vsnprintf (r rSize : ℕ) : Formatted → Option (ℤ × Memory UInt8)
  | .text s _ =>
      if rSize = 0 then some (s.length, m)
      else (store size m r (s.take (rSize - 1) ++ [0])).map fun m => (s.length, m)
  | .error n _ written => (store size m r (written.take rSize)).map fun m => (n, m)

/-- `StringFormatImpl(buf + r, r_size, ..)`; nobody asks whether the text was truncated. -/
def stringFormatImpl (r rSize : ℕ) (f : Formatted) : Option (ℕ × Memory UInt8) :=
  if rSize = 0 then some (0, m)
  else do
    let (n, m) ← vsnprintf size m r rSize f
    if n < 0 ∨ IntegralType.int.convert rSize ≤ n then
      if n > 0 then return (sizeSub rSize 1, m)
      else
        let m ← store size m r [0]
        return (0, m)
    else return (n.toNat, m)

/-- `strerror_r(error_code, buf + r, r_size)`: a static text, or none if the text is at `buf + r`. -/
def strerrorR (r rSize : ℕ) : SystemText → Option (Option Bytes × Memory UInt8)
  | .static s => some (some (cString s), m)
  | .stored s =>
      if rSize = 0 then some (none, m)
      else (store size m r ((cString s).take (rSize - 1) ++ [0])).map fun m => (none, m)

/-- `CurrentProcessUserGroup(buf + s, n)`. -/
def currentProcessUserGroup (env : Environment) (s n : ℕ) : Option (ℕ × Memory UInt8) := do
  let user ← env.user.name (lit "getpwuid_r failed")
  let (offset, m) ← stringCopyTo size m s n user
  let (offset, m) ←
    (if offset < n then (store size m (s + offset) (lit ":")).map fun m => (offset + 1, m)
     else some (offset, m))
  let group ← env.group.name (lit "getgrgid_r failed")
  let (copied, m) ← stringCopyTo size m (s + offset) (sizeSub n offset) group
  return (offset + copied, m)

/-- The system's text behind `n` bytes, in `ErrorSystem` and in `GetSystemMessage`; `room` is what is
left behind so many bytes. -/
def appendSystemText (room : ℕ → ℕ) (n : ℕ) (e : SystemText) : Option (ℕ × Memory UInt8) := do
  let (s, m) ← strerrorR size m n (room n) e
  match s with
  | some s =>
      let (copied, m) ← stringCopyTo size m n (room n) s
      return (n + copied, m)
  | none =>
      let length ← terminatedLength 0 size m n
      return (n + length, m)

/-- Behind it, also in both, who was denied the access. -/
def appendUserGroup (room : ℕ → ℕ) (env : Environment) (n : ℕ) : Option (ℕ × Memory UInt8) := do
  let (copied, m) ← stringCopyTo size m n (room n) (lit " for ")
  let n := n + copied
  let (copied, m) ← currentProcessUserGroup size m env n (room n)
  return (n + copied, m)

/-- `FormatHeader(buf, l)`. -/
def formatHeader (env : Environment) (l : UInt32) : Option (Memory UInt8) := do
  let header ← formatHeaderImpl (traceLevelOf l) env.t env.useconds env.processId env.threadId
  store size m 0 header

end Arrays

/-- The arguments of `WriteString`. -/
structure Line where
  l : UInt32
  s : Memory UInt8
  size : ℕ

/-- `Trace`; `levels` is `TRACE_LEVEL`, and the array is as it is found on the stack. -/
def trace (env : Environment) (levels traceLevel : UInt32) (buf : Memory UInt8)
    (f : Formatted) : Option (Option Line) :=
  if levels &&& traceLevel = 0 then some none
  else do
    let size := 0x200 + headerLength
    let (n, m) ← stringFormatImpl size buf headerLength (sizeSub (sizeSub size headerLength) 1) f
    let n := n + (headerLength + 1)
    let m ← store size m (sizeSub n 1) (lit "\n")
    let m ← formatHeader size m env traceLevel
    return some ⟨traceLevel, m, n⟩

/-- `TraceString`. -/
def traceString (env : Environment) (levels traceLevel : UInt32) (buf : Memory UInt8)
    (s : Bytes) : Option (Option Line) :=
  if traceLevel &&& levels = 0 then some none
  else do
    let size := 0x200 + headerLength
    let (n, m) ← stringCopyTo size buf headerLength (sizeSub (sizeSub size headerLength) 1) s
    let n := n + (headerLength + 1)
    let m ← store size m (sizeSub n 1) (lit "\n")
    let m ← formatHeader size m env traceLevel
    return some ⟨traceLevel, m, n⟩

/-- `ErrorSystem`; one byte is kept for the newline. -/
def errorSystem (env : Environment) (levels : UInt32) (buf : Memory UInt8) (errorCode : ℤ)
    (f : Formatted) (e : SystemText) : Option (Option Line) :=
  if traceLevelError &&& levels = 0 then some none
  else do
    let size := 0x300 + headerLength
    let room := fun n => sizeSub (sizeSub size n) 1
    let (n, m) ← stringFormatImpl size buf headerLength (sizeSub size headerLength) f
    let n := n + headerLength
    let (n, m) ← appendSystemText size m room n e
    let (n, m) ←
      (if eacces = errorCode ∧ sizeSub n 1 < size then appendUserGroup size m room env n
       else some (n, m))
    let n := n + 1
    let m ← store size m (sizeSub n 1) (lit "\n")
    let m ← formatHeader size m env traceLevelError
    return some ⟨traceLevelError, m, n⟩

/-- `GetSystemMessage`. -/
def getSystemMessage (env : Environment) (buf : Memory UInt8) (errorCode : ℤ) (e : SystemText) :
    Option Bytes := do
  let size := 0x100
  let room := fun n => sizeSub size n
  let (n, m) ← appendSystemText size buf room 0 e
  let (n, m) ←
    (if eacces = errorCode ∧ n < size then appendUserGroup size m room env n else some (n, m))
  if n ≤ size then some (m.read 0 n) else none

/-! ## The message -/

/-- `s` behind `text`, cut to what is left of `limit` bytes and a NUL. -/
def appendPiece (limit : ℕ) (text s : Bytes) : Bytes := text ++ stringCopy (limit - text.length) s

/-- The text of `StringFormatImpl` in `rSize` bytes. -/
def Formatted.cut (rSize : ℕ) : Formatted → Bytes
  | .text s _ => stringFormat rSize s
  | .error _ _ _ => []

def SystemText.text : SystemText → Bytes
  | .static s => cString s
  | .stored s => cString s

namespace Environment

/-- Both accounts have an entry, if they are looked up at all. -/
def Known (env : Environment) : Prop := env.user ≠ .missing ∧ env.group ≠ .missing

/-- The user and the group behind `text`, with a colon between them. -/
def appendUserGroup (env : Environment) (limit : ℕ) (text : Bytes) : Bytes :=
  let text := appendPiece limit text ((env.user.name (lit "getpwuid_r failed")).getD [])
  let text := if text.length < limit then text ++ lit ":" else text
  appendPiece limit text ((env.group.name (lit "getgrgid_r failed")).getD [])

/-- What the system says of an error, behind `text`. -/
def appendSystemMessage (env : Environment) (limit : ℕ) (text : Bytes) (errorCode : ℤ)
    (e : SystemText) : Bytes :=
  let text := appendPiece limit text e.text
  if eacces = errorCode then env.appendUserGroup limit (appendPiece limit text (lit " for "))
  else text

end Environment

theorem length_appendPiece_le {limit : ℕ} {text : Bytes} (h : text.length ≤ limit) (s : Bytes) :
    (appendPiece limit text s).length ≤ limit := by
  rw [appendPiece, stringCopy, List.length_append, List.length_take]
  omega

theorem sizeSub_of_le {a b : ℕ} (h : b ≤ a) : sizeSub a b = a - b := if_pos h

theorem sizeSub_add (a b : ℕ) : sizeSub (a + b) b = a := by
  rw [sizeSub_of_le (Nat.le_add_left b a), Nat.add_sub_cancel]

/-- What is left behind `n` bytes, but for one. -/
theorem sizeSub_sub_one {a n : ℕ} (h : n < a) : sizeSub (sizeSub a n) 1 = a - 1 - n := by
  have hone : 1 ≤ a - n := by omega
  rw [sizeSub_of_le (Nat.le_of_lt h), sizeSub_of_le hone]
  omega

theorem Lookup.exists_name {l : Lookup} (h : l ≠ .missing) (failure : Bytes) :
    ∃ name, l.name failure = some name := by
  cases l with
  | failed => exact ⟨failure, rfl⟩
  | missing => exact absurd rfl h
  | found name => exact ⟨cString name, rfl⟩

theorem length_appendPiece_lt {limit : ℕ} {text : Bytes} (h : text.length < limit) (s : Bytes) :
    (appendPiece limit text s).length < limit := by
  rw [appendPiece, stringCopy, List.length_append, List.length_take]
  omega

/-! ## What the pieces write -/

theorem length_stringCopy (rSize : ℕ) (s : Bytes) :
    (stringCopy rSize s).length = min (rSize - 1) s.length := List.length_take

/-- `StringCopy` with room for a NUL at least. -/
theorem stringCopyTo_eq {size r rSize : ℕ} (m : Memory UInt8) (hpos : 0 < rSize)
    (hfits : r + rSize ≤ size) (s : Bytes) : stringCopyTo size m r rSize s =
      some ((stringCopy rSize s).length,
        (m.write r (stringCopy rSize s)).write (r + (stringCopy rSize s).length) [0]) := by
  have hcut : s.take (min (rSize - 1) s.length) = stringCopy rSize s := by
    rw [stringCopy, List.take_eq_take_iff]
    omega
  have hlen := length_stringCopy rSize s
  have hpiece : r + (stringCopy rSize s).length ≤ size := by omega
  have hnul : r + (stringCopy rSize s).length + [(0 : UInt8)].length ≤ size := by
    rw [List.length_singleton]
    omega
  rw [stringCopyTo, if_neg (by omega)]
  dsimp only
  rw [hcut, ← hlen, TextBuffer.store_of_le hpiece, Option.bind_eq_bind, Option.bind_some,
    TextBuffer.store_of_le hnul]
  rfl

/-- `strerror_r` with room for a NUL at least. -/
theorem strerrorR_stored {size r rSize : ℕ} (m : Memory UInt8) (hpos : 0 < rSize)
    (hfits : r + rSize ≤ size) (s : Bytes) : strerrorR size m r rSize (.stored s) =
      some (none, m.write r (stringCopy rSize (cString s) ++ [0])) := by
  have hlen := length_stringCopy rSize (cString s)
  have hstored : r + (stringCopy rSize (cString s) ++ [0]).length ≤ size := by
    rw [List.length_append, List.length_singleton]
    omega
  rw [strerrorR, if_neg (by omega), ← stringCopy, TextBuffer.store_of_le hstored, Option.map_some]

theorem cut_text {rSize : ℕ} (hpos : 0 < rSize) {s : Bytes} (hs : s.length < 2 ^ 31) :
    (Formatted.text s hs).cut rSize = s.take (rSize - 1) := by
  rw [Formatted.cut, stringFormat, if_neg (by omega), if_neg (by omega)]
  split
  · rfl
  · exact (List.take_of_length_le (by omega)).symm

theorem length_cut_lt {rSize : ℕ} (hpos : 0 < rSize) (f : Formatted) :
    (f.cut rSize).length < rSize := by
  cases f with
  | text s hs =>
      rw [cut_text hpos hs, List.length_take]
      omega
  | error n hn written => exact hpos

/-- `StringFormatImpl` with room for a NUL at least: the NUL is behind the text. -/
theorem stringFormatImpl_eq {size r rSize : ℕ} (m : Memory UInt8) (hpos : 0 < rSize)
    (hmax : rSize < 2 ^ 31) (hfits : r + rSize ≤ size) (f : Formatted) :
    ∃ m', stringFormatImpl size m r rSize f = some ((f.cut rSize).length, m') ∧
      Holds m' r (f.cut rSize ++ [0]) := by
  have hint : IntegralType.int.convert rSize = rSize := by
    have hhigh : IntegralType.int.max = 2 ^ 31 - 1 := rfl
    have hlow : IntegralType.int.min = -2 ^ 31 := rfl
    exact IntegralType.convert_eq (by omega) (by omega)
  have hne : rSize ≠ 0 := by omega
  cases f with
  | text s hs =>
      have hcut : (s.take (rSize - 1)).length = min (rSize - 1) s.length := List.length_take
      have hstored : r + (s.take (rSize - 1) ++ [0]).length ≤ size := by
        rw [List.length_append, List.length_singleton]
        omega
      rw [cut_text hpos hs]
      refine ⟨_, ?_, TextBuffer.holds_write m r _⟩
      simp only [stringFormatImpl, if_neg hne, vsnprintf, TextBuffer.store_of_le hstored,
        Option.map_some, Option.bind_eq_bind, Option.bind_some, hint, Option.pure_def]
      by_cases hlong : rSize ≤ s.length
      · rw [if_pos (by omega), if_pos (by omega), sizeSub_of_le (by omega), hcut,
          Nat.min_eq_left (by omega)]
      · rw [if_neg (by omega), Int.toNat_natCast, hcut, Nat.min_eq_right (by omega)]
  | error n hn written =>
      have hcut : (written.take rSize).length ≤ rSize := List.length_take_le _ _
      have hnul : r + [(0 : UInt8)].length ≤ size := by
        rw [List.length_singleton]
        omega
      refine ⟨_, ?_, TextBuffer.holds_write (m.write r (written.take rSize)) r [0]⟩
      simp only [stringFormatImpl, if_neg hne, vsnprintf,
        TextBuffer.store_of_le (by omega : r + (written.take rSize).length ≤ size),
        Option.map_some, Option.bind_eq_bind, Option.bind_some, Option.pure_def]
      rw [if_pos (.inl hn), if_neg (by omega), TextBuffer.store_of_le hnul]
      rfl

/-- The array has `text` from `off` up to its `n`th byte, in at most `limit` bytes. -/
structure Filled (off limit : ℕ) (m : Memory UInt8) (n : ℕ) (text : Bytes) : Prop where
  holds : Holds m off text
  eq : n = off + text.length
  le : text.length ≤ limit

namespace Filled

variable {size off limit n : ℕ} {m : Memory UInt8} {text : Bytes}

theorem stringCopyTo (h : Filled off limit m n text) (hsize : off + limit ≤ size) (s : Bytes) :
    ∃ k m', stringCopyTo size m n (off + limit - n) s = some (k, m') ∧
      Filled off limit m' (n + k) (appendPiece limit text s) := by
  obtain ⟨hholds, hn, hlen⟩ := h
  have hroom : off + limit - n = limit - text.length := by omega
  have hfull := length_appendPiece_le hlen s
  rw [hroom]
  by_cases hzero : limit - text.length = 0
  · refine ⟨0, m, if_pos hzero, ?_⟩
    rw [appendPiece, hzero, stringCopy, Nat.zero_sub, List.take_zero, List.append_nil]
    exact ⟨hholds, hn, hlen⟩
  · have hfits : n + (limit - text.length) ≤ size := by omega
    refine ⟨_, _, stringCopyTo_eq m (Nat.pos_of_ne_zero hzero) hfits s, ?_, ?_, hfull⟩
    · rw [hn]
      refine (hholds.write_behind _).write (.inl ?_)
      rw [List.length_append, Nat.add_assoc]
    · rw [appendPiece, List.length_append, hn, Nat.add_assoc]

/-- A write behind the text that fits. -/
theorem write (h : Filled off limit m n text) {cells : Bytes}
    (hfits : text.length + cells.length ≤ limit) :
    Filled off limit (m.write n cells) (n + cells.length) (text ++ cells) := by
  obtain ⟨hholds, hn, -⟩ := h
  refine ⟨?_, ?_, ?_⟩
  · rw [hn]
    exact hholds.write_behind cells
  · rw [List.length_append, hn, Nat.add_assoc]
  · rwa [List.length_append]

/-- The colon, if there is room for it. -/
theorem colon {s k : ℕ} (h : Filled off limit m (s + k) text) (hsize : off + limit ≤ size) :
    ∃ k' m', (if k < off + limit - s then
        (store size m (s + k) (lit ":")).map fun m => (k + 1, m)
      else some (k, m)) = some (k', m') ∧
      Filled off limit m' (s + k') (if text.length < limit then text ++ lit ":" else text) := by
  have hn := h.eq
  by_cases hroom : text.length < limit
  · have hfits : s + k + (lit ":").length ≤ size := by
      rw [show (lit ":").length = 1 from rfl]
      omega
    refine ⟨k + 1, m.write (s + k) (lit ":"), ?_, ?_⟩
    · rw [if_pos (by omega), TextBuffer.store_of_le hfits, Option.map_some]
    · rw [if_pos hroom]
      exact h.write hroom
  · refine ⟨k, m, if_neg (by omega), ?_⟩
    rw [if_neg hroom]
    exact h

theorem currentProcessUserGroup {env : Environment} {s : ℕ} (h : Filled off limit m s text)
    (hsize : off + limit ≤ size) (hknown : env.Known) :
    ∃ k m', currentProcessUserGroup size m env s (off + limit - s) = some (k, m') ∧
      Filled off limit m' (s + k) (env.appendUserGroup limit text) := by
  obtain ⟨user, huser⟩ := Lookup.exists_name hknown.1 (lit "getpwuid_r failed")
  obtain ⟨group, hgroup⟩ := Lookup.exists_name hknown.2 (lit "getgrgid_r failed")
  obtain ⟨k₁, m₁, hcopy, hfilled⟩ := h.stringCopyTo hsize user
  obtain ⟨k₂, m₂, hcolon, hfilled⟩ := hfilled.colon hsize
  obtain ⟨k₃, m₃, hlast, hdone⟩ := hfilled.stringCopyTo hsize group
  have hleft : sizeSub (off + limit - s) k₂ = off + limit - (s + k₂) := by
    have heq := hfilled.eq
    have hle := hfilled.le
    rw [sizeSub_of_le (by omega), Nat.sub_sub]
  refine ⟨k₂ + k₃, m₃, ?_, ?_⟩
  · simp only [Cpcl.currentProcessUserGroup, huser, hcopy, hcolon, hgroup, hleft, hlast,
      Option.bind_eq_bind, Option.bind_some, Option.pure_def]
  · rw [Environment.appendUserGroup, huser, hgroup, ← Nat.add_assoc]
    exact hdone

theorem appendUserGroup {env : Environment} {room : ℕ → ℕ} (h : Filled off limit m n text)
    (hsize : off + limit ≤ size) (hroom : ∀ n ≤ off + limit, room n = off + limit - n)
    (hknown : env.Known) : ∃ n' m', appendUserGroup size m room env n = some (n', m') ∧
      Filled off limit m' n' (env.appendUserGroup limit (appendPiece limit text (lit " for "))) := by
  have hn : n ≤ off + limit := h.eq ▸ Nat.add_le_add_left h.le off
  obtain ⟨k₁, m₁, hfor, hfilled⟩ := h.stringCopyTo hsize (lit " for ")
  have hn₁ : n + k₁ ≤ off + limit := hfilled.eq ▸ Nat.add_le_add_left hfilled.le off
  obtain ⟨k₂, m₂, hnames, hdone⟩ := hfilled.currentProcessUserGroup hsize hknown
  refine ⟨n + k₁ + k₂, m₂, ?_, hdone⟩
  simp only [Cpcl.appendUserGroup, hroom n hn, hfor, hroom _ hn₁, hnames, Option.bind_eq_bind,
    Option.bind_some, Option.pure_def]

/-- `hend`: where nothing can be stored, the array has a NUL already. -/
theorem appendSystemText {room : ℕ → ℕ} (h : Filled off limit m n text)
    (hsize : off + limit ≤ size) (hroom : ∀ n ≤ off + limit, room n = off + limit - n)
    (hend : text.length < limit ∨ (off + limit < size ∧ Holds m n [0])) (e : SystemText) :
    ∃ n' m', appendSystemText size m room n e = some (n', m') ∧
      Filled off limit m' n' (appendPiece limit text e.text) := by
  have hn := h.eq
  have hlen := h.le
  have hleft : room n = off + limit - n := hroom n (by omega)
  cases e with
  | static s =>
      obtain ⟨k, m', hcopy, hdone⟩ := h.stringCopyTo hsize (cString s)
      refine ⟨n + k, m', ?_, hdone⟩
      simp only [Cpcl.appendSystemText, strerrorR, hleft, hcopy, Option.bind_eq_bind,
        Option.bind_some, Option.pure_def]
  | stored s =>
      have hpiece : limit - text.length = off + limit - n := by omega
      rw [SystemText.text, appendPiece, hpiece]
      by_cases hzero : off + limit - n = 0
      · obtain ⟨hinside, hnul⟩ := hend.resolve_left (by omega)
        have hlength : terminatedLength 0 size m n = some ([] : Bytes).length :=
          TextBuffer.terminatedLength_of_holds hnul List.not_mem_nil (by rw [List.length_nil]; omega)
        refine ⟨n, m, ?_, ?_⟩
        · simp only [Cpcl.appendSystemText, strerrorR, hleft, hzero, if_true, hlength,
            List.length_nil, Option.bind_eq_bind, Option.bind_some, Option.pure_def, Nat.add_zero]
        · rw [hzero, stringCopy, Nat.zero_sub, List.take_zero, List.append_nil]
          exact h
      · have hcut := length_stringCopy (off + limit - n) (cString s)
        have hnul : 0 ∉ stringCopy (off + limit - n) (cString s) :=
          fun hmem => zero_notMem_cString s (List.mem_of_mem_take hmem)
        have hstored := strerrorR_stored m (Nat.pos_of_ne_zero hzero)
          (by omega : n + (off + limit - n) ≤ size) s
        have hfull := length_appendPiece_le hlen (cString s)
        rw [appendPiece, hpiece] at hfull
        generalize stringCopy (off + limit - n) (cString s) = piece at hcut hnul hstored hfull ⊢
        have hlength : terminatedLength 0 size (m.write n (piece ++ [0])) n = some piece.length :=
          TextBuffer.terminatedLength_of_holds (TextBuffer.holds_write m n _) hnul (by omega)
        refine ⟨n + piece.length, m.write n (piece ++ [0]), ?_, ?_, ?_, hfull⟩
        · simp only [Cpcl.appendSystemText, hleft, hstored, hlength, Option.bind_eq_bind,
            Option.bind_some, Option.pure_def]
        · have hbehind := h.holds.write_behind (piece ++ [0])
          rw [← hn, ← List.append_assoc] at hbehind
          exact (TextBuffer.holds_append.1 hbehind).1
        · rw [List.length_append, hn, Nat.add_assoc]

/-- Who was denied the access, if it is that error. -/
theorem appendUserGroup_of_eacces {env : Environment} {room : ℕ → ℕ} {errorCode : ℤ}
    {e : SystemText} (h : Filled off limit m n (appendPiece limit text e.text))
    (hsize : off + limit ≤ size) (hroom : ∀ n ≤ off + limit, room n = off + limit - n)
    (hknown : eacces = errorCode → env.Known) :
    ∃ n' m', (if eacces = errorCode then Cpcl.appendUserGroup size m room env n
        else some (n, m)) = some (n', m') ∧
      Filled off limit m' n' (env.appendSystemMessage limit text errorCode e) := by
  rw [Environment.appendSystemMessage]
  by_cases heacces : eacces = errorCode
  · rw [if_pos heacces, if_pos heacces]
    exact h.appendUserGroup hsize hroom (hknown heacces)
  · rw [if_neg heacces, if_neg heacces]
    exact ⟨n, m, rfl, h⟩

end Filled

/-! ## The line -/

/-- With one of the levels `levels` a line is handed over, the header, `message` and a newline at the
front of an array of `size` bytes; with another one there is none. -/
def WritesLine (env : Environment) (levels traceLevel : UInt32) (size : ℕ) (message : Bytes)
    (r : Option (Option Line)) : Prop :=
  if levels &&& traceLevel = 0 then r = some none
  else ∃ header line, r = some (some line) ∧ line.l = traceLevel ∧
    formatHeaderImpl (traceLevelOf traceLevel) env.t env.useconds env.processId env.threadId
      = some header ∧ header.length = headerLength ∧
    line.size = (header ++ message ++ lit "\n").length ∧ line.size ≤ size ∧
    line.s.read 0 line.size = header ++ message ++ lit "\n"

/-- The newline and the header, around what the pieces have written. -/
theorem writesLine_of_holds (env : Environment) {levels traceLevel : UInt32} {size n : ℕ}
    {m : Memory UInt8} {message : Bytes} (hlevel : levels &&& traceLevel ≠ 0)
    (h : Holds m headerLength message) (hn : n = headerLength + message.length + 1)
    (hsize : n ≤ size) : WritesLine env levels traceLevel size message do
      let m ← store size m (sizeSub n 1) (lit "\n")
      let m ← formatHeader size m env traceLevel
      return some ⟨traceLevel, m, n⟩ := by
  have hheader := formatHeaderImpl_eq (traceLevelOf traceLevel) env.t env.useconds env.processId
    env.threadId
  generalize stampText env.t _ ++ _ = header at hheader
  have hlen : header.length = headerLength := length_formatHeaderImpl hheader
  have hnewline : sizeSub n 1 = headerLength + message.length := by
    rw [sizeSub_of_le (by omega), hn]
    rfl
  have hone : (lit "\n").length = 1 := rfl
  have hbehind := h.write_behind (lit "\n")
  have hfront : Holds ((m.write (headerLength + message.length) (lit "\n")).write 0 header)
      headerLength (message ++ lit "\n") := hbehind.write (.inr (by omega))
  have hline : Holds ((m.write (headerLength + message.length) (lit "\n")).write 0 header) 0
      (header ++ (message ++ lit "\n")) := by
    refine TextBuffer.holds_append.2 ⟨TextBuffer.holds_write _ 0 header, ?_⟩
    rwa [Nat.zero_add, hlen]
  have hsum : n = (header ++ message ++ lit "\n").length := by
    rw [List.length_append, List.length_append, hlen, hone, hn]
  have hfits : headerLength + message.length + (lit "\n").length ≤ size := by omega
  have hfits' : 0 + header.length ≤ size := by omega
  rw [WritesLine, if_neg hlevel]
  refine ⟨header,
    ⟨traceLevel, (m.write (headerLength + message.length) (lit "\n")).write 0 header, n⟩,
    ?_, rfl, hheader, hlen, hsum, hsize, ?_⟩
  · simp only [formatHeader, hheader, hnewline, TextBuffer.store_of_le hfits,
      TextBuffer.store_of_le hfits', Option.bind_eq_bind, Option.bind_some, Option.pure_def]
  · rw [← List.append_assoc] at hline
    rw [hsum]
    exact hline

theorem trace_writesLine (env : Environment) (levels traceLevel : UInt32) (buf : Memory UInt8)
    (f : Formatted) : WritesLine env levels traceLevel (0x200 + headerLength) (f.cut 0x1ff)
      (trace env levels traceLevel buf f) := by
  by_cases hlevel : levels &&& traceLevel = 0
  · rw [WritesLine, if_pos hlevel, trace, if_pos hlevel]
  · have hfits : headerLength + 0x1ff ≤ 0x200 + headerLength := by omega
    obtain ⟨m, hrun, hholds⟩ := stringFormatImpl_eq buf (by omega) (by omega) hfits f
    have hlen := length_cut_lt (by omega : 0 < 0x1ff) f
    have hroom : sizeSub (sizeSub (0x200 + headerLength) headerLength) 1 = 0x1ff := rfl
    rw [trace, if_neg hlevel]
    dsimp only
    rw [hroom, hrun, Option.bind_eq_bind, Option.bind_some]
    exact writesLine_of_holds env hlevel (TextBuffer.holds_append.1 hholds).1 (by omega) (by omega)

theorem traceString_writesLine (env : Environment) (levels traceLevel : UInt32)
    (buf : Memory UInt8) (s : Bytes) : WritesLine env levels traceLevel (0x200 + headerLength)
      (stringCopy 0x1ff s) (traceString env levels traceLevel buf s) := by
  by_cases hlevel : levels &&& traceLevel = 0
  · rw [WritesLine, if_pos hlevel, traceString, UInt32.and_comm, if_pos hlevel]
  · have hfits : headerLength + 0x1ff ≤ 0x200 + headerLength := by omega
    have hrun := stringCopyTo_eq buf (by omega) hfits s
    have hlen := length_stringCopy 0x1ff s
    have hholds := TextBuffer.holds_write buf headerLength (stringCopy 0x1ff s)
    have hroom : sizeSub (sizeSub (0x200 + headerLength) headerLength) 1 = 0x1ff := rfl
    rw [traceString, UInt32.and_comm, if_neg hlevel]
    dsimp only
    rw [hroom, hrun, Option.bind_eq_bind, Option.bind_some]
    exact writesLine_of_holds env hlevel (hholds.write (.inl (Nat.le_refl _))) (by omega) (by omega)

theorem errorSystem_writesLine {env : Environment} (levels : UInt32) (buf : Memory UInt8)
    {errorCode : ℤ} (f : Formatted) (e : SystemText) (hknown : eacces = errorCode → env.Known) :
    WritesLine env levels traceLevelError (0x300 + headerLength)
      (env.appendSystemMessage 0x2ff (f.cut 0x300) errorCode e)
      (errorSystem env levels buf errorCode f e) := by
  by_cases hlevel : levels &&& traceLevelError = 0
  · rw [WritesLine, if_pos hlevel, errorSystem, UInt32.and_comm, if_pos hlevel]
  · have hfits : headerLength + 0x300 ≤ 0x300 + headerLength := by omega
    have hlimit : headerLength + 0x2ff ≤ 0x300 + headerLength := by omega
    have hroom : ∀ n ≤ headerLength + 0x2ff,
        sizeSub (sizeSub (0x300 + headerLength) n) 1 = headerLength + 0x2ff - n := by
      intro n hn
      have hlt : n < 0x300 + headerLength := by omega
      rw [sizeSub_sub_one hlt]
      omega
    obtain ⟨m, hrun, hholds⟩ := stringFormatImpl_eq buf (by omega) (by omega) hfits f
    obtain ⟨hformat, hnul⟩ := TextBuffer.holds_append.1 hholds
    have hlen := length_cut_lt (by omega : 0 < 0x300) f
    have hfilled : Filled headerLength 0x2ff m (headerLength + (f.cut 0x300).length) (f.cut 0x300) :=
      ⟨hformat, rfl, by omega⟩
    obtain ⟨n₁, m₁, htext, hfilled₁⟩ :=
      hfilled.appendSystemText hlimit hroom (.inr ⟨by omega, hnul⟩) e
    obtain ⟨n₂, m₂, hgroup, hdone⟩ := hfilled₁.appendUserGroup_of_eacces hlimit hroom hknown
    have hinside : sizeSub n₁ 1 < 0x300 + headerLength := by
      have heq := hfilled₁.eq
      have hle := hfilled₁.le
      have hpos : 1 ≤ n₁ := by
        rw [heq, headerLength]
        omega
      rw [sizeSub_of_le hpos]
      omega
    have hend := hdone.eq
    have hle := hdone.le
    rw [errorSystem, UInt32.and_comm, if_neg hlevel]
    dsimp only
    rw [sizeSub_add, hrun, Option.bind_eq_bind, Option.bind_some]
    dsimp only
    rw [Nat.add_comm (f.cut 0x300).length, htext, Option.bind_eq_bind, Option.bind_some]
    simp only [hinside, and_true]
    rw [hgroup, Option.bind_some]
    exact writesLine_of_holds env hlevel hdone.holds (by omega) (by omega)

theorem getSystemMessage_eq {env : Environment} (buf : Memory UInt8) {errorCode : ℤ}
    (e : SystemText) (hknown : eacces = errorCode → env.Known) :
    getSystemMessage env buf errorCode e = some (env.appendSystemMessage 0x100 [] errorCode e) ∧
      (env.appendSystemMessage 0x100 [] errorCode e).length ≤ 0x100 := by
  have hroom : ∀ n ≤ 0 + 0x100, sizeSub 0x100 n = 0 + 0x100 - n := by
    intro n hn
    rw [sizeSub_of_le (by omega), Nat.zero_add]
  have hempty : Filled 0 0x100 buf 0 [] := ⟨TextBuffer.holds_nil, rfl, Nat.zero_le _⟩
  obtain ⟨n₁, m₁, htext, hfilled⟩ :=
    hempty.appendSystemText (Nat.le_refl _) hroom (.inl (by decide)) e
  obtain ⟨n₂, m₂, hgroup, hdone⟩ := hfilled.appendUserGroup_of_eacces (Nat.le_refl _) hroom hknown
  have hinside : n₁ < 0x100 := by
    have hshort := length_appendPiece_lt (by decide : ([] : Bytes).length < 0x100) e.text
    rwa [hfilled.eq, Nat.zero_add]
  have hend := hdone.eq
  have hread : m₂.read 0 n₂ = env.appendSystemMessage 0x100 [] errorCode e := by
    rw [hend, Nat.zero_add]
    exact hdone.holds
  refine ⟨?_, hdone.le⟩
  rw [getSystemMessage]
  dsimp only
  rw [htext, Option.bind_eq_bind, Option.bind_some]
  simp only [hinside, and_true]
  rw [hgroup, Option.bind_some]
  dsimp only
  rw [if_pos (by have hle := hdone.le; omega), hread]

/-- All four stay in their arrays, whatever the lengths of the pieces are; the accounts have names
where they are asked for. -/
theorem trace_inBounds (env : Environment) (levels : UInt32) (buf : Memory UInt8) :
    (∀ traceLevel f, WritesLine env levels traceLevel (0x200 + headerLength) (f.cut 0x1ff)
      (trace env levels traceLevel buf f)) ∧
    (∀ traceLevel s, WritesLine env levels traceLevel (0x200 + headerLength) (stringCopy 0x1ff s)
      (traceString env levels traceLevel buf s)) ∧
    ∀ errorCode e, (eacces = errorCode → env.Known) →
      (∀ f, WritesLine env levels traceLevelError (0x300 + headerLength)
        (env.appendSystemMessage 0x2ff (f.cut 0x300) errorCode e)
        (errorSystem env levels buf errorCode f e)) ∧
      getSystemMessage env buf errorCode e = some (env.appendSystemMessage 0x100 [] errorCode e) ∧
      (env.appendSystemMessage 0x100 [] errorCode e).length ≤ 0x100 :=
  ⟨fun traceLevel f => trace_writesLine env levels traceLevel buf f,
    fun traceLevel s => traceString_writesLine env levels traceLevel buf s,
    fun _ e hknown => ⟨fun f => errorSystem_writesLine levels buf f e hknown,
      getSystemMessage_eq buf e hknown⟩⟩

/-- The line for a file that may not be read. -/
theorem trace_inBounds_denied :
    WritesLine ⟨Instant.newYear, 0, 1, 1, .found (lit "www"), .failed⟩ 8 8 (0x300 + headerLength)
      (lit "open: Permission denied for www:getgrgid_r failed")
      (errorSystem ⟨Instant.newYear, 0, 1, 1, .found (lit "www"), .failed⟩ 8 (fun _ => 0xAA) 13
        (.text (lit "open: ") (by decide)) (.stored (lit "Permission denied"))) := by
  have hmessage : Environment.appendSystemMessage
      ⟨Instant.newYear, 0, 1, 1, .found (lit "www"), .failed⟩ 0x2ff
      ((Formatted.text (lit "open: ") (by decide)).cut 0x300) 13 (.stored (lit "Permission denied"))
      = lit "open: Permission denied for www:getgrgid_r failed" := by decide +kernel
  have hline := (trace_inBounds ⟨Instant.newYear, 0, 1, 1, .found (lit "www"), .failed⟩ 8
    (fun _ => 0xAA)).2.2 13 (.stored (lit "Permission denied")) (fun _ => ⟨by decide, by decide⟩)
  rw [← hmessage]
  exact hline.1 (.text (lit "open: ") (by decide))

end ImageProxy.Cpcl
