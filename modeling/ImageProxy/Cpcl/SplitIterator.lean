import Mathlib.Data.Nat.Notation
import ImageProxy.Library.Ascii

set_option autoImplicit false

/-! # String pieces and their splitting (`string_piece.hpp`, `split_iterator.hpp`)

A `StringPiece` is a pointer and a length. Its pointer is the bytes it points at, to the end of the
string they are in, and may be null: dereferencing an iterator at an empty piece gives the null
pointer, whatever is built from it later. -/

namespace ImageProxy.Cpcl

/-- `StringPiece`: `data` is `none` when null. -/
structure StringPiece where
  data : Option Bytes
  size : ℕ
deriving DecidableEq, Repr

/-- The empty piece `StringPiece()`. -/
def StringPiece.null : StringPiece := ⟨none, 0⟩

/-- The piece of a whole string. -/
def StringPiece.of (s : Bytes) : StringPiece := ⟨some s, s.length⟩

/-- The bytes a piece spans. -/
def StringPiece.bytes (s : StringPiece) : Bytes := (s.data.getD []).take s.size

/-- `as_string`; `none` is the `std::logic_error` of a `std::string` built from a null
pointer and a size other than 0. -/
def StringPiece.asString (s : StringPiece) : Option Bytes :=
  if s.size = 0 then some [] else s.data.map (·.take s.size)

/-- `BasicSplitIterator`: the bytes of `[head, tail)` and of `[tail, last)`, or all three pointers
null. -/
structure SplitIterator where
  pointers : Option (Bytes × Bytes)
deriving DecidableEq, Repr

namespace SplitIterator

/-- The default constructor, which is the end of every iteration. -/
def tail : SplitIterator := ⟨none⟩

/-- Up to the first `split`, and from it on. -/
def cut (split : UInt8) (s : Bytes) : Bytes × Bytes :=
  (s.takeWhile (· ≠ split), s.dropWhile (· ≠ split))

/-- `BasicSplitIterator(v, split)`. -/
def start (s : Bytes) (split : UInt8) : SplitIterator :=
  if s.isEmpty then tail else ⟨some (cut split s)⟩

/-- `operator++`. -/
def next (split : UInt8) (it : SplitIterator) : SplitIterator :=
  match it.pointers with
  | some (_, _ :: rest) => ⟨some (cut split rest)⟩
  | _ => tail

/-- `operator*`. -/
def deref (it : SplitIterator) : StringPiece :=
  match it.pointers with
  | some (piece, rest) => if piece.isEmpty then .null else ⟨some (piece ++ rest), piece.length⟩
  | none => .null

/-- The pieces from `it` on; `turns` bounds the bytes that are left. -/
def pieces (split : UInt8) : (turns : ℕ) → SplitIterator → List StringPiece
  | 0, _ => []
  | turns + 1, it => if it = tail then [] else it.deref :: pieces split turns (it.next split)

end SplitIterator

/-- The pieces `for (it(s, split); it != tail; ++it)` goes through: one more than the string has
bytes is enough turns. -/
def splitPieces (s : Bytes) (split : UInt8) : List StringPiece :=
  SplitIterator.pieces split (s.length + 1) (.start s split)

end ImageProxy.Cpcl
