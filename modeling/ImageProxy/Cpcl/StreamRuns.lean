import ImageProxy.Cpcl.DynamicMemoryStream
import ImageProxy.Library.AppendStream
import ImageProxy.Library.Transducer

set_option autoImplicit false

/-! # The in-memory stream is a list of bytes and an offset

The blocks, the pad in the first of them and the stale blocks that `Clear` leaves are all invisible: a
`DynamicMemoryStream` answers every sequence of calls as an `AppendStream` of bytes does. The sizes
of `Read` and `Write` are `uint32`, so this is so as long as the stream stays below 2 ^ 32 bytes. -/

namespace ImageProxy

/-- A call of a method of the stream. The size that `Write` and `Read` take is a `uint32`. -/
inductive StreamCall where
  | write (data : Bytes) (size_lt : data.length < 2 ^ 32)
  | read (size : UInt32)
  | seek (moveTo : ℤ) (moveMethod : SeekMethod)
  | tell
  | size
  | clear

/-- What a call returns. `Seek` stores the position it moved to, and no position if it failed. -/
inductive StreamResult where
  | written (size : ℕ)
  | data (s : Bytes)
  | sought (position : Option ℤ)
  | position (position : ℤ)
  | size (size : ℤ)
  | done
deriving DecidableEq

/-! ## The source -/

/-- The call made on a `DynamicMemoryStream`. -/
def DynamicMemoryStream.call (s : DynamicMemoryStream) :
    StreamCall → StreamResult × DynamicMemoryStream
  | .write data _ => (.written (s.write data).1, (s.write data).2)
  | .read size => (.data (s.read size.toNat).1, (s.read size.toNat).2)
  | .seek moveTo moveMethod =>
      let r := s.seek moveTo moveMethod
      (.sought (if r.1 then some r.2.tell else none), r.2)
  | .tell => (.position s.tell, s)
  | .size => (.size s.size, s)
  | .clear => (.done, s.clear)

/-! ## The reference -/

/-- Where `Seek` is to go, if `moveMethod` is one of the three there are. -/
def seekTarget (offset size : ℕ) (moveTo : ℤ) : SeekMethod → Option ℤ
  | .set => some moveTo
  | .cur => some (offset + moveTo)
  | .«end» => some (size + moveTo)
  | .other => none

/-- The call made on a list of bytes with an offset. -/
def referenceCall (t : AppendStream UInt8) : StreamCall → StreamResult × AppendStream UInt8
  | .write data _ => (.written (t.append data).1, (t.append data).2)
  | .read size => (.data (t.read size.toNat).1, (t.read size.toNat).2)
  | .seek moveTo moveMethod =>
      match (seekTarget t.offset t.size moveTo moveMethod).bind t.seek with
      | some t' => (.sought (some t'.offset), t')
      | none => (.sought none, t)
  | .tell => (.position t.offset, t)
  | .size => (.size t.size, t)
  | .clear => (.done, t.clear)

/-! ## One call -/

namespace DynamicMemoryStream

/-- The bytes of the stream and its cursor. -/
def toAppendStream (s : DynamicMemoryStream) : AppendStream UInt8 :=
  ⟨s.content, s.pOffset, by
    rw [length_content]
    exact s.offset_le⟩

theorem size_toAppendStream (s : DynamicMemoryStream) : s.toAppendStream.size = s.pSize :=
  s.length_content

theorem toAppendStream_write (s : DynamicMemoryStream) (data : Bytes) (hlen : data.length < 2 ^ 32) :
    (s.write data).1 = (s.toAppendStream.append data).1 ∧
      (s.write data).2.toAppendStream = (s.toAppendStream.append data).2 := by
  have hsize := s.size_toAppendStream
  by_cases hend : s.pOffset = s.pSize
  · obtain ⟨hcount, hcontent, hoffset⟩ := s.write_atEnd data hlen hend
    have hatEnd : s.toAppendStream.offset = s.toAppendStream.size := by
      rw [hsize]
      exact hend
    have hlast : (s.write data).2.pOffset = s.pOffset + data.length := by
      rw [hoffset, ← length_content, hcontent, List.length_append, length_content, hend]
    rw [AppendStream.append, if_pos hatEnd]
    exact ⟨hcount, AppendStream.ext hcontent hlast⟩
  · have hnotAtEnd : ¬ s.toAppendStream.offset = s.toAppendStream.size := by
      rw [hsize]
      exact hend
    rw [AppendStream.append, if_neg hnotAtEnd, s.write_notAtEnd data hend]
    exact ⟨rfl, rfl⟩

theorem toAppendStream_read (s : DynamicMemoryStream) (n : ℕ) (hn : n < 2 ^ 32)
    (hsize : s.pSize < 2 ^ 32) :
    (s.read n).1 = (s.toAppendStream.read n).1 ∧
      (s.read n).2.toAppendStream = (s.toAppendStream.read n).2 := by
  have hdata : (s.read n).1 = (s.toAppendStream.read n).1 := s.read_eq n hn hsize
  refine ⟨hdata, AppendStream.ext (s.content_read n) ?_⟩
  show (s.read n).2.pOffset = s.pOffset + (s.toAppendStream.read n).1.length
  rw [s.pOffset_read n, hdata]

theorem seek_of_target {s : DynamicMemoryStream} {moveTo target : ℤ} {moveMethod : SeekMethod}
    (htarget : seekTarget s.pOffset s.pSize moveTo moveMethod = some target) (hzero : 0 ≤ target)
    (hsize : target ≤ s.pSize) : s.seek moveTo moveMethod
      = (true, { s with pOffset := target.toNat, offset_le := by omega }) := by
  cases moveMethod <;> cases htarget <;>
    simp only [seek, if_neg (Int.not_lt.2 hzero), dif_neg (Int.not_lt.2 hsize)]

theorem seek_of_no_target {s : DynamicMemoryStream} {moveTo : ℤ} {moveMethod : SeekMethod}
    (hout : ∀ target, seekTarget s.pOffset s.pSize moveTo moveMethod = some target →
      ¬ (0 ≤ target ∧ target ≤ s.pSize)) : s.seek moveTo moveMethod = (false, s) := by
  cases moveMethod with
  | other => rfl
  | set | cur | «end» =>
      have h := hout _ rfl
      simp only [seek]
      split_ifs <;> first | rfl | omega

theorem seek_of_target_outside {s : DynamicMemoryStream} {moveTo target : ℤ}
    {moveMethod : SeekMethod} (htarget : seekTarget s.pOffset s.pSize moveTo moveMethod = some target)
    (hout : ¬ (0 ≤ target ∧ target ≤ s.pSize)) : s.seek moveTo moveMethod = (false, s) := by
  refine seek_of_no_target ?_
  intro t ht
  cases ht.symm.trans htarget
  exact hout

theorem toAppendStream_seek (s : DynamicMemoryStream) (moveTo : ℤ) (moveMethod : SeekMethod) :
    (s.call (.seek moveTo moveMethod)).1
        = (referenceCall s.toAppendStream (.seek moveTo moveMethod)).1 ∧
      (s.call (.seek moveTo moveMethod)).2.toAppendStream
        = (referenceCall s.toAppendStream (.seek moveTo moveMethod)).2 := by
  have hsz := s.size_toAppendStream
  simp only [call, referenceCall, hsz]
  cases htarget : seekTarget s.toAppendStream.offset s.pSize moveTo moveMethod with
  | none =>
      -- the method is none of the three
      have hnone : seekTarget s.pOffset s.pSize moveTo moveMethod = none := htarget
      rw [seek_of_no_target (by rw [hnone]; simp)]
      exact ⟨rfl, rfl⟩
  | some target =>
      by_cases hin : 0 ≤ target ∧ target ≤ s.pSize
      · have hseek : s.toAppendStream.seek target
            = some ⟨s.content, target.toNat, by rw [length_content]; omega⟩ := by
          rw [AppendStream.seek, dif_pos (by rw [hsz]; exact hin)]
          rfl
        rw [seek_of_target htarget hin.1 hin.2, Option.bind_some, hseek]
        exact ⟨rfl, rfl⟩
      · have hseek : s.toAppendStream.seek target = none := by
          rw [AppendStream.seek, dif_neg (by rw [hsz]; exact hin)]
        rw [seek_of_target_outside htarget hin, Option.bind_some, hseek]
        exact ⟨rfl, rfl⟩

/-- A call on the stream gives what the reference gives, and keeps the two together. -/
theorem call_refines (s : DynamicMemoryStream) (hsize : s.pSize < 2 ^ 32) (c : StreamCall) :
    (s.call c).1 = (referenceCall s.toAppendStream c).1 ∧
      (s.call c).2.toAppendStream = (referenceCall s.toAppendStream c).2 := by
  cases c with
  | write data hlen =>
      obtain ⟨hcount, hstream⟩ := s.toAppendStream_write data hlen
      exact ⟨congrArg StreamResult.written hcount, hstream⟩
  | read size =>
      obtain ⟨hdata, hstream⟩ := s.toAppendStream_read size.toNat size.toNat_lt hsize
      exact ⟨congrArg StreamResult.data hdata, hstream⟩
  | seek moveTo moveMethod => exact s.toAppendStream_seek moveTo moveMethod
  | tell => exact ⟨rfl, rfl⟩
  | size => exact ⟨congrArg (StreamResult.size ·) (by rw [size_toAppendStream]; rfl), rfl⟩
  | clear => exact ⟨rfl, AppendStream.ext (by rfl) rfl⟩

/-! ## Every sequence of calls -/

/-- **A stream is a list of bytes and an offset.** Whatever is called on a new stream, and whatever
its block size, the results are those of an empty list of bytes, as long as the stream stays below
2 ^ 32 bytes. -/
theorem run_call_eq_reference (blockSize : ℕ) (hpos : 0 < blockSize) (calls : List StreamCall)
    (hsize : Transducer.EveryState call (fun s => s.pSize < 2 ^ 32) (new blockSize hpos) calls) :
    (Transducer.run call (new blockSize hpos) calls).1
      = (Transducer.run referenceCall AppendStream.empty calls).1 := by
  refine (Transducer.run_eq_of_simulation (R := fun s t => s.toAppendStream = t) ?_ rfl hsize).1
  rintro s t c rfl hs
  exact s.call_refines hs c

/-- Two blocks are filled, cleared and written again past their old end. -/
def rewritten : List StreamCall :=
  [.write [1, 2, 3] (by decide), .seek (-2) .«end», .read 9, .seek 4 .set, .clear,
    .write [4, 5, 6, 7, 8] (by decide), .write [9] (by decide), .seek 1 .set, .write [0] (by decide),
    .read 3, .tell, .size]

theorem run_call_rewritten : (Transducer.run call (new 2 (by decide)) rewritten).1
    = (Transducer.run referenceCall AppendStream.empty rewritten).1 :=
  run_call_eq_reference 2 (by decide) rewritten (by decide +kernel)

end DynamicMemoryStream

end ImageProxy
