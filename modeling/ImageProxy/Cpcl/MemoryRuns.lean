import ImageProxy.Cpcl.MemoryCursor
import ImageProxy.Library.StepSystem

set_option autoImplicit false

/-! # Calls on the streams over some memory

Every call on a stream and its clones, in any order. A step has no result if it touches the buffer of
a stream at an index that is not below its `p_size`. Read, Write, Seek and CopyTo never do; the byte
methods do at one offset, the largest `int32`, which is the end of the largest buffer there is. -/

namespace ImageProxy.MemoryStream

open StepSystem

/-! ## The source -/

/-- A method of a stream. `CopyTo` writes to another of the streams or to something else. -/
inductive MemoryCall where
  | assign (p pSize : ℕ)
  | readByte
  | writeByte (v : UInt8)
  | read (data : ℕ) (size : UInt32)
  | write (data : ℕ) (size : UInt32)
  | seek (moveTo : ℤ) (moveMethod : SeekMethod)
  | copyTo (output : Option ℕ) (size : UInt32)

/-- A stream is made, cloned, or called. -/
inductive MemoryEvent where
  | construct (p pSize : ℕ) (throwEofWrite : Bool)
  | clone (i : ℕ)
  | call (i : ℕ) (c : MemoryCall)

/-- The memory and the streams over it. -/
structure MemoryWorld where
  mem : Memory UInt8
  streams : List Members

namespace MemoryWorld

/-- The stream `i` after a call, and the memory after it. -/
def set (w : MemoryWorld) (i : ℕ) (mem : Memory UInt8) (s : Members) : MemoryWorld :=
  ⟨mem, w.streams.set i s⟩

/-- `Write` on the stream `j`; where there is none nothing happens. -/
def write (w : MemoryWorld) (j data : ℕ) (size : UInt32) : Option MemoryWorld :=
  match w.streams[j]? with
  | none => some w
  | some t => (t.write w.mem data size).map fun r => w.set j r.2.1 r.2.2

/-- A method of the stream `i`, which is `s`. An exception goes to the caller. -/
def callOn (w : MemoryWorld) (i : ℕ) (s : Members) : MemoryCall → Option MemoryWorld
  | .assign p pSize => some (w.set i w.mem (s.assign p pSize))
  | .readByte => (s.readByte w.mem).map fun r => w.set i w.mem r.2
  | .writeByte v => (s.writeByte w.mem v).map fun r => w.set i r.2.1 r.2.2
  | .read data size => (s.read w.mem data size).map fun r => w.set i r.2.1 r.2.2
  | .write data size => (s.write w.mem data size).map fun r => w.set i r.2.1 r.2.2
  | .seek moveTo moveMethod => some (w.set i w.mem (s.seek moveTo moveMethod).2)
  | .copyTo none size => s.copyTo (fun _ _ => some w) size
  | .copyTo (some j) size => s.copyTo (w.write j) size

/-- One event; `none` if an access to a buffer is not below its `p_size`. -/
def step (w : MemoryWorld) : MemoryEvent → Option MemoryWorld
  | .construct p pSize throwEofWrite =>
      some { w with streams := w.streams ++ [.new p pSize throwEofWrite] }
  | .clone i =>
      match w.streams[i]? with
      | none => some w
      | some s => some { w with streams := w.streams ++ [s.clone] }
  | .call i c =>
      match w.streams[i]? with
      | none => some w
      | some s => w.callOn i s c

/-- The first stream is made. -/
def start (mem : Memory UInt8) (p pSize : ℕ) (throwEofWrite : Bool) : MemoryWorld :=
  ⟨mem, [.new p pSize throwEofWrite]⟩

/-! ## The offsets stay in the buffers -/

/-- The offset of every stream is in its buffer or at its end. -/
def InRange (w : MemoryWorld) : Prop := ∀ s ∈ w.streams, s.InRange

/-- The event is a byte method on a stream whose offset is the largest `int32`. -/
def ByteAtIntMax (w : MemoryWorld) : MemoryEvent → Prop
  | .call i .readByte => ∃ s, w.streams[i]? = some s ∧ s.pOffset = intMax
  | .call i (.writeByte _) => ∃ s, w.streams[i]? = some s ∧ s.pOffset = intMax
  | _ => False

theorem inRange_start (mem : Memory UInt8) (p pSize : ℕ) (throwEofWrite : Bool) :
    (start mem p pSize throwEofWrite).InRange := by
  intro s hs
  rw [List.mem_singleton.1 hs]
  exact Members.inRange_new _ _ _

theorem InRange.set {w : MemoryWorld} (hw : w.InRange) (i : ℕ) (mem : Memory UInt8) {s : Members}
    (hs : s.InRange) : (w.set i mem s).InRange := by
  intro t ht
  rcases List.mem_or_eq_of_mem_set ht with ht | rfl
  · exact hw t ht
  · exact hs

theorem InRange.append {w : MemoryWorld} (hw : w.InRange) {s : Members} (hs : s.InRange) :
    InRange { w with streams := w.streams ++ [s] } := by
  intro t ht
  rcases List.mem_append.1 ht with ht | ht
  · exact hw t ht
  · rw [List.mem_singleton.1 ht]
    exact hs

end MemoryWorld

/-! ## One method -/

namespace Members

variable {s : Members}

theorem InRange.withState (hs : s.InRange) (state : Bool) :
    InRange { s with state := state } := ⟨hs.1, hs.2, hs.3⟩

theorem InRange.advance_one (hs : s.InRange) (h : s.pOffset < s.pSize) :
    (s.advance 1).InRange := by
  have hlo := hs.offset_nonneg
  exact ⟨Int.le_trans hlo (by show _ ≤ _ + (1 : ℤ); omega), h, hs.size_le⟩

/-- A byte method on the largest offset has no result: the offset plus one is below the size. -/
theorem InRange.byte_none (hs : s.InRange) (hmax : s.pOffset = intMax) (mem : Memory UInt8) :
    s.readByte mem = none ∧ ∀ v, s.writeByte mem v = none := by
  have hend : ¬s.pOffset < s.pSize := by
    rw [hmax]
    exact Int.not_lt.2 hs.size_le
  refine ⟨?_, fun v => ?_⟩
  · rw [readByte_eq mem hs, if_neg hend, if_pos hmax]
  · rw [writeByte_eq mem hs, if_neg hend, if_pos hmax]

theorem InRange.readByte (hs : s.InRange) (hmax : s.pOffset ≠ intMax) (mem : Memory UInt8) :
    ∃ r, s.readByte mem = some r ∧ r.2.InRange := by
  rw [readByte_eq mem hs, if_neg hmax]
  split
  · next hleft => exact ⟨_, rfl, hs.advance_one hleft⟩
  · exact ⟨_, rfl, hs.withState false⟩

theorem InRange.writeByte (hs : s.InRange) (hmax : s.pOffset ≠ intMax) (mem : Memory UInt8)
    (v : UInt8) : ∃ r, s.writeByte mem v = some r ∧ r.2.2.InRange := by
  rw [writeByte_eq mem hs, if_neg hmax]
  split
  · next hleft => exact ⟨_, rfl, hs.advance_one hleft⟩
  · split <;> exact ⟨_, rfl, hs.withState false⟩

/-- What a request leaves is in range. -/
theorem InRange.after (hs : s.InRange) (size : UInt32) : (s.after size).InRange := by
  have hlo := hs.offset_nonneg
  have hle := hs.offset_le
  have hfits : s.pOffset + s.transferred size ≤ s.pSize := by
    unfold transferred
    split
    · omega
    · next hend =>
        obtain ⟨hnonneg, hcount, -⟩ := hs.int32_count (Int.not_lt.1 hend)
        omega
  exact ⟨by show 0 ≤ s.pOffset + _; omega, hfits, hs.size_le⟩

theorem InRange.read (hs : s.InRange) (mem : Memory UInt8) (data : ℕ) (size : UInt32) :
    ∃ r, s.read mem data size = some r ∧ r.2.2.InRange :=
  ⟨_, read_eq mem hs data size, hs.after size⟩

theorem InRange.write (hs : s.InRange) (mem : Memory UInt8) (data : ℕ) (size : UInt32) :
    ∃ r, s.write mem data size = some r ∧ r.2.2.InRange := by
  rw [write_eq mem hs]
  split
  · exact ⟨_, rfl, hs⟩
  · exact ⟨_, rfl, hs.after size⟩

end Members

/-! ## One event -/

namespace MemoryWorld

variable {w : MemoryWorld}

/-- A result of a method is put back. -/
theorem InRange.map_set (hw : w.InRange) (i : ℕ) {ρ : Type} {o : Option ρ} {mem : ρ → Memory UInt8}
    {s : ρ → Members} (ho : ∃ r, o = some r ∧ (s r).InRange) :
    ∃ w', o.map (fun r => w.set i (mem r) (s r)) = some w' ∧ w'.InRange := by
  obtain ⟨r, rfl, hr⟩ := ho
  exact ⟨_, rfl, hw.set i _ hr⟩

theorem InRange.get (hw : w.InRange) {i : ℕ} {s : Members} (h : w.streams[i]? = some s) :
    s.InRange := hw s (List.mem_of_getElem? h)

theorem InRange.write (hw : w.InRange) (j data : ℕ) (size : UInt32) :
    ∃ w', w.write j data size = some w' ∧ w'.InRange := by
  unfold MemoryWorld.write
  split
  · exact ⟨w, rfl, hw⟩
  · next t ht => exact hw.map_set j ((hw.get ht).write w.mem data size)

/-- A byte method on the largest offset is the one event that has no result. -/
theorem step_of_byteAtIntMax (hw : w.InRange) {e : MemoryEvent} (h : w.ByteAtIntMax e) :
    w.step e = none := by
  cases e with
  | construct p pSize throwEofWrite => exact h.elim
  | clone i => exact h.elim
  | call i c =>
      cases c with
      | readByte =>
          obtain ⟨s, hs, hmax⟩ := h
          simp only [step, hs, callOn, ((hw.get hs).byte_none hmax w.mem).1, Option.map_none]
      | writeByte v =>
          obtain ⟨s, hs, hmax⟩ := h
          simp only [step, hs, callOn, ((hw.get hs).byte_none hmax w.mem).2 v, Option.map_none]
      | assign p pSize => exact h.elim
      | read data size => exact h.elim
      | write data size => exact h.elim
      | seek moveTo moveMethod => exact h.elim
      | copyTo output size => exact h.elim

/-- Every other event keeps the offsets in their buffers. -/
theorem InRange.step (hw : w.InRange) {e : MemoryEvent} (h : ¬w.ByteAtIntMax e) :
    ∃ w', w.step e = some w' ∧ w'.InRange := by
  cases e with
  | construct p pSize throwEofWrite =>
      exact ⟨_, rfl, hw.append (Members.inRange_new p pSize throwEofWrite)⟩
  | clone i =>
      cases hs : w.streams[i]? with
      | none => exact ⟨w, by simp only [MemoryWorld.step, hs], hw⟩
      | some s =>
          simp only [MemoryWorld.step, hs]
          refine ⟨_, rfl, hw.append ?_⟩
          rw [(hw.get hs).clone]
          exact (hw.get hs).withState true
  | call i c =>
      cases hs : w.streams[i]? with
      | none => exact ⟨w, by simp only [MemoryWorld.step, hs], hw⟩
      | some s =>
          have hin := hw.get hs
          simp only [MemoryWorld.step, hs]
          cases c with
          | assign p pSize => exact ⟨_, rfl, hw.set i _ (Members.inRange_new p pSize _)⟩
          | readByte => exact hw.map_set i (hin.readByte (fun hmax => h ⟨s, hs, hmax⟩) w.mem)
          | writeByte v => exact hw.map_set i (hin.writeByte (fun hmax => h ⟨s, hs, hmax⟩) w.mem v)
          | read data size => exact hw.map_set i (hin.read w.mem data size)
          | write data size => exact hw.map_set i (hin.write w.mem data size)
          | seek moveTo moveMethod => exact ⟨_, rfl, hw.set i _ (hin.seek moveTo moveMethod)⟩
          | copyTo output size =>
              cases output with
              | none => exact ⟨w, by simp only [callOn, hin.copyTo], hw⟩
              | some j =>
                  simp only [callOn, hin.copyTo]
                  exact hw.write j _ _

/-! ## Every run -/

/-- A step that has a result keeps the offsets in their buffers. -/
theorem inRange_of_step {w' : MemoryWorld} {e : MemoryEvent} (hw : w.InRange)
    (h : w.step e = some w') : w'.InRange := by
  have hbyte : ¬w.ByteAtIntMax e := by
    intro hbyte
    rw [step_of_byteAtIntMax hw hbyte] at h
    exact absurd h (by simp)
  obtain ⟨t, ht, hin⟩ := hw.step hbyte
  rw [ht] at h
  cases h
  exact hin

/-- In every state of the run the offsets are in their buffers, and no step of it touches a buffer
elsewhere. -/
def Safe (w : MemoryWorld) (es : List MemoryEvent) : Prop :=
  EveryState step InRange w es ∧ EveryStep step (fun w e => (w.step e).isSome) w es

/-- A run is safe exactly if it never calls a byte method on a stream whose offset is the largest
`int32`. -/
theorem safe_iff (mem : Memory UInt8) (p pSize : ℕ) (throwEofWrite : Bool)
    (es : List MemoryEvent) : Safe (start mem p pSize throwEofWrite) es ↔
      EveryStep step (fun w e => ¬w.ByteAtIntMax e) (start mem p pSize throwEofWrite) es := by
  have hstart := inRange_start mem p pSize throwEofWrite
  have hkeep : ∀ (w : MemoryWorld) e w', w.InRange → w.step e = some w' → w'.InRange :=
    fun w e w' hw h => inRange_of_step hw h
  constructor
  · rintro ⟨-, hsteps⟩
    refine EveryStep.of_steps (fun w e w' hw _ h => hkeep w e w' hw h) ?_ hstart hsteps
    intro w e hw hsome hbyte
    rw [step_of_byteAtIntMax hw hbyte] at hsome
    exact absurd hsome (by simp)
  · intro hsteps
    refine ⟨EveryState.of_steps (fun w e w' hw _ h => hkeep w e w' hw h) hstart hsteps,
      EveryStep.of_steps (fun w e w' hw _ h => hkeep w e w' hw h) ?_ hstart hsteps⟩
    intro w e hw hbyte
    obtain ⟨w', hstep, -⟩ := hw.step hbyte
    rw [hstep]
    rfl

/-- A buffer of 2 ^ 31 - 1 bytes is read at its end. -/
theorem not_safe : ∃ mem p pSize throwEofWrite es,
    ¬Safe (start mem p pSize throwEofWrite) es := by
  refine ⟨fun _ => 0, 0x1000, 0x7FFFFFFF, false, [.call 0 (.seek 0 .«end»), .call 0 .readByte], ?_⟩
  rintro ⟨-, -, hsteps⟩
  exact absurd (hsteps _ rfl).1 (by decide)

/-- On a stream that throws, in every state of every run, `Write` stores all of the bytes or throws
exactly for the requests whose end shows that there is no room, or does not wrap. -/
theorem writesAllOrThrows_of_run {mem : Memory UInt8} {p pSize : ℕ} {throwEofWrite : Bool}
    {es : List MemoryEvent} {w : MemoryWorld}
    (hrun : run step (start mem p pSize throwEofWrite) es = some w) {s : Members}
    (hs : s ∈ w.streams) (hthrow : s.throwEofWrite = true) (data : ℕ) (size : UInt32) :
    s.WritesAllOrThrows w.mem data size ↔ s.EndsSeen size := by
  have hin : w.InRange := run_invariant (fun w e w' hw h => inRange_of_step hw h) hrun
    (inRange_start mem p pSize throwEofWrite)
  exact (hin s hs).writesAllOrThrows_iff w.mem hthrow data size

/-- A `Write` of 2 ^ 31 + 1 bytes to a buffer of four stores one and returns 1. -/
theorem not_writesAllOrThrows : ∃ (mem : Memory UInt8) (p pSize : ℕ) (es : List MemoryEvent)
    (w : MemoryWorld) (s : Members) (data : ℕ) (size : UInt32),
    run step (start mem p pSize true) es = some w ∧ s ∈ w.streams ∧ s.throwEofWrite = true ∧
      ¬s.WritesAllOrThrows w.mem data size := by
  refine ⟨fun _ => 0, 0x1000, 4, [], start (fun _ => 0) 0x1000 4 true, .new 0x1000 4 true, 0x2000,
    0x80000001, rfl, List.mem_singleton.2 rfl, rfl, ?_⟩
  have hone : (Members.write (fun _ => 0) (.new 0x1000 4 true) 0x2000 0x80000001).map Prod.fst
      = some (.ok 1) := rfl
  rintro (⟨state, hall⟩ | ⟨e, state, hthrown⟩)
  · have hcount := hone.symm.trans (congrArg (Option.map Prod.fst) hall)
    exact absurd (Except.ok.inj (Option.some.inj hcount)) (by decide)
  · exact absurd (hone.symm.trans (congrArg (Option.map Prod.fst) hthrown)) (by simp)

/-- The same, behind the first byte. -/
theorem writesAllOrThrows_of_run_four : ∃ (w : MemoryWorld) (s : Members),
    run step (start (fun _ => 7) 0x1000 4 true) [.call 0 .readByte] = some w ∧ s ∈ w.streams ∧
      s.pOffset = 1 ∧ (s.WritesAllOrThrows w.mem 0x2000 0x80000001 ↔ s.EndsSeen 0x80000001) := by
  have hrun : run step (start (fun _ => 7) 0x1000 4 true) [.call 0 .readByte] = some _ := rfl
  exact ⟨_, _, hrun, List.mem_singleton.2 rfl, rfl,
    writesAllOrThrows_of_run hrun (List.mem_singleton.2 rfl) rfl 0x2000 0x80000001⟩

end MemoryWorld

end ImageProxy.MemoryStream
