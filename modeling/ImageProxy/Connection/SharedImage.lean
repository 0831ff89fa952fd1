import Mathlib.Logic.Function.Basic
import ImageProxy.Cpcl.StreamRuns
import ImageProxy.Http.HttpParse
import ImageProxy.ImageCache

set_option autoImplicit false

/-! # A cached image and its readers

A hit of `ImageCache::Get` hands out the stream that is in the cache, not a clone of it. Every holder,
be it a connection in `SendPage` or a document a render task draws from, so moves the one cursor this
stream has. -/

namespace ImageProxy

open Http

/-- What a holder does with the image: it seeks and reads. -/
inductive ImageCall where
  | seek (moveTo : ℤ) (moveMethod : SeekMethod)
  | read (size : UInt32)

def ImageCall.toCall : ImageCall → StreamCall
  | .seek moveTo moveMethod => .seek moveTo moveMethod
  | .read size => .read size

namespace SharedImage

variable {H K : Type}

/-! ## The source -/

/-- The pointer that `image_cache->Get(k)` gives the holder `h`: each finds the cache as it is at that
time, and has a stream of its own allocated should the entry be missing. -/
def imageOf [DecidableEq K] (cache : H → ImageCache K StreamId) (fresh : H → StreamId) (k : K)
    (h : H) : StreamId :=
  ((cache h).get true (fresh h) k).1

/-- A call of the holder `h` through its pointer. -/
def step (image : H → StreamId) (streams : Streams) (e : H × ImageCall) :
    (H × StreamResult) × Streams :=
  let r := (streams (image e.1)).call e.2.toCall
  ((e.1, r.1), Function.update streams (image e.1) r.2)

/-- Each holder is told what it would be told if the others made no call: its reads give it the same
bytes, and its seeks take it to the same positions. -/
def ReadsAlone [DecidableEq H] (image : H → StreamId) (streams : Streams)
    (events : List (H × ImageCall)) : Prop :=
  ∀ h, Transducer.seenBy some h (Transducer.run (step image) streams events).1
    = Transducer.seenBy some h
        (Transducer.run (step image) streams (Transducer.inputsOf h events)).1

/-! ## The stream under the calls -/

/-- The calls made on one stream. -/
def streamStep (s : DynamicMemoryStream) (c : ImageCall) : StreamResult × DynamicMemoryStream :=
  s.call c.toCall

/-- A position that `Seek` accepts. -/
def InStream (size : ℕ) (target : ℤ) : Prop := 0 ≤ target ∧ target ≤ size

instance (size : ℕ) (target : ℤ) : Decidable (InStream size target) :=
  inferInstanceAs (Decidable (_ ∧ _))

/-- Where a call puts the cursor of a stream of `size` bytes. A `Seek` that is to leave the stream
fails; a `Read` moves over what it takes, which is at most what the `uint32` of the rest says. -/
def moved (size offset : ℕ) : ImageCall → ℕ
  | .seek moveTo moveMethod =>
      match seekTarget offset size moveTo moveMethod with
      | some target => if InStream size target then target.toNat else offset
      | none => offset
  | .read n => offset + min n.toNat ((size - offset) % 2 ^ 32)

/-- Where the calls leave the cursor. -/
def cursorAfter (s : DynamicMemoryStream) (events : List (H × ImageCall)) : ℕ :=
  events.foldl (fun offset e => moved s.pSize offset e.2) s.pOffset

/-- The bytes that `Read(size)` takes with the cursor at `offset`. -/
def bytesAt (s : DynamicMemoryStream) (offset : ℕ) (size : UInt32) : Bytes :=
  (s.content.drop offset).take (min size.toNat ((s.pSize - offset) % 2 ^ 32))

/-- A call cannot tell the two offsets apart: a `Read` finds the same bytes at both; from both a `Seek`
from the cursor leaves the stream, or they are equal. An absolute `Seek` does not look at the cursor. -/
def SameAt (s : DynamicMemoryStream) (offset offset' : ℕ) : ImageCall → Prop
  | .read size => bytesAt s offset size = bytesAt s offset' size
  | .seek moveTo .cur =>
      InStream s.pSize (offset + moveTo) ∨ InStream s.pSize (offset' + moveTo) → offset = offset'
  | .seek _ _ => True

/-- Where an absolute `Seek` goes, if that is in the stream. -/
def place (size : ℕ) : ImageCall → Option ℕ
  | .seek moveTo .set => if InStream size moveTo then some moveTo.toNat else none
  | .seek moveTo .«end» => if InStream size (size + moveTo) then some (size + moveTo).toNat else none
  | _ => none

/-- A call from the cursor on. -/
def FromCursor : ImageCall → Prop
  | .read _ => True
  | .seek _ moveMethod => moveMethod = .cur

/-- Since the holder `h` went to a place in the stream by an absolute `Seek`, only `h` has made calls. -/
def Placed (size : ℕ) (h : H) (pre : List (H × ImageCall)) : Prop :=
  ∃ before c own, pre = before ++ (h, c) :: own ∧ (place size c).isSome = true ∧ ∀ e ∈ own, e.1 = h

theorem content_streamStep (s : DynamicMemoryStream) (c : ImageCall) :
    (streamStep s c).2.content = s.content := by
  cases c with
  | seek moveTo moveMethod => exact s.content_seek moveTo moveMethod
  | read size => exact s.content_read size.toNat

theorem pSize_streamStep (s : DynamicMemoryStream) (c : ImageCall) :
    (streamStep s c).2.pSize = s.pSize := by
  rw [← DynamicMemoryStream.length_content, content_streamStep, DynamicMemoryStream.length_content]

theorem pOffset_streamStep (s : DynamicMemoryStream) (c : ImageCall) :
    (streamStep s c).2.pOffset = moved s.pSize s.pOffset c := by
  cases c with
  | seek moveTo moveMethod =>
      show (s.seek moveTo moveMethod).2.pOffset = _
      rw [moved]
      cases htarget : seekTarget s.pOffset s.pSize moveTo moveMethod with
      | none => rw [DynamicMemoryStream.seek_of_no_target (by rw [htarget]; simp)]
      | some target =>
          by_cases hin : 0 ≤ target ∧ target ≤ s.pSize
          · rw [DynamicMemoryStream.seek_of_target htarget hin.1 hin.2]
            exact (if_pos hin).symm
          · rw [DynamicMemoryStream.seek_of_target_outside htarget hin]
            exact (if_neg hin).symm
  | read n =>
      show (s.read n.toNat).2.pOffset = _
      have hlen : s.content.length = s.pSize := s.length_content
      have hmod := Nat.mod_le (s.pSize - s.pOffset) (2 ^ 32)
      rw [DynamicMemoryStream.pOffset_read, DynamicMemoryStream.read_content,
        Nat.mod_eq_of_lt n.toNat_lt, List.length_take, List.length_drop, hlen, moved]
      omega

theorem content_after (s : DynamicMemoryStream) (events : List (H × ImageCall)) :
    (Transducer.after streamStep s events).content = s.content := by
  induction events generalizing s with
  | nil => rfl
  | cons e events ih => exact (ih (streamStep s e.2).2).trans (content_streamStep s e.2)

theorem pOffset_after (s : DynamicMemoryStream) (events : List (H × ImageCall)) :
    (Transducer.after streamStep s events).pOffset = cursorAfter s events := by
  induction events generalizing s with
  | nil => rfl
  | cons e events ih =>
      have hrest := ih (streamStep s e.2).2
      rw [cursorAfter, pSize_streamStep, pOffset_streamStep] at hrest
      exact hrest

/-- What a call is told with the cursor at `offset`. -/
def resultAt (s : DynamicMemoryStream) (offset : ℕ) : ImageCall → StreamResult
  | .seek moveTo moveMethod =>
      .sought ((seekTarget offset s.pSize moveTo moveMethod).filter (InStream s.pSize ·))
  | .read size => .data (bytesAt s offset size)

theorem result_streamStep (s : DynamicMemoryStream) (c : ImageCall) :
    (streamStep s c).1 = resultAt s s.pOffset c := by
  cases c with
  | read size =>
      show StreamResult.data (s.read size.toNat).1 = _
      rw [DynamicMemoryStream.read_content, Nat.mod_eq_of_lt size.toNat_lt]
      rfl
  | seek moveTo moveMethod =>
      show StreamResult.sought (if (s.seek moveTo moveMethod).1
        then some (s.seek moveTo moveMethod).2.tell else none) = _
      rw [resultAt]
      cases htarget : seekTarget s.pOffset s.pSize moveTo moveMethod with
      | none =>
          rw [DynamicMemoryStream.seek_of_no_target (by rw [htarget]; simp)]
          rfl
      | some target =>
          by_cases hin : 0 ≤ target ∧ target ≤ s.pSize
          · rw [DynamicMemoryStream.seek_of_target htarget hin.1 hin.2]
            simp [DynamicMemoryStream.tell, InStream, hin, Option.filter]
          · rw [DynamicMemoryStream.seek_of_target_outside htarget hin]
            simp [InStream, hin, Option.filter]

/-- The calls leave the bytes alone, so what a call is told depends on the cursor only. -/
theorem result_after (s : DynamicMemoryStream) (events : List (H × ImageCall)) (c : ImageCall) :
    (streamStep (Transducer.after streamStep s events) c).1 = resultAt s (cursorAfter s events) c := by
  have hcontent := content_after s events
  have hsize : (Transducer.after streamStep s events).pSize = s.pSize := by
    rw [← DynamicMemoryStream.length_content, hcontent, DynamicMemoryStream.length_content]
  rw [result_streamStep, pOffset_after]
  cases c with
  | seek moveTo moveMethod => simp only [resultAt, hsize]
  | read size => simp only [resultAt, bytesAt, hcontent, hsize]

theorem resultAt_eq_iff (s : DynamicMemoryStream) (offset offset' : ℕ) (c : ImageCall) :
    resultAt s offset c = resultAt s offset' c ↔ SameAt s offset offset' c := by
  cases c with
  | read size => simp only [resultAt, SameAt, StreamResult.data.injEq]
  | seek moveTo moveMethod =>
      cases moveMethod with
      | cur =>
          simp only [resultAt, SameAt, StreamResult.sought.injEq, seekTarget, Option.filter,
            decide_eq_true_eq]
          split_ifs with h h' h'
          · rw [Option.some.injEq]
            exact ⟨fun heq _ => by omega, fun heq => by rw [heq (Or.inl h)]⟩
          · refine iff_of_false (by simp) fun heq => h' ?_
            rw [← heq (Or.inl h)]
            exact h
          · refine iff_of_false (by simp) fun heq => h ?_
            rw [heq (Or.inr h')]
            exact h'
          · simp [h, h']
      | _ => exact iff_of_true rfl trivial

/-! ## Where the holders are -/

theorem moved_of_place {size n : ℕ} {c : ImageCall} (h : place size c = some n) (offset : ℕ) :
    moved size offset c = n := by
  cases c with
  | read size' => exact absurd h (by simp [place])
  | seek moveTo moveMethod =>
      cases moveMethod with
      | set | «end» =>
          rw [place, Option.ite_none_right_eq_some, Option.some.injEq] at h
          simp only [moved, seekTarget]
          rw [if_pos h.1, h.2]
      | cur | other => exact absurd h (by simp [place])

/-- A holder that has the stream to itself since it went to a place in it is where it would be alone. -/
theorem cursorAfter_of_placed [DecidableEq H] {s : DynamicMemoryStream} {h : H}
    {pre : List (H × ImageCall)} (hplaced : Placed s.pSize h pre) :
    cursorAfter s pre = cursorAfter s (Transducer.inputsOf h pre) := by
  obtain ⟨before, c, own, rfl, hplace, hown⟩ := hplaced
  obtain ⟨n, hn⟩ := Option.isSome_iff_exists.1 hplace
  have hinputs : Transducer.inputsOf h (before ++ (h, c) :: own)
      = Transducer.inputsOf h before ++ (h, c) :: own := by
    have hall : own.filter (fun e => e.1 = h) = own :=
      List.filter_eq_self.2 fun e he => decide_eq_true (hown e he)
    rw [Transducer.inputsOf, List.filter_append, List.filter_cons_of_pos (by simp), hall]
    rfl
  -- both come to `n`, and go on with the same calls
  rw [hinputs, cursorAfter, cursorAfter, List.foldl_append, List.foldl_append, List.foldl_cons,
    List.foldl_cons, moved_of_place hn, moved_of_place hn]

theorem sameAt_of_not_fromCursor (s : DynamicMemoryStream) (offset offset' : ℕ) {c : ImageCall}
    (h : ¬FromCursor c) : SameAt s offset offset' c := by
  cases c with
  | read size => exact absurd trivial h
  | seek moveTo moveMethod =>
      cases moveMethod with
      | cur => exact absurd rfl h
      | _ => trivial

theorem SameAt.refl (s : DynamicMemoryStream) (offset : ℕ) (c : ImageCall) :
    SameAt s offset offset c := (resultAt_eq_iff s offset offset c).1 rfl

/-- Holders of one pointer share its stream. -/
theorem run_step {image : H → StreamId} {id : StreamId} (hid : ∀ h, image h = id)
    (streams : Streams) (events : List (H × ImageCall)) :
    (Transducer.run (step image) streams events).1
      = (Transducer.run (Transducer.stepFor streamStep) (streams id) events).1 := by
  induction events generalizing streams with
  | nil => rfl
  | cons e events ih =>
      have hrest := ih (step image streams e).2
      have hstream : (step image streams e).2 id = (streamStep (streams id) e.2).2 := by
        simp only [step, hid, Function.update_self]
        rfl
      have hresult : (step image streams e).1
          = (Transducer.stepFor streamStep (streams id) e).1 := by
        simp only [step, hid]
        rfl
      rw [hstream] at hrest
      rw [Transducer.run_cons, Transducer.run_cons, hresult, hrest]
      rfl

/-! ## When the holders do not disturb each other -/

/-- **Holders of a cached image read as if alone exactly if no call can tell the cursor from its own.**
The cursor is where the calls of all holders leave it; its own is where the calls of the one holder alone
would have left it. So they do if each holder, before it reads or seeks from the cursor, goes to a place
by an absolute `Seek`, and the others make no call in between. -/
theorem readsAlone_iff [DecidableEq H] [DecidableEq K] (cache : H → ImageCache K StreamId)
    (fresh : H → StreamId) (k : K) (id : StreamId)
    (hhit : ∀ h, (cache h).get true (fresh h) k = (id, true)) (streams : Streams)
    (events : List (H × ImageCall)) :
    (ReadsAlone (imageOf cache fresh k) streams events ↔
      ∀ pre h c post, events = pre ++ (h, c) :: post →
        SameAt (streams id) (cursorAfter (streams id) pre)
          (cursorAfter (streams id) (Transducer.inputsOf h pre)) c) ∧
    ((∀ pre h c post, events = pre ++ (h, c) :: post → FromCursor c →
        Placed (streams id).pSize h pre) →
      ReadsAlone (imageOf cache fresh k) streams events) := by
  have himage : ∀ h, imageOf cache fresh k h = id := fun h => congrArg Prod.fst (hhit h)
  have hsame : ReadsAlone (imageOf cache fresh k) streams events
      ↔ Transducer.SeenAlone streamStep some (streams id) events := by
    simp only [ReadsAlone, run_step himage]
    exact Iff.rfl
  have hiff : ReadsAlone (imageOf cache fresh k) streams events ↔
      ∀ pre h c post, events = pre ++ (h, c) :: post →
        SameAt (streams id) (cursorAfter (streams id) pre)
          (cursorAfter (streams id) (Transducer.inputsOf h pre)) c := by
    rw [hsame, Transducer.seenAlone_iff fun _ _ _ => rfl]
    simp only [result_after, Option.some.injEq, resultAt_eq_iff]
  refine ⟨hiff, fun hplaced => hiff.2 fun pre h c post heq => ?_⟩
  by_cases hcursor : FromCursor c
  · rw [cursorAfter_of_placed (hplaced pre h c post heq hcursor)]
    exact SameAt.refl _ _ c
  · exact sameAt_of_not_fromCursor _ _ _ hcursor

/-! ### A connection and a render task -/

/-- The cached image is the stream 0. -/
def exampleCache : ImageCache Bytes StreamId := (ImageCache.new 1).put true (Ascii.lit "/a") (some 0)

def exampleStreams : Streams := fun _ => ((DynamicMemoryStream.new 2 Nat.two_pos).write [1, 2, 3]).2

/-- The connection (`true`) rewinds the image and reads it, then the render task does the same. -/
def inTurn : List (Bool × ImageCall) :=
  [(true, .seek 0 .set), (true, .read 2), (false, .seek 0 .set), (false, .read 2)]

/-- Both rewind the image, then both read. -/
def inTurns : List (Bool × ImageCall) :=
  [(true, .seek 0 .set), (false, .seek 0 .set), (true, .read 2), (false, .read 2)]

theorem readsAlone_inTurn : ReadsAlone (imageOf (fun _ : Bool => exampleCache) (fun _ => 1)
    (Ascii.lit "/a")) exampleStreams inTurn := by
  refine (readsAlone_iff (fun _ : Bool => exampleCache) (fun _ => 1) (Ascii.lit "/a") 0
    (by decide +kernel) exampleStreams inTurn).2 fun pre h c post heq hcursor => ?_
  obtain _ | ⟨e₀, _ | ⟨e₁, _ | ⟨e₂, _ | ⟨e₃, pre⟩⟩⟩⟩ := pre <;>
    simp only [inTurn, List.cons_append, List.nil_append, List.cons.injEq, Prod.mk.injEq,
      List.nil_eq, List.append_eq_nil_iff, reduceCtorEq, and_false] at heq
  · obtain ⟨⟨-, rfl⟩, -⟩ := heq
    exact absurd hcursor (by simp [FromCursor])
  · obtain ⟨rfl, ⟨rfl, -⟩, -⟩ := heq
    exact ⟨[], _, [], rfl, rfl, by simp⟩
  · obtain ⟨-, -, ⟨-, rfl⟩, -⟩ := heq
    exact absurd hcursor (by simp [FromCursor])
  · obtain ⟨rfl, rfl, rfl, ⟨rfl, -⟩, -⟩ := heq
    exact ⟨[_, _], _, [], rfl, rfl, by simp⟩

theorem not_readsAlone_inTurns : ¬ ReadsAlone (imageOf (fun _ : Bool => exampleCache) (fun _ => 1)
    (Ascii.lit "/a")) exampleStreams inTurns := by
  intro h
  exact absurd (h false) (by decide +kernel)

end SharedImage

end ImageProxy
