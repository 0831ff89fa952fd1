import ImageProxy.Jpeg.RenderingDevice
import ImageProxy.Library.StepSystem

set_option autoImplicit false

/-! # Calls on the rendering device in any order

The buffer is sized at the first row of an image, from the size and the pixel format at that time.
`SetViewport` is refused inside an image, `Pixfmt` is not; and `SetViewport` subtracts unsigned
numbers. -/

namespace ImageProxy

/-- What the device relies on: the stride of a pixel format is the row of its components. -/
structure Platform.RowsFit {κ : Type} (env : Platform κ) (rowSize : ℕ → ℕ → ℤ) : Prop where
  formats : env.gray8 ≠ env.bgr24
  gray8 : ∀ w, env.stride env.gray8 w = rowSize 1 w
  bgr24 : ∀ w, env.stride env.bgr24 w = rowSize 3 w

namespace JpegRenderingDevice

variable {κ : Type}

/-- A call of a renderer; or a renderer stores bytes in the buffer. -/
inductive Call where
  | setViewport (x1 y1 x2 y2 : UInt32)
  | pixfmt (v : UInt32)
  | sweepScanline (y : ℕ)
  | store (off : ℕ) (bytes : Bytes)
  | render

variable (env : Platform κ)

/-- A renderer sweeps rows of the image only, and an exception leaves the device as it is at the
`throw`. -/
def step (d : JpegRenderingDevice κ) : Call → Option (JpegRenderingDevice κ)
  | .setViewport x1 y1 x2 y2 => some (d.setViewport x1 y1 x2 y2).2
  | .pixfmt v => some (d.pixfmt env v)
  | .sweepScanline y => if y < d.height then (d.sweepScanline env y).map (·.device) else none
  | .store off bytes => d.store off bytes
  | .render => (d.render env).map (·.device)

/-- A viewport that is accepted has its corners in order; at a pointer that is handed out there is a
stride in the buffer, which is the row of the components that the compressor expects. -/
def SafeCall (rowSize : ℕ → ℕ → ℤ) (d : JpegRenderingDevice κ) : Call → Prop
  | .setViewport x1 y1 x2 y2 => (d.setViewport x1 y1 x2 y2).1 = true → x1 < x2 ∧ y1 < y2
  | .sweepScanline y => y < d.height → ∀ c p, d.sweepScanline env y = some c →
      c.scanline = some p →
      (p : ℤ) + c.device.stride env ≤ c.device.scanlineBuf.size ∧
      c.device.stride env = rowSize c.device.cinfo.inputComponents c.device.cinfo.imageWidth
  | _ => True

/-- The corners of a viewport are in order, unless it is refused anyway; the pixel format changes between
two images only, and to one of the two. -/
def InOrder (d : JpegRenderingDevice κ) : Call → Prop
  | .setViewport x1 y1 x2 y2 =>
      d.initialized = false → x1 ≠ x2 → y1 ≠ y2 → x1 < x2 ∧ y1 < y2
  | .pixfmt v => d.pixelFormat ≠ v → supportedPixelFormats env &&& v ≠ 0 →
      d.initialized = false ∧ (v = env.gray8 ∨ v = env.bgr24)
  | _ => True

/-! ## What the calls keep -/

/-- The components are those of the pixel format, also in `cinfo` once the image is begun; and the
buffer of a flipped image holds all of it. -/
structure Consistent (d : JpegRenderingDevice κ) : Prop where
  format : (d.pixelFormat = env.gray8 ∧ d.inputComponents = 1) ∨
    (d.pixelFormat = env.bgr24 ∧ d.inputComponents = 3)
  begun : d.initialized = true →
    d.cinfo.imageWidth = d.width ∧ d.cinfo.inputComponents = d.inputComponents
  flipped : d.flip = true →
    d.initialized = true ∧ d.scanlineBuf.size = d.height * (d.stride env).toNat

variable {env}

theorem consistent_new (k : κ) : Consistent env (new env k) :=
  ⟨.inr ⟨rfl, rfl⟩, fun h => absurd h Bool.false_ne_true, fun h => absurd h Bool.false_ne_true⟩

/-- An image that is not begun is not flipped. -/
theorem Consistent.not_flip {d : JpegRenderingDevice κ} (h : Consistent env d)
    (hd : d.initialized = false) : d.flip = false := by
  cases hflip : d.flip with
  | false => rfl
  | true => exact absurd (h.flipped hflip).1 (by simp [hd])

theorem Consistent.setViewport {d : JpegRenderingDevice κ} (h : Consistent env d)
    (x1 y1 x2 y2 : UInt32) : Consistent env (d.setViewport x1 y1 x2 y2).2 := by
  unfold JpegRenderingDevice.setViewport
  split
  · exact h
  · next hd =>
      have hd : d.initialized = false := by simpa using hd
      split
      · exact h
      · exact ⟨h.format, fun hinit => absurd hinit (by simp [hd]),
          fun hflip => absurd hflip (by simp [h.not_flip hd])⟩

theorem Consistent.pixfmt (hne : env.gray8 ≠ env.bgr24) {d : JpegRenderingDevice κ}
    (h : Consistent env d) {v : UInt32} (hv : InOrder env d (.pixfmt v)) :
    Consistent env (d.pixfmt env v) := by
  unfold JpegRenderingDevice.pixfmt
  split
  · next hother =>
      split
      · next hsupported =>
          obtain ⟨hd, hformat⟩ := hv hother hsupported
          refine ⟨?_, fun hinit => absurd hinit (by simp [hd]),
            fun hflip => absurd hflip (by simp [h.not_flip hd])⟩
          rcases hformat with rfl | rfl
          · exact .inl ⟨rfl, if_neg hne.symm⟩
          · exact .inr ⟨rfl, if_pos rfl⟩
      · exact h
  · exact h

theorem Consistent.init {d d' : JpegRenderingDevice κ} {b : Bool} (h : Consistent env d)
    (hinit : d.init env = some (b, d')) :
    Consistent env d' ∧ (b = true → d'.initialized = true) ∧ d'.height = d.height := by
  unfold JpegRenderingDevice.init at hinit
  split at hinit
  · next hd =>
      cases hinit
      exact ⟨h, fun _ => hd, rfl⟩
  · next hd =>
      have hd : d.initialized = false := by simpa using hd
      split at hinit
      · cases hinit
        exact ⟨h, fun hb => absurd hb Bool.false_ne_true, rfl⟩
      · obtain ⟨k, -, hk⟩ := Option.map_eq_some_iff.1 hinit
        cases hk
        exact ⟨⟨h.format, fun _ => ⟨rfl, rfl⟩, fun hflip =>
          absurd hflip (by simp [h.not_flip hd])⟩, fun _ => rfl, rfl⟩

/-- From the pointer on there is a stride in the buffer, and the image is begun. -/
def Fits (env : Platform κ) (c : Called κ) : Prop :=
  ∀ p, c.scanline = some p →
    c.device.initialized = true ∧ (p : ℤ) + c.device.stride env ≤ c.device.scanlineBuf.size

theorem Consistent.sweepNext {d : JpegRenderingDevice κ} (h : Consistent env d)
    (hd : d.initialized = true) (hflip : d.flip = false) {y : ℕ} {c : Called κ}
    (hc : d.sweepNext env (d.stride env).toNat y = some c) : Consistent env c.device ∧ Fits env c := by
  obtain ⟨buf, hfit, hsize⟩ : ∃ buf, d.fitRow env (d.stride env).toNat
      = { d with scanlineBuf := buf } ∧ buf.size = (d.stride env).toNat := fitRow_eq _ _
  have hroom : ((0 : ℕ) : ℤ) + d.stride env ≤ buf.size := by
    rw [hsize]
    omega
  -- a row that is passed leaves `cinfo` and the buffer as they are
  have hkeep : ∀ (w : Bool) (k : κ) (rows : List Bytes) (threw : Bool),
      let d' : JpegRenderingDevice κ :=
        { d with scanlineBuf := buf, writeScanline := w, compressor := k, passed := rows }
      Consistent env d' ∧ Fits env ⟨d', some 0, threw⟩ := by
    intro w k rows threw
    refine ⟨⟨h.format, h.begun, fun hf => absurd (hflip.symm.trans hf) Bool.false_ne_true⟩, ?_⟩
    intro p hp
    cases hp
    exact ⟨hd, hroom⟩
  simp only [JpegRenderingDevice.sweepNext, hfit] at hc
  obtain ⟨p, hp, rfl⟩ := Option.map_eq_some_iff.1 hc
  cases ScopedBuf.eq_zero_of_data hp
  split
  · split
    · next d' hwrite =>
        cases congrArg Prod.snd hwrite
        exact hkeep _ _ _ _
    · next d' hwrite =>
        cases congrArg Prod.snd hwrite
        exact hkeep _ _ _ _
  · exact hkeep _ _ _ _

theorem Consistent.handOut {d : JpegRenderingDevice κ} (h : Consistent env d)
    (hd : d.initialized = true) {y : ℕ} (hy : y < d.height) {c : Called κ}
    (hc : d.handOut env (d.stride env).toNat y = some c) : Consistent env c.device ∧ Fits env c := by
  unfold JpegRenderingDevice.handOut at hc
  split at hc
  · next hflip =>
      obtain ⟨p, hp, rfl⟩ := Option.map_eq_some_iff.1 hc
      cases ScopedBuf.eq_zero_of_data hp
      refine ⟨h, fun p hp => ?_⟩
      cases hp
      refine ⟨hd, ?_⟩
      -- row `y` of the rows of the image
      have hfits : y * (d.stride env).toNat + (d.stride env).toNat
          ≤ d.height * (d.stride env).toNat := Memory.row_fits hy
      show ((0 + y * (d.stride env).toNat : ℕ) : ℤ) + d.stride env ≤ d.scanlineBuf.size
      rw [(h.flipped hflip).2]
      omega
  · next hflip => exact h.sweepNext hd (by simpa using hflip) hc

theorem Consistent.sweepInitialized {d : JpegRenderingDevice κ} (h : Consistent env d)
    (hd : d.initialized = true) {checkFlip : Bool} {y : ℕ} (hy : y < d.height) {c : Called κ}
    (hc : d.sweepInitialized env checkFlip y = some c) : Consistent env c.device ∧ Fits env c := by
  unfold JpegRenderingDevice.sweepInitialized at hc
  split at hc
  · unfold decideFlip at hc
    split at hc
    · -- the buffer is sized for the image
      have h' : Consistent env { d with
          flip := true
          scanlineBuf := d.scanlineBuf.alloc env.fresh (d.height * (d.stride env).toNat) } :=
        ⟨h.format, h.begun, fun _ => ⟨hd, ScopedBuf.size_alloc _ _ _⟩⟩
      exact h'.handOut hd hy hc
    · exact h.handOut hd hy hc
  · exact absurd hc (by simp)

theorem Consistent.sweepScanline {d : JpegRenderingDevice κ} (h : Consistent env d) {y : ℕ}
    (hy : y < d.height) {c : Called κ} (hc : d.sweepScanline env y = some c) :
    Consistent env c.device ∧ Fits env c := by
  unfold JpegRenderingDevice.sweepScanline at hc
  split at hc
  · exact absurd hc (by simp)
  · next d' hinit =>
      -- no image can be begun: no pointer is handed out
      cases hc
      exact ⟨(h.init hinit).1, fun p hp => absurd hp (by simp)⟩
  · next d' hinit =>
      obtain ⟨h', hd', hheight⟩ := h.init hinit
      exact h'.sweepInitialized (hd' rfl) (hheight ▸ hy) hc

/-! ## `Render` -/

/-- Rows that are passed change what libjpeg knows, and nothing else. -/
theorem writeRows_eq (env : Platform κ) (stride n off : ℕ) (d : JpegRenderingDevice κ) :
    ∃ k rows, (d.writeRows env stride n off).2 = { d with compressor := k, passed := rows } := by
  induction n generalizing off d with
  | zero => exact ⟨d.compressor, d.passed, rfl⟩
  | succ n ih =>
      unfold writeRows
      split
      · next d' hwrite =>
          cases congrArg Prod.snd hwrite
          obtain ⟨k, rows, hrest⟩ := ih (off + stride) (d.writeRow env off stride).2
          exact ⟨k, rows, hrest⟩
      · next d' hwrite =>
          cases congrArg Prod.snd hwrite
          exact ⟨_, _, rfl⟩

theorem Consistent.finish {d : JpegRenderingDevice κ} (h : Consistent env d) :
    Consistent env (d.finish env).device := by
  simp only [JpegRenderingDevice.finish]
  split
  · exact ⟨h.format, fun hd => absurd hd Bool.false_ne_true, fun hf => absurd hf Bool.false_ne_true⟩
  · exact ⟨h.format, h.begun, h.flipped⟩

theorem Consistent.renderInitialized {d : JpegRenderingDevice κ} (h : Consistent env d) {c : Called κ}
    (hc : d.renderInitialized env = some c) : Consistent env c.device := by
  have hkeep : ∀ (k : κ) (rows : List Bytes),
      Consistent env { d with compressor := k, passed := rows } := fun k rows =>
    ⟨h.format, h.begun, h.flipped⟩
  obtain ⟨scanline, -, hc⟩ := Option.bind_eq_some_iff.1 hc
  split at hc
  · split at hc
    · obtain ⟨k, rows, hd'⟩ :=
        writeRows_eq env (d.stride env).toNat d.height scanline d
      split at hc
      · next d' hwrite =>
          cases hc
          rw [hwrite] at hd'
          cases hd'
          exact (hkeep k rows).finish
      · next d' hwrite =>
          cases hc
          rw [hwrite] at hd'
          cases hd'
          exact hkeep k rows
    · exact absurd hc (by simp)
  · split at hc
    · split at hc
      · next d' hwrite =>
          cases hc
          cases congrArg Prod.snd hwrite
          exact (hkeep _ _).finish
      · next d' hwrite =>
          cases hc
          cases congrArg Prod.snd hwrite
          exact hkeep _ _
    · cases hc
      exact h.finish

theorem Consistent.render {d : JpegRenderingDevice κ} (h : Consistent env d) {c : Called κ}
    (hc : d.render env = some c) : Consistent env c.device := by
  unfold JpegRenderingDevice.render at hc
  split at hc
  · exact absurd hc (by simp)
  · next d' hinit =>
      cases hc
      exact (h.init hinit).1
  · next d' hinit => exact (h.init hinit).1.renderInitialized hc

/-! ## Runs -/

theorem Consistent.step (hne : env.gray8 ≠ env.bgr24) {d d' : JpegRenderingDevice κ} {call : Call}
    (h : Consistent env d) (hcall : InOrder env d call) (hstep : d.step env call = some d') :
    Consistent env d' := by
  cases call with
  | setViewport x1 y1 x2 y2 =>
      cases hstep
      exact h.setViewport x1 y1 x2 y2
  | pixfmt v =>
      cases hstep
      exact h.pixfmt hne hcall
  | sweepScanline y =>
      simp only [JpegRenderingDevice.step] at hstep
      split at hstep
      · next hy =>
          obtain ⟨c, hc, rfl⟩ := Option.map_eq_some_iff.1 hstep
          exact (h.sweepScanline hy hc).1
      · exact absurd hstep (by simp)
  | store off bytes =>
      obtain ⟨buf, hbuf, rfl⟩ := Option.map_eq_some_iff.1 hstep
      refine ⟨h.format, h.begun, fun hf => ⟨(h.flipped hf).1, ?_⟩⟩
      exact (ScopedBuf.size_of_store hbuf).trans (h.flipped hf).2
  | render =>
      obtain ⟨c, hc, rfl⟩ := Option.map_eq_some_iff.1 hstep
      exact h.render hc

/-- The unsigned difference is smaller than one only if there is none. -/
theorem sub_lt_one_iff {a b : UInt32} : b - a < 1 ↔ a = b := by
  have ha := a.toNat_lt
  have hb := b.toNat_lt
  rw [UInt32.lt_iff_toNat_lt, UInt32.toNat_sub, UInt32.toNat_one, ← UInt32.toNat_inj]
  omega

theorem setViewport_fst_iff {d : JpegRenderingDevice κ} {x1 y1 x2 y2 : UInt32} :
    (d.setViewport x1 y1 x2 y2).1 = true ↔ d.initialized = false ∧ x1 ≠ x2 ∧ y1 ≠ y2 := by
  simp only [JpegRenderingDevice.setViewport, sub_lt_one_iff]
  cases d.initialized with
  | true => simp
  | false => by_cases hsize : x1 = x2 ∨ y1 = y2 <;> simp [hsize, ← not_or]

/-- An accepted viewport has its corners in order exactly if they are not reversed. -/
theorem safeCall_setViewport_iff {rowSize : ℕ → ℕ → ℤ} {d : JpegRenderingDevice κ}
    {x1 y1 x2 y2 : UInt32} : SafeCall env rowSize d (.setViewport x1 y1 x2 y2) ↔
      InOrder env d (.setViewport x1 y1 x2 y2) := by
  show ((d.setViewport x1 y1 x2 y2).1 = true → _) ↔ _
  rw [setViewport_fst_iff]
  exact ⟨fun h hd hx hy => h ⟨hd, hx, hy⟩, fun h ⟨hd, hx, hy⟩ => h hd hx hy⟩

/-- The stride is the row of the components that `cinfo` has. -/
theorem Consistent.stride_eq {rowSize : ℕ → ℕ → ℤ} (henv : env.RowsFit rowSize)
    {d : JpegRenderingDevice κ} (h : Consistent env d) (hd : d.initialized = true) :
    d.stride env = rowSize d.cinfo.inputComponents d.cinfo.imageWidth := by
  obtain ⟨hwidth, hcomponents⟩ := h.begun hd
  rw [hwidth, hcomponents, stride]
  rcases h.format with ⟨hformat, hn⟩ | ⟨hformat, hn⟩
  · rw [hformat, hn]
    exact henv.gray8 _
  · rw [hformat, hn]
    exact henv.bgr24 _

theorem Consistent.safeCall {rowSize : ℕ → ℕ → ℤ} (henv : env.RowsFit rowSize)
    {d : JpegRenderingDevice κ} (h : Consistent env d) {call : Call} (hcall : InOrder env d call) :
    SafeCall env rowSize d call := by
  cases call with
  | setViewport x1 y1 x2 y2 => exact safeCall_setViewport_iff.2 hcall
  | sweepScanline y =>
      intro hy c p hc hp
      obtain ⟨h', hfits⟩ := h.sweepScanline hy hc
      obtain ⟨hd', hroom⟩ := hfits p hp
      exact ⟨hroom, h'.stride_eq henv hd'⟩
  | pixfmt v => trivial
  | store off bytes => trivial
  | render => trivial

/-- **Where the calls are safe.** On a new device, in any order of calls in which corners are not
reversed and the pixel format changes between two images only. -/
theorem everyStep_safeCall {rowSize : ℕ → ℕ → ℤ} (henv : env.RowsFit rowSize) (k : κ)
    {calls : List Call} (hcalls : StepSystem.EveryStep (step env) (InOrder env) (new env k) calls) :
    StepSystem.EveryStep (step env) (SafeCall env rowSize) (new env k) calls :=
  StepSystem.EveryStep.of_steps (fun _ _ _ h hcall hstep => h.step henv.formats hcall hstep)
    (fun _ _ h hcall => h.safeCall henv hcall) (consistent_new k) hcalls

end JpegRenderingDevice

namespace RowCounter

open JpegRenderingDevice

theorem rowsFit : platform.RowsFit fun components width => components * width where
  formats := by decide
  gray8 w := by
    show (w : ℤ) = (1 : ℕ) * w
    omega
  bgr24 w := rfl

/-- A gray image from the bottom to the top, and a coloured one behind it. -/
theorem everyStep_safeCall_two_images :
    StepSystem.EveryStep (step platform)
      (SafeCall platform fun components width => components * width) (new platform none)
      [.setViewport 0 0 2 2, .pixfmt 1, .sweepScanline 1, .store 2 [7, 8], .sweepScanline 0,
        .store 0 [5, 6], .render, .pixfmt 2, .sweepScanline 0] :=
  everyStep_safeCall rowsFit none <|
    .cons (fun _ _ _ => by decide) rfl <|
    .cons (fun _ _ => ⟨rfl, .inl rfl⟩) rfl <|
    .cons trivial rfl <| .cons trivial rfl <| .cons trivial rfl <| .cons trivial rfl <|
    .cons trivial rfl <|
    .cons (fun _ _ => ⟨rfl, .inr rfl⟩) rfl <|
    .cons trivial rfl trivial

/-- Reversed corners are accepted; and the pixel format changes inside an image, so that the second
pointer is behind the end of the buffer. -/
theorem not_everyStep_safeCall :
    ¬StepSystem.EveryStep (step platform)
      (SafeCall platform fun components width => components * width) (new platform none)
      [.setViewport 5 0 3 1] ∧
    ¬StepSystem.EveryStep (step platform)
      (SafeCall platform fun components width => components * width) (new platform none)
      [.setViewport 0 0 2 2, .pixfmt 1, .sweepScanline 1, .pixfmt 2, .sweepScanline 1] := by
  constructor
  · intro h
    have hx := (h.1 rfl).1
    exact absurd hx (by decide)
  · intro h
    have h := (h.2 _ rfl).2 _ rfl
    have h := (h.2 _ rfl).2 _ rfl
    have hroom := (h.1 (by decide) _ _ rfl rfl).1
    exact absurd hroom (by decide)

end RowCounter

end ImageProxy
