import ImageProxy.Jpeg.RenderingDevice
import Mathlib.Data.List.Perm.Basic

set_option autoImplicit false

/-! # The rows that the compressor gets

Whether the rows are swept from the top or in another order that does not begin with row 0, the
compressor gets rows 0, 1, …, each with the bytes that the renderer has stored for it. Between two rows
the device is in one of two kinds of states: it has passed all rows but the last one, which is in the
buffer (`Streaming`), or it has passed none and the rows are at their places in the buffer
(`Collecting`). -/

namespace ImageProxy

open JpegRenderingDevice

variable {κ : Type}

/-! ## Images, renderers and libjpeg -/

/-- An image: what a renderer asks the device for, the order in which it sweeps the rows, and what it
stores for each of them. -/
structure Image where
  format : UInt32
  x1 : UInt32
  y1 : UInt32
  x2 : UInt32
  y2 : UInt32
  order : List ℕ
  row : ℕ → Bytes

namespace Image

def width (img : Image) : ℕ := (img.x2 - img.x1).toNat

def height (img : Image) : ℕ := (img.y2 - img.y1).toNat

/-- The rows from the top to the bottom. -/
def rows (img : Image) : List Bytes := (List.range img.height).map img.row

/-- The bytes of a row. -/
def stride (env : Platform κ) (img : Image) : ℕ := (env.stride img.format img.width).toNat

/-- An image of one of the `Sizes`, each row of which is swept once: in increasing order, or in any order
whose first row is not row 0. -/
structure Swept (env : Platform κ) (Sizes : ℕ → ℕ → Prop) (img : Image) : Prop where
  format : supportedPixelFormats env &&& img.format ≠ 0
  width : 0 < img.width
  height : 0 < img.height
  size : Sizes img.width img.height
  order : img.order = List.range img.height ∨
    (img.order.Perm (List.range img.height) ∧ img.order.head? ≠ some 0)
  row : ∀ y < img.height, (img.row y).length = img.stride env

/-- The same picture, perhaps in another order of the rows. -/
structure SamePicture (img img' : Image) : Prop where
  format : img.format = img'.format
  width : img.width = img'.width
  height : img.height = img'.height
  row : img.row = img'.row

end Image

namespace JpegRenderingDevice

variable (env : Platform κ)

/-- A renderer asks for a row and stores it. -/
def renderRow (img : Image) (d : JpegRenderingDevice κ) (y : ℕ) : Option (JpegRenderingDevice κ) :=
  match d.sweepScanline env y with
  | some ⟨d, some p, false⟩ => d.store p (img.row y)
  | _ => none

/-- A renderer renders an image. -/
def renderImage (d : JpegRenderingDevice κ) (img : Image) : Option (JpegRenderingDevice κ) :=
  match (d.pixfmt env img.format).setViewport img.x1 img.y1 img.x2 img.y2 with
  | (true, d) =>
      (img.order.foldlM (renderRow env img) d).bind fun d =>
        match d.render env with
        | some ⟨d, _, false⟩ => some d
        | _ => none
  | (false, _) => none

/-- No image is begun, as before the first one and after `Render`. -/
structure Idle (Ready : κ → Prop) (d : JpegRenderingDevice κ) : Prop where
  initialized : d.initialized = false
  writeScanline : d.writeScanline = false
  flip : d.flip = false
  ready : Ready d.compressor

/-- The device gets the images and passes their rows to the compressor, which ends up ready for another
image. The rows do not depend on the order in which the images are swept. -/
structure PassesRows (Ready : κ → Prop) (Sizes : ℕ → ℕ → Prop) (d : JpegRenderingDevice κ)
    (imgs : List Image) : Prop where
  delivered : ∃ d', imgs.foldlM (renderImage env) d = some d' ∧ d'.Idle Ready ∧
    d'.passed = d.passed ++ imgs.flatMap Image.rows
  sameInput : ∀ imgs', List.Forall₂ Image.SamePicture imgs imgs' →
    (∀ img ∈ imgs', img.Swept env Sizes) →
    (imgs'.foldlM (renderImage env) d).map JpegRenderingDevice.passed
      = (imgs.foldlM (renderImage env) d).map JpegRenderingDevice.passed

end JpegRenderingDevice

/-- What the device relies on. `Ready` and `Busy h` are the states of libjpeg before an image, and
inside an image of `h` rows; `Sizes` are the widths and heights that it takes. -/
structure Platform.Conforms (env : Platform κ) (Ready : κ → Prop) (Busy : ℕ → κ → Prop)
    (Sizes : ℕ → ℕ → Prop) : Prop where
  stride_pos : ∀ v w, 0 < w → 0 < env.stride v w
  start : ∀ info k, Sizes info.imageWidth info.imageHeight → Ready k →
    ∃ k', env.startCompress info k = some k' ∧ Busy info.imageHeight k' ∧ env.nextScanline k' = 0
  write : ∀ h row k, Busy h k → env.nextScanline k < h →
    ∃ k', env.writeScanlines row k = (some 1, k') ∧ Busy h k' ∧
      env.nextScanline k' = env.nextScanline k + 1
  finish : ∀ h k, Busy h k → env.nextScanline k = h →
    ∃ k', env.finishCompress k = (true, k') ∧ Ready k'

namespace JpegRenderingDevice

variable {env : Platform κ} {Ready : κ → Prop} {Busy : ℕ → κ → Prop} {Sizes : ℕ → ℕ → Prop}

/-! ## Single calls -/

theorem pixfmt_of_supported {v : UInt32} (h : supportedPixelFormats env &&& v ≠ 0)
    (d : JpegRenderingDevice κ) :
    ∃ n, d.pixfmt env v = { d with inputComponents := n, pixelFormat := v } := by
  by_cases heq : d.pixelFormat = v
  · exact ⟨d.inputComponents, by rw [pixfmt, if_neg (not_not.2 heq), ← heq]⟩
  · exact ⟨if env.bgr24 = v then 3 else 1, by rw [pixfmt, if_pos heq, if_pos h]⟩

theorem setViewport_of_pos {d : JpegRenderingDevice κ} (hd : d.initialized = false)
    {x1 y1 x2 y2 : UInt32} (hx : 0 < (x2 - x1).toNat) (hy : 0 < (y2 - y1).toNat) :
    d.setViewport x1 y1 x2 y2
      = (true, { d with width := (x2 - x1).toNat, height := (y2 - y1).toNat }) := by
  have hlt : ¬(x2 - x1 < 1 ∨ y2 - y1 < 1) := by
    simp only [UInt32.lt_iff_toNat_lt, UInt32.toNat_one]
    omega
  rw [setViewport, if_neg (by simp [hd]), if_neg hlt]

theorem init_of_initialized {d : JpegRenderingDevice κ} (h : d.initialized = true) :
    d.init env = some (true, d) :=
  if_pos h

theorem init_of_ready (henv : env.Conforms Ready Busy Sizes) {d : JpegRenderingDevice κ}
    (h : d.initialized = false) (hw : 0 < d.width) (hh : 0 < d.height)
    (hsize : Sizes d.width d.height) (hk : Ready d.compressor) :
    ∃ k, d.init env
        = some (true, { d with cinfo := d.info, compressor := k, initialized := true }) ∧
      Busy d.height k ∧ env.nextScanline k = 0 := by
  obtain ⟨k, hstart, hbusy, hnext⟩ := henv.start d.info _ hsize hk
  refine ⟨k, ?_, hbusy, hnext⟩
  rw [init, if_neg (by simp [h]), if_neg (by omega), hstart]
  rfl

/-- libjpeg takes a row. -/
theorem writeRow_of_busy (henv : env.Conforms Ready Busy Sizes) {d : JpegRenderingDevice κ} {h : ℕ}
    (hbusy : Busy h d.compressor) (hlt : env.nextScanline d.compressor < h) (off n : ℕ) :
    ∃ k, d.writeRow env off n
        = (some 1, { d with
            compressor := k
            passed := d.passed ++ [d.scanlineBuf.p.read off n] }) ∧
      Busy h k ∧ env.nextScanline k = env.nextScanline d.compressor + 1 := by
  obtain ⟨k, hwrite, hbusy', hnext⟩ := henv.write h (d.scanlineBuf.p.read off n) _ hbusy hlt
  exact ⟨k, by simp only [writeRow, hwrite], hbusy', hnext⟩

/-! ## Inside an image -/

/-- The image is begun, and libjpeg is inside it. -/
structure Drawing (Busy : ℕ → κ → Prop) (img : Image) (d : JpegRenderingDevice κ) : Prop where
  format : d.pixelFormat = img.format
  width : d.width = img.width
  height : d.height = img.height
  initialized : d.initialized = true
  imageHeight : d.cinfo.imageHeight = img.height
  busy : Busy img.height d.compressor

/-- `base` and the first `k` rows have been passed. -/
structure Passed (env : Platform κ) (img : Image) (base : List Bytes) (k : ℕ)
    (d : JpegRenderingDevice κ) : Prop where
  rows : d.passed = base ++ (List.range k).map img.row
  next : env.nextScanline d.compressor = k

/-- The rows up to row `k` have been swept; this one is in the buffer, and the others are passed. -/
structure Streaming (env : Platform κ) (Busy : ℕ → κ → Prop) (img : Image) (base : List Bytes)
    (k : ℕ) (d : JpegRenderingDevice κ) : Prop where
  drawing : Drawing Busy img d
  passed : Passed env img base k d
  flip : d.flip = false
  writeScanline : d.writeScanline = true
  size : d.scanlineBuf.size = img.stride env
  row : d.scanlineBuf.p.read 0 (img.stride env) = img.row k

/-- The rows `done` have been swept and are in the buffer. -/
structure Collecting (env : Platform κ) (Busy : ℕ → κ → Prop) (img : Image) (base : List Bytes)
    (done : List ℕ) (d : JpegRenderingDevice κ) : Prop where
  drawing : Drawing Busy img d
  passed : Passed env img base 0 d
  flip : d.flip = true
  size : d.scanlineBuf.size = img.height * img.stride env
  row : ∀ y ∈ done, d.scanlineBuf.p.read (y * img.stride env) (img.stride env) = img.row y

variable {img : Image} {base : List Bytes}

theorem Drawing.stride_eq {d : JpegRenderingDevice κ} (h : Drawing Busy img d) :
    d.stride env = env.stride img.format img.width := by
  rw [stride, h.format, h.width]

theorem Drawing.toNat_stride {d : JpegRenderingDevice κ} (h : Drawing Busy img d) :
    (d.stride env).toNat = img.stride env := by
  rw [h.stride_eq, Image.stride]

theorem Drawing.stride_pos (henv : env.Conforms Ready Busy Sizes) (hsw : img.Swept env Sizes)
    {d : JpegRenderingDevice κ} (h : Drawing Busy img d) : 0 < d.stride env := by
  rw [h.stride_eq]
  exact henv.stride_pos _ _ hsw.width

/-- The buffer, the rows and the other flags do not matter. -/
theorem Drawing.update {d : JpegRenderingDevice κ} (h : Drawing Busy img d) {k : κ}
    (hbusy : Busy img.height k) (buf : ScopedBuf) (rows : List Bytes) (w f : Bool) :
    Drawing Busy img { d with
      writeScanline := w
      flip := f
      scanlineBuf := buf
      compressor := k
      passed := rows } :=
  ⟨h.format, h.width, h.height, h.initialized, h.imageHeight, hbusy⟩

/-- A row that is written goes to the end of what has been passed. -/
theorem Passed.writeRow (henv : env.Conforms Ready Busy Sizes) {d : JpegRenderingDevice κ} {k off n : ℕ}
    (hd : Drawing Busy img d) (hp : Passed env img base k d) (hk : k < img.height)
    (hrow : d.scanlineBuf.p.read off n = img.row k) :
    ∃ c, d.writeRow env off n
        = (some 1, { d with compressor := c, passed := d.passed ++ [img.row k] }) ∧
      Busy img.height c ∧ env.nextScanline c = k + 1 := by
  have hlt : env.nextScanline d.compressor < img.height := by rw [hp.next]; exact hk
  obtain ⟨c, hwrite, hbusy, hnext⟩ := writeRow_of_busy henv hd.busy hlt off n
  rw [hrow] at hwrite
  rw [hp.next] at hnext
  exact ⟨c, hwrite, hbusy, hnext⟩

theorem Passed.append_row {d : JpegRenderingDevice κ} {k : ℕ} (hp : Passed env img base k d) :
    d.passed ++ [img.row k] = base ++ (List.range (k + 1)).map img.row := by
  rw [hp.rows, List.range_succ, List.map_append, List.append_assoc]
  rfl

/-! ## The first row -/

/-- The device before the first row: nothing is begun, and the size and the format are set. -/
structure Prepared (Ready : κ → Prop) (img : Image) (d : JpegRenderingDevice κ) : Prop where
  idle : d.Idle Ready
  format : d.pixelFormat = img.format
  width : d.width = img.width
  height : d.height = img.height

theorem stride_pos (henv : env.Conforms Ready Busy Sizes) (hsw : img.Swept env Sizes) : 0 < img.stride env := by
  have hpos := henv.stride_pos img.format img.width hsw.width
  rw [Image.stride]
  omega

/-- `Init` begins the image. -/
theorem Prepared.init (henv : env.Conforms Ready Busy Sizes) (hsw : img.Swept env Sizes)
    {d : JpegRenderingDevice κ} (hd : Prepared Ready img d) :
    ∃ d', d.init env = some (true, d') ∧ Drawing Busy img d' ∧ Passed env img d.passed 0 d' ∧
      d'.flip = false ∧ d'.writeScanline = false := by
  have hw : 0 < d.width := by rw [hd.width]; exact hsw.width
  have hh : 0 < d.height := by rw [hd.height]; exact hsw.height
  have hsize : Sizes d.width d.height := by rw [hd.width, hd.height]; exact hsw.size
  obtain ⟨k, hinit, hbusy, hnext⟩ :=
    init_of_ready henv hd.idle.initialized hw hh hsize hd.idle.ready
  rw [hd.height] at hbusy
  exact ⟨_, hinit, ⟨hd.format, hd.width, hd.height, rfl, hd.height, hbusy⟩,
    ⟨(List.append_nil _).symm, hnext⟩, hd.idle.flip, hd.idle.writeScanline⟩

/-- A row that is stored is in the buffer. -/
theorem store_row (d : JpegRenderingDevice κ) (off : ℕ) {n : ℕ} {bytes : Bytes}
    (hlen : bytes.length = n) (hle : off + n ≤ d.scanlineBuf.size) :
    ∃ buf, d.store off bytes = some { d with scanlineBuf := buf } ∧
      buf.size = d.scanlineBuf.size ∧ buf.p.read off n = bytes ∧
      ∀ off', off' + n ≤ off ∨ off + n ≤ off' → buf.p.read off' n = d.scanlineBuf.p.read off' n := by
  subst hlen
  refine ⟨{ d.scanlineBuf with p := d.scanlineBuf.p.write off bytes }, ?_, rfl,
    Memory.read_write_self _ _ _, fun off' h => Memory.read_write_of_disjoint _ h⟩
  rw [store, ScopedBuf.store_of_le hle]
  rfl

/-- The device does not flip the image: the row goes to the buffer of one row. -/
theorem sweepInitialized_of_not_flip {d : JpegRenderingDevice κ} {checkFlip : Bool} {y : ℕ}
    (hpos : 0 < d.stride env) (hflip : d.flip = false)
    (hcheck : checkFlip = true → env.nextScanline d.compressor = y) :
    d.sweepInitialized env checkFlip y = d.sweepNext env (d.stride env).toNat y := by
  have hdecide : d.decideFlip env checkFlip (d.stride env).toNat y = d :=
    if_neg fun h => h.2 (hcheck h.1)
  rw [sweepInitialized, if_pos hpos, hdecide, handOut, if_neg (by simp [hflip])]

theorem renderRow_of_sweep {d d' : JpegRenderingDevice κ} {p y : ℕ}
    (h : d.sweepScanline env y = some ⟨d', some p, false⟩) :
    renderRow env img d y = d'.store p (img.row y) := by
  simp only [renderRow, h]

/-- Row 0 is swept first. -/
theorem Prepared.streaming (henv : env.Conforms Ready Busy Sizes) (hsw : img.Swept env Sizes)
    {d : JpegRenderingDevice κ} (hd : Prepared Ready img d) :
    ∃ d', renderRow env img d 0 = some d' ∧ Streaming env Busy img d.passed 0 d' := by
  obtain ⟨d₁, hinit, hdraw, hpassed, hflip, hwrite⟩ := hd.init henv hsw
  obtain ⟨buf, hfit, hsize⟩ : ∃ buf, d₁.fitRow env (img.stride env)
      = { d₁ with scanlineBuf := buf } ∧ buf.size = img.stride env := fitRow_eq _ _
  have hdata : buf.data = some 0 := ScopedBuf.data_of_pos (hsize ▸ stride_pos henv hsw)
  have hsweep : d.sweepScanline env 0
      = some ⟨{ d₁ with scanlineBuf := buf, writeScanline := true }, some 0, false⟩ := by
    simp only [sweepScanline, hinit]
    rw [sweepInitialized_of_not_flip (hdraw.stride_pos henv hsw) hflip fun _ => hpassed.next,
      hdraw.toNat_stride]
    simp only [sweepNext, hfit, hdata, Option.map_some]
    rw [if_neg (by simp [hwrite])]
  have hrow := hsw.row 0 hsw.height
  obtain ⟨buf', hstore, hsize', hread, -⟩ := store_row
    { d₁ with scanlineBuf := buf, writeScanline := true } 0 hrow (by simp [hsize])
  refine ⟨_, (renderRow_of_sweep hsweep).trans hstore, ?_⟩
  exact ⟨hdraw.update hdraw.busy _ _ _ _,
    ⟨hpassed.rows, hpassed.next⟩, hflip, rfl, hsize'.trans hsize, hread⟩

/-! ## From the top to the bottom -/

theorem Streaming.data (henv : env.Conforms Ready Busy Sizes) (hsw : img.Swept env Sizes)
    {d : JpegRenderingDevice κ} {k : ℕ} (hd : Streaming env Busy img base k d) :
    d.scanlineBuf.data = some 0 :=
  ScopedBuf.data_of_pos (hd.size ▸ JpegRenderingDevice.stride_pos henv hsw)

/-- The next row is swept: the one in the buffer is passed before it is overwritten. -/
theorem Streaming.next (henv : env.Conforms Ready Busy Sizes) (hsw : img.Swept env Sizes)
    {d : JpegRenderingDevice κ} {k : ℕ} (hd : Streaming env Busy img base k d)
    (hk : k + 1 < img.height) :
    ∃ d', renderRow env img d (k + 1) = some d' ∧ Streaming env Busy img base (k + 1) d' := by
  have hdraw := hd.drawing
  have hfit : d.fitRow env (img.stride env) = d := if_neg (not_not.2 hd.size)
  obtain ⟨c, hwrite, hbusy, hnext⟩ := hd.passed.writeRow henv hdraw (by omega) hd.row
  have hmore : d.writeScanline = true ∧ env.nextScanline d.compressor < d.cinfo.imageHeight ∧
      k + 1 < d.height := by
    rw [hd.passed.next, hdraw.imageHeight, hdraw.height]
    exact ⟨hd.writeScanline, by omega, hk⟩
  have hsweep : d.sweepScanline env (k + 1)
      = some ⟨{ d with
          compressor := c
          passed := d.passed ++ [img.row k]
          writeScanline := true }, some 0, false⟩ := by
    simp only [sweepScanline, init_of_initialized hdraw.initialized]
    rw [sweepInitialized_of_not_flip (hdraw.stride_pos henv hsw) hd.flip
      (by simp [hdraw.initialized]), hdraw.toNat_stride]
    simp only [sweepNext, hfit, hd.data henv hsw, Option.map_some]
    rw [if_pos hmore, hwrite]
  obtain ⟨buf, hstore, hsize, hread, -⟩ := store_row
    { d with
      compressor := c
      passed := d.passed ++ [img.row k]
      writeScanline := true } 0 (hsw.row (k + 1) hk) (by simp [hd.size])
  refine ⟨_, (renderRow_of_sweep hsweep).trans hstore, ?_⟩
  exact ⟨hdraw.update hbusy _ _ _ _,
    ⟨hd.passed.append_row, hnext⟩, hd.flip, rfl, hsize.trans hd.size, hread⟩

/-- `n` more rows. -/
theorem Streaming.run (henv : env.Conforms Ready Busy Sizes) (hsw : img.Swept env Sizes) {n : ℕ}
    {d : JpegRenderingDevice κ} {k : ℕ} (hd : Streaming env Busy img base k d)
    (hk : k + n < img.height) :
    ∃ d', (List.range' (k + 1) n).foldlM (renderRow env img) d = some d' ∧
      Streaming env Busy img base (k + n) d' := by
  induction n generalizing d k with
  | zero => exact ⟨d, rfl, hd⟩
  | succ n ih =>
      obtain ⟨d₁, hstep, hd₁⟩ := hd.next henv hsw (by omega)
      obtain ⟨d₂, hrest, hd₂⟩ := ih hd₁ (by omega)
      refine ⟨d₂, ?_, ?_⟩
      · rw [List.range'_succ, List.foldlM_cons, hstep]
        exact hrest
      · rw [show k + (n + 1) = k + 1 + n by omega]
        exact hd₂

/-- The image is over: the compressor is finished, and it has got all rows. -/
theorem finish_of_passed (henv : env.Conforms Ready Busy Sizes) {d : JpegRenderingDevice κ}
    (hd : Drawing Busy img d) (hp : Passed env img base img.height d) :
    ∃ d', d.finish env = ⟨d', none, false⟩ ∧ d'.Idle Ready ∧ d'.passed = base ++ img.rows := by
  obtain ⟨c, hfinish, hready⟩ := henv.finish _ _ hd.busy hp.next
  refine ⟨{ d with
    compressor := c
    initialized := false
    writeScanline := false
    flip := false }, ?_, ⟨rfl, rfl, rfl, hready⟩, hp.rows⟩
  simp only [finish, hfinish]
  rfl

/-- `Render` passes the last row. -/
theorem Streaming.render (henv : env.Conforms Ready Busy Sizes) (hsw : img.Swept env Sizes)
    {d : JpegRenderingDevice κ} {k : ℕ} (hd : Streaming env Busy img base k d)
    (hk : k + 1 = img.height) :
    ∃ d', d.render env = some ⟨d', none, false⟩ ∧ d'.Idle Ready ∧
      d'.passed = base ++ img.rows := by
  have hdraw := hd.drawing
  obtain ⟨c, hwrite, hbusy, hnext⟩ := hd.passed.writeRow henv hdraw (by omega) hd.row
  have hlt : env.nextScanline d.compressor < d.cinfo.imageHeight := by
    rw [hd.passed.next, hdraw.imageHeight]
    omega
  have hall : Passed env img base img.height
      { d with compressor := c, passed := d.passed ++ [img.row k] } := by
    rw [← hk]
    exact ⟨hd.passed.append_row, hnext⟩
  have hdraw' : Drawing Busy img
      { d with compressor := c, passed := d.passed ++ [img.row k] } := hdraw.update hbusy _ _ _ _
  obtain ⟨d', hfinish, hidle, hpassed⟩ := finish_of_passed henv hdraw' hall
  refine ⟨d', ?_, hidle, hpassed⟩
  simp only [JpegRenderingDevice.render, init_of_initialized hdraw.initialized, renderInitialized,
    hd.data henv hsw, Option.bind_some]
  rw [if_neg (by simp [hd.flip]), if_pos hlt, hd.size, hwrite]
  simp only [hfinish]

/-! ## In another order -/

theorem Collecting.data (henv : env.Conforms Ready Busy Sizes) (hsw : img.Swept env Sizes)
    {d : JpegRenderingDevice κ} {done : List ℕ} (hd : Collecting env Busy img base done d) :
    d.scanlineBuf.data = some 0 := by
  have hpos : 0 < img.height * img.stride env :=
    Nat.mul_pos hsw.height (JpegRenderingDevice.stride_pos henv hsw)
  exact ScopedBuf.data_of_pos (hd.size ▸ hpos)

/-- A row of a flipped image is stored at its place; the others are where they were. -/
theorem Collecting.store {d : JpegRenderingDevice κ} {done : List ℕ} (hsw : img.Swept env Sizes)
    (hd : Collecting env Busy img base done d) {y : ℕ} (hy : y < img.height) :
    ∃ d', d.store (y * img.stride env) (img.row y) = some d' ∧
      Collecting env Busy img base (y :: done) d' := by
  have hdraw := hd.drawing
  obtain ⟨buf, hstore, hsize, hread, hothers⟩ := store_row d (y * img.stride env)
    (hsw.row y hy) (by rw [hd.size]; exact Memory.row_fits hy)
  refine ⟨_, hstore, ⟨hdraw.format, hdraw.width, hdraw.height, hdraw.initialized,
    hdraw.imageHeight, hdraw.busy⟩, ⟨hd.passed.rows, hd.passed.next⟩, hd.flip,
    hsize.trans hd.size, ?_⟩
  intro y' hy'
  by_cases heq : y' = y
  · rw [heq]
    exact hread
  · -- an earlier row
    have hdone : y' ∈ done := (List.mem_cons.1 hy').resolve_left heq
    exact (hothers _ (Memory.rows_disjoint heq)).trans (hd.row y' hdone)

/-- The pointer to a row of a flipped image. -/
theorem sweepInitialized_of_flip (henv : env.Conforms Ready Busy Sizes) (hsw : img.Swept env Sizes)
    {d d' : JpegRenderingDevice κ} {checkFlip : Bool} {y : ℕ} {done : List ℕ}
    (hdraw : Drawing Busy img d)
    (hdecide : d.decideFlip env checkFlip (img.stride env) y = d')
    (hd : Collecting env Busy img base done d') :
    d.sweepInitialized env checkFlip y = some ⟨d', some (y * img.stride env), false⟩ := by
  rw [sweepInitialized, if_pos (hdraw.stride_pos henv hsw), hdraw.toNat_stride, hdecide, handOut,
    if_pos hd.flip, hd.data henv hsw, Option.map_some, Nat.zero_add]

/-- Another row is swept first. -/
theorem Prepared.collecting (henv : env.Conforms Ready Busy Sizes) (hsw : img.Swept env Sizes)
    {d : JpegRenderingDevice κ} (hd : Prepared Ready img d) {y : ℕ} (hy : y < img.height)
    (hne : y ≠ 0) :
    ∃ d', renderRow env img d y = some d' ∧ Collecting env Busy img d.passed [y] d' := by
  obtain ⟨d₁, hinit, hdraw, hpassed, -, -⟩ := hd.init henv hsw
  let d₂ : JpegRenderingDevice κ :=
    { d₁ with
      flip := true
      scanlineBuf := d₁.scanlineBuf.alloc env.fresh (d₁.height * img.stride env) }
  have hdecide : d₁.decideFlip env true (img.stride env) y = d₂ :=
    if_pos ⟨rfl, by rw [hpassed.next]; exact hne.symm⟩
  have hcollecting : Collecting env Busy img d.passed [] d₂ := by
    refine ⟨hdraw.update hdraw.busy _ _ _ _, ⟨hpassed.rows, hpassed.next⟩, rfl, ?_,
      fun y hy => absurd hy List.not_mem_nil⟩
    rw [ScopedBuf.size_alloc, hdraw.height]
  have hsweep : d.sweepScanline env y = some ⟨d₂, some (y * img.stride env), false⟩ := by
    simp only [sweepScanline, hinit, hd.idle.initialized, Bool.not_false]
    exact sweepInitialized_of_flip henv hsw hdraw hdecide hcollecting
  obtain ⟨d', hstore, hd'⟩ := hcollecting.store hsw hy
  exact ⟨d', (renderRow_of_sweep hsweep).trans hstore, hd'⟩

/-- One more row. -/
theorem Collecting.next (henv : env.Conforms Ready Busy Sizes) (hsw : img.Swept env Sizes)
    {d : JpegRenderingDevice κ} {done : List ℕ} (hd : Collecting env Busy img base done d) {y : ℕ}
    (hy : y < img.height) :
    ∃ d', renderRow env img d y = some d' ∧ Collecting env Busy img base (y :: done) d' := by
  have hdraw := hd.drawing
  have hdecide : d.decideFlip env false (img.stride env) y = d := if_neg (by simp)
  have hsweep : d.sweepScanline env y = some ⟨d, some (y * img.stride env), false⟩ := by
    simp only [sweepScanline, init_of_initialized hdraw.initialized, hdraw.initialized,
      Bool.not_true]
    exact sweepInitialized_of_flip henv hsw hdraw hdecide hd
  obtain ⟨d', hstore, hd'⟩ := hd.store hsw hy
  exact ⟨d', (renderRow_of_sweep hsweep).trans hstore, hd'⟩

/-- All rows of a list. -/
theorem Collecting.run (henv : env.Conforms Ready Busy Sizes) (hsw : img.Swept env Sizes) (ys : List ℕ)
    {d : JpegRenderingDevice κ} {done : List ℕ} (hd : Collecting env Busy img base done d)
    (hys : ∀ y ∈ ys, y < img.height) :
    ∃ d', ys.foldlM (renderRow env img) d = some d' ∧
      Collecting env Busy img base (ys.reverse ++ done) d' := by
  induction ys generalizing d done with
  | nil => exact ⟨d, rfl, hd⟩
  | cons y ys ih =>
      obtain ⟨hy, hys⟩ := List.forall_mem_cons.1 hys
      obtain ⟨d₁, hstep, hd₁⟩ := hd.next henv hsw hy
      obtain ⟨d₂, hrest, hd₂⟩ := ih hd₁ hys
      refine ⟨d₂, ?_, ?_⟩
      · rw [List.foldlM_cons, hstep]
        exact hrest
      · rw [List.reverse_cons, List.append_assoc]
        exact hd₂

/-- The loop of `Render` over a buffer that holds all rows: row `k` is the next one. -/
theorem writeRows_passed (henv : env.Conforms Ready Busy Sizes) {n : ℕ} {d : JpegRenderingDevice κ} {k : ℕ}
    (hd : Drawing Busy img d) (hp : Passed env img base k d) (hk : k + n = img.height)
    (hrow : ∀ y < img.height,
      d.scanlineBuf.p.read (y * img.stride env) (img.stride env) = img.row y) :
    ∃ d', d.writeRows env (img.stride env) n (k * img.stride env) = (true, d') ∧
      Drawing Busy img d' ∧ Passed env img base img.height d' := by
  induction n generalizing d k with
  | zero => exact ⟨d, rfl, hd, by rw [← hk]; exact hp⟩
  | succ n ih =>
      obtain ⟨c, hwrite, hbusy, hnext⟩ := hp.writeRow henv hd (by omega) (hrow k (by omega))
      obtain ⟨d', hrest, hd', hp'⟩ := ih (k := k + 1)
        (d := { d with compressor := c, passed := d.passed ++ [img.row k] })
        (hd.update hbusy _ _ _ _)
        ⟨hp.append_row, hnext⟩ (by omega) hrow
      refine ⟨d', ?_, hd', hp'⟩
      rw [writeRows, hwrite, ← Nat.succ_mul]
      exact hrest

/-- `Render` passes the rows of a flipped image from the top to the bottom. -/
theorem Collecting.render (henv : env.Conforms Ready Busy Sizes) (hsw : img.Swept env Sizes)
    {d : JpegRenderingDevice κ} {done : List ℕ} (hd : Collecting env Busy img base done d)
    (hall : ∀ y < img.height, y ∈ done) :
    ∃ d', d.render env = some ⟨d', none, false⟩ ∧ d'.Idle Ready ∧
      d'.passed = base ++ img.rows := by
  have hdraw := hd.drawing
  obtain ⟨d₁, hwrites, hd₁, hp₁⟩ := writeRows_passed henv hdraw hd.passed (Nat.zero_add _)
    fun y hy => hd.row y (hall y hy)
  obtain ⟨d', hfinish, hidle, hpassed⟩ := finish_of_passed henv hd₁ hp₁
  refine ⟨d', ?_, hidle, hpassed⟩
  rw [Nat.zero_mul] at hwrites
  simp only [JpegRenderingDevice.render, init_of_initialized hdraw.initialized, renderInitialized,
    hd.data henv hsw, Option.bind_some]
  rw [if_pos hd.flip, if_pos ⟨hd.passed.next, hdraw.stride_pos henv hsw⟩, hdraw.toNat_stride,
    hdraw.height, hwrites]
  simp only [hfinish]

/-! ## Images -/

/-- All rows are swept, and `Render` is called. -/
theorem Prepared.renders (henv : env.Conforms Ready Busy Sizes) (hsw : img.Swept env Sizes)
    {d : JpegRenderingDevice κ} (hd : Prepared Ready img d) :
    ∃ d₁ d', img.order.foldlM (renderRow env img) d = some d₁ ∧
      d₁.render env = some ⟨d', none, false⟩ ∧ d'.Idle Ready ∧ d'.passed = d.passed ++ img.rows := by
  obtain ⟨n, hn⟩ : ∃ n, img.height = n + 1 := ⟨img.height - 1, by have := hsw.height; omega⟩
  rcases hsw.order with hinc | ⟨hperm, hhead⟩
  · -- row 0 and the rows behind it
    obtain ⟨d₀, hfirst, hd₀⟩ := hd.streaming henv hsw
    obtain ⟨d₁, hrest, hd₁⟩ := hd₀.run (n := n) henv hsw (by omega)
    obtain ⟨d', hrender, hidle, hpassed⟩ := hd₁.render henv hsw (by omega)
    refine ⟨d₁, d', ?_, hrender, hidle, hpassed⟩
    rw [hinc, hn, List.range_eq_range', List.range'_succ, List.foldlM_cons, hfirst]
    exact hrest
  · have hmem : ∀ y, y ∈ img.order ↔ y < img.height := fun y => by
      rw [hperm.mem_iff, List.mem_range]
    cases horder : img.order with
    | nil =>
        rw [horder] at hmem
        exact absurd ((hmem 0).2 hsw.height) List.not_mem_nil
    | cons y ys =>
        rw [horder] at hmem hhead
        have hne : y ≠ 0 := fun h => hhead (by rw [h]; rfl)
        obtain ⟨d₀, hfirst, hd₀⟩ := hd.collecting henv hsw ((hmem y).1 List.mem_cons_self) hne
        obtain ⟨d₁, hrest, hd₁⟩ := hd₀.run henv hsw ys fun y' hy' =>
          (hmem y').1 (List.mem_cons_of_mem y hy')
        obtain ⟨d', hrender, hidle, hpassed⟩ := hd₁.render henv hsw fun y' hy' => by
          have := (hmem y').2 hy'
          simpa [or_comm] using this
        refine ⟨d₁, d', ?_, hrender, hidle, hpassed⟩
        rw [List.foldlM_cons, hfirst]
        exact hrest

theorem renderImage_passed (henv : env.Conforms Ready Busy Sizes) (hsw : img.Swept env Sizes)
    {d : JpegRenderingDevice κ} (hd : d.Idle Ready) :
    ∃ d', renderImage env d img = some d' ∧ d'.Idle Ready ∧ d'.passed = d.passed ++ img.rows := by
  obtain ⟨n, hpixfmt⟩ := pixfmt_of_supported hsw.format d
  have hview := setViewport_of_pos
    (d := { d with inputComponents := n, pixelFormat := img.format }) hd.initialized hsw.width
    hsw.height
  obtain ⟨d₁, d', hrows, hrender, hidle, hpassed⟩ := Prepared.renders
    (d := { d with
      inputComponents := n
      pixelFormat := img.format
      width := img.width
      height := img.height }) henv hsw
    ⟨⟨hd.initialized, hd.writeScanline, hd.flip, hd.ready⟩, rfl, rfl, rfl⟩
  refine ⟨d', ?_, hidle, hpassed⟩
  simp only [Image.width, Image.height] at hrows
  simp only [renderImage, hpixfmt, hview, hrows, Option.bind_some, hrender]

/-- One image after the other. -/
theorem renderImages_passed (henv : env.Conforms Ready Busy Sizes) {imgs : List Image}
    (hsw : ∀ img ∈ imgs, img.Swept env Sizes) {d : JpegRenderingDevice κ} (hd : d.Idle Ready) :
    ∃ d', imgs.foldlM (renderImage env) d = some d' ∧ d'.Idle Ready ∧
      d'.passed = d.passed ++ imgs.flatMap Image.rows := by
  induction imgs generalizing d with
  | nil => exact ⟨d, rfl, hd, (List.append_nil _).symm⟩
  | cons img imgs ih =>
      obtain ⟨himg, himgs⟩ := List.forall_mem_cons.1 hsw
      obtain ⟨d₁, hstep, hd₁, hpassed₁⟩ := renderImage_passed henv himg hd
      obtain ⟨d₂, hrest, hd₂, hpassed₂⟩ := ih himgs hd₁
      refine ⟨d₂, ?_, hd₂, ?_⟩
      · rw [List.foldlM_cons, hstep]
        exact hrest
      · rw [hpassed₂, hpassed₁, List.append_assoc, List.flatMap_cons]

theorem rows_of_samePicture {img img' : Image} (h : img.SamePicture img') : img.rows = img'.rows := by
  rw [Image.rows, Image.rows, h.height, h.row]

theorem flatMap_rows_of_samePicture {imgs imgs' : List Image}
    (h : List.Forall₂ Image.SamePicture imgs imgs') :
    imgs.flatMap Image.rows = imgs'.flatMap Image.rows := by
  induction h with
  | nil => rfl
  | cons himg _ ih => rw [List.flatMap_cons, List.flatMap_cons, rows_of_samePicture himg, ih]

/-- **The compressor gets the rows from the top to the bottom.** For every device between two images,
and every number of images. -/
theorem passesRows (henv : env.Conforms Ready Busy Sizes) {d : JpegRenderingDevice κ} (hd : d.Idle Ready)
    {imgs : List Image} (hsw : ∀ img ∈ imgs, img.Swept env Sizes) : PassesRows env Ready Sizes d imgs := by
  have hdelivered := renderImages_passed henv hsw hd
  refine ⟨hdelivered, fun imgs' hsame hsw' => ?_⟩
  obtain ⟨d₁, hrun₁, -, hpassed₁⟩ := hdelivered
  obtain ⟨d₂, hrun₂, -, hpassed₂⟩ := renderImages_passed henv hsw' hd
  rw [hrun₁, hrun₂, Option.map_some, Option.map_some, hpassed₁, hpassed₂,
    flatMap_rows_of_samePicture hsame]

theorem idle_new {k : κ} (h : Ready k) : (new env k).Idle Ready := ⟨rfl, rfl, rfl, h⟩

end JpegRenderingDevice

namespace RowCounter

/-- Inside an image of `h` rows. -/
def Busy (h : ℕ) (k : RowCounter) : Prop := ∃ n, k = some (h, n)

theorem conforms : platform.Conforms (· = none) Busy fun _ _ => True where
  stride_pos v w hw := by
    show 0 < (if v = 1 then (w : ℤ) else 3 * w)
    split <;> omega
  start := by
    rintro info _ - rfl
    exact ⟨some (info.imageHeight, 0), rfl, ⟨0, rfl⟩, rfl⟩
  write := by
    rintro h row _ ⟨n, rfl⟩ hlt
    exact ⟨some (h, n + 1), if_pos hlt, ⟨n + 1, rfl⟩, rfl⟩
  finish := by
    rintro h _ ⟨n, rfl⟩ heq
    have heq : n = h := heq
    refine ⟨none, ?_, rfl⟩
    show ((n == h), none) = (true, none)
    rw [beq_iff_eq.2 heq]

/-- A coloured image of two rows, from the bottom to the top. -/
def bottomUp : Image := ⟨2, 0, 0, 1, 2, [1, 0], fun y => [y.toUInt8, 0, 0]⟩

/-- A gray image of three rows, from the top to the bottom. -/
def topDown : Image := ⟨1, 4, 4, 6, 7, [0, 1, 2], fun y => [y.toUInt8, 1]⟩

theorem swept_bottomUp : bottomUp.Swept platform fun _ _ => True :=
  ⟨by decide, by decide, by decide, trivial, .inr ⟨by decide, by decide⟩, fun _ _ => rfl⟩

theorem swept_topDown : topDown.Swept platform fun _ _ => True :=
  ⟨by decide, by decide, by decide, trivial, .inl rfl, fun _ _ => rfl⟩

/-- Two images on a new device. -/
theorem passesRows_new :
    PassesRows platform (· = none) (fun _ _ => True) (new platform none) [bottomUp, topDown] :=
  passesRows conforms (idle_new rfl) (by
    intro img h
    rcases List.mem_pair.1 h with rfl | rfl
    · exact swept_bottomUp
    · exact swept_topDown)

end RowCounter

end ImageProxy
