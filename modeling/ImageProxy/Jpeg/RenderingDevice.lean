import ImageProxy.Cpcl.ScopedBuf

set_option autoImplicit false

/-! # The JPEG rendering device (`jpeg_rendering_device.cpp`)

A renderer asks the device for a pointer to every row (`SweepScanline`), stores the row there, and calls
`Render` at the end. The device starts the compressor at the first row. If that is the next row of the
compressor, there is one row of memory: a row is passed to the compressor when the pointer for the
following one is asked for, the last row by `Render`. Otherwise the whole image is kept and `Render`
passes it. -/

namespace ImageProxy

/-- `J_COLOR_SPACE`, the values that `Init` uses. -/
inductive ColorSpace where
  | grayscale
  | rgb
  deriving DecidableEq, Repr

/-- The fields of `cinfo` that `Init` sets for an image. -/
structure CompressInfo where
  imageWidth : ℕ
  imageHeight : ℕ
  inputComponents : ℕ
  inColorSpace : ColorSpace

/-- What the device uses of `plcl`, of libjpeg (with its state `κ`) and of `new`. -/
structure Platform (κ : Type) where
  /-- `PLCL_PIXEL_FORMAT_GRAY_8`. -/
  gray8 : UInt32
  /-- `PLCL_PIXEL_FORMAT_BGR_24`. -/
  bgr24 : UInt32
  /-- `plcl::RenderingData::Stride`. -/
  stride : UInt32 → ℕ → ℤ
  /-- From `jpeg_set_defaults` to `jpeg_start_compress`; `none` is an error exit. -/
  startCompress : CompressInfo → κ → Option κ
  /-- `jpeg_write_scanlines` of one row; `none` is an error exit. -/
  writeScanlines : Bytes → κ → Option ℕ × κ
  /-- `jpeg_finish_compress`; `false` is an error exit. -/
  finishCompress : κ → Bool × κ
  /-- `cinfo->next_scanline`. -/
  nextScanline : κ → ℕ
  /-- What is in a new block of memory. -/
  fresh : Memory UInt8

/-- `JpegRenderingDevice`. `passed` are the rows that were passed to `jpeg_write_scanlines`. -/
structure JpegRenderingDevice (κ : Type) where
  pixelFormat : UInt32
  width : ℕ
  height : ℕ
  inputComponents : ℕ
  initialized : Bool
  writeScanline : Bool
  flip : Bool
  scanlineBuf : ScopedBuf
  cinfo : CompressInfo
  compressor : κ
  passed : List Bytes

namespace JpegRenderingDevice

variable {κ : Type}

/-- How a call ends: the device, the pointer that was handed out as an offset in `scanline_buf`, and
whether there was an exception. -/
structure Called (κ : Type) where
  device : JpegRenderingDevice κ
  scanline : Option ℕ
  threw : Bool

variable (env : Platform κ)

/-- The constructor. -/
def new (k : κ) : JpegRenderingDevice κ where
  pixelFormat := env.bgr24
  width := 0
  height := 0
  inputComponents := 3
  initialized := false
  writeScanline := false
  flip := false
  scanlineBuf := .empty env.fresh
  cinfo := ⟨0, 0, 0, .rgb⟩
  compressor := k
  passed := []

/-- `supported_pixel_formats`. -/
def supportedPixelFormats : UInt32 := env.gray8 ||| env.bgr24

/-- What `Init` sets in `cinfo`. -/
def info (d : JpegRenderingDevice κ) : CompressInfo where
  imageWidth := d.width
  imageHeight := d.height
  inputComponents := d.inputComponents
  inColorSpace := if d.inputComponents = 1 then .grayscale else .rgb

/-- `Init`. An error exit of libjpeg does not come back: no `setjmp` was called yet. -/
def init (d : JpegRenderingDevice κ) : Option (Bool × JpegRenderingDevice κ) :=
  if d.initialized then some (true, d)
  else if d.width < 1 ∨ d.height < 1 then some (false, d)
  else (env.startCompress d.info d.compressor).map fun k =>
    (true, { d with cinfo := d.info, compressor := k, initialized := true })

/-- `Pixfmt`. -/
def pixfmt (v : UInt32) (d : JpegRenderingDevice κ) : JpegRenderingDevice κ :=
  if d.pixelFormat ≠ v then
    if supportedPixelFormats env &&& v ≠ 0 then
      { d with inputComponents := if env.bgr24 = v then 3 else 1, pixelFormat := v }
    else d
  else d

/-- `SetViewport`. -/
def setViewport (x1 y1 x2 y2 : UInt32) (d : JpegRenderingDevice κ) :
    Bool × JpegRenderingDevice κ :=
  if d.initialized then (false, d)
  else if x2 - x1 < 1 ∨ y2 - y1 < 1 then (false, d)
  else (true, { d with width := (x2 - x1).toNat, height := (y2 - y1).toNat })

/-- `jpeg_write_scanlines` of the `n` bytes from `off` on. -/
def writeRow (off n : ℕ) (d : JpegRenderingDevice κ) : Option ℕ × JpegRenderingDevice κ :=
  let row := d.scanlineBuf.p.read off n
  let result := env.writeScanlines row d.compressor
  (result.1, { d with compressor := result.2, passed := d.passed ++ [row] })

/-- The stride of the current pixel format. -/
def stride (d : JpegRenderingDevice κ) : ℤ := env.stride d.pixelFormat d.width

/-- `scanline_buf` holds one row. -/
def fitRow (stride : ℕ) (d : JpegRenderingDevice κ) : JpegRenderingDevice κ :=
  if d.scanlineBuf.size ≠ stride then
    { d with scanlineBuf := d.scanlineBuf.alloc env.fresh stride }
  else d

/-- `SweepScanline` if the image is not flipped. -/
def sweepNext (stride y : ℕ) (d : JpegRenderingDevice κ) : Option (Called κ) :=
  let d := d.fitRow env stride
  d.scanlineBuf.data.map fun p =>
    if d.writeScanline ∧ env.nextScanline d.compressor < d.cinfo.imageHeight ∧ y < d.height then
      -- the row before this one: the caller has stored it there
      match d.writeRow env p stride with
      | (some (_ + 1), d) => ⟨{ d with writeScanline := true }, some p, false⟩
      | (_, d) => ⟨d, some p, true⟩
    else ⟨{ d with writeScanline := true }, some p, false⟩

/-- The image is flipped if its first row is not the next one of the compressor: `scanline_buf` holds
all of it. -/
def decideFlip (checkFlip : Bool) (stride y : ℕ) (d : JpegRenderingDevice κ) :
    JpegRenderingDevice κ :=
  if checkFlip ∧ env.nextScanline d.compressor ≠ y then
    { d with flip := true, scanlineBuf := d.scanlineBuf.alloc env.fresh (d.height * stride) }
  else d

/-- `SweepScanline` with `flip` decided. -/
def handOut (stride y : ℕ) (d : JpegRenderingDevice κ) : Option (Called κ) :=
  if d.flip then d.scanlineBuf.data.map fun p => ⟨d, some (p + y * stride), false⟩
  else d.sweepNext env stride y

/-- `SweepScanline` after `Init`. `checkFlip` is set at the first row of an image. -/
def sweepInitialized (checkFlip : Bool) (y : ℕ) (d : JpegRenderingDevice κ) : Option (Called κ) :=
  if 0 < d.stride env then
    (d.decideFlip env checkFlip (d.stride env).toNat y).handOut env (d.stride env).toNat y
  else none

/-- `SweepScanline`; `none` if the process ends. -/
def sweepScanline (y : ℕ) (d : JpegRenderingDevice κ) : Option (Called κ) :=
  match d.init env with
  | none => none
  | some (false, d) => some ⟨d, none, false⟩
  | some (true, d') => d'.sweepInitialized env (!d.initialized) y

/-- The loop of `Render`: `n` rows from `off` on. -/
def writeRows (stride : ℕ) : ℕ → ℕ → JpegRenderingDevice κ → Bool × JpegRenderingDevice κ
  | 0, _, d => (true, d)
  | n + 1, off, d =>
      match d.writeRow env off stride with
      | (some (_ + 1), d) => writeRows stride n (off + stride) d
      | (_, d) => (false, d)

/-- `jpeg_finish_compress` and the end of `Render`. -/
def finish (d : JpegRenderingDevice κ) : Called κ :=
  let result := env.finishCompress d.compressor
  if result.1 then
    ⟨{ d with
        compressor := result.2
        initialized := false
        writeScanline := false
        flip := false }, none, false⟩
  else ⟨{ d with compressor := result.2 }, none, true⟩

/-- `Render` after `Init`. -/
def renderInitialized (d : JpegRenderingDevice κ) : Option (Called κ) :=
  d.scanlineBuf.data.bind fun scanline =>
    if d.flip then
      if env.nextScanline d.compressor = 0 ∧ 0 < d.stride env then
        match d.writeRows env (d.stride env).toNat d.height scanline with
        | (true, d) => some (d.finish env)
        | (false, d) => some ⟨d, none, true⟩
      else none
    else if env.nextScanline d.compressor < d.cinfo.imageHeight then
      -- what is in the buffer is the last row; the result is not looked at
      match d.writeRow env scanline d.scanlineBuf.size with
      | (some _, d) => some (d.finish env)
      | (none, d) => some ⟨d, none, true⟩
    else some (d.finish env)

/-- `Render`; `none` if the process ends. -/
def render (d : JpegRenderingDevice κ) : Option (Called κ) :=
  match d.init env with
  | none => none
  | some (false, d) => some ⟨d, none, false⟩
  | some (true, d) => d.renderInitialized env

/-- What the renderer stores through a pointer. -/
def store (off : ℕ) (bytes : Bytes) (d : JpegRenderingDevice κ) : Option (JpegRenderingDevice κ) :=
  (d.scanlineBuf.store off bytes).map fun buf => { d with scanlineBuf := buf }

variable {env}

theorem fitRow_eq (n : ℕ) (d : JpegRenderingDevice κ) :
    ∃ buf, d.fitRow env n = { d with scanlineBuf := buf } ∧ buf.size = n := by
  by_cases h : d.scanlineBuf.size = n
  · exact ⟨d.scanlineBuf, if_neg (not_not.2 h), h⟩
  · exact ⟨_, if_pos h, ScopedBuf.size_alloc _ _ _⟩

end JpegRenderingDevice

/-! ## A compressor that counts the rows -/

/-- The state of a libjpeg that looks at no row: inside an image its height and the rows it has got. -/
abbrev RowCounter : Type := Option (ℕ × ℕ)

namespace RowCounter

def startCompress (info : CompressInfo) : RowCounter → Option RowCounter
  | none => some (some (info.imageHeight, 0))
  | some _ => none

def writeScanlines (_row : Bytes) : RowCounter → Option ℕ × RowCounter
  | none => (none, none)
  | some (h, n) => if n < h then (some 1, some (h, n + 1)) else (some 0, some (h, n))

def finishCompress : RowCounter → Bool × RowCounter
  | none => (false, none)
  | some (h, n) => (n == h, none)

def nextScanline : RowCounter → ℕ
  | none => 0
  | some (_, n) => n

/-- With one byte for a gray pixel, and three bytes for a coloured one. -/
def platform : Platform RowCounter where
  gray8 := 1
  bgr24 := 2
  stride v w := if v = 1 then w else 3 * w
  startCompress := startCompress
  writeScanlines := writeScanlines
  finishCompress := finishCompress
  nextScanline := nextScanline
  fresh := fun _ => 0

end RowCounter

end ImageProxy
