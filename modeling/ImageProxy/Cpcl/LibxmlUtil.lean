import Mathlib.Data.List.DropRight
import ImageProxy.Cpcl.ScopedBuf
import ImageProxy.Cpcl.Utf8Buffers

set_option autoImplicit false

/-! # Text to and from libxml (`libxml_util.h`, `libxml_util.cpp`)

libxml takes and gives UTF-8 that ends at a NUL. Both classes convert in a `ScopedBuf` of their own,
whose size they guess from the length of the text before: three bytes for a character, the NUL
included, and one character for a byte. libxml itself is a parameter. -/

namespace ImageProxy.Cpcl

/-! ## The source -/

/-- `XmlWriter`; `writer` is what libxml keeps. -/
structure XmlWriter (W : Type) where
  convBuf : StaticScopedBuf UInt8 0x100
  writer : W

/-- The conversion in `conv_buf` that `WriteAttribute` and `WriteString` begin with; `none` if a
check of the buffer fails or a byte is written outside of it. -/
def convertToBuf (fresh : Memory UInt8) (v : List UInt32) (convBuf : StaticScopedBuf UInt8 0x100) :
    Option (StaticScopedBuf UInt8 0x100) :=
  (convBuf.alloc fresh (v.length * 3)).bind fun convBuf =>
    let written := convertUTF16UTF8Buffer v (convBuf.pSize - 1)
    (convBuf.store 0 written).bind fun convBuf => convBuf.store written.length [0]

namespace XmlWriter

variable {W : Type}

/-- `XmlWriter::WriteAttribute(name_utf8, v)`. -/
def writeAttribute (xmlTextWriterWriteAttribute : W → Bytes → Memory UInt8 → ℤ × W)
    (fresh : Memory UInt8) (nameUtf8 : Bytes) (v : List UInt32) (xml : XmlWriter W) :
    Option (Bool × XmlWriter W) :=
  (convertToBuf fresh v xml.convBuf).bind fun convBuf => convBuf.data.map fun s =>
    let r := xmlTextWriterWriteAttribute xml.writer nameUtf8 s
    (decide (r.1 ≠ -1), ⟨convBuf, r.2⟩)

/-- `XmlWriter::WriteString(v)`. -/
def writeString (xmlTextWriterWriteString : W → Memory UInt8 → ℤ × W) (fresh : Memory UInt8)
    (v : List UInt32) (xml : XmlWriter W) : Option (Bool × XmlWriter W) :=
  (convertToBuf fresh v xml.convBuf).bind fun convBuf => convBuf.data.map fun s =>
    let r := xmlTextWriterWriteString xml.writer s
    (decide (r.1 ≠ -1), ⟨convBuf, r.2⟩)

end XmlWriter

/-- `BasicStringPiece::trim`. -/
def trimPiece (chars s : List UInt32) : List UInt32 :=
  if chars.length = 0 then s
  else (s.dropWhile fun c => chars.contains c).rdropWhile fun c => chars.contains c

/-- `XmlDocument`. -/
structure XmlDocument where
  convBuf : StaticScopedBuf UInt32 0x100
  trimResults : Bool

namespace XmlDocument

/-- `XmlDocument::TrimChars`. -/
def trimChars : List UInt32 := [0x20, 0x09]

/-- The text that `XPath` makes of the string value `s`, in `conv_buf`; `none` if a check of the
buffer fails or an element outside of it is used. -/
def convertFromBuf (fresh : Memory UInt32) (s : Bytes) (convBuf : StaticScopedBuf UInt32 0x100) :
    Option (List UInt32 × StaticScopedBuf UInt32 0x100) :=
  (convBuf.alloc fresh s.length).bind fun convBuf =>
    (tryConvertUTF8UTF16Buffer s convBuf.pSize).bind fun (convResult, written) =>
      (convBuf.store 0 written).bind fun convBuf =>
        if convResult = -1 then some ([], convBuf)
        else if convResult < 0 then none
        else (convBuf.load convResult.toNat).map fun str => (str, convBuf)

/-- `XmlDocument::XPath`: what it returns, and `*r` if there is one. `value` is the string that libxml
makes of the value of the expression, if it makes one. -/
def xpath (fresh : Memory UInt32) (value : Option Bytes) (r : Option (List UInt32))
    (xml : XmlDocument) : Option (Bool × Option (List UInt32) × XmlDocument) :=
  (match value with
    | none => some ([], xml.convBuf)
    | some s => convertFromBuf fresh s xml.convBuf).map fun (str, convBuf) =>
    let str := if xml.trimResults then trimPiece trimChars str else str
    (!str.isEmpty, if str.isEmpty then r else r.map fun _ => str, { xml with convBuf := convBuf })

end XmlDocument

/-! ## Writing -/

theorem continuation_ne_zero (x : UInt32) : continuation x ≠ 0 := by
  intro hzero
  have htable := (continuation_table (x.toNat % 64) (Nat.mod_lt _ (by decide))).1
  rw [continuation, low_six] at hzero
  rw [hzero] at htable
  exact absurd htable (by decide)

theorem zero_notMem_groups (m : ℕ) (w : UInt32) : (0 : UInt8) ∉ groups m w := by
  induction m generalizing w with
  | zero => simp [groups]
  | succ m ih =>
      rw [groups, List.mem_append, List.mem_singleton, not_or]
      exact ⟨ih _, (continuation_ne_zero w).symm⟩

theorem zero_notMem_encodeLoop {m : ℕ} (hm : m < 5) {w : UInt32}
    (hw : w.toNat / 64 ^ (m + 1) < 2 ^ (5 - m)) :
    (0 : UInt8) ∉ encodeLoop (m + 2) (m + 1) w [] := by
  have hhigh : high (m + 1) w = UInt32.ofNat (w.toNat / 64 ^ (m + 1)) := by
    rw [← toNat_high, UInt32.ofNat_toNat]
  have hlead := (lead_table m hm _ hw).1
  rw [encodeLoop_eq, hhigh, List.append_nil, List.mem_cons, not_or]
  refine ⟨fun hzero => ?_, zero_notMem_groups _ _⟩
  rw [← hzero] at hlead
  exact hlead (by decide)

/-- A character that is no NUL is encoded without one. -/
theorem zero_notMem_ucToUtf {w : UInt32} (hnul : 0 < w.toNat) (hw : w.toNat < 2 ^ 31) :
    (0 : UInt8) ∉ ucToUtf w := by
  rw [ucToUtf_eq hw]
  split_ifs with h6 h5 h4 h3 h2
  · exact zero_notMem_encodeLoop (m := 4) (by decide) (by omega)
  · exact zero_notMem_encodeLoop (m := 3) (by decide) (by omega)
  · exact zero_notMem_encodeLoop (m := 2) (by decide) (by omega)
  · exact zero_notMem_encodeLoop (m := 1) (by decide) (by omega)
  · exact zero_notMem_encodeLoop (m := 0) (by decide) (by omega)
  · rw [List.mem_singleton]
    intro hzero
    have hnat := congrArg UInt8.toNat hzero
    rw [UInt32.toNat_toUInt8, Nat.mod_eq_of_lt (by omega)] at hnat
    exact Nat.ne_of_lt hnul hnat

theorem zero_notMem_encoded {v : List UInt32} (hv : ∀ w ∈ v, 0 < w.toNat ∧ w.toNat < 2 ^ 31) :
    (0 : UInt8) ∉ v.flatMap ucToUtf := by
  intro hzero
  obtain ⟨w, hw, hmem⟩ := List.mem_flatMap.1 hzero
  exact zero_notMem_ucToUtf (hv w hw).1 (hv w hw).2 hmem

/-- What fits is encoded to its end; otherwise the encoding is cut before its end. -/
theorem convertUTF16UTF8Buffer_prefix (s : List UInt32) (rLen : ℕ) :
    convertUTF16UTF8Buffer s rLen <+: s.flatMap ucToUtf ∧
      (convertUTF16UTF8Buffer s rLen).length ≤ rLen ∧
      ((s.flatMap ucToUtf).length ≤ rLen → convertUTF16UTF8Buffer s rLen = s.flatMap ucToUtf) := by
  obtain ⟨a, ⟨⟨b, rfl⟩, hlen, hlongest⟩, hstored⟩ := convertUTF16UTF8Buffer_longest s rLen
  rw [hstored]
  refine ⟨?_, hlen, fun hall => ?_⟩
  · rw [List.flatMap_append]
    exact List.prefix_append _ _
  · have hshort := hlongest _ List.prefix_rfl hall
    rw [List.length_append] at hshort
    rw [List.length_eq_zero_iff.1 (by omega : b.length = 0), List.append_nil]

/-- The empty string fails the check of the buffer. -/
theorem convertToBuf_of_empty (fresh : Memory UInt8) {v : List UInt32} (hv : v.length = 0)
    (convBuf : StaticScopedBuf UInt8 0x100) : convertToBuf fresh v convBuf = none := by
  rw [convertToBuf, hv, Nat.zero_mul, StaticScopedBuf.alloc_zero, Option.bind_none]

/-- What `conv_buf` has after a conversion: the bytes that were stored, and a NUL. -/
theorem convertToBuf_eq (fresh : Memory UInt8) {v : List UInt32} (hv : 0 < v.length)
    (convBuf : StaticScopedBuf UInt8 0x100) :
    ∃ convBuf' s, convertToBuf fresh v convBuf = some convBuf' ∧ convBuf'.data = some s ∧
      s.read 0 ((convertUTF16UTF8Buffer v (v.length * 3 - 1)).length + 1)
        = convertUTF16UTF8Buffer v (v.length * 3 - 1) ++ [0] := by
  obtain ⟨-, hfits, -⟩ := convertUTF16UTF8Buffer_prefix v (v.length * 3 - 1)
  have hsize := StaticScopedBuf.pSize_reserve fresh (v.length * 3) convBuf
  obtain ⟨m, hm⟩ := StaticScopedBuf.exists_data
    (by omega : 0 < (convBuf.reserve fresh (v.length * 3)).pSize)
  rw [convertToBuf, StaticScopedBuf.alloc_of_pos fresh (by omega), Option.bind_some, hsize]
  generalize convertUTF16UTF8Buffer v (v.length * 3 - 1) = written at hfits ⊢
  obtain ⟨b₁, hstore₁, hsize₁, hdata₁⟩ := StaticScopedBuf.exists_store hm
    (by omega : 0 + written.length ≤ (convBuf.reserve fresh (v.length * 3)).pSize)
  have hroom : written.length + [(0 : UInt8)].length ≤ b₁.pSize := by
    rw [hsize₁, hsize, List.length_singleton]
    omega
  obtain ⟨b₂, hstore₂, -, hdata₂⟩ := StaticScopedBuf.exists_store hdata₁ hroom
  refine ⟨b₂, _, ?_, hdata₂, ?_⟩
  · simp only [hstore₁, Option.bind_some, hstore₂]
  · have hread := Memory.read_write_write m 0 written [0]
    rw [Nat.zero_add] at hread
    exact hread

/-- The encoding of `v` and a NUL are what libxml gets. -/
def Hands (v : List UInt32) (s : Memory UInt8) : Prop :=
  s.read 0 ((v.flatMap ucToUtf).length + 1) = v.flatMap ucToUtf ++ [0]

/-- `conv_buf` gets all of the encoding exactly if a character takes less than three bytes on the
average. -/
theorem hands_convertToBuf_iff (fresh : Memory UInt8) {v : List UInt32}
    (hv : ∀ w ∈ v, 0 < w.toNat ∧ w.toNat < 2 ^ 31) (convBuf : StaticScopedBuf UInt8 0x100) :
    (∃ convBuf' s, convertToBuf fresh v convBuf = some convBuf' ∧ convBuf'.data = some s ∧
      Hands v s) ↔ (v.flatMap ucToUtf).length < 3 * v.length := by
  rcases Nat.eq_zero_or_pos v.length with hempty | hpos
  · refine iff_of_false ?_ (by omega)
    rintro ⟨convBuf', s, hconvert, -⟩
    rw [convertToBuf_of_empty fresh hempty] at hconvert
    exact absurd hconvert (by simp)
  · obtain ⟨convBuf', s, hconvert, hdata, hread⟩ := convertToBuf_eq fresh hpos convBuf
    obtain ⟨hstart, hfits, hall⟩ := convertUTF16UTF8Buffer_prefix v (v.length * 3 - 1)
    have hnul := zero_notMem_encoded hv
    constructor
    · rintro ⟨convBuf'', s', hconvert', hdata', hhands⟩
      cases hconvert.symm.trans hconvert'
      cases hdata.symm.trans hdata'
      -- the NUL behind what was stored is that of the encoding
      have hwhole : convertUTF16UTF8Buffer v (v.length * 3 - 1) = v.flatMap ucToUtf :=
        Memory.terminated_unique hread (fun hmem => hnul (hstart.subset hmem)) hhands hnul
      rw [hwhole] at hfits
      omega
    · intro hless
      refine ⟨convBuf', s, hconvert, hdata, ?_⟩
      rw [hall (by omega)] at hread
      exact hread

namespace XmlWriter

/-- `WriteString` returns, and whatever libxml is, it is called once, with the encoding of `v`. -/
def WriteStringHands (fresh : Memory UInt8) (v : List UInt32)
    (convBuf : StaticScopedBuf UInt8 0x100) : Prop :=
  ∀ (W : Type) (f : W → Memory UInt8 → ℤ × W) (writer : W), ∃ convBuf' s,
    writeString f fresh v ⟨convBuf, writer⟩
      = some (decide ((f writer s).1 ≠ -1), ⟨convBuf', (f writer s).2⟩) ∧ Hands v s

/-- The same of `WriteAttribute`. -/
def WriteAttributeHands (fresh : Memory UInt8) (nameUtf8 : Bytes) (v : List UInt32)
    (convBuf : StaticScopedBuf UInt8 0x100) : Prop :=
  ∀ (W : Type) (f : W → Bytes → Memory UInt8 → ℤ × W) (writer : W), ∃ convBuf' s,
    writeAttribute f fresh nameUtf8 v ⟨convBuf, writer⟩
      = some (decide ((f writer nameUtf8 s).1 ≠ -1), ⟨convBuf', (f writer nameUtf8 s).2⟩) ∧
    Hands v s

theorem writeStringHands_iff (fresh : Memory UInt8) {v : List UInt32}
    (hv : ∀ w ∈ v, 0 < w.toNat ∧ w.toNat < 2 ^ 31) (convBuf : StaticScopedBuf UInt8 0x100) :
    WriteStringHands fresh v convBuf ↔ (v.flatMap ucToUtf).length < 3 * v.length := by
  rw [← hands_convertToBuf_iff fresh hv convBuf]
  constructor
  · intro h
    -- a libxml that keeps what it is given
    obtain ⟨convBuf', s, hcall, hhands⟩ := h (Option (Memory UInt8)) (fun _ s => (0, some s)) none
    obtain ⟨convBuf'', hconvert, hrest⟩ := Option.bind_eq_some_iff.1 hcall
    obtain ⟨s', hdata, hgot⟩ := Option.map_eq_some_iff.1 hrest
    cases hgot
    exact ⟨_, s, hconvert, hdata, hhands⟩
  · rintro ⟨convBuf', s, hconvert, hdata, hhands⟩ W f writer
    exact ⟨convBuf', s, by simp only [writeString, hconvert, Option.bind_some, hdata,
      Option.map_some], hhands⟩

theorem writeAttributeHands_iff (fresh : Memory UInt8) (nameUtf8 : Bytes) {v : List UInt32}
    (hv : ∀ w ∈ v, 0 < w.toNat ∧ w.toNat < 2 ^ 31) (convBuf : StaticScopedBuf UInt8 0x100) :
    WriteAttributeHands fresh nameUtf8 v convBuf ↔
      (v.flatMap ucToUtf).length < 3 * v.length := by
  rw [← writeStringHands_iff fresh hv convBuf]
  constructor
  · intro h W f writer
    exact h W (fun writer _ s => f writer s) writer
  · intro h W f writer
    exact h W (fun writer s => f writer nameUtf8 s) writer

/-- **What libxml gets.** `WriteString` and `WriteAttribute` hand over the whole encoding exactly if a
character of `v` takes less than three bytes on the average. -/
theorem writes_iff (fresh : Memory UInt8) (nameUtf8 : Bytes) {v : List UInt32}
    (hv : ∀ w ∈ v, 0 < w.toNat ∧ w.toNat < 2 ^ 31) (convBuf : StaticScopedBuf UInt8 0x100) :
    (WriteStringHands fresh v convBuf ↔ (v.flatMap ucToUtf).length < 3 * v.length) ∧
      (WriteAttributeHands fresh nameUtf8 v convBuf ↔
        (v.flatMap ucToUtf).length < 3 * v.length) :=
  ⟨writeStringHands_iff fresh hv convBuf, writeAttributeHands_iff fresh nameUtf8 hv convBuf⟩

theorem writes_iff_euro :
    (WriteStringHands (fun _ => 0) [0x20AC] (.empty fun _ => 0) ↔
        ([0x20AC].flatMap ucToUtf).length < 3 * 1) ∧
      (WriteAttributeHands (fun _ => 0) [0x61] [0x20AC] (.empty fun _ => 0) ↔
        ([0x20AC].flatMap ucToUtf).length < 3 * 1) :=
  writes_iff _ _ (List.forall_mem_singleton.2 (by decide)) _

/-- Nothing of the sign of the euro gets to libxml, and an empty string ends the process. -/
theorem not_writes :
    ¬WriteStringHands (fun _ => 0) [0x20AC] (.empty fun _ => 0) ∧
      ¬WriteAttributeHands (fun _ => 0) [0x61] [] (.empty fun _ => 0) := by
  constructor
  · intro h
    obtain ⟨convBuf', s, hcall, hhands⟩ := h (List UInt8) (fun _ s => (0, s.read 0 4)) []
    have hgot : (writeString (fun _ s => (0, s.read 0 4)) (fun _ => 0) [0x20AC]
        ⟨.empty fun _ => 0, ([] : List UInt8)⟩).map (fun r => r.2.writer) = some [0, 0, 0, 0] := by
      decide
    rw [hcall, Option.map_some] at hgot
    have hread : s.read 0 4 = [0xE2, 0x82, 0xAC, 0] := hhands.trans (by decide)
    exact absurd (hread.symm.trans (Option.some.inj hgot)) (by decide)
  · intro h
    obtain ⟨convBuf', s, hcall, -⟩ := h Unit (fun _ _ _ => (0, ())) ()
    have hnone : convertToBuf (fun _ => 0) [] (.empty fun _ => 0) = none :=
      convertToBuf_of_empty _ rfl _
    simp only [writeAttribute, hnone, Option.bind_none, reduceCtorEq] at hcall

end XmlWriter

/-! ## Reading -/

theorem rdropWhile_dropWhile_spec {α : Type} (p : α → Bool) (s : List α) :
    ∃ l r, s = l ++ (s.dropWhile p).rdropWhile p ++ r ∧ (∀ c ∈ l ++ r, p c = true) ∧
      ∀ h : (s.dropWhile p).rdropWhile p ≠ [],
        ¬p (((s.dropWhile p).rdropWhile p).head h) = true ∧
        ¬p (((s.dropWhile p).rdropWhile p).getLast h) = true := by
  refine ⟨s.takeWhile p, (s.dropWhile p).rtakeWhile p, ?_, fun c hc => ?_, fun h => ⟨?_, ?_⟩⟩
  · rw [List.append_assoc, List.rdropWhile_append_rtakeWhile, List.takeWhile_append_dropWhile]
  · rcases List.mem_append.1 hc with hc | hc
    · exact List.mem_takeWhile_imp hc
    · exact List.mem_rtakeWhile_imp hc
  · have hstart := List.rdropWhile_prefix p (s.dropWhile p)
    have hne : s.dropWhile p ≠ [] := fun hnil => h (by rw [hnil, List.rdropWhile_nil])
    rw [hstart.head h, List.head_dropWhile_not p hne]
    simp
  · exact List.rdropWhile_last_not p _ h

/-- What is trimmed off are characters to trim, and none of them is left at an end. -/
theorem trimPiece_spec {chars : List UInt32} (hchars : chars ≠ []) (s : List UInt32) :
    ∃ l r, s = l ++ trimPiece chars s ++ r ∧ (∀ c ∈ l ++ r, c ∈ chars) ∧
      ∀ h : trimPiece chars s ≠ [], (trimPiece chars s).head h ∉ chars ∧
        (trimPiece chars s).getLast h ∉ chars := by
  have hspec := rdropWhile_dropWhile_spec (fun c => chars.contains c) s
  have htrim : trimPiece chars s = (s.dropWhile fun c => chars.contains c).rdropWhile
      fun c => chars.contains c :=
    if_neg fun h => hchars (List.length_eq_zero_iff.1 h)
  rw [← htrim] at hspec
  simpa only [List.contains_iff_mem] using hspec

namespace XmlDocument

/-- The characters of a string of any length. -/
def decode (s : Bytes) : Option (List UInt32) := convertLoop (s.length + 1) s s.length

/-- The decoded text, trimmed if it is to be; none if there are bytes that are no characters. -/
def text (trimResults : Bool) (s : Bytes) : List UInt32 :=
  let str := (decode s).getD []
  if trimResults then trimPiece trimChars str else str

/-- The bytes that are seen of a string whose length is taken for an `int`. -/
def seen (s : Bytes) : Bytes := s.take (intOfSize s.length).toNat

theorem seen_of_lt {s : Bytes} (h : s.length < 2 ^ 31) : seen s = s := by
  rw [seen, intOfSize_of_lt h, Int.toNat_natCast, List.take_length]

theorem tryConvertUTF8UTF16_eq (s : Bytes) : tryConvertUTF8UTF16 s = decode (seen s) := by
  have hle := intOfSize_le s.length
  have hmod := Nat.mod_le s.length 0x80000000
  have hlen : (seen s).length = (intOfSize s.length).toNat := by
    rw [seen, List.length_take]
    omega
  rw [tryConvertUTF8UTF16, decode, hlen]
  by_cases hneg : intOfSize s.length < 0
  · rw [convertLoop_end _ _ (by omega), convertLoop_end _ _ (by omega)]
  · rw [Int.toNat_of_nonneg (by omega), seen]
    exact (convertLoop_take (by omega) (by omega) (by omega) (by omega) (by omega)).symm

/-- The conversion succeeds for every string with a byte. -/
theorem convertFromBuf_eq (fresh : Memory UInt32) {s : Bytes} (hs : 0 < s.length)
    (convBuf : StaticScopedBuf UInt32 0x100) : ∃ convBuf',
    convertFromBuf fresh s convBuf = some ((tryConvertUTF8UTF16 s).getD [], convBuf') := by
  obtain ⟨ret, written, hloop, hnone, hsome⟩ := tryConvertUTF8UTF16Buffer_eq s s.length
  have hmod := Nat.mod_le s.length 0x80000000
  have hlim := intOfSize_le s.length
  have hsize := StaticScopedBuf.pSize_reserve fresh s.length convBuf
  obtain ⟨m, hm⟩ := StaticScopedBuf.exists_data (by omega : 0 < (convBuf.reserve fresh s.length).pSize)
  have hfits : 0 + written.length ≤ (convBuf.reserve fresh s.length).pSize := by
    cases hout : tryConvertUTF8UTF16 s with
    | none =>
        have hlen := (hnone hout).2
        omega
    | some out =>
        rw [(hsome out hout).2, List.length_take]
        omega
  obtain ⟨b, hstore, hsize', hdata⟩ := StaticScopedBuf.exists_store hm hfits
  rw [convertFromBuf, StaticScopedBuf.alloc_of_pos fresh hs, Option.bind_some, hsize, hloop,
    Option.bind_some]
  simp only [hstore, Option.bind_some]
  cases hout : tryConvertUTF8UTF16 s with
  | none => exact ⟨b, by rw [if_pos (hnone hout).1]; rfl⟩
  | some out =>
      have hlen := length_le_of_convertLoop hout
      obtain ⟨hret, hwritten⟩ := hsome out hout
      have hall : written = out := by rw [hwritten, List.take_of_length_le (by omega)]
      rw [intOfSize_of_lt (by omega)] at hret
      have hload := StaticScopedBuf.load_of_le hdata (by omega : written.length ≤ b.pSize)
      rw [Memory.read_write_self] at hload
      refine ⟨b, ?_⟩
      rw [if_neg (by omega), if_neg (by omega), hret, Int.toNat_natCast, ← hall, hload]
      rfl

/-- `XPath` returns whether there is text, and stores it if so. -/
def Returns (fresh : Memory UInt32) (s : Bytes) (r : List UInt32) (xml : XmlDocument) : Prop :=
  ∃ xml', xpath fresh (some s) (some r) xml = some (!(text xml.trimResults s).isEmpty,
    if (text xml.trimResults s).isEmpty then some r else some (text xml.trimResults s), xml')

theorem xpath_of_empty (fresh : Memory UInt32) (r : Option (List UInt32)) (xml : XmlDocument) :
    xpath fresh (some []) r xml = none := by
  rw [xpath, convertFromBuf, List.length_nil, StaticScopedBuf.alloc_zero, Option.bind_none,
    Option.map_none]

/-- `XPath` returns the text of what it sees. -/
theorem xpath_eq (fresh : Memory UInt32) {s : Bytes} (hs : 0 < s.length) (r : List UInt32)
    (xml : XmlDocument) : ∃ xml', xpath fresh (some s) (some r) xml
      = some (!(text xml.trimResults (seen s)).isEmpty,
        if (text xml.trimResults (seen s)).isEmpty then some r
          else some (text xml.trimResults (seen s)), xml') := by
  obtain ⟨convBuf', hconvert⟩ := convertFromBuf_eq fresh hs xml.convBuf
  refine ⟨{ xml with convBuf := convBuf' }, ?_⟩
  rw [tryConvertUTF8UTF16_eq] at hconvert
  simp only [xpath, hconvert, Option.map_some, text]
  rfl

/-- **What `XPath` returns.** It returns the text exactly if the string value is not empty, and all
of its text is in the bytes that an `int` counts. -/
theorem returns_iff (fresh : Memory UInt32) (s : Bytes) (r : List UInt32) (xml : XmlDocument) :
    Returns fresh s r xml ↔ s ≠ [] ∧
      (s.length < 2 ^ 31 ∨ text xml.trimResults (seen s) = text xml.trimResults s) := by
  rcases Nat.eq_zero_or_pos s.length with hempty | hpos
  · have hnil : s = [] := List.length_eq_zero_iff.1 hempty
    subst hnil
    refine iff_of_false ?_ fun h => h.1 rfl
    rintro ⟨xml', hreturn⟩
    rw [xpath_of_empty] at hreturn
    exact absurd hreturn (by simp)
  · have hne : s ≠ [] := List.length_pos_iff.1 hpos
    obtain ⟨xml', hxpath⟩ := xpath_eq fresh hpos r xml
    constructor
    · rintro ⟨xml'', hreturn⟩
      refine ⟨hne, .inr ?_⟩
      have hsame := Option.some.inj (hxpath.symm.trans hreturn)
      have hbool := congrArg Prod.fst hsame
      have hstored := congrArg (fun p => p.2.1) hsame
      simp only at hbool hstored
      cases hnone : (text xml.trimResults s).isEmpty with
      | true =>
          rw [hnone] at hbool
          rw [List.isEmpty_iff.1 hnone]
          exact List.isEmpty_iff.1 (Bool.not_inj hbool)
      | false =>
          rw [hnone] at hbool hstored
          rw [Bool.not_inj hbool] at hstored
          exact Option.some.inj hstored
    · rintro ⟨-, hshort | hsame⟩
      · rw [seen_of_lt hshort] at hxpath
        exact ⟨xml', hxpath⟩
      · rw [hsame] at hxpath
        exact ⟨xml', hxpath⟩

/-- The string value of an element without text ends the process. -/
theorem not_returns : ¬Returns (fun _ => 0) [] [] ⟨.empty fun _ => 0, true⟩ := by
  rintro ⟨xml', hreturn⟩
  have hnone := xpath_of_empty (fun _ => 0) (some []) ⟨.empty fun _ => 0, true⟩
  exact absurd (hnone.symm.trans hreturn) (Option.some_ne_none _).symm

end XmlDocument

end ImageProxy.Cpcl
