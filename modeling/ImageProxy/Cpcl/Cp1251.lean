import Mathlib.Data.List.GetD
import ImageProxy.Cpcl.Utf8Buffers

set_option autoImplicit false

/-! # CP1251 (`string_util.h`, `string_util.cpp`)

One table goes from the bytes to the characters, three smaller ones and some comparisons go back. A
character without a byte gives 0 on the way back; so does U+007F, which has one. -/

namespace ImageProxy.Cpcl

/-! ## The source -/

/-- `CP1251_UTF16_TAB`. -/
def cp1251Utf16Tab : List UInt32 := [
  0x0000, 0x0001, 0x0002, 0x0003, 0x0004, 0x0005, 0x0006, 0x0007, 0x0008, 0x0009,
  0x000A, 0x000B, 0x000C, 0x000D, 0x000E, 0x000F, 0x0010, 0x0011, 0x0012, 0x0013,
  0x0014, 0x0015, 0x0016, 0x0017, 0x0018, 0x0019, 0x001A, 0x001B, 0x001C, 0x001D,
  0x001E, 0x001F, 0x0020, 0x0021, 0x0022, 0x0023, 0x0024, 0x0025, 0x0026, 0x0027,
  0x0028, 0x0029, 0x002A, 0x002B, 0x002C, 0x002D, 0x002E, 0x002F, 0x0030, 0x0031,
  0x0032, 0x0033, 0x0034, 0x0035, 0x0036, 0x0037, 0x0038, 0x0039, 0x003A, 0x003B,
  0x003C, 0x003D, 0x003E, 0x003F, 0x0040, 0x0041, 0x0042, 0x0043, 0x0044, 0x0045,
  0x0046, 0x0047, 0x0048, 0x0049, 0x004A, 0x004B, 0x004C, 0x004D, 0x004E, 0x004F,
  0x0050, 0x0051, 0x0052, 0x0053, 0x0054, 0x0055, 0x0056, 0x0057, 0x0058, 0x0059,
  0x005A, 0x005B, 0x005C, 0x005D, 0x005E, 0x005F, 0x0060, 0x0061, 0x0062, 0x0063,
  0x0064, 0x0065, 0x0066, 0x0067, 0x0068, 0x0069, 0x006A, 0x006B, 0x006C, 0x006D,
  0x006E, 0x006F, 0x0070, 0x0071, 0x0072, 0x0073, 0x0074, 0x0075, 0x0076, 0x0077,
  0x0078, 0x0079, 0x007A, 0x007B, 0x007C, 0x007D, 0x007E, 0x007F, 0x0402, 0x0403,
  0x201A, 0x0453, 0x201E, 0x2026, 0x2020, 0x2021, 0x20AC, 0x2030, 0x0409, 0x2039,
  0x040A, 0x040C, 0x040B, 0x040F, 0x0452, 0x2018, 0x2019, 0x201C, 0x201D, 0x2022,
  0x2013, 0x2014, 0x20DE, 0x2122, 0x0459, 0x203A, 0x045A, 0x045C, 0x045B, 0x045F,
  0x00A0, 0x040E, 0x045E, 0x0408, 0x00A4, 0x0490, 0x00A6, 0x00A7, 0x0401, 0x00A9,
  0x0404, 0x00AB, 0x00AC, 0x00AD, 0x00AE, 0x0407, 0x00B0, 0x00B1, 0x0406, 0x0456,
  0x0491, 0x00B5, 0x00B6, 0x00B7, 0x0451, 0x2116, 0x0454, 0x00BB, 0x0458, 0x0405,
  0x0455, 0x0457, 0x0410, 0x0411, 0x0412, 0x0413, 0x0414, 0x0415, 0x0416, 0x0417,
  0x0418, 0x0419, 0x041A, 0x041B, 0x041C, 0x041D, 0x041E, 0x041F, 0x0420, 0x0421,
  0x0422, 0x0423, 0x0424, 0x0425, 0x0426, 0x0427, 0x0428, 0x0429, 0x042A, 0x042B,
  0x042C, 0x042D, 0x042E, 0x042F, 0x0430, 0x0431, 0x0432, 0x0433, 0x0434, 0x0435,
  0x0436, 0x0437, 0x0438, 0x0439, 0x043A, 0x043B, 0x043C, 0x043D, 0x043E, 0x043F,
  0x0440, 0x0441, 0x0442, 0x0443, 0x0444, 0x0445, 0x0446, 0x0447, 0x0448, 0x0449,
  0x044A, 0x044B, 0x044C, 0x044D, 0x044E, 0x044F]

/-- `CP1251_UTF16`. -/
def cp1251Utf16 (c : UInt8) : UInt32 := cp1251Utf16Tab.getD c.toNat 0

/-- `UTF16_CP1251_TAB_0`. -/
def utf16Cp1251Tab0 : List ℕ := [
  1, 0, 0, 0, 1, 0, 1, 1, 0, 1, 0, 1, 1, 1, 1, 0, 1, 1, 0, 0, 0, 1, 1, 1, 0, 0, 0, 1]

/-- `UTF16_CP1251_TAB_1`. -/
def utf16Cp1251Tab1 : List UInt8 := [
  0xA8, 0x80, 0x81, 0xAA, 0xBD, 0xB2, 0xAF, 0xA3, 0x8A, 0x8C, 0x8E, 0x8D, 0, 0xA1, 0x8F, 0xC0,
  0xC1, 0xC2, 0xC3, 0xC4, 0xC5, 0xC6, 0xC7, 0xC8, 0xC9, 0xCA, 0xCB, 0xCC, 0xCD, 0xCE, 0xCF, 0xD0,
  0xD1, 0xD2, 0xD3, 0xD4, 0xD5, 0xD6, 0xD7, 0xD8, 0xD9, 0xDA, 0xDB, 0xDC, 0xDD, 0xDE, 0xDF, 0xE0,
  0xE1, 0xE2, 0xE3, 0xE4, 0xE5, 0xE6, 0xE7, 0xE8, 0xE9, 0xEA, 0xEB, 0xEC, 0xED, 0xEE, 0xEF, 0xF0,
  0xF1, 0xF2, 0xF3, 0xF4, 0xF5, 0xF6, 0xF7, 0xF8, 0xF9, 0xFA, 0xFB, 0xFC, 0xFD, 0xFE, 0xFF, 0,
  0xB8, 0x90, 0x83, 0xBA, 0xBE, 0xB3, 0xBF, 0xBC, 0x9A, 0x9C, 0x9E, 0x9D, 0, 0xA2, 0x9F]

/-- `UTF16_CP1251_TAB_2`. -/
def utf16Cp1251Tab2 : List UInt8 := [
  0x96, 0x97, 0, 0, 0, 0x91, 0x92, 0x82, 0, 0x93, 0x94, 0x84, 0, 0x86, 0x87, 0x95,
  0, 0, 0, 0x85, 0, 0, 0, 0, 0, 0, 0, 0, 0, 0x89, 0, 0,
  0, 0, 0, 0, 0, 0, 0x8B, 0x9B]

/-- `UTF16_CP1251`; an `int` is compared with its sign. -/
def utf16Cp1251 (w : UInt32) : UInt8 :=
  let u := w.toInt32.toInt
  if u < 0x007F then w.toUInt8
  else if u < 0x2000 then
    if u ≥ 0x00A0 ∧ u ≤ 0x00BB then
      if utf16Cp1251Tab0.getD (u - 0x00A0).toNat 0 ≠ 0 then w.toUInt8 else 0
    else if u ≤ 0x45F then
      if u ≥ 0x0401 then utf16Cp1251Tab1.getD (u - 0x0401).toNat 0 else 0
    else if u = 0x0490 then 0xA5
    else if u = 0x0491 then 0xB4
    else 0
  else if u < 0x2116 then
    if u ≥ 0x2013 ∧ u ≤ 0x203A then utf16Cp1251Tab2.getD (u - 0x2013).toNat 0
    else if u = 0x20AC then 0x88
    else if u = 0x20DE then 0x98
    else 0
  else if u = 0x2116 then 0xB9
  else if u = 0x2122 then 0x99
  else 0

/-! ## What is in the tables -/

/-- No index is outside of its table. -/
theorem cp1251_tables : cp1251Utf16Tab.length = 256 ∧ utf16Cp1251Tab0.length = 0x00BB - 0x00A0 + 1 ∧
    utf16Cp1251Tab1.length = 0x45F - 0x0401 + 1 ∧ utf16Cp1251Tab2.length = 0x203A - 0x2013 + 1 :=
  ⟨by decide +kernel, rfl, by decide +kernel, rfl⟩

theorem toNat_lt_cp1251Utf16Tab (c : UInt8) : c.toNat < cp1251Utf16Tab.length := by
  rw [cp1251_tables.1]
  exact c.toNat_lt

theorem cp1251Utf16_eq (c : UInt8) :
    cp1251Utf16 c = cp1251Utf16Tab.get ⟨c.toNat, toNat_lt_cp1251Utf16Tab c⟩ :=
  List.getD_eq_getElem _ _ _

theorem cp1251Utf16_mem (c : UInt8) : cp1251Utf16 c ∈ cp1251Utf16Tab := by
  rw [cp1251Utf16_eq]
  exact List.get_mem _ _

theorem cp1251Utf16_table : ∀ w ∈ cp1251Utf16Tab, w.toNat < 2 ^ 31 ∧ Restorable w ∧
    (ucToUtf w).length ≤ 3 := by
  have hall : cp1251Utf16Tab.all (fun w => decide
      (w.toNat < 2 ^ 31 ∧ Restorable w ∧ (ucToUtf w).length ≤ 3)) = true := by
    decide +kernel
  intro w hw
  exact of_decide_eq_true (List.all_eq_true.1 hall w hw)

theorem utf16Cp1251_table : cp1251Utf16Tab.map utf16Cp1251
    = (List.range 256).map fun i => if i = 0x7F then 0 else UInt8.ofNat i := by
  decide +kernel

/-- A character of the table is encoded in one to three bytes, and decoded again. -/
theorem cp1251Utf16_lt (c : UInt8) : (cp1251Utf16 c).toNat < 2 ^ 31 :=
  (cp1251Utf16_table _ (cp1251Utf16_mem c)).1

theorem restorable_cp1251Utf16 (c : UInt8) : Restorable (cp1251Utf16 c) :=
  (cp1251Utf16_table _ (cp1251Utf16_mem c)).2.1

theorem length_cp1251Utf16_le (c : UInt8) : (ucToUtf (cp1251Utf16 c)).length ≤ 3 :=
  (cp1251Utf16_table _ (cp1251Utf16_mem c)).2.2

theorem length_cp1251Utf16_pos (c : UInt8) : 0 < (ucToUtf (cp1251Utf16 c)).length :=
  length_ucToUtf_pos (cp1251Utf16_lt c)

/-- Every byte but `0x7F` comes back. -/
theorem utf16Cp1251_cp1251Utf16 (c : UInt8) :
    utf16Cp1251 (cp1251Utf16 c) = if c = 0x7F then 0 else c := by
  have hsame : c.toNat = 0x7F ↔ c = 0x7F :=
    ⟨fun h => UInt8.toNat_inj.1 h, fun h => by rw [h]; rfl⟩
  have hentry := congrArg (fun l => l[c.toNat]?) utf16Cp1251_table
  simp only [List.getElem?_map, List.getElem?_range c.toNat_lt, Option.map_some,
    List.getElem?_eq_getElem (toNat_lt_cp1251Utf16Tab c), UInt8.ofNat_toNat, hsame,
    Option.some.injEq] at hentry
  rw [cp1251Utf16_eq]
  exact hentry

theorem cp1251Utf16_eq_zero {c : UInt8} (h : c = 0) : cp1251Utf16 c = 0 := by
  rw [h]
  rfl

end ImageProxy.Cpcl
