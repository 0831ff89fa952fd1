import Mathlib.Data.List.DropRight
import ImageProxy.Library.Ascii

set_option autoImplicit false

/-! # Paths (`file_util.h`, `file_util.hpp`)

A path is cut behind its last delimiter, and put together with one. The scans go from the end to the
front; only `NormalizePath` does not look where the front is. -/

namespace ImageProxy.Cpcl

/-- `os_path_traits` with the other slash, and the end of a C string. -/
structure OsPathTraits (α : Type) where
  delimiter : α
  invalidDelimiter : α
  nul : α
  invalidDelimiter_ne : invalidDelimiter ≠ delimiter

namespace OsPathTraits

/-- The traits of `char` but on Windows. -/
def posix : OsPathTraits UInt8 where
  delimiter := Ascii.asc '/'
  invalidDelimiter := Ascii.asc '\\'
  nul := 0
  invalidDelimiter_ne := by decide

variable {α : Type} [DecidableEq α] (traits : OsPathTraits α)

/-! ## The source -/

/-- What stands for `c` after the first loop of `NormalizePath`. -/
def replaced (c : α) : α := if traits.invalidDelimiter = c then traits.delimiter else c

/-- `std::char_traits::length`; `none` if there is no end. -/
def cLength (path : List α) : Option ℕ :=
  if traits.nul ∈ path then some (path.idxOf traits.nul) else none

/-- The loop `while (delimiter == *path) --path;` with `path` at the index `k - 1`; `none` if it looks
in front of the string. -/
def backLoop (path : List α) : (k : ℕ) → Option ℤ
  | 0 => none
  | k + 1 => path[k]?.bind fun c => if traits.delimiter = c then backLoop path k else some k

/-- `NormalizePath(path, path_size)`, `path` with all that is behind the pointer: the characters
afterwards, and the index of the pointer that is returned. -/
def normalizePath (path : List α) (pathSize : ℕ) : Option (List α × ℤ) :=
  (if pathSize = 0 then traits.cLength path else some pathSize).bind fun pathSize =>
    if pathSize ≤ path.length then
      let path := (path.take pathSize).map traits.replaced ++ path.drop pathSize
      (traits.backLoop path pathSize).map fun i => (path, i)
    else none

/-- `NormalizePath` of a `std::basic_string`. -/
def normalizePathString (path : List α) : Option (List α) :=
  (traits.normalizePath (path ++ [traits.nul]) path.length).map fun r => r.1.take (r.2 + 1).toNat

/-- `FileName`. -/
def fileName (s : List α) : List α := s.rtakeWhile (· ≠ traits.delimiter)

/-- The loop of `DirName`, `i` being the characters from `i` down to the first: what is left of them,
and `t`. -/
def dirNameLoop : (i : List α) → (t : Bool) → List α × Bool
  | [], t => ([], t)
  | c :: i, t =>
      if c = traits.delimiter then dirNameLoop i true
      else if t then (c :: i, t) else dirNameLoop i t

/-- `DirName`. -/
def dirName (s : List α) : List α :=
  let (i, t) := traits.dirNameLoop s.reverse false
  if t then i.reverse else []

/-- `Join`. -/
def join (v s : List α) : List α :=
  let v := v.rdropWhile (· = traits.delimiter)
  let s := s.dropWhile (· = traits.delimiter)
  if v = [] then s else if s = [] then v else v ++ [traits.delimiter] ++ s

/-! ## Cutting and putting together -/

variable {traits}

theorem dirNameLoop_true (i : List α) :
    traits.dirNameLoop i true = (i.dropWhile (· = traits.delimiter), true) := by
  induction i with
  | nil => rfl
  | cons c i ih =>
      rw [dirNameLoop, List.dropWhile_cons]
      by_cases hc : c = traits.delimiter
      · simp [hc, ih]
      · simp [hc]

theorem dirNameLoop_false (i : List α) : traits.dirNameLoop i false
    = ((i.dropWhile (· ≠ traits.delimiter)).dropWhile (· = traits.delimiter),
      decide (traits.delimiter ∈ i)) := by
  induction i with
  | nil => rfl
  | cons c i ih =>
      rw [dirNameLoop, List.dropWhile_cons]
      by_cases hc : c = traits.delimiter
      · simp [hc, dirNameLoop_true]
      · simp [hc, Ne.symm hc, ih]

/-- `DirName` is what is in front of the last run of delimiters that has a name, or nothing, behind
it. -/
theorem dirName_eq (s : List α) : traits.dirName s
    = (s.rdropWhile (· ≠ traits.delimiter)).rdropWhile (· = traits.delimiter) := by
  have hcut : s.rdropWhile (· ≠ traits.delimiter)
      = (s.reverse.dropWhile (· ≠ traits.delimiter)).reverse := rfl
  rw [dirName, dirNameLoop_false, hcut, List.rdropWhile_reverse]
  simp only [decide_eq_true_eq, List.mem_reverse]
  split
  · rfl
  · next hnone =>
      have hall : s.reverse.dropWhile (· ≠ traits.delimiter) = [] := by
        refine List.dropWhile_eq_nil_iff.2 fun c hc => ?_
        rw [List.mem_reverse] at hc
        exact decide_eq_true fun h => hnone (h ▸ hc)
      rw [hall]
      rfl

/-- A path that is absolute begins with the delimiter. -/
def Absolute (traits : OsPathTraits α) (s : List α) : Prop := s.head? = some traits.delimiter

/-- What is in front of the last delimiter, and what is behind it. -/
theorem exists_split {s : List α} (h : traits.delimiter ∈ s) :
    ∃ d, s = d ++ traits.delimiter :: traits.fileName s ∧
      s.rdropWhile (· ≠ traits.delimiter) = d ++ [traits.delimiter] := by
  have hsplit : s.rdropWhile (· ≠ traits.delimiter) ++ traits.fileName s = s :=
    List.rdropWhile_append_rtakeWhile
  have hne : s.rdropWhile (· ≠ traits.delimiter) ≠ [] := by
    intro hnil
    have hall := List.rdropWhile_eq_nil_iff.1 hnil _ h
    simp at hall
  have hlast := List.rdropWhile_last_not _ _ hne
  have hdelimiter : (s.rdropWhile (· ≠ traits.delimiter)).getLast hne = traits.delimiter := by
    simpa using hlast
  have hcut := List.dropLast_append_getLast hne
  rw [hdelimiter] at hcut
  exact ⟨_, by rw [← List.singleton_append, ← List.append_assoc, hcut, hsplit], hcut.symm⟩

theorem delimiter_notMem_fileName (s : List α) : traits.delimiter ∉ traits.fileName s := by
  intro h
  have hne := List.mem_rtakeWhile_imp h
  simp at hne

/-- Without a doubled delimiter, what is in front of one does not end with one. -/
theorem rdropWhile_of_not_doubled {s d f : List α} (hs : s = d ++ traits.delimiter :: f)
    (hdoubled : ¬[traits.delimiter, traits.delimiter] <:+: s) :
    d.rdropWhile (· = traits.delimiter) = d := by
  refine List.rdropWhile_eq_self_iff.2 fun hne hlast => hdoubled ⟨d.dropLast, f, ?_⟩
  have hdelimiter : d.getLast hne = traits.delimiter := of_decide_eq_true hlast
  have hd := List.dropLast_append_getLast hne
  rw [hdelimiter] at hd
  rw [hs]
  conv_rhs => rw [← hd]
  simp only [List.append_assoc, List.cons_append, List.nil_append]

/-- A path, no two delimiters of which are next to each other and which does not end with one, is put
together again if it has a delimiter behind its first character; one with the delimiter in front only
loses it. -/
theorem join_dirName_fileName {s : List α} (hmem : traits.delimiter ∈ s)
    (hlast : s.getLast? ≠ some traits.delimiter)
    (hdoubled : ¬[traits.delimiter, traits.delimiter] <:+: s) :
    traits.join (traits.dirName s) (traits.fileName s)
      = if traits.delimiter ∈ s.tail then s else s.tail := by
  obtain ⟨d, hs, hcut⟩ := exists_split hmem
  have hnot : traits.delimiter ∉ traits.fileName s := delimiter_notMem_fileName s
  have hdir : traits.dirName s = d := by
    rw [dirName_eq, hcut, List.rdropWhile_concat, if_pos (decide_eq_true rfl)]
    exact rdropWhile_of_not_doubled hs hdoubled
  have hname : (traits.fileName s).dropWhile (· = traits.delimiter) = traits.fileName s := by
    refine List.dropWhile_eq_self_iff.2 fun hpos hhead => hnot ?_
    rw [← of_decide_eq_true hhead]
    exact List.getElem_mem hpos
  have hne : traits.fileName s ≠ [] := by
    intro hnil
    rw [hnil] at hs
    exact hlast (by rw [hs, List.getLast?_concat])
  rw [join, hdir, rdropWhile_of_not_doubled hs hdoubled, hname, if_neg hne]
  by_cases hd : d = []
  · have htail : s.tail = traits.fileName s := by
      rw [hd, List.nil_append] at hs
      exact congrArg List.tail hs
    rw [if_pos hd, htail, if_neg hnot]
  · have htail : traits.delimiter ∈ s.tail := by
      rw [hs, List.tail_append_of_ne_nil hd]
      exact List.mem_append_right _ List.mem_cons_self
    rw [if_neg hd, if_pos htail, List.append_assoc, List.singleton_append, ← hs]

/-- The path is put together again, and is absolute if it was, if and only if there is a delimiter
behind its first character. -/
theorem join_dirName_fileName_iff (traits : OsPathTraits α) (s : List α)
    (hmem : traits.delimiter ∈ s) (hlast : s.getLast? ≠ some traits.delimiter)
    (hdoubled : ¬[traits.delimiter, traits.delimiter] <:+: s) :
    (traits.join (traits.dirName s) (traits.fileName s) = s ∧
      (Absolute traits (traits.join (traits.dirName s) (traits.fileName s)) ↔ Absolute traits s))
      ↔ traits.delimiter ∈ s.tail := by
  rw [join_dirName_fileName hmem hlast hdoubled]
  split
  · next htail => exact iff_of_true ⟨rfl, Iff.rfl⟩ htail
  · next htail =>
      refine iff_of_false (fun h => ?_) htail
      have hlen := congrArg List.length h.1
      rw [List.length_tail] at hlen
      have hpos := List.length_pos_of_mem hmem
      omega

/-- `a/b`. -/
theorem join_dirName_fileName_relative :
    posix.join (posix.dirName (Ascii.lit "a/b")) (posix.fileName (Ascii.lit "a/b"))
        = Ascii.lit "a/b" ∧
      (Absolute posix
          (posix.join (posix.dirName (Ascii.lit "a/b")) (posix.fileName (Ascii.lit "a/b"))) ↔
        Absolute posix (Ascii.lit "a/b")) :=
  (join_dirName_fileName_iff posix (Ascii.lit "a/b") (by decide) (by decide) (by decide)).2
    (by decide)

/-- A file in the root. -/
theorem join_dirName_fileName_root :
    posix.join (posix.dirName (Ascii.lit "/a")) (posix.fileName (Ascii.lit "/a")) ≠ Ascii.lit "/a" ∧
      Absolute posix (Ascii.lit "/a") ∧
      ¬Absolute posix
        (posix.join (posix.dirName (Ascii.lit "/a")) (posix.fileName (Ascii.lit "/a"))) := by
  unfold Absolute
  decide

/-! ## Normalizing -/

/-- The path without foreign delimiters, and without delimiters at its end. -/
def normalized (traits : OsPathTraits α) (s : List α) : List α :=
  (s.map traits.replaced).rdropWhile (· = traits.delimiter)

/-- The scan finds the last character that is no delimiter, if there is one. -/
theorem backLoop_eq {path : List α} {k : ℕ} (hk : k ≤ path.length) :
    traits.backLoop path k =
      if (path.take k).rdropWhile (· = traits.delimiter) = [] then none
      else some ((((path.take k).rdropWhile (· = traits.delimiter)).length : ℤ) - 1) := by
  induction k with
  | zero => simp [backLoop]
  | succ k ih =>
      have htake : path.take (k + 1) = path.take k ++ [path[k]] :=
        List.take_succ_eq_append_getElem hk
      rw [backLoop, List.getElem?_eq_getElem hk, Option.bind_some, htake, List.rdropWhile_concat]
      by_cases hc : path[k] = traits.delimiter
      · rw [if_pos hc.symm, if_pos (decide_eq_true hc)]
        exact ih (Nat.le_of_succ_le hk)
      · have hkept : ¬(decide (path[k] = traits.delimiter)) = true := by simpa using hc
        have hne : path.take k ++ [path[k]] ≠ [] :=
          List.append_ne_nil_of_right_ne_nil _ (List.cons_ne_nil _ _)
        rw [if_neg (Ne.symm hc), if_neg hkept, if_neg hne, List.length_append,
          List.length_singleton, List.length_take, Nat.min_eq_left (Nat.le_of_succ_le hk)]
        congr 1
        omega

theorem cLength_concat {s : List α} (h : traits.nul ∉ s) :
    traits.cLength (s ++ [traits.nul]) = some s.length := by
  rw [cLength, if_pos (List.mem_append_right _ (List.mem_singleton_self _)),
    List.idxOf_append_of_notMem h, List.idxOf_cons_self, Nat.add_zero]

/-- The pointer form, with the length or with the end of the string in place of it. -/
theorem normalizePath_eq {s : List α} {pathSize : ℕ}
    (h : pathSize = s.length ∨ pathSize = 0 ∧ traits.nul ∉ s) :
    traits.normalizePath (s ++ [traits.nul]) pathSize =
      if normalized traits s = [] then none
      else some (s.map traits.replaced ++ [traits.nul], ((normalized traits s).length : ℤ) - 1) := by
  have hsize : (if pathSize = 0 then traits.cLength (s ++ [traits.nul]) else some pathSize)
      = some s.length := by
    split
    · next hzero =>
        refine cLength_concat ?_
        rcases h with hlen | ⟨-, hnul⟩
        · rw [List.length_eq_zero_iff.1 (hlen.symm.trans hzero)]
          exact List.not_mem_nil
        · exact hnul
    · next hpos => rw [h.resolve_right fun hzero => hpos hzero.1]
  have hlen : s.length ≤ (s.map traits.replaced ++ [traits.nul]).length := by
    rw [List.length_append, List.length_map]
    exact Nat.le_add_right _ _
  have htake : (s.map traits.replaced ++ [traits.nul]).take s.length = s.map traits.replaced := by
    rw [← List.length_map traits.replaced, List.take_left]
  rw [normalizePath, hsize, Option.bind_some, if_pos (by simp), List.take_left, List.drop_left]
  simp only [backLoop_eq hlen, htake]
  by_cases hnil : normalized traits s = []
  · rw [if_pos hnil, normalized] at *
    rw [if_pos hnil, Option.map_none]
  · rw [if_neg hnil]
    rw [normalized] at hnil
    rw [if_neg hnil, Option.map_some, normalized]

theorem normalizePathString_eq (s : List α) :
    traits.normalizePathString s
      = if normalized traits s = [] then none else some (normalized traits s) := by
  rw [normalizePathString, normalizePath_eq (.inl rfl)]
  have hstart : normalized traits s <+: s.map traits.replaced ++ [traits.nul] :=
    (List.rdropWhile_prefix _ _).trans (List.prefix_append _ _)
  split
  · rfl
  · rw [Option.map_some, Int.sub_add_cancel, Int.toNat_natCast, ← List.prefix_iff_eq_take.1 hstart]

theorem replaced_ne (c : α) : traits.replaced c ≠ traits.invalidDelimiter := by
  unfold replaced
  split
  · exact traits.invalidDelimiter_ne.symm
  · next hne => exact Ne.symm hne

theorem replaced_eq_delimiter {c : α} :
    traits.replaced c = traits.delimiter ↔ c = traits.delimiter ∨ c = traits.invalidDelimiter := by
  unfold replaced
  split
  · next heq => exact iff_of_true rfl (.inr heq.symm)
  · next hne => exact ⟨.inl, fun h => h.resolve_right (Ne.symm hne)⟩

theorem normalized_eq_nil_iff {s : List α} : normalized traits s = []
    ↔ ∀ c ∈ s, c = traits.delimiter ∨ c = traits.invalidDelimiter := by
  rw [normalized, List.rdropWhile_eq_nil_iff]
  simp only [List.forall_mem_map, decide_eq_true_eq, replaced_eq_delimiter]

theorem invalidDelimiter_notMem_normalized (s : List α) :
    traits.invalidDelimiter ∉ normalized traits s := by
  intro h
  obtain ⟨c, -, hc⟩ := List.mem_map.1 ((List.rdropWhile_prefix _ _).subset h)
  exact replaced_ne c hc

theorem map_replaced_normalized (s : List α) :
    (normalized traits s).map traits.replaced = normalized traits s := by
  conv_rhs => rw [← List.map_id (normalized traits s)]
  refine List.map_congr_left fun c hc => if_neg fun heq => ?_
  exact invalidDelimiter_notMem_normalized s (heq ▸ hc)

theorem normalized_normalized (s : List α) :
    normalized traits (normalized traits s) = normalized traits s := by
  conv_lhs => rw [normalized, map_replaced_normalized]
  exact List.rdropWhile_idempotent _ _

/-- What normalizing is for: in both forms the foreign delimiters are replaced and the delimiters at
the end removed, no more and no less, and a second time changes nothing. The pointer is to the last
character that is left. -/
def Normalizes (traits : OsPathTraits α) (s : List α) : Prop :=
  ∃ r n, s.map traits.replaced = r ++ List.replicate n traits.delimiter ∧
    r.getLast? ≠ some traits.delimiter ∧ traits.invalidDelimiter ∉ r ∧
    (∀ pathSize, pathSize = s.length ∨ pathSize = 0 ∧ traits.nul ∉ s →
      traits.normalizePath (s ++ [traits.nul]) pathSize
        = some (s.map traits.replaced ++ [traits.nul], (r.length : ℤ) - 1)) ∧
    traits.normalizePathString s = some r ∧
    traits.normalizePath (r ++ [traits.nul]) r.length
      = some (r ++ [traits.nul], (r.length : ℤ) - 1) ∧
    traits.normalizePathString r = some r

/-- A path is normalized if and only if it has a character that is no delimiter, foreign or not. -/
theorem normalizes_iff (traits : OsPathTraits α) (s : List α) :
    Normalizes traits s ↔ ∃ c ∈ s, c ≠ traits.delimiter ∧ c ≠ traits.invalidDelimiter := by
  have hcondition : (∃ c ∈ s, c ≠ traits.delimiter ∧ c ≠ traits.invalidDelimiter)
      ↔ normalized traits s ≠ [] := by
    rw [Ne, normalized_eq_nil_iff]
    simp only [not_forall, not_or, exists_prop]
  rw [hcondition]
  constructor
  · rintro ⟨r, n, -, -, -, -, hstring, -, -⟩ hnil
    rw [normalizePathString_eq, if_pos hnil] at hstring
    exact absurd hstring (by simp)
  · intro hne
    have hrun : normalized traits s ++ (s.map traits.replaced).rtakeWhile (· = traits.delimiter)
        = s.map traits.replaced := List.rdropWhile_append_rtakeWhile
    have hdelimiters : (s.map traits.replaced).rtakeWhile (· = traits.delimiter)
        = List.replicate _ traits.delimiter :=
      List.eq_replicate_of_mem fun c hc => by simpa using List.mem_rtakeWhile_imp hc
    have hsame : (normalized traits s).map traits.replaced = normalized traits s :=
      map_replaced_normalized s
    have hlast : (normalized traits s).getLast? ≠ some traits.delimiter := by
      rw [List.getLast?_eq_some_getLast hne, Ne, Option.some.injEq]
      exact fun h => List.rdropWhile_last_not _ _ hne (decide_eq_true h)
    refine ⟨normalized traits s, _, by rw [← hdelimiters, hrun], hlast,
      invalidDelimiter_notMem_normalized s, fun pathSize h => ?_, ?_, ?_, ?_⟩
    · rw [normalizePath_eq h, if_neg hne]
    · rw [normalizePathString_eq, if_neg hne]
    · rw [normalizePath_eq (.inl rfl), normalized_normalized, if_neg hne, hsame]
    · rw [normalizePathString_eq, normalized_normalized, if_neg hne]

/-- Neither the empty path nor one of delimiters only is normalized. -/
theorem not_normalizes_delimiters (n : ℕ) (traits : OsPathTraits α) :
    ¬Normalizes traits (List.replicate n traits.delimiter) := by
  rintro ⟨r, _, -, -, -, -, hstring, -, -⟩
  rw [normalizePathString_eq,
    if_pos (normalized_eq_nil_iff.2 fun c hc => .inl (List.eq_of_mem_replicate hc))] at hstring
  exact absurd hstring (Option.some_ne_none r).symm

/-- The root, and the empty path. -/
theorem not_normalizes_root : ¬Normalizes posix (Ascii.lit "/") ∧ ¬Normalizes posix [] :=
  ⟨not_normalizes_delimiters 1 posix, not_normalizes_delimiters 0 posix⟩

end OsPathTraits

end ImageProxy.Cpcl
