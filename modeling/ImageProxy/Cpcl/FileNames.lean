import ImageProxy.Cpcl.FileUtil

set_option autoImplicit false

/-! # Names of files (`file_util.hpp`)

The name of a file is taken apart at its dots, in scans from the end to the front: `BaseFileName` cuts
off the last suffix, `BaseName` all of them, and both stop at a delimiter. `FileExtension` stops at a
dot only, so for a name without one it looks on in the directory. -/

namespace ImageProxy.Cpcl.OsPathTraits

variable {α : Type} [DecidableEq α] (traits : OsPathTraits α) (dot : α)

/-! ## The source -/

/-- The loop of `BaseName`, `i` being the characters from `i` down to the first, and `name` those
behind `i` up to `path_tail`. -/
def baseNameLoop : (i name : List α) → List α
  | [], name => name
  | c :: i, name =>
      if c = dot then baseNameLoop i []
      else if c = traits.delimiter then name else baseNameLoop i (c :: name)

/-- `BaseName`. -/
def baseName (s : List α) : List α := traits.baseNameLoop dot s.reverse []

/-- The loop of `BaseFileName`. -/
def baseFileNameLoop : (i name : List α) → (stripSuffix : Bool) → List α
  | [], name, _ => name
  | c :: i, name, stripSuffix =>
      if !stripSuffix && c = dot then baseFileNameLoop i [] true
      else if c = traits.delimiter then name else baseFileNameLoop i (c :: name) stripSuffix

/-- `BaseFileName`. -/
def baseFileName (s : List α) : List α := traits.baseFileNameLoop dot s.reverse [] false

/-- The loop of `FileExtension`. -/
def fileExtensionLoop : (i name : List α) → List α
  | [], _ => []
  | c :: i, name => if c = dot then name else fileExtensionLoop i (c :: name)

/-- `FileExtension`. -/
def fileExtension (s : List α) : List α := fileExtensionLoop dot s.reverse []

/-! ## What the scans find -/

variable {traits dot}

omit [DecidableEq α] in
theorem takeWhile_append_cons {p : α → Bool} {c : α} (hc : p c = false) (x y : List α) :
    (x ++ c :: y).takeWhile p = x.takeWhile p := by
  induction x with
  | nil => simp [hc]
  | cons d x ih =>
      rw [List.cons_append, List.takeWhile_cons, List.takeWhile_cons, ih]

theorem baseNameLoop_eq (hdot : dot ≠ traits.delimiter) (i : List α) {name : List α}
    (hname : dot ∉ name) : traits.baseNameLoop dot i name
      = ((i.takeWhile (· ≠ traits.delimiter)).reverse ++ name).takeWhile (· ≠ dot) := by
  induction i generalizing name with
  | nil =>
      have hall : name.takeWhile (· ≠ dot) = name :=
        List.takeWhile_eq_self_iff.2 fun c hc => decide_eq_true fun h => hname (h ▸ hc)
      simpa [baseNameLoop] using hall.symm
  | cons c i ih =>
      rw [baseNameLoop]
      split_ifs with hc hdelimiter
      · -- all that was found is behind a dot
        subst hc
        rw [ih List.not_mem_nil, List.takeWhile_cons, if_pos (by simpa using hdot),
          List.reverse_cons, List.append_assoc, List.append_nil]
        exact (takeWhile_append_cons (by simp) _ name).symm
      · have hall : name.takeWhile (· ≠ dot) = name :=
          List.takeWhile_eq_self_iff.2 fun c hc => decide_eq_true fun h => hname (h ▸ hc)
        rw [List.takeWhile_cons, if_neg (by simpa using hdelimiter)]
        exact hall.symm
      · rw [ih (by simp [Ne.symm hc, hname]), List.takeWhile_cons, if_pos (by simpa using hdelimiter),
          List.reverse_cons, List.append_assoc]
        rfl

/-- `BaseName` is what is in front of the first dot of the name. -/
theorem baseName_eq (hdot : dot ≠ traits.delimiter) (s : List α) :
    traits.baseName dot s = (traits.fileName s).takeWhile (· ≠ dot) := by
  rw [baseName, baseNameLoop_eq hdot _ List.not_mem_nil, List.append_nil]
  rfl

theorem baseFileNameLoop_true (i name : List α) : traits.baseFileNameLoop dot i name true
    = (i.takeWhile (· ≠ traits.delimiter)).reverse ++ name := by
  induction i generalizing name with
  | nil => rfl
  | cons c i ih =>
      rw [baseFileNameLoop, List.takeWhile_cons]
      by_cases hc : c = traits.delimiter
      · simp [hc]
      · simp [hc, ih]

theorem fileExtensionLoop_eq (i name : List α) : fileExtensionLoop dot i name
    = if dot ∈ i then (i.takeWhile (· ≠ dot)).reverse ++ name else [] := by
  induction i generalizing name with
  | nil => rfl
  | cons c i ih =>
      rw [fileExtensionLoop, List.takeWhile_cons]
      by_cases hc : c = dot
      · simp [hc]
      · simp [hc, Ne.symm hc, ih]

/-- `FileExtension` is what is behind the last dot of the path. -/
theorem fileExtension_eq (s : List α) :
    fileExtension dot s = if dot ∈ s then s.rtakeWhile (· ≠ dot) else [] := by
  rw [fileExtension, fileExtensionLoop_eq, List.append_nil]
  simp only [List.mem_reverse]
  rfl

/-- If there is a dot in the name, `BaseFileName` and `FileExtension` part at the last one. -/
theorem baseFileNameLoop_of_mem (i name : List α)
    (h : dot ∈ i.takeWhile (· ≠ traits.delimiter)) :
    traits.baseFileNameLoop dot i name false ++ dot :: fileExtensionLoop dot i name
      = (i.takeWhile (· ≠ traits.delimiter)).reverse ++ name := by
  induction i generalizing name with
  | nil => exact absurd h List.not_mem_nil
  | cons c i ih =>
      have hc : c ≠ traits.delimiter := by
        rintro rfl
        simp at h
      rw [List.takeWhile_cons, if_pos (decide_eq_true hc)] at h ⊢
      by_cases hstrip : c = dot
      · simp [baseFileNameLoop, fileExtensionLoop, hstrip, baseFileNameLoop_true]
      · have hrest := ih (c :: name) ((List.mem_cons.1 h).resolve_left (Ne.symm hstrip))
        simpa [baseFileNameLoop, fileExtensionLoop, hc, hstrip] using hrest

theorem baseFileNameLoop_of_notMem (hdot : dot ≠ traits.delimiter) (i name : List α)
    (h : dot ∉ i.takeWhile (· ≠ traits.delimiter)) : traits.baseFileNameLoop dot i name false
      = (i.takeWhile (· ≠ traits.delimiter)).reverse ++ name := by
  induction i generalizing name with
  | nil => rfl
  | cons c i ih =>
      rw [List.takeWhile_cons] at h ⊢
      by_cases hc : c = traits.delimiter
      · simp [baseFileNameLoop, hc, Ne.symm hdot]
      · rw [if_pos (decide_eq_true hc), List.mem_cons, not_or] at h
        have hrest := ih (c :: name) h.2
        simpa [baseFileNameLoop, hc, Ne.symm h.1] using hrest

/-- With both of them in a list, one of two comes first. -/
theorem mem_takeWhile_comm {a b : α} (hne : a ≠ b) {l : List α} (ha : a ∈ l) :
    b ∈ l.takeWhile (· ≠ a) ↔ a ∉ l.takeWhile (· ≠ b) := by
  induction l with
  | nil => exact absurd ha List.not_mem_nil
  | cons c l ih =>
      rw [List.takeWhile_cons, List.takeWhile_cons]
      by_cases hca : c = a
      · simp [hca, hne]
      · by_cases hcb : c = b
        · simp [hcb, Ne.symm hne]
        · have hl : a ∈ l := (List.mem_cons.1 ha).resolve_left (Ne.symm hca)
          simpa [hca, hcb, Ne.symm hca, Ne.symm hcb] using ih hl

theorem mem_fileName (s : List α) :
    dot ∈ traits.fileName s ↔ dot ∈ s.reverse.takeWhile (· ≠ traits.delimiter) := by
  rw [fileName, List.rtakeWhile, List.mem_reverse]

/-- `FileExtension` does not stop at a delimiter. -/
theorem delimiter_mem_fileExtension_iff (hdot : dot ≠ traits.delimiter) (s : List α) :
    traits.delimiter ∈ fileExtension dot s ↔ dot ∈ s ∧ dot ∉ traits.fileName s := by
  rw [fileExtension_eq, mem_fileName]
  split_ifs with hs
  · rw [List.rtakeWhile, List.mem_reverse, mem_takeWhile_comm hdot (List.mem_reverse.2 hs)]
    simp [hs]
  · simp [hs]

/-- **A name is taken apart at its last dot, and if it has one it is put together from its parts
again.** If it has none, it is its own base, and what `FileExtension` returns is no part of it but one of
the directory: it has a delimiter as soon as there is a dot anywhere in the path. -/
theorem fileName_parts (hdot : dot ≠ traits.delimiter) (s : List α) :
    (traits.baseFileName dot s ++ dot :: fileExtension dot s = traits.fileName s ↔
      dot ∈ traits.fileName s) ∧
    (dot ∉ traits.fileName s → traits.baseFileName dot s = traits.fileName s ∧
      traits.baseName dot s = traits.fileName s ∧
      (traits.delimiter ∈ fileExtension dot s ↔ dot ∈ s)) := by
  refine ⟨⟨fun h => ?_, fun hmem => ?_⟩, fun hmem => ⟨?_, ?_, ?_⟩⟩
  · rw [← h]
    exact List.mem_append_right _ List.mem_cons_self
  · have hparts := baseFileNameLoop_of_mem s.reverse [] ((mem_fileName s).1 hmem)
    rwa [List.append_nil] at hparts
  · have hwhole := baseFileNameLoop_of_notMem hdot s.reverse [] (mt (mem_fileName s).2 hmem)
    rwa [List.append_nil] at hwhole
  · rw [baseName_eq hdot, List.takeWhile_eq_self_iff]
    exact fun c hc => decide_eq_true fun h => hmem (h ▸ hc)
  · rw [delimiter_mem_fileExtension_iff hdot]
    exact and_iff_left hmem

/-- A name without a dot, in a directory with one. -/
theorem fileName_parts_directory : posix.fileName (Ascii.lit "/etc.d/passwd") = Ascii.lit "passwd" ∧
    (posix.delimiter ∈ fileExtension (Ascii.asc '.') (Ascii.lit "/etc.d/passwd") ↔
      Ascii.asc '.' ∈ Ascii.lit "/etc.d/passwd") :=
  ⟨by decide, ((fileName_parts (by decide) (Ascii.lit "/etc.d/passwd")).2 (by decide)).2.2⟩

example : fileExtension (Ascii.asc '.') (Ascii.lit "/etc.d/passwd") = Ascii.lit "d/passwd" := by decide

end ImageProxy.Cpcl.OsPathTraits
