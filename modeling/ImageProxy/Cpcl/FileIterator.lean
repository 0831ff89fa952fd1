import ImageProxy.Library.PathNames
import ImageProxy.Cpcl.FileUtil
import ImageProxy.Cpcl.MaskMatch
import ImageProxy.Cpcl.StringUtil

set_option autoImplicit false

/-! # The files of a directory (`file_iterator.h`, `file_iterator_posix.cpp`)

A search path is the directory, or the directory and a mask behind its last slash. The path that is
stored is first that of the directory; what comes behind the directory is then replaced for each
entry. -/

namespace ImageProxy.Cpcl

open Ascii (asc lit)

/-! ## The source -/

/-- `d_type`. -/
inductive EntryType
  | directory
  | unknown
  | other
deriving DecidableEq

/-- What `readdir_r` gives: the name in `d_name` in front of its end, and `d_type`. -/
structure Dirent where
  dName : Bytes
  dType : EntryType
  dName_ne_nil : dName ≠ []
  length_le : dName.length ≤ nameMax
  nul_notMem : 0 ∉ dName
  dType_of_dots : dName = lit "." ∨ dName = lit ".." → dType = .directory ∨ dType = .unknown

/-- The calls to the system: `opendir` with what is then read from the directory, `stat` with whether
a path is a directory and whether it is a regular file, and whether `_BSD_SOURCE` is defined. -/
structure FileSystem where
  opendir : Bytes → Option (List Dirent)
  stat : Bytes → Option (Bool × Bool)
  bsdSource : Bool

/-- `FileInfo` with its two attributes. -/
structure FileInfo where
  directory : Bool
  normal : Bool
  filePath : Bytes

/-- `FileIterator`; the handle is what is left of the directory, and the mask. -/
structure FileIterator where
  handle : Option (List Dirent × MaskMatch UInt8)
  filePath : Bytes
  dirPathSize : ℕ

/-- `StringPieceFromEntry`. -/
def stringPieceFromEntry (bsdSource : Bool) (entry : Dirent) : Bytes :=
  let fileNameSize := entry.dName.length
  if bsdSource = false ∨ entry.dType = .directory ∨ entry.dType = .unknown then
    if entry.dName[0]? = some (asc '.') ∧
        (fileNameSize = 1 ∨ entry.dName[1]? = some (asc '.') ∧ fileNameSize = 2) then []
    else entry.dName
  else entry.dName

/-- `SearchPath`. -/
def searchPathStorage (dirPath : Bytes) : Bytes :=
  dirPath.rdropWhile (· = asc '/') ++ [asc '/']

namespace FileIterator

/-- `dir_path` and `mask` in the constructor. -/
def dirPathAndMask (searchPath : Bytes) : Bytes × Bytes :=
  let fileName := OsPathTraits.posix.fileName searchPath
  let (dirPath, mask) :=
    if fileName ≠ [] then
      if asc '*' ∉ fileName then (searchPath, []) else ([], fileName)
    else ([], [])
  (if dirPath = [] then OsPathTraits.posix.dirName searchPath else dirPath, mask)

/-- `file_path` when `opendir` is called. -/
def openedStorage (searchPath : Bytes) : Bytes :=
  searchPathStorage (dirPathAndMask searchPath).1

/-- What `opendir` is given. -/
def openedPath (searchPath : Bytes) : Bytes := cString (openedStorage searchPath)

/-- `FileIterator(search_path)`. -/
def new (system : FileSystem) (searchPath : Bytes) : FileIterator where
  handle := (system.opendir (openedPath searchPath)).map fun dir =>
    (dir, MaskMatch.new (dirPathAndMask searchPath).2)
  filePath := openedStorage searchPath
  dirPathSize := 0

/-- `SetFilePath`: `file_path` and `dir_path_size`; `none` if it copies more than there is. -/
def setFilePath (filePath : Bytes) (dirPathSize : ℕ) (fileName : Bytes) : Option (Bytes × ℕ) :=
  let dirPathSize :=
    if dirPathSize = 0 then (OsPathTraits.posix.dirName filePath).length + 1 else dirPathSize
  if dirPathSize ≤ filePath.length + 1 then
    some ((filePath ++ [0]).take dirPathSize ++ fileName, dirPathSize)
  else none

/-- `file_name` in `Next`. -/
def entryFileName (system : FileSystem) (mask : MaskMatch UInt8) (entry : Dirent) : Bytes :=
  let fileName := stringPieceFromEntry system.bsdSource entry
  if fileName ≠ [] ∧ ¬mask.apply (asc '*') fileName then [] else fileName

/-- `Next` with a handle: what it stores in `*r`, if there is an entry, and the iterator behind it. -/
def nextEntry (system : FileSystem) (mask : MaskMatch UInt8) (filePath : Bytes) (dirPathSize : ℕ) :
    List Dirent → Option (Option FileInfo × FileIterator)
  | [] => some (none, ⟨none, filePath, dirPathSize⟩)
  | entry :: dir =>
      let fileName := entryFileName system mask entry
      if fileName ≠ [] then
        (setFilePath filePath dirPathSize fileName).map fun (filePath, dirPathSize) =>
          let (directory, normal) := (system.stat (cString filePath)).getD (false, false)
          (some ⟨directory, normal, filePath⟩, ⟨some (dir, mask), filePath, dirPathSize⟩)
      else nextEntry system mask filePath dirPathSize dir

/-- `Next`. -/
def next (system : FileSystem) (it : FileIterator) : Option (Option FileInfo × FileIterator) :=
  match it.handle with
  | none => some (none, it)
  | some (dir, mask) => nextEntry system mask it.filePath it.dirPathSize dir

/-- What `n` calls of `Next` report. -/
def reports (system : FileSystem) : (n : ℕ) → FileIterator → Option (List FileInfo)
  | 0, _ => some []
  | n + 1, it =>
      (it.next system).bind fun (info, it) => (reports system n it).map fun rest =>
        info.toList ++ rest

/-! ## What is opened -/

/-- The directory part: all of the path if there is no star behind its last slash, and what is up to
that slash otherwise. -/
def directoryPart (searchPath : Bytes) : Bytes :=
  if asc '*' ∈ searchPath.rtakeWhile (· ≠ asc '/') then searchPath.rdropWhile (· ≠ asc '/')
  else searchPath

/-- Where a path leads. -/
def location (path : Bytes) : Bool × List Bytes := PathNames.location (asc '/') (lit ".") path

/-- What an iterator is for: it opens the directory of the directory part, with one slash at the end,
and all that it ever reports is that and the name of an entry. -/
def FollowsSearchPath (searchPath : Bytes) : Prop :=
  ∃ d : Bytes, openedPath searchPath = d ++ [asc '/'] ∧ d.getLast? ≠ some (asc '/') ∧
    location (openedPath searchPath) = location (directoryPart searchPath) ∧
    ∀ (system : FileSystem) (n : ℕ), ∃ infos,
      reports system n (new system searchPath) = some infos ∧
      ∀ info ∈ infos, ∃ dir, system.opendir (openedPath searchPath) = some dir ∧
        ∃ entry ∈ dir, entry.dName ≠ lit "." ∧ entry.dName ≠ lit ".." ∧
          info.filePath = d ++ [asc '/'] ++ entry.dName

theorem fileName_eq (s : Bytes) :
    OsPathTraits.posix.fileName s = s.rtakeWhile (· ≠ asc '/') := rfl

/-- In all cases `file_path` is the directory part, with one slash at its end. -/
theorem openedStorage_eq (searchPath : Bytes) : openedStorage searchPath
    = (directoryPart searchPath).rdropWhile (· = asc '/') ++ [asc '/'] := by
  have hdir : OsPathTraits.posix.dirName searchPath
      = (searchPath.rdropWhile (· ≠ asc '/')).rdropWhile (· = asc '/') :=
    OsPathTraits.dirName_eq searchPath
  have htrim : ((searchPath.rdropWhile (· ≠ asc '/')).rdropWhile (· = asc '/')).rdropWhile
      (· = asc '/') = (searchPath.rdropWhile (· ≠ asc '/')).rdropWhile (· = asc '/') :=
    List.rdropWhile_idempotent _ _
  have hsplit : searchPath.rdropWhile (· ≠ asc '/') ++ searchPath.rtakeWhile (· ≠ asc '/')
      = searchPath := List.rdropWhile_append_rtakeWhile
  unfold openedStorage searchPathStorage dirPathAndMask directoryPart
  rw [fileName_eq]
  by_cases hname : searchPath.rtakeWhile (· ≠ asc '/') = []
  · rw [hname, List.append_nil] at hsplit
    rw [hsplit] at hdir
    simp only [hname, ne_eq, not_true_eq_false, if_false, if_true, List.not_mem_nil, hdir]
    rw [List.rdropWhile_idempotent]
  · by_cases hstar : asc '*' ∈ searchPath.rtakeWhile (· ≠ asc '/')
    · simp only [hname, ne_eq, not_false_eq_true, if_true, hstar, not_true_eq_false, if_false, hdir,
        htrim]
    · have hne : searchPath ≠ [] := by
        intro hnil
        rw [hnil] at hname
        exact hname rfl
      simp only [hname, ne_eq, not_false_eq_true, if_true, hstar, hne, if_false]

/-! ## What is reported -/

/-- An entry is left out, or it is neither `.` nor `..`. -/
theorem stringPieceFromEntry_spec (bsdSource : Bool) (entry : Dirent) :
    stringPieceFromEntry bsdSource entry = [] ∨
      stringPieceFromEntry bsdSource entry = entry.dName ∧ entry.dName ≠ lit "." ∧
        entry.dName ≠ lit ".." := by
  by_cases hdots : entry.dName = lit "." ∨ entry.dName = lit ".."
  · left
    unfold stringPieceFromEntry
    rw [if_pos (.inr (entry.dType_of_dots hdots))]
    rcases hdots with hdot | hdot
    · rw [hdot]
      rfl
    · rw [hdot]
      rfl
  · rw [not_or] at hdots
    simp only [stringPieceFromEntry]
    split
    · split
      · exact .inl rfl
      · exact .inr ⟨rfl, hdots⟩
    · exact .inr ⟨rfl, hdots⟩

theorem entryFileName_spec (system : FileSystem) (mask : MaskMatch UInt8) (entry : Dirent) :
    entryFileName system mask entry = [] ∨
      entryFileName system mask entry = entry.dName ∧ entry.dName ≠ lit "." ∧
        entry.dName ≠ lit ".." := by
  simp only [entryFileName]
  split
  · exact .inl rfl
  · exact stringPieceFromEntry_spec system.bsdSource entry

/-- `file_path` and `dir_path_size` for the directory `d`: before the first report, and behind one. -/
def InDirectory (d filePath : Bytes) (dirPathSize : ℕ) : Prop :=
  dirPathSize = 0 ∧ filePath = d ++ [asc '/'] ∨
    dirPathSize = d.length + 1 ∧ ∃ name, filePath = d ++ [asc '/'] ++ name

theorem dirName_concat {d : Bytes} (hd : d.getLast? ≠ some (asc '/')) :
    OsPathTraits.posix.dirName (d ++ [asc '/']) = d := by
  have hdir : OsPathTraits.posix.dirName (d ++ [asc '/'])
      = ((d ++ [asc '/']).rdropWhile (· ≠ asc '/')).rdropWhile (· = asc '/') :=
    OsPathTraits.dirName_eq _
  rw [hdir, List.rdropWhile_concat, if_neg (by decide), List.rdropWhile_concat,
    if_pos (by decide)]
  refine List.rdropWhile_eq_self_iff.2 fun hne hlast => hd ?_
  rw [List.getLast?_eq_some_getLast hne, of_decide_eq_true hlast]

/-- The first call finds the length of the directory, and the later ones keep to it. -/
theorem setFilePath_eq {d filePath : Bytes} {dirPathSize : ℕ} (hd : d.getLast? ≠ some (asc '/'))
    (h : InDirectory d filePath dirPathSize) (fileName : Bytes) :
    setFilePath filePath dirPathSize fileName
      = some (d ++ [asc '/'] ++ fileName, d.length + 1) := by
  have hsize : (if dirPathSize = 0 then (OsPathTraits.posix.dirName filePath).length + 1
      else dirPathSize) = d.length + 1 := by
    rcases h with ⟨hzero, hpath⟩ | ⟨hsize, -⟩
    · rw [if_pos hzero, hpath, dirName_concat hd]
    · rw [hsize, if_neg (Nat.succ_ne_zero _)]
  obtain ⟨name, hpath⟩ : ∃ name, filePath = d ++ [asc '/'] ++ name := by
    rcases h with ⟨-, hpath⟩ | ⟨-, hpath⟩
    · exact ⟨[], by rw [hpath, List.append_nil]⟩
    · exact hpath
  have hlen : (d ++ [asc '/']).length = d.length + 1 := by simp
  rw [setFilePath, hsize, hpath, if_pos (by simp), ← hlen, List.append_assoc _ name,
    List.take_left]

/-- One report: the entry is one of those that are left. -/
theorem nextEntry_spec (system : FileSystem) (mask : MaskMatch UInt8) {d filePath : Bytes}
    {dirPathSize : ℕ} (hd : d.getLast? ≠ some (asc '/')) (h : InDirectory d filePath dirPathSize)
    (dir : List Dirent) :
    ∃ info it, nextEntry system mask filePath dirPathSize dir = some (info, it) ∧
      InDirectory d it.filePath it.dirPathSize ∧
      (∀ left ∈ it.handle, left.1 ⊆ dir) ∧
      ∀ i ∈ info, ∃ entry ∈ dir, entry.dName ≠ lit "." ∧ entry.dName ≠ lit ".." ∧
        i.filePath = d ++ [asc '/'] ++ entry.dName := by
  induction dir with
  | nil => exact ⟨none, _, rfl, h, by simp, by simp⟩
  | cons entry dir ih =>
      obtain ⟨info, it, hnext, hin, hleft, hinfo⟩ := ih
      have hskip : ∃ info it, nextEntry system mask filePath dirPathSize dir = some (info, it) ∧
          InDirectory d it.filePath it.dirPathSize ∧
          (∀ left ∈ it.handle, left.1 ⊆ entry :: dir) ∧
          ∀ i ∈ info, ∃ e ∈ entry :: dir, e.dName ≠ lit "." ∧ e.dName ≠ lit ".." ∧
            i.filePath = d ++ [asc '/'] ++ e.dName := by
        refine ⟨info, it, hnext, hin, fun left hl => ?_, fun i hi => ?_⟩
        · exact List.Subset.trans (hleft left hl) (List.subset_cons_self _ _)
        · obtain ⟨e, he, hdots⟩ := hinfo i hi
          exact ⟨e, List.mem_cons_of_mem _ he, hdots⟩
      rw [nextEntry]
      rcases entryFileName_spec system mask entry with hnil | ⟨hname, hdot, hdots⟩
      · simpa only [hnil, ne_eq, not_true_eq_false, if_false] using hskip
      · simp only [hname, ne_eq, entry.dName_ne_nil, not_false_eq_true, if_true,
          setFilePath_eq hd h, Option.map_some]
        refine ⟨_, _, rfl, .inr ⟨rfl, _, rfl⟩, ?_, ?_⟩
        · intro left hl
          cases hl
          exact List.subset_cons_self _ _
        · intro i hi
          cases hi
          exact ⟨entry, List.mem_cons_self, hdot, hdots, rfl⟩

/-- What holds of an iterator between two calls: it is in the directory, and what is left of it is
from `opendir`. -/
structure Inside (system : FileSystem) (opened d : Bytes) (it : FileIterator) : Prop where
  inDirectory : InDirectory d it.filePath it.dirPathSize
  subset : ∀ left ∈ it.handle, ∃ dir, system.opendir opened = some dir ∧ left.1 ⊆ dir

theorem next_spec {system : FileSystem} {opened d : Bytes} {it : FileIterator}
    (hd : d.getLast? ≠ some (asc '/')) (h : Inside system opened d it) :
    ∃ info it', it.next system = some (info, it') ∧ Inside system opened d it' ∧
      ∀ i ∈ info, ∃ dir, system.opendir opened = some dir ∧
        ∃ entry ∈ dir, entry.dName ≠ lit "." ∧ entry.dName ≠ lit ".." ∧
          i.filePath = d ++ [asc '/'] ++ entry.dName := by
  cases hhandle : it.handle with
  | none =>
      refine ⟨none, it, ?_, h, by simp⟩
      rw [next, hhandle]
  | some left =>
      obtain ⟨dir, hopen, hsub⟩ := h.subset left hhandle
      obtain ⟨info, it', hnext, hin, hleft, hinfo⟩ :=
        nextEntry_spec system left.2 hd h.inDirectory left.1
      have hsubset : ∀ l ∈ it'.handle, l.1 ⊆ dir := fun l hl => List.Subset.trans (hleft l hl) hsub
      refine ⟨info, it', ?_, ⟨hin, fun l hl => ⟨dir, hopen, hsubset l hl⟩⟩, ?_⟩
      · rw [next, hhandle]
        exact hnext
      · intro i hi
        obtain ⟨entry, hentry, hdots⟩ := hinfo i hi
        exact ⟨dir, hopen, entry, hsub hentry, hdots⟩

theorem reports_spec {system : FileSystem} {opened d : Bytes}
    (hd : d.getLast? ≠ some (asc '/')) (n : ℕ) {it : FileIterator}
    (h : Inside system opened d it) :
    ∃ infos, reports system n it = some infos ∧
      ∀ info ∈ infos, ∃ dir, system.opendir opened = some dir ∧
        ∃ entry ∈ dir, entry.dName ≠ lit "." ∧ entry.dName ≠ lit ".." ∧
          info.filePath = d ++ [asc '/'] ++ entry.dName := by
  induction n generalizing it with
  | zero => exact ⟨[], rfl, by simp⟩
  | succ n ih =>
      obtain ⟨info, it', hnext, hinside, hinfo⟩ := next_spec hd h
      obtain ⟨infos, hrun, hinfos⟩ := ih hinside
      refine ⟨info.toList ++ infos, ?_, fun i hi => ?_⟩
      · simp only [reports, hnext, Option.bind_some, hrun, Option.map_some]
      · rcases List.mem_append.1 hi with hi | hi
        · exact hinfo i (Option.mem_toList.1 hi)
        · exact hinfos i hi

/-- A `NUL` in the directory part ends the path that is opened. -/
theorem openedPath_eq {searchPath : Bytes} (h : 0 ∉ directoryPart searchPath) :
    openedPath searchPath = (directoryPart searchPath).rdropWhile (· = asc '/') ++ [asc '/'] := by
  rw [openedPath, openedStorage_eq]
  apply Pieces.takeWhile_of_not_mem
  intro hnul
  rw [List.mem_append, List.mem_singleton] at hnul
  rcases hnul with hnul | hnul
  · exact h ((List.rdropWhile_prefix _ _).subset hnul)
  · exact absurd hnul (by decide)

theorem nul_notMem_openedPath (searchPath : Bytes) : 0 ∉ openedPath searchPath := by
  rw [openedPath]
  exact zero_notMem_cString _

/-- The iterator follows the search path if and only if that has a directory part, with no `NUL` in
it. -/
theorem followsSearchPath_iff (searchPath : Bytes) :
    FollowsSearchPath searchPath ↔
      directoryPart searchPath ≠ [] ∧ 0 ∉ directoryPart searchPath := by
  constructor
  · rintro ⟨d, -, -, hlocation, -⟩
    have hnul : 0 ∉ directoryPart searchPath := by
      intro hmem
      obtain ⟨name, hname, hin⟩ := (PathNames.mem_names (p := directoryPart searchPath)
        (by decide : (0 : UInt8) ≠ asc '/') (by decide : 0 ∉ lit ".")).2 hmem
      have hnames : name ∈ (location (openedPath searchPath)).2 := by
        rw [hlocation]
        exact hname
      exact nul_notMem_openedPath searchPath ((PathNames.mem_names (by decide) (by decide)).1
        ⟨name, hnames, hin⟩)
    refine ⟨fun hnil => ?_, hnul⟩
    rw [openedPath_eq hnul, hnil] at hlocation
    exact absurd hlocation (by decide)
  · rintro ⟨hne, hnul⟩
    have hd : ((directoryPart searchPath).rdropWhile (· = asc '/')).getLast? ≠ some (asc '/') := by
      intro hlast
      obtain ⟨q, hq⟩ := List.getLast?_eq_some_iff.1 hlast
      have htrim := List.rdropWhile_idempotent (· = asc '/') (directoryPart searchPath)
      rw [hq, List.rdropWhile_concat, if_pos (by decide)] at htrim
      have hle := ((List.rdropWhile_prefix (· = asc '/') q).length_le)
      rw [htrim, List.length_append, List.length_singleton] at hle
      omega
    refine ⟨_, openedPath_eq hnul, hd, ?_, fun system n => reports_spec hd n ?_⟩
    · rw [openedPath_eq hnul]
      exact PathNames.location_rdropWhile_concat hne
    · refine ⟨.inl ⟨rfl, openedStorage_eq searchPath⟩, fun left hleft => ?_⟩
      obtain ⟨dir, hopen, rfl⟩ := Option.map_eq_some_iff.1 hleft
      exact ⟨dir, hopen, fun _ hentry => hentry⟩

/-- A mask alone is looked for in the root. -/
theorem not_followsSearchPath_mask : ¬FollowsSearchPath (lit "*.so") := by
  rintro ⟨d, -, -, hlocation, -⟩
  exact absurd hlocation (by decide)

end FileIterator

end ImageProxy.Cpcl
