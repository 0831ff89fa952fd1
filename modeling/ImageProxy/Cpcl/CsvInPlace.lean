import Mathlib.Data.List.Induction
import ImageProxy.Library.TextBuffer
import ImageProxy.Cpcl.CsvFields

set_option autoImplicit false

/-! # Quotes replaced where they are (`ReplaceDoubleQuotes`)

From the second quote of a pair on, the bytes are moved onto the first, and the end of the range and
the limit of the scan come nearer with them. What is left in the range is `replaceDoubleQuotes`. -/

namespace ImageProxy.Cpcl

open Ascii

/-! ## Where the quotes are -/

theorem replaceDoubleQuotes_cons_of_ne {c : UInt8} (h : c ≠ asc '"') (s : Bytes) :
    replaceDoubleQuotes (c :: s) = c :: replaceDoubleQuotes s := by
  cases s with
  | nil => rfl
  | cons d s => rw [replaceDoubleQuotes, if_neg fun hpair => h hpair.1]

/-- What has no quotes stays. -/
theorem replaceDoubleQuotes_append {s : Bytes} (h : asc '"' ∉ s) (t : Bytes) :
    replaceDoubleQuotes (s ++ t) = s ++ replaceDoubleQuotes t := by
  induction s with
  | nil => rfl
  | cons c s ih =>
      rw [List.mem_cons, not_or] at h
      rw [List.cons_append, replaceDoubleQuotes_cons_of_ne (Ne.symm h.1), ih h.2, List.cons_append]

theorem replaceDoubleQuotes_pair (s : Bytes) :
    replaceDoubleQuotes (asc '"' :: asc '"' :: s) = asc '"' :: replaceDoubleQuotes s := by
  rw [replaceDoubleQuotes, if_pos ⟨rfl, rfl⟩]

theorem replaceDoubleQuotes_single {d : UInt8} (h : d ≠ asc '"') (s : Bytes) :
    replaceDoubleQuotes (asc '"' :: d :: s) = asc '"' :: replaceDoubleQuotes (d :: s) := by
  rw [replaceDoubleQuotes, if_neg fun hpair => h hpair.2]

theorem replaceDoubleQuotes_sublist (s : Bytes) : List.Sublist (replaceDoubleQuotes s) s := by
  fun_induction replaceDoubleQuotes s with
  | case1 c d s _ ih => exact (ih.cons d).cons_cons c
  | case2 c d s _ ih => exact ih.cons_cons c
  | case3 s _ => exact List.Sublist.refl s

namespace InPlace

/-! ## The loop

Every byte that is read or written is asked to be in `[lo, hi)`, the range of the call. -/

/-- `memchr(first, c, last - first)`: `none` inside is the null pointer. -/
def memchr (lo hi : ℕ) (m : Memory UInt8) (first last : ℕ) (c : UInt8) : Option (Option ℕ) :=
  (m.readIn lo hi first last).map fun cells => (cells.findIdx? (· == c)).map (first + ·)

/-- `*p`. -/
def load (lo hi : ℕ) (m : Memory UInt8) (p : ℕ) : Option UInt8 :=
  (m.readIn lo hi p (p + 1)).bind List.head?

/-- `memmove(dst, first, last - first)`. -/
def memmove (lo hi : ℕ) (m : Memory UInt8) (dst first last : ℕ) : Option (Memory UInt8) :=
  (m.readIn lo hi first last).bind (m.writeIn lo hi dst)

/-- The loop of `ReplaceDoubleQuotes`: the memory that it leaves, and `tail`. -/
def replaceLoop (lo hi : ℕ) : (turns : ℕ) → Memory UInt8 → (head tail i : ℕ) →
    Option (Memory UInt8 × ℕ)
  | 0, _, _, _, _ => none
  | turns + 1, m, head, tail, i =>
      if head = i then some (m, tail)
      else do
        let some head ← memchr lo hi m head i (asc '"') | some (m, tail)
        let c ← load lo hi m (head + 1)
        if asc '"' = c then do
          -- `i - head` bytes, the last of them at `i`
          let m ← memmove lo hi m head (head + 1) (i + 1)
          let tail := i
          let i := i - 1
          if head = i then some (m, tail) else replaceLoop lo hi turns m (head + 1) tail i
        else replaceLoop lo hi turns m (head + 1) tail i

/-- `ReplaceDoubleQuotes`: with every turn `head` and `i` come nearer to each other. -/
def replaceDoubleQuotes (m : Memory UInt8) (head tail : ℕ) : Option (Memory UInt8 × ℕ) :=
  if head = tail then some (m, tail)
  else replaceLoop head tail (tail - head) m head tail (tail - 1)

open TextBuffer

variable {lo hi : ℕ} {m : Memory UInt8}

theorem findIdx?_of_not_mem {cells : Bytes} {c : UInt8} (h : c ∉ cells) :
    cells.findIdx? (· == c) = none := by
  rw [List.findIdx?_eq_none_iff]
  intro d hd
  exact beq_eq_false_iff_ne.2 fun heq => h (heq ▸ hd)

theorem memchr_of_not_mem {first : ℕ} {cells : Bytes} {c : UInt8} (h : Holds m first cells)
    (hc : c ∉ cells) (hlo : lo ≤ first) (hhi : first + cells.length ≤ hi) :
    memchr lo hi m first (first + cells.length) c = some none := by
  rw [memchr, m.readIn_of_le hlo hhi, h, Option.map_some, findIdx?_of_not_mem hc]
  rfl

theorem memchr_of_mem {first : ℕ} {before behind : Bytes} {c : UInt8}
    (h : Holds m first (before ++ c :: behind)) (hc : c ∉ before) (hlo : lo ≤ first)
    (hhi : first + (before ++ c :: behind).length ≤ hi) :
    memchr lo hi m first (first + (before ++ c :: behind).length) c
      = some (some (first + before.length)) := by
  have hfind : (before ++ c :: behind).findIdx? (· == c) = some before.length := by
    rw [List.findIdx?_append, findIdx?_of_not_mem hc, List.findIdx?_cons,
      if_pos (beq_self_eq_true c), Option.none_or, Option.map_some, Nat.zero_add]
  rw [memchr, m.readIn_of_le hlo hhi, h, Option.map_some, hfind]
  rfl

theorem load_of_holds {p : ℕ} {c : UInt8} (h : Holds m p [c]) (hlo : lo ≤ p) (hhi : p + 1 ≤ hi) :
    load lo hi m p = some c := by
  have hread : m.read p 1 = [c] := h
  rw [load, m.readIn_of_le hlo hhi, hread]
  rfl

theorem memmove_of_holds {dst first : ℕ} {cells : Bytes} (h : Holds m first cells)
    (hlo : lo ≤ first) (hhi : first + cells.length ≤ hi) (hdst : lo ≤ dst)
    (hdst' : dst + cells.length ≤ hi) :
    memmove lo hi m dst first (first + cells.length) = some (m.write dst cells) := by
  rw [memmove, m.readIn_of_le hlo hhi, h]
  exact m.writeIn_of_le hdst hdst'

/-! What a turn does, by what it finds. -/

theorem replaceLoop_stop {head i : ℕ} (h : head = i) (turns tail : ℕ) :
    replaceLoop lo hi (turns + 1) m head tail i = some (m, tail) := by
  rw [replaceLoop, if_pos h]

theorem replaceLoop_none {head i : ℕ} (hne : head ≠ i)
    (hfind : memchr lo hi m head i (asc '"') = some none) (turns tail : ℕ) :
    replaceLoop lo hi (turns + 1) m head tail i = some (m, tail) := by
  rw [replaceLoop, if_neg hne, hfind]
  rfl

theorem replaceLoop_single {head i q : ℕ} {c : UInt8} (hne : head ≠ i)
    (hfind : memchr lo hi m head i (asc '"') = some (some q))
    (hload : load lo hi m (q + 1) = some c) (hc : asc '"' ≠ c) (turns tail : ℕ) :
    replaceLoop lo hi (turns + 1) m head tail i = replaceLoop lo hi turns m (q + 1) tail i := by
  rw [replaceLoop, if_neg hne, hfind]
  simp only [Option.bind_eq_bind, Option.bind_some, hload, if_neg hc]

theorem replaceLoop_pair {head i q : ℕ} {m' : Memory UInt8} (hne : head ≠ i)
    (hfind : memchr lo hi m head i (asc '"') = some (some q))
    (hload : load lo hi m (q + 1) = some (asc '"'))
    (hmove : memmove lo hi m q (q + 1) (i + 1) = some m') (turns tail : ℕ) :
    replaceLoop lo hi (turns + 1) m head tail i
      = if q = i - 1 then some (m', i) else replaceLoop lo hi turns m' (q + 1) i (i - 1) := by
  rw [replaceLoop, if_neg hne, hfind]
  simp only [Option.bind_eq_bind, Option.bind_some, hload, hmove, if_true]

/-! The invariant of the turns. -/

/-- `out` is done and `head` behind it, `body` is before `i`, and `b` is the last byte. -/
structure Scanning (lo hi : ℕ) (m : Memory UInt8) (out body : Bytes) (b : UInt8) (head tail i : ℕ) :
    Prop where
  holds : Holds m lo (out ++ (body ++ [b]))
  head_eq : head = lo + out.length
  limit_eq : i = head + body.length
  tail_eq : tail = i + 1
  tail_le : tail ≤ hi

/-- What a call leaves: `text` from `lo` on, `tail` behind it, and the rest of the memory outside of
`[lo, hi)` as it was. -/
def Leaves (lo hi : ℕ) (m : Memory UInt8) (text : Bytes) (result : Option (Memory UInt8 × ℕ)) :
    Prop :=
  ∃ m', result = some (m', lo + text.length) ∧ Holds m' lo text ∧
    ∀ p, p < lo ∨ hi ≤ p → m' p = m p

theorem leaves_self {text : Bytes} {tail : ℕ} (h : Holds m lo text)
    (htail : tail = lo + text.length) : Leaves lo hi m text (some (m, tail)) :=
  ⟨m, by rw [htail], h, fun _ _ => rfl⟩

/-- A move inside of the range changes nothing outside of it. -/
theorem Leaves.write {off : ℕ} {cells text : Bytes} {result : Option (Memory UInt8 × ℕ)}
    (h : Leaves lo hi (m.write off cells) text result) (hlo : lo ≤ off)
    (hhi : off + cells.length ≤ hi) : Leaves lo hi m text result := by
  obtain ⟨m', hresult, htext, hsame⟩ := h
  refine ⟨m', hresult, htext, ?_⟩
  intro p hp
  rw [hsame p hp]
  exact m.write_of_outside (by omega)

namespace Scanning

variable {out body before behind rest : Bytes} {b c d : UInt8} {head tail i : ℕ}

theorem leaves (h : Scanning lo hi m out body b head tail i) :
    Leaves lo hi m (out ++ (body ++ [b])) (some (m, tail)) := by
  refine leaves_self h.holds ?_
  rw [h.tail_eq, h.limit_eq, h.head_eq, List.length_append, List.length_append,
    List.length_singleton, Nat.add_assoc, Nat.add_assoc]

theorem memchr_none (h : Scanning lo hi m out body b head tail i) (hnot : asc '"' ∉ body) :
    memchr lo hi m head i (asc '"') = some none := by
  obtain ⟨hm, rfl, rfl, rfl, hhi⟩ := h
  have hbody := (holds_append.1 (holds_append.1 hm).2).1
  exact memchr_of_not_mem hbody hnot (by omega) (by omega)

theorem memchr_some (h : Scanning lo hi m out (before ++ asc '"' :: behind) b head tail i)
    (hnot : asc '"' ∉ before) :
    memchr lo hi m head i (asc '"') = some (some (head + before.length)) := by
  obtain ⟨hm, rfl, rfl, rfl, hhi⟩ := h
  have hbody := (holds_append.1 (holds_append.1 hm).2).1
  exact memchr_of_mem hbody hnot (by omega) (by omega)

/-- The quote that was found is done, too. -/
theorem found (h : Scanning lo hi m out (before ++ c :: behind) b head tail i) :
    Scanning lo hi m (out ++ (before ++ [c])) behind b (head + before.length + 1) tail i where
  holds := by
    have htext : out ++ (before ++ [c]) ++ (behind ++ [b])
        = out ++ (before ++ c :: behind ++ [b]) := by simp
    rw [htext]
    exact h.holds
  head_eq := by
    rw [h.head_eq, List.length_append, List.length_append, List.length_singleton, Nat.add_assoc,
      Nat.add_assoc]
  limit_eq := by
    rw [h.limit_eq, List.length_append, List.length_cons]
    omega
  tail_eq := h.tail_eq
  tail_le := h.tail_le

theorem load_head (h : Scanning lo hi m out body b head tail i) (hrest : body ++ [b] = c :: rest) :
    load lo hi m head = some c := by
  obtain ⟨hm, rfl, rfl, rfl, hhi⟩ := h
  rw [hrest, ← List.singleton_append] at hm
  exact load_of_holds (holds_append.1 (holds_append.1 hm).2).1 (by omega) (by omega)

/-- What is behind a quote is moved onto it. -/
theorem memmove_eq (h : Scanning lo hi m out (before ++ c :: behind) b head tail i) :
    memmove lo hi m (head + before.length) (head + before.length + 1) (i + 1)
      = some (m.write (head + before.length) (behind ++ [b])) := by
  obtain ⟨hm, hhead, hlimit, rfl, hhi⟩ := h.found
  have hlo : lo ≤ head := by
    rw [h.head_eq]
    exact Nat.le_add_right lo _
  have hend : i + 1 = head + before.length + 1 + (behind ++ [b]).length := by
    rw [hlimit, List.length_append, List.length_singleton, Nat.add_assoc _ behind.length]
  have hbehind := (holds_append.1 hm).2
  rw [← hhead] at hbehind
  rw [hend]
  exact memmove_of_holds hbehind (by omega) (by omega) (by omega) (by omega)

theorem holds_moved (h : Scanning lo hi m out (before ++ c :: behind) b head tail i) :
    Holds (m.write (head + before.length) (behind ++ [b])) lo
      (out ++ before ++ (behind ++ [b])) := by
  have hm := h.holds
  rw [List.append_assoc before, ← List.append_assoc out] at hm
  have hbefore := (holds_append.1 hm).1
  have hat : head + before.length = lo + (out ++ before).length := by
    rw [h.head_eq, List.length_append, Nat.add_assoc]
  rw [hat]
  exact hbefore.write_behind (behind ++ [b])

theorem moved (h : Scanning lo hi m out (before ++ c :: d :: behind) b head tail i) :
    Scanning lo hi (m.write (head + before.length) (d :: behind ++ [b])) (out ++ (before ++ [d]))
      behind b (head + before.length + 1) i (i - 1) := by
  obtain ⟨hm, hhead, hlimit, rfl, hhi⟩ := h.found
  rw [List.length_cons] at hlimit
  constructor
  · have htext : out ++ (before ++ [d]) ++ (behind ++ [b])
        = out ++ before ++ (d :: behind ++ [b]) := by simp
    rw [htext]
    exact h.holds_moved
  · rw [hhead, List.length_append, List.length_append, List.length_append, List.length_append]
    rfl
  · omega
  · omega
  · omega

/-- The move is inside of the range. -/
theorem leaves_of_moved (h : Scanning lo hi m out (before ++ c :: behind) b head tail i)
    {text : Bytes} {result : Option (Memory UInt8 × ℕ)}
    (hleaves : Leaves lo hi (m.write (head + before.length) (behind ++ [b])) text result) :
    Leaves lo hi m text result := by
  obtain ⟨-, hhead, hlimit, htail, hhi⟩ := h.found
  have hlo := h.head_eq
  refine hleaves.write (by omega) ?_
  rw [List.length_append, List.length_singleton]
  omega

theorem leaves_moved (h : Scanning lo hi m out (before ++ [c]) b head tail i) :
    Leaves lo hi (m.write (head + before.length) [b]) (out ++ before ++ [b])
      (some (m.write (head + before.length) [b], i)) := by
  refine leaves_self h.holds_moved ?_
  rw [h.found.limit_eq, h.head_eq]
  simp only [List.length_append, List.length_singleton, List.length_nil]
  omega

end Scanning

/-- The loop leaves what is done, and the rest with its pairs replaced. -/
theorem replaceLoop_leaves {turns : ℕ} {m : Memory UInt8} {out body : Bytes} {b : UInt8}
    {head tail i : ℕ} (h : Scanning lo hi m out body b head tail i) (hturns : body.length < turns) :
    Leaves lo hi m (out ++ Cpcl.replaceDoubleQuotes (body ++ [b]))
      (replaceLoop lo hi turns m head tail i) := by
  induction turns generalizing m out body head tail i with
  | zero => exact absurd hturns (Nat.not_lt_zero _)
  | succ turns ih =>
      by_cases hnil : body = []
      · -- `head` is at the last byte
        subst hnil
        rw [replaceLoop_stop (h.limit_eq.trans (Nat.add_zero head)).symm]
        exact h.leaves
      have hne : head ≠ i := by
        have hpos := List.length_pos_iff.2 hnil
        have hlimit := h.limit_eq
        omega
      rcases Pieces.first_separator (asc '"') body with hnot | ⟨before, behind, rfl, hnot⟩
      · rw [replaceLoop_none hne (h.memchr_none hnot), replaceDoubleQuotes_append hnot]
        exact h.leaves
      rw [List.append_assoc, List.cons_append, replaceDoubleQuotes_append hnot]
      rw [List.length_append, List.length_cons] at hturns
      obtain ⟨d, rest, hd⟩ := List.exists_cons_of_ne_nil (List.concat_ne_nil b behind)
      by_cases hpair : asc '"' = d
      · subst hpair
        rw [replaceLoop_pair hne (h.memchr_some hnot) (h.found.load_head hd) h.memmove_eq, hd,
          replaceDoubleQuotes_pair]
        refine h.leaves_of_moved ?_
        have hlimit := h.found.limit_eq
        cases behind with
        | nil =>
            -- the pair was at the end
            cases hd
            rw [if_pos (by rw [hlimit]; rfl)]
            have hlast := h.leaves_moved
            rwa [List.append_assoc] at hlast
        | cons d behind =>
            cases hd
            rw [List.length_cons] at hlimit hturns
            rw [if_neg (by omega)]
            have hbehind := ih h.moved (by omega)
            rwa [List.append_assoc, List.append_assoc] at hbehind
      · rw [replaceLoop_single hne (h.memchr_some hnot) (h.found.load_head hd) hpair, hd,
          replaceDoubleQuotes_single (Ne.symm hpair), ← hd]
        have hbehind := ih h.found (by omega)
        rwa [List.append_assoc, List.append_assoc] at hbehind

theorem replaceDoubleQuotes_leaves (m : Memory UInt8) (head n : ℕ) :
    Leaves head (head + n) m (Cpcl.replaceDoubleQuotes (m.read head n))
      (replaceDoubleQuotes m head (head + n)) := by
  have hlength := m.length_read head n
  rcases List.eq_nil_or_concat (m.read head n) with hnil | ⟨body, b, hbody⟩
  · rw [hnil, List.length_nil] at hlength
    subst hlength
    rw [hnil, replaceDoubleQuotes, if_pos (Nat.add_zero head).symm]
    exact leaves_self holds_nil rfl
  · rw [List.concat_eq_append] at hbody
    rw [hbody, List.length_append, List.length_singleton] at hlength
    subst hlength
    have hholds : Holds m head ([] ++ (body ++ [b])) := by
      rw [List.nil_append, ← hbody]
      exact congrArg (m.read head) (m.length_read head _)
    have hscan : Scanning head (head + (body.length + 1)) m [] body b head
        (head + (body.length + 1)) (head + (body.length + 1) - 1) :=
      ⟨hholds, rfl, rfl, rfl, Nat.le_refl _⟩
    rw [hbody, replaceDoubleQuotes, if_neg (by omega), Nat.add_sub_cancel_left]
    exact replaceLoop_leaves hscan (Nat.lt_succ_self _)

example : (replaceDoubleQuotes (fun i => (lit "a\"\"\"b").getD i 0) 0 5).map
    (fun r => r.1.read 0 r.2) = some (lit "a\"\"b") := by decide

/-- **The quotes are replaced where they are.** The call has a result, so that it ends, and reads and
writes no byte outside of `[head, head + n)`. Before the tail that it gives back is what was in the
range, each pair of quotes one quote, and all outside of the range is as it was. -/
theorem replaceDoubleQuotes_inPlace (m : Memory UInt8) (head n : ℕ) : ∃ m' tail,
    replaceDoubleQuotes m head (head + n) = some (m', tail) ∧ head ≤ tail ∧ tail ≤ head + n ∧
      m'.read head (tail - head) = Cpcl.replaceDoubleQuotes (m.read head n) ∧
      ∀ p, p < head ∨ head + n ≤ p → m' p = m p := by
  obtain ⟨m', hresult, htext, hsame⟩ := replaceDoubleQuotes_leaves m head n
  have hle := (replaceDoubleQuotes_sublist (m.read head n)).length_le
  rw [m.length_read] at hle
  refine ⟨m', _, hresult, Nat.le_add_right _ _, Nat.add_le_add_left hle head, ?_, hsame⟩
  rw [Nat.add_sub_cancel_left]
  exact htext

/-! ## The field (`FieldIteratorImpl::Trim`) -/

/-- `for (i = tail - 1; i != head; --i) if ('"' == *i) break;`: where `i` stops. -/
def backToQuote (lo hi : ℕ) (m : Memory UInt8) (head : ℕ) : (turns : ℕ) → (i : ℕ) → Option ℕ
  | 0, _ => none
  | turns + 1, i =>
      if i = head then some i
      else do
        let c ← load lo hi m i
        if asc '"' = c then some i else backToQuote lo hi m head turns (i - 1)

/-- `Trim`, with `first` behind the first quote. -/
def trimQuoted (replace : Bool) (m : Memory UInt8) (head tail first : ℕ) :
    Option (Memory UInt8 × ℕ × ℕ) := do
  let last ← backToQuote head tail m first (tail - first) (tail - 1)
  if replace then (replaceDoubleQuotes m first last).map fun r => (r.1, first, r.2)
  else some (m, first, last)

/-- `Trim`: the memory after, and the `head` and `tail` of the field. -/
def trim (replace : Bool) (m : Memory UInt8) (head tail : ℕ) : Option (Memory UInt8 × ℕ × ℕ) :=
  if head = tail then some (m, head, tail)
  else do
    let some i ← memchr head tail m head tail (asc '"') | some (m, head, tail)
    trimQuoted replace m head tail (if i + 1 ≠ tail then i + 1 else i)

open FieldIterator

theorem beforeLastQuote_concat {d : UInt8} (h : asc '"' ≠ d) (c : UInt8) (t : Bytes) :
    beforeLastQuote (c :: (t ++ [d])) = beforeLastQuote (c :: t) := by
  simp [beforeLastQuote, h, Ne.symm h]

theorem beforeLastQuote_prefix (c : UInt8) (t : Bytes) : beforeLastQuote (c :: t) <+: c :: t := by
  induction t using List.reverseRecOn with
  | nil => exact List.nil_prefix
  | append_singleton t d ih =>
      by_cases hd : asc '"' = d
      · rw [← hd, ← List.cons_append, beforeLastQuote_append]
        exact List.prefix_append _ _
      · rw [beforeLastQuote_concat hd]
        exact ih.trans (List.prefix_append (c :: t) [d])

/-- The scan back stops at the last quote, and at `head` if there is none behind it. -/
theorem backToQuote_eq {head turns : ℕ} {c : UInt8} {t : Bytes} (h : Holds m head (c :: t))
    (hlo : lo ≤ head) (hhi : head + t.length + 1 ≤ hi) (hturns : t.length < turns) :
    backToQuote lo hi m head turns (head + t.length)
      = some (head + (beforeLastQuote (c :: t)).length) := by
  induction t using List.reverseRecOn generalizing turns with
  | nil =>
      obtain ⟨turns, rfl⟩ : ∃ k, turns = k + 1 := ⟨turns - 1, by omega⟩
      rw [List.length_nil, backToQuote, if_pos (Nat.add_zero head)]
      rfl
  | append_singleton t d ih =>
      rw [List.length_append, List.length_singleton] at hhi hturns ⊢
      obtain ⟨turns, rfl⟩ : ∃ k, turns = k + 1 := ⟨turns - 1, by omega⟩
      rw [← List.cons_append] at h
      obtain ⟨hbefore, hlast⟩ := holds_append.1 h
      have hload : load lo hi m (head + (t.length + 1)) = some d :=
        load_of_holds hlast (by omega) (by omega)
      rw [backToQuote, if_neg (by omega)]
      simp only [Option.bind_eq_bind, Option.bind_some, hload]
      by_cases hd : asc '"' = d
      · rw [if_pos hd, ← hd, ← List.cons_append, beforeLastQuote_append, List.length_cons]
      · rw [if_neg hd, beforeLastQuote_concat hd]
        exact ih hbefore (by omega) (by omega)

/-- What `Trim` gives back: a field that is in `[head, tail)`, and the rest of the memory as it
was. -/
def Trimmed (m : Memory UInt8) (head tail : ℕ) (field : Bytes)
    (result : Option (Memory UInt8 × ℕ × ℕ)) : Prop :=
  ∃ m' first last, result = some (m', first, last) ∧ head ≤ first ∧ first ≤ last ∧ last ≤ tail ∧
    m'.read first (last - first) = field ∧ ∀ p, p < head ∨ tail ≤ p → m' p = m p

theorem trimmed_self {head first tail : ℕ} {field : Bytes} (h : Holds m first field)
    (hhead : head ≤ first) (htail : first + field.length ≤ tail) :
    Trimmed m head tail field (some (m, first, first + field.length)) := by
  refine ⟨m, first, _, rfl, hhead, Nat.le_add_right _ _, htail, ?_, fun _ _ => rfl⟩
  rw [Nat.add_sub_cancel_left]
  exact h

theorem trimQuoted_trimmed (replace : Bool) {head tail first : ℕ} {c : UInt8} {t : Bytes}
    (h : Holds m first (c :: t)) (hhead : head ≤ first) (htail : first + t.length + 1 = tail) :
    Trimmed m head tail
      (if replace then Cpcl.replaceDoubleQuotes (beforeLastQuote (c :: t))
        else beforeLastQuote (c :: t))
      (trimQuoted replace m head tail first) := by
  have hturns : t.length < tail - first := by omega
  have hback := backToQuote_eq h hhead (Nat.le_of_eq htail) hturns
  have hlast : tail - 1 = first + t.length := by omega
  obtain ⟨rest, hrest⟩ := beforeLastQuote_prefix c t
  rw [trimQuoted, hlast, hback]
  simp only [Option.bind_eq_bind, Option.bind_some]
  generalize beforeLastQuote (c :: t) = field at hrest ⊢
  have hlength : field.length ≤ t.length + 1 := by
    rw [← List.length_cons (a := c), ← hrest, List.length_append]
    exact Nat.le_add_right _ _
  rw [← hrest] at h
  have hfield := (holds_append.1 h).1
  cases replace with
  | false =>
      show Trimmed m head tail field (some (m, first, first + field.length))
      exact trimmed_self hfield hhead (by omega)
  | true =>
      have hle := (replaceDoubleQuotes_sublist field).length_le
      obtain ⟨m', hresult, htext, hsame⟩ := replaceDoubleQuotes_leaves m first field.length
      rw [show m.read first field.length = field from hfield] at hresult htext
      rw [if_pos rfl, if_pos rfl, hresult]
      refine ⟨m', first, _, rfl, hhead, Nat.le_add_right _ _, by omega, ?_, ?_⟩
      · rw [Nat.add_sub_cancel_left]
        exact htext
      · intro p hp
        exact hsame p (by omega)

/-- **The field in the memory.** `Trim` reads and writes no byte outside of the piece that it is
given, and gives back where the field is. -/
theorem trim_trimmed (replace : Bool) (m : Memory UInt8) (head n : ℕ) :
    Trimmed m head (head + n) (FieldIterator.trim replace (m.read head n))
      (trim replace m head (head + n)) := by
  have hholds : Holds m head (m.read head n) := congrArg (m.read head) (m.length_read head n)
  have hlength := m.length_read head n
  generalize m.read head n = s at hholds hlength ⊢
  subst hlength
  by_cases hnil : s = []
  · subst hnil
    rw [List.length_nil, trim, if_pos (Nat.add_zero head).symm]
    exact trimmed_self hholds (Nat.le_refl _) (Nat.le_refl _)
  have hne : head ≠ head + s.length := by
    have hpos := List.length_pos_iff.2 hnil
    omega
  rw [trim, if_neg hne]
  rcases Pieces.first_separator (asc '"') s with hnot | ⟨before, behind, rfl, hnot⟩
  · rw [memchr_of_not_mem hholds hnot (Nat.le_refl _) (Nat.le_refl _), FieldIterator.trim,
      Pieces.dropWhile_of_not_mem hnot]
    exact trimmed_self hholds (Nat.le_refl _) (Nat.le_refl _)
  rw [memchr_of_mem hholds hnot (Nat.le_refl _) (Nat.le_refl _), FieldIterator.trim,
    Pieces.dropWhile_separator hnot, List.length_append, List.length_cons]
  simp only [Option.bind_eq_bind, Option.bind_some]
  have hquote := (holds_append.1 hholds).2
  cases behind with
  | nil =>
      -- the quote is the last byte, and stays
      have hend : ¬head + before.length + 1 ≠ head + (before.length + (0 + 1)) :=
        not_not_intro (Nat.add_assoc _ _ _)
      rw [List.length_nil, if_neg hend]
      exact trimQuoted_trimmed replace hquote (Nat.le_add_right _ _) (Nat.add_assoc _ _ _)
  | cons c behind =>
      have hmore : head + before.length + 1
          ≠ head + (before.length + ((c :: behind).length + 1)) := by
        rw [List.length_cons]
        omega
      rw [← List.singleton_append] at hquote
      rw [if_pos hmore]
      refine trimQuoted_trimmed replace (holds_append.1 hquote).2 (by omega) ?_
      rw [List.length_cons]
      omega

end InPlace

end ImageProxy.Cpcl
