import ImageProxy.Library.Pieces
import ImageProxy.Cpcl.SplitIterator

set_option autoImplicit false

/-! # Splitting with three pointers (`BasicSplitIterator`)

The iterator is three pointers into the string that it splits. At the end of the string `tail` is
`last`; at the end of the iteration all three are null. The null pointer of an empty piece is none
of them. -/

namespace ImageProxy.Cpcl

variable {α : Type}

/-- `BasicStringPiece`: `data` is an offset into the string, `none` when null. -/
structure BasicStringPiece where
  data : Option ℕ
  size : ℕ
deriving DecidableEq, Repr

/-- The characters that a piece spans. -/
def BasicStringPiece.chars (v : List α) (piece : BasicStringPiece) : List α :=
  match piece.data with
  | some p => (v.drop p).take piece.size
  | none => []

/-- `BasicSplitIterator`: the pointers are offsets into the string, `none` when null. -/
structure BasicSplitIterator (α : Type) where
  head : Option ℕ
  tail : Option ℕ
  last : Option ℕ
  /-- The default constructor leaves it unset. -/
  split : Option α
deriving DecidableEq, Repr

namespace BasicSplitIterator

/-- `BasicSplitIterator()`. -/
def null : BasicSplitIterator α := ⟨none, none, none, none⟩

/-- `head = tail = last = NULL`. -/
def clear (it : BasicSplitIterator α) : BasicSplitIterator α :=
  { it with head := none, tail := none, last := none }

/-- `operator*`. -/
def deref (it : BasicSplitIterator α) : BasicStringPiece :=
  match it.head, it.tail with
  | some h, some t => ⟨if t = h then none else some h, t - h⟩
  | _, _ => ⟨none, 0⟩

/-- `operator==`, which does not look at `split`. -/
def equals (it r : BasicSplitIterator α) : Bool :=
  r.head == it.head && r.tail == it.tail && r.last == it.last

@[simp] theorem clear_equals (it : BasicSplitIterator α) : it.clear.equals null = true := rfl

variable [DecidableEq α]

/-- `for (; tail != last; ++tail) if (*tail == split) break;`. There is no result if the turns run
out, or if `tail` is null or not in the string where it is read. -/
def scan (v : List α) : (turns : ℕ) → BasicSplitIterator α → Option (BasicSplitIterator α)
  | 0, _ => none
  | turns + 1, it =>
      if it.tail = it.last then some it
      else do
        let p ← it.tail
        let c ← v[p]?
        let split ← it.split
        if c = split then some it else scan v turns { it with tail := some (p + 1) }

/-- `Init`. -/
def init (v : List α) (size : ℕ) (it : BasicSplitIterator α) : Option (BasicSplitIterator α) :=
  if size ≠ 0 then scan v (v.length + 1) it else some it.clear

/-- `BasicSplitIterator(v, split)`. -/
def new (v : List α) (split : α) : Option (BasicSplitIterator α) :=
  init v v.length ⟨some 0, some 0, some v.length, some split⟩

/-- `operator++`. -/
def next (v : List α) (it : BasicSplitIterator α) : Option (BasicSplitIterator α) :=
  if it.tail ≠ it.last then do
    let p ← it.tail
    scan v (v.length + 1) { it with head := some (p + 1), tail := some (p + 1) }
  else some it.clear

/-- `++it`, `n` times. -/
def advance (v : List α) : ℕ → BasicSplitIterator α → Option (BasicSplitIterator α)
  | 0, it => some it
  | n + 1, it => (it.next v).bind (advance v n)

/-- `for (; it != tail; ++it)` with the default iterator as `tail`: the iterators that the body of
the loop sees. -/
def loop (v : List α) : (turns : ℕ) → BasicSplitIterator α → Option (List (BasicSplitIterator α))
  | 0, _ => none
  | turns + 1, it =>
      if it.equals null then some []
      else ((it.next v).bind (loop v turns)).map (it :: ·)

/-! ## Where the pointers stand -/

/-- The iterator at the first piece of `s`, which is what is behind `done`. -/
def placed (split : α) (done s : List α) : BasicSplitIterator α where
  head := some done.length
  tail := some (done.length + (s.takeWhile (· ≠ split)).length)
  last := some (done ++ s).length
  split := some split

@[simp] theorem placed_equals (split : α) (done s : List α) :
    (placed split done s).equals null = false := rfl

theorem scan_end (v : List α) {it : BasicSplitIterator α} (h : it.tail = it.last) (turns : ℕ) :
    scan v (turns + 1) it = some it := by
  rw [scan, if_pos h]

theorem scan_char {v : List α} {it : BasicSplitIterator α} {p : ℕ} {c split : α}
    (htail : it.tail = some p) (hlast : it.tail ≠ it.last) (hread : v[p]? = some c)
    (hsplit : it.split = some split) (turns : ℕ) :
    scan v (turns + 1) it
      = if c = split then some it else scan v turns { it with tail := some (p + 1) } := by
  rw [scan, if_neg hlast, htail, hsplit]
  simp only [Option.bind_eq_bind, Option.bind_some, hread]

/-- The loop over the characters stops at the next `split`, or at the end. -/
theorem scan_eq (split : α) (head : Option ℕ) (s done : List α) (turns : ℕ)
    (h : s.length < turns) :
    scan (done ++ s) turns ⟨head, some done.length, some (done ++ s).length, some split⟩
      = some ⟨head, some (done.length + (s.takeWhile (· ≠ split)).length),
          some (done ++ s).length, some split⟩ := by
  induction s generalizing done turns with
  | nil =>
      obtain ⟨turns, rfl⟩ : ∃ t, turns = t + 1 := ⟨turns - 1, by omega⟩
      rw [List.append_nil]
      exact scan_end _ rfl turns
  | cons c s ih =>
      rw [List.length_cons] at h
      obtain ⟨turns, rfl⟩ : ∃ t, turns = t + 1 := ⟨turns - 1, by omega⟩
      have hne : some done.length ≠ some (done ++ c :: s).length := by simp
      have hread : (done ++ c :: s)[done.length]? = some c := by simp
      rw [scan_char rfl hne hread rfl]
      by_cases hc : c = split
      · rw [if_pos hc, List.takeWhile_cons_of_neg (by simpa using hc)]
        rfl
      · -- one character further, which is done then
        have hbehind := ih (done ++ [c]) turns (by omega)
        rw [List.append_assoc, List.singleton_append, List.length_append, List.length_singleton,
          Nat.add_assoc, Nat.add_comm 1] at hbehind
        rw [if_neg hc, hbehind, List.takeWhile_cons_of_pos (by simpa using hc), List.length_cons]

/-- Both constructors and `operator++` leave the iterator at a piece. -/
theorem scan_placed (split : α) (done s : List α) :
    scan (done ++ s) ((done ++ s).length + 1)
        ⟨some done.length, some done.length, some (done ++ s).length, some split⟩
      = some (placed split done s) := by
  refine scan_eq split _ s done _ ?_
  rw [List.length_append]
  omega

theorem new_of_ne_nil {v : List α} (h : v ≠ []) (split : α) :
    new v split = some (placed split [] v) := by
  have hsize : v.length ≠ 0 := by
    intro hzero
    exact h (List.length_eq_zero_iff.1 hzero)
  rw [new, init, if_pos hsize]
  exact scan_placed split [] v

/-- From the last piece the iterator goes to the end. -/
theorem next_last {split : α} {piece : List α} (hnot : split ∉ piece) (done : List α) :
    (placed split done piece).next (done ++ piece) = some (placed split done piece).clear := by
  rw [next, if_neg]
  intro hne
  rw [placed, Pieces.takeWhile_of_not_mem hnot, List.length_append] at hne
  exact hne rfl

/-- From any other piece it goes behind the `split`. -/
theorem next_more {split : α} {piece : List α} (hnot : split ∉ piece) (done behind : List α) :
    (placed split done (piece ++ split :: behind)).next (done ++ (piece ++ split :: behind))
      = some (placed split (done ++ (piece ++ [split])) behind) := by
  have hbefore : (done ++ (piece ++ [split])).length = done.length + piece.length + 1 := by
    rw [List.length_append, List.length_append, List.length_singleton, Nat.add_assoc]
  have hv : done ++ (piece ++ split :: behind) = done ++ (piece ++ [split]) ++ behind := by simp
  have hne : some (done.length + piece.length)
      ≠ some (done ++ (piece ++ split :: behind)).length := by simp
  rw [next, placed, Pieces.takeWhile_separator hnot, if_pos hne]
  show scan _ _ ⟨some (done.length + piece.length + 1), some (done.length + piece.length + 1), _, _⟩
    = _
  rw [← hbefore, hv]
  exact scan_placed split _ behind

/-- What the iterator points at: up to the next `split`. -/
theorem chars_placed (split : α) (done s : List α) :
    (placed split done s).deref.chars (done ++ s) = s.takeWhile (· ≠ split) := by
  have hprefix := List.takeWhile_prefix (· ≠ split) (l := s)
  generalize hpiece : s.takeWhile (· ≠ split) = piece at hprefix ⊢
  rw [deref, placed, hpiece]
  dsimp only
  rw [BasicStringPiece.chars, Nat.add_sub_cancel_left]
  cases piece with
  | nil =>
      rw [if_pos (by simp)]
  | cons c piece =>
      rw [if_neg (by simp)]
      dsimp only
      rw [List.drop_left]
      exact (List.prefix_iff_eq_take.1 hprefix).symm

/-! ## The loop over the pieces -/

theorem loop_null (v : List α) {it : BasicSplitIterator α} (h : it.equals null = true) (turns : ℕ) :
    loop v (turns + 1) it = some [] := by
  rw [loop, if_pos h]

theorem loop_next {v : List α} {it it' : BasicSplitIterator α} (h : it.equals null = false)
    (hnext : it.next v = some it') (turns : ℕ) :
    loop v (turns + 1) it = (loop v turns it').map (it :: ·) := by
  rw [loop, h, hnext]
  rfl

/-- What a loop that ends has done in its first turn. -/
theorem loop_cases {v : List α} {turns : ℕ} {it : BasicSplitIterator α}
    {its : List (BasicSplitIterator α)} (h : loop v (turns + 1) it = some its) :
    it.equals null = true ∧ its = [] ∨ it.equals null = false ∧
      ∃ it' rest, it.next v = some it' ∧ loop v turns it' = some rest ∧ its = it :: rest := by
  cases hnull : it.equals null with
  | true =>
      rw [loop_null v hnull, Option.some.injEq] at h
      exact .inl ⟨rfl, h.symm⟩
  | false =>
      rw [loop, hnull, if_neg Bool.false_ne_true, Option.map_eq_some_iff] at h
      obtain ⟨rest, hbind, rfl⟩ := h
      obtain ⟨it', hnext, hrest⟩ := Option.bind_eq_some_iff.1 hbind
      exact .inr ⟨rfl, it', rest, hnext, hrest, rfl⟩

/-- The loop ends, and sees the pieces of what is behind `done`. -/
theorem loop_placed (split : α) (s done : List α) : ∃ its : List (BasicSplitIterator α),
    (∀ turns, its.length < turns → loop (done ++ s) turns (placed split done s) = some its) ∧
    (its.map fun it => it.deref.chars (done ++ s)) = s.splitOn split := by
  induction s using Pieces.induction split generalizing done with
  | last piece hnot =>
      refine ⟨[placed split done piece], ?_, ?_⟩
      · intro turns hturns
        rw [List.length_singleton] at hturns
        obtain ⟨turns, rfl⟩ : ∃ t, turns = t + 1 + 1 := ⟨turns - 2, by omega⟩
        rw [loop_next rfl (next_last hnot done), loop_null _ (clear_equals _)]
        rfl
      · rw [List.map_singleton, chars_placed, Pieces.takeWhile_of_not_mem hnot,
          List.splitOn_eq_singleton hnot]
  | more piece behind hnot ih =>
      obtain ⟨its, hloop, hpieces⟩ := ih (done ++ (piece ++ [split]))
      have hv : done ++ (piece ++ [split]) ++ behind = done ++ (piece ++ split :: behind) := by simp
      rw [hv] at hloop hpieces
      refine ⟨placed split done (piece ++ split :: behind) :: its, ?_, ?_⟩
      · intro turns hturns
        rw [List.length_cons] at hturns
        obtain ⟨turns, rfl⟩ : ∃ t, turns = t + 1 := ⟨turns - 1, by omega⟩
        rw [loop_next rfl (next_more hnot done behind), hloop turns (by omega)]
        rfl
      · rw [List.map_cons, hpieces, chars_placed, Pieces.takeWhile_separator hnot,
          List.splitOn_append_cons_self_of_not_mem hnot]

/-- What the loop sees is where `++` goes: to an iterator of the list, and from the last of them to
one that is equal to the default iterator. -/
theorem advance_of_loop {v : List α} {turns : ℕ} {it : BasicSplitIterator α}
    {its : List (BasicSplitIterator α)} (h : loop v turns it = some its) :
    (∀ n (hn : n < its.length), advance v n it = some its[n] ∧ its[n].equals null = false) ∧
    ∃ last, advance v its.length it = some last ∧ last.equals null = true := by
  induction turns generalizing it its with
  | zero => exact absurd h (by simp [loop])
  | succ turns ih =>
      rcases loop_cases h with ⟨hnull, rfl⟩ | ⟨hnull, it', rest, hnext, hrest, rfl⟩
      · refine ⟨?_, it, rfl, hnull⟩
        intro n hn
        exact absurd hn (Nat.not_lt_zero n)
      · obtain ⟨hadvance, last, hlast, hequals⟩ := ih hrest
        refine ⟨?_, last, ?_, hequals⟩
        · intro n hn
          cases n with
          | zero => exact ⟨rfl, hnull⟩
          | succ n =>
              rw [advance, hnext]
              exact hadvance n (Nat.lt_of_succ_lt_succ hn)
        · rw [List.length_cons, advance, hnext]
          exact hlast

theorem exists_loop (v : List α) (split : α) : ∃ (it : BasicSplitIterator α)
    (its : List (BasicSplitIterator α)), new v split = some it ∧
      (∀ turns, its.length < turns → loop v turns it = some its) ∧
      (its.map fun it => it.deref.chars v) = if v = [] then [] else v.splitOn split := by
  by_cases hv : v = []
  · subst hv
    refine ⟨clear ⟨some 0, some 0, some 0, some split⟩, [], rfl, ?_, rfl⟩
    intro turns hturns
    rw [List.length_nil] at hturns
    obtain ⟨turns, rfl⟩ : ∃ t, turns = t + 1 := ⟨turns - 1, by omega⟩
    exact loop_null _ rfl turns
  · obtain ⟨its, hloop, hpieces⟩ := loop_placed split v []
    rw [if_neg hv]
    exact ⟨_, its, new_of_ne_nil hv split, hloop, hpieces⟩

/-- **A string is split at every `split`.** The loop ends, with a piece more than the string has
`split`s, and none for the empty string; no piece has a `split` in it, and joined by it they are the
string. No iterator of a piece is equal to the default iterator, and the one behind the last is. -/
theorem loop_splits (v : List α) (split : α) : ∃ (it : BasicSplitIterator α)
    (its : List (BasicSplitIterator α)), new v split = some it ∧
      (∀ turns, its.length < turns → loop v turns it = some its) ∧
      (its.length = if v = [] then 0 else v.count split + 1) ∧
      (∀ n (hn : n < its.length), advance v n it = some its[n] ∧ its[n].equals null = false) ∧
      (∃ last, advance v its.length it = some last ∧ last.equals null = true) ∧
      (∀ it ∈ its, split ∉ it.deref.chars v) ∧
      [split].intercalate (its.map fun it => it.deref.chars v) = v := by
  obtain ⟨it, its, hnew, hloop, hpieces⟩ := exists_loop v split
  obtain ⟨hadvance, hlast⟩ := advance_of_loop (hloop _ (Nat.lt_succ_self _))
  refine ⟨it, its, hnew, hloop, ?_, hadvance, hlast, ?_, ?_⟩
  · have hlength := congrArg List.length hpieces
    rw [List.length_map] at hlength
    rw [hlength]
    split
    · rfl
    · exact Pieces.length_splitOn split v
  · intro piece hpiece hmem
    have hmem' : piece.deref.chars v ∈ if v = [] then [] else v.splitOn split := by
      rw [← hpieces]
      exact List.mem_map_of_mem hpiece
    split at hmem'
    · exact absurd hmem' List.not_mem_nil
    · exact Pieces.not_mem_of_mem_splitOn hmem' hmem
  · rw [hpieces]
    split
    · next hv => exact hv.symm
    · exact List.intercalate_splitOn split

example : (new "few|strings|".toList '|').bind (loop "few|strings|".toList 4)
    = some [⟨some 0, some 3, some 12, some '|'⟩, ⟨some 4, some 11, some 12, some '|'⟩,
        ⟨some 12, some 12, some 12, some '|'⟩] := by decide

/-! ## The iterator of bytes

`SplitIterator` keeps the bytes that the pointers span in place of the pointers. -/

/-- The bytes of `[head, tail)` and of `[tail, last)`. -/
def spans (v : Bytes) (it : BasicSplitIterator UInt8) : SplitIterator :=
  match it.head, it.tail with
  | some h, some t => ⟨some ((v.drop h).take (t - h), v.drop t)⟩
  | _, _ => .tail

/-- A piece, with all that its pointer points at. -/
def pieceSpans (v : Bytes) (it : BasicSplitIterator UInt8) : StringPiece :=
  ⟨it.deref.data.map v.drop, it.deref.size⟩

/-- Where an iterator of `v` can stand: at a piece, or at the end. -/
def Stands (v : Bytes) (split : UInt8) (it : BasicSplitIterator UInt8) : Prop :=
  (∃ other : BasicSplitIterator UInt8, it = other.clear) ∨
    ∃ done s, v = done ++ s ∧ it = placed split done s

theorem spans_placed (split : UInt8) (done s : Bytes) :
    spans (done ++ s) (placed split done s) = ⟨some (SplitIterator.cut split s)⟩ := by
  have hs : s.takeWhile (· ≠ split) ++ s.dropWhile (· ≠ split) = s :=
    List.takeWhile_append_dropWhile
  rw [spans, placed, SplitIterator.cut]
  dsimp only
  generalize s.takeWhile (· ≠ split) = piece at hs ⊢
  generalize s.dropWhile (· ≠ split) = rest at hs ⊢
  subst hs
  rw [Nat.add_sub_cancel_left, List.drop_left, List.take_left, ← List.drop_drop, List.drop_left,
    List.drop_left]

/-- **A step of the pointers is a step of the bytes.** -/
theorem spans_next {v : Bytes} {split : UInt8} {it : BasicSplitIterator UInt8}
    (h : Stands v split it) : ∃ it', it.next v = some it' ∧ Stands v split it' ∧
      spans v it' = (spans v it).next split := by
  rcases h with ⟨other, rfl⟩ | ⟨done, s, rfl, rfl⟩
  · exact ⟨other.clear.clear, rfl, .inl ⟨_, rfl⟩, rfl⟩
  · rw [spans_placed]
    rcases Pieces.first_separator split s with hnot | ⟨piece, behind, rfl, hnot⟩
    · refine ⟨_, next_last hnot done, .inl ⟨_, rfl⟩, ?_⟩
      rw [SplitIterator.cut, Pieces.dropWhile_of_not_mem hnot]
      rfl
    · have hv : done ++ (piece ++ split :: behind) = done ++ (piece ++ [split]) ++ behind := by simp
      refine ⟨_, next_more hnot done behind, .inr ⟨_, behind, hv, rfl⟩, ?_⟩
      have hcut : SplitIterator.cut split (piece ++ split :: behind) = (piece, split :: behind) := by
        rw [SplitIterator.cut, Pieces.takeWhile_separator hnot,
          Pieces.dropWhile_separator hnot]
      rw [hv, spans_placed, hcut]
      rfl

theorem spans_deref {v : Bytes} {split : UInt8} {it : BasicSplitIterator UInt8}
    (h : Stands v split it) : (spans v it).deref = pieceSpans v it := by
  rcases h with ⟨other, rfl⟩ | ⟨done, s, rfl, rfl⟩
  · rfl
  · rw [spans_placed, SplitIterator.cut, pieceSpans, deref, placed]
    dsimp only [SplitIterator.deref]
    rw [List.takeWhile_append_dropWhile, Nat.add_sub_cancel_left]
    cases s.takeWhile (· ≠ split) with
    | nil => simp [StringPiece.null]
    | cons c piece => simp

theorem spans_eq_tail {v : Bytes} {split : UInt8} {it : BasicSplitIterator UInt8}
    (h : Stands v split it) : spans v it = .tail ↔ it.equals null = true := by
  rcases h with ⟨other, rfl⟩ | ⟨done, s, rfl, rfl⟩
  · exact iff_of_true rfl rfl
  · rw [spans_placed]
    exact iff_of_false (by simp [SplitIterator.tail]) (by simp)

theorem pieces_of_loop {v : Bytes} {split : UInt8} {turns : ℕ} {it : BasicSplitIterator UInt8}
    {its : List (BasicSplitIterator UInt8)} (hit : Stands v split it)
    (h : loop v (turns + 1) it = some its) :
    SplitIterator.pieces split turns (spans v it) = its.map (pieceSpans v) := by
  induction turns generalizing it its with
  | zero =>
      rcases loop_cases h with ⟨-, rfl⟩ | ⟨-, it', rest, -, hrest, -⟩
      · rfl
      · -- the one turn would have to find the end
        exact absurd hrest (by simp [loop])
  | succ turns ih =>
      rw [SplitIterator.pieces]
      rcases loop_cases h with ⟨hnull, rfl⟩ | ⟨hnull, it', rest, hnext, hrest, rfl⟩
      · rw [if_pos ((spans_eq_tail hit).2 hnull)]
        rfl
      · have htail : spans v it ≠ .tail := by
          intro htail
          rw [(spans_eq_tail hit).1 htail] at hnull
          exact absurd hnull (by simp)
        obtain ⟨it'', hnext', hit', hspans⟩ := spans_next hit
        rw [hnext, Option.some.injEq] at hnext'
        subst hnext'
        rw [if_neg htail, ← hspans, ih hit' hrest, spans_deref hit]
        rfl

theorem spans_new {v : Bytes} {split : UInt8} {it : BasicSplitIterator UInt8}
    (h : new v split = some it) : Stands v split it ∧ spans v it = .start v split := by
  cases v with
  | nil =>
      cases h
      exact ⟨.inl ⟨_, rfl⟩, rfl⟩
  | cons c v =>
      rw [new_of_ne_nil (List.cons_ne_nil c v), Option.some.injEq] at h
      subst h
      exact ⟨.inr ⟨[], c :: v, rfl, rfl⟩, spans_placed split [] (c :: v)⟩

/-- The pieces of a string of bytes are those that the loop sees. -/
theorem splitPieces_of_loop {v : Bytes} {split : UInt8} {it : BasicSplitIterator UInt8}
    {its : List (BasicSplitIterator UInt8)} (hnew : new v split = some it)
    (h : loop v (v.length + 2) it = some its) : splitPieces v split = its.map (pieceSpans v) := by
  obtain ⟨hit, hspans⟩ := spans_new hnew
  rw [splitPieces, ← hspans]
  exact pieces_of_loop hit h

end BasicSplitIterator

end ImageProxy.Cpcl
