import ImageProxy.Http.Coherence

set_option autoImplicit false

/-! # Executing data byte by byte

How data is split into calls of `http_parser_execute` makes no difference to an application whose
data callbacks may be split: `run` on two strings is `run` on the first, then on the second
(`run_append`). A loop whose mark started before the cut lags behind one that was flushed at the cut
and resumed after it, and catches up at the next callback (`runFrom_lag`); the three states that
consume many bytes in one turn are computed outright. -/

namespace ImageProxy.Http

open Ascii

variable {α : Type}

/-- Callbacks that never fail, and data callbacks that do not see where a string was split. -/
structure Lawful (S : Settings α) : Prop where
  notice : ∀ n u, (S.notice n u).1 = 0
  headersComplete : ∀ parser u, (S.onHeadersComplete parser u).1 = 0
  data : ∀ m x u, (S.data m x u).1 = 0
  append : ∀ m x y u, (S.data m (x ++ y) u).2 = (S.data m y (S.data m x u).2).2

/-! ## Running to the end of the data -/

/-- The application's state after the callbacks for the marks left over. -/
def settle (S : Settings α) (s : Scan α) : α := (flush S 0 Mark.all s).user

/-- The loop, followed by `settle` if it reaches the end of the data. -/
def runFrom (S : Settings α) : Scan α → (skip : ℕ) → Bytes → Option (Parser × α)
  | s, _, [] => some (s.parser, settle S s)
  | s, skip + 1, _ :: p => runFrom S s skip p
  | s, 0, ch :: p =>
      match runCode S (turn s.parser ch (p.length + 1)) s (ch :: p) 0 with
      | .next s' moved => runFrom S s' moved p
      | .done parser user consumed =>
          if consumed = p.length + 1 then some (parser, user) else none

/-- Execution of `data` that consumes all of it: without an error, and without leaving before its
last byte. -/
def run (S : Settings α) (parser : Parser) (user : α) (data : Bytes) : Option (Parser × α) :=
  if data.isEmpty then some (parser, user)
  else if parser.Going then runFrom S ⟨parser, user, marksAt parser.state data⟩ 0 data
  else none

variable {S : Settings α}

theorem runFrom_eq (s : Scan α) (skip : ℕ) (p : Bytes) (pos : ℕ) :
    runFrom S s skip p = match loop S s skip p pos with
      | .end s' => some (s'.parser, settle S s')
      | .return r => if r.consumed = pos + p.length then some (r.parser, r.user) else none := by
  induction p generalizing s skip pos with
  | nil => cases skip <;> rfl
  | cons ch p ih =>
      have hlen : pos + (ch :: p).length = pos + 1 + p.length := by
        rw [List.length_cons]
        omega
      cases skip with
      | succ skip => rw [hlen]; exact ih s skip (pos + 1)
      | zero =>
          simp only [runFrom, loop]
          cases runCode S (turn s.parser ch (p.length + 1)) s (ch :: p) 0 with
          | next s' moved => rw [hlen]; exact ih s' moved (pos + 1)
          | done parser user consumed => simp only [List.length_cons, Nat.add_left_cancel_iff]

/-! ### Flushing -/

/-- The marks with only `m` set, to `start`. -/
def onlyMark (m : Mark) (start : Bytes) : Mark → Option Bytes :=
  fun m' => if m' = m then some start else none

theorem flush_lawful (hS : Lawful S) (len : ℕ) (ms : List Mark) (s : Scan α) :
    (flush S len ms s).parser = s.parser ∧ (flush S len ms s).consumed = len := by
  induction ms generalizing s with
  | nil => exact ⟨rfl, rfl⟩
  | cons m ms ih =>
      simp only [flush]
      split
      · exact ih s
      · next start _ =>
          rw [if_neg (by simp [hS.data])]
          exact ih _

theorem flush_len (len len' : ℕ) (ms : List Mark) (s : Scan α) :
    (flush S len ms s).user = (flush S len' ms s).user := by
  induction ms generalizing s with
  | nil => rfl
  | cons m ms ih =>
      simp only [flush]
      split
      · exact ih s
      · split
        · rfl
        · exact ih _

theorem settle_unmarked (parser : Parser) (u : α) :
    settle S ⟨parser, u, fun _ => none⟩ = u := rfl

theorem update_onlyMark (m : Mark) (start : Bytes) :
    Function.update (onlyMark m start) m none = fun _ => none := by
  funext m'
  by_cases h : m' = m <;> simp [onlyMark, h]

theorem settle_onlyMark (hS : Lawful S) (parser : Parser) (u : α) (m : Mark) (start : Bytes) :
    settle S ⟨parser, u, onlyMark m start⟩ = (S.data m start u).2 := by
  have hdata := hS.data m start u
  cases m <;> simp [settle, flush, Mark.all, onlyMark, hdata]

theorem marksAt_none {state : State} (h : state.openMark = none) (data : Bytes) :
    marksAt state data = fun _ => none := by
  funext m
  simp [marksAt, h]

theorem marksAt_some {state : State} {m : Mark} (h : state.openMark = some m) (data : Bytes) :
    marksAt state data = onlyMark m data := by
  funext m'
  simp only [marksAt, onlyMark, h, Option.some.injEq, eq_comm]

/-! ### More data after the cut -/

/-- The same locals with `d` appended to the data the marks point into. -/
def Scan.extend (s : Scan α) (d : Bytes) : Scan α :=
  { s with marks := fun m => (s.marks m).map (· ++ d) }

def Step.extend (d : Bytes) : Step α → Step α
  | .next s moved => .next (s.extend d) moved
  | .done parser user consumed => .done parser user consumed

theorem update_extend (marks : Mark → Option Bytes) (m : Mark) (v : Option Bytes) (d : Bytes) :
    (fun m' => (Function.update marks m v m').map (· ++ d))
      = Function.update (fun m' => (marks m').map (· ++ d)) m (v.map (· ++ d)) := by
  funext m'
  by_cases h : m' = m
  · subst h
    simp
  · simp [h]

/-- A coherent case does the same with more data behind `p`. -/
theorem runCode_extend (d : Bytes) (c : Code) («open» : Option Mark) (hc : c.Coherent «open»)
    (s : Scan α) (p : Bytes) (moved : ℕ) :
    runCode S c (s.extend d) (p ++ d) moved = (runCode S c s p moved).extend d := by
  induction c generalizing «open» s with
  | next parser => rfl
  | error parser errno => rfl
  | leave parser => rfl
  | mark m rest ih =>
      cases hm : s.marks m with
      | none =>
          have htail := ih _ hc.2 { s with marks := Function.update s.marks m (some p) }
          simp only [Scan.extend, update_extend] at htail
          simpa [runCode, Scan.extend, hm] using htail
      | some start =>
          have htail := ih _ hc.2 s
          simpa [runCode, Scan.extend, hm] using htail
  | advance n rest ih => exact absurd hc (by simp [Code.Coherent])
  | data m parser extra consumed rest ih =>
      obtain ⟨hextra, -, hrest⟩ := hc
      subst hextra
      cases hm : s.marks m with
      | none =>
          have htail := ih _ hrest s
          simpa [runCode, Scan.extend, hm] using htail
      | some start =>
          have htext : (start ++ d).take ((start ++ d).length - (p ++ d).length + 0)
              = start.take (start.length - p.length + 0) := by
            rw [List.length_append, List.length_append, Nat.add_sub_add_right,
              List.take_append_of_le_length (by omega)]
          simp only [runCode, Scan.extend, hm, Option.map_some, htext]
          split
          · rfl
          · have htail := ih _ hrest { s with
              user := (S.data m (start.take (start.length - p.length + 0)) s.user).2
              marks := Function.update s.marks m none }
            simpa only [Scan.extend, update_extend, Option.map_none] using htail
  | notify n parser rest ih =>
      by_cases hcode : (S.notice n s.user).1 = 0
      · have htail := ih _ hc.2 { s with user := (S.notice n s.user).2 }
        simpa [runCode, Scan.extend, hcode] using htail
      · simp [runCode, Scan.extend, hcode, Step.extend]
  | headersComplete parser rest skipBody ihrest ihskip =>
      by_cases hzero : (S.onHeadersComplete parser s.user).1 = 0
      · have htail := ihrest _ hc.2.1 { s with user := (S.onHeadersComplete parser s.user).2 }
        simpa [runCode, Scan.extend, hzero] using htail
      · by_cases hone : (S.onHeadersComplete parser s.user).1 = 1
        · have htail := ihskip _ hc.2.2 { s with user := (S.onHeadersComplete parser s.user).2 }
          simpa [runCode, Scan.extend, hone] using htail
        · simp [runCode, Scan.extend, hzero, hone, Step.extend]

/-! ### The marks a turn leaves -/

/-- A coherent case started at `p` with its mark there leaves the mark of the new state there. -/
theorem runCode_marks (hS : Lawful S) (c : Code) («open» : Option Mark) (hc : c.Coherent «open»)
    {s s' : Scan α} {p : Bytes} {moved moved' : ℕ}
    (hmarks : s.marks = fun m => if «open» = some m then some p else none)
    (h : runCode S c s p moved = .next s' moved') :
    s'.parser.Going ∧ s'.marks = marksAt s'.parser.state p ∧ moved' = moved := by
  induction c generalizing «open» s with
  | next parser =>
      simp only [runCode, Step.next.injEq] at h
      obtain ⟨rfl, rfl⟩ := h
      refine ⟨hc.1, ?_, rfl⟩
      unfold marksAt
      rw [hc.2]
      exact hmarks
  | error parser errno => exact absurd h (by simp [runCode])
  | leave parser => exact absurd h (by simp [runCode])
  | mark m rest ih =>
      obtain ⟨hopen, hrest⟩ := hc
      rcases hopen with rfl | rfl
      · simp only [runCode, hmarks, reduceCtorEq, if_false] at h
        refine ih _ hrest ?_ h
        funext m'
        by_cases heq : m' = m
        · simp [heq]
        · simp [heq, Ne.symm heq]
      · simp only [runCode, hmarks, if_true] at h
        exact ih _ hrest hmarks h
  | advance n rest ih => exact absurd hc (by simp [Code.Coherent])
  | data m parser extra consumed rest ih =>
      obtain ⟨-, hopen, hrest⟩ := hc
      rcases hopen with rfl | rfl
      · simp only [runCode, hmarks, reduceCtorEq, if_false] at h
        exact ih _ hrest hmarks h
      · simp only [runCode, hmarks, if_true, hS.data, ne_eq, not_true_eq_false, if_false] at h
        refine ih _ hrest ?_ h
        funext m'
        by_cases heq : m' = m
        · simp [heq]
        · simp [heq, Ne.symm heq]
  | notify n parser rest ih =>
      obtain ⟨rfl, hrest⟩ := hc
      simp only [runCode, hS.notice, ne_eq, not_true_eq_false, if_false] at h
      refine ih _ hrest ?_ h
      exact hmarks
  | headersComplete parser rest skipBody ihrest ihskip =>
      obtain ⟨rfl, hrest, -⟩ := hc
      simp only [runCode, hS.headersComplete, if_true] at h
      refine ihrest _ hrest ?_ h
      exact hmarks

/-- A coherent case that returns has consumed nothing, or the byte at which it left. -/
theorem runCode_done (hS : Lawful S) (c : Code) («open» : Option Mark) (hc : c.Coherent «open»)
    {s : Scan α} {p : Bytes} {moved k : ℕ} {q : Parser} {v : α}
    (h : runCode S c s p moved = .done q v k) :
    k = moved ∨ (k = moved + 1 ∧ q.httpErrno = .ok ∧ q.upgrade = true) := by
  induction c generalizing «open» s with
  | next parser => exact absurd h (by simp [runCode])
  | error parser errno =>
      simp only [runCode, Step.done.injEq] at h
      exact Or.inl h.2.2.symm
  | leave parser =>
      simp only [runCode, Step.done.injEq] at h
      obtain ⟨rfl, -, rfl⟩ := h
      exact Or.inr ⟨rfl, hc.2⟩
  | mark m rest ih =>
      simp only [runCode] at h
      split at h
      · exact ih _ hc.2 h
      · exact ih _ hc.2 h
  | advance n rest ih => exact absurd hc (by simp [Code.Coherent])
  | data m parser extra consumed rest ih =>
      obtain ⟨-, hopen, hrest⟩ := hc
      simp only [runCode, hS.data, ne_eq, not_true_eq_false, if_false] at h
      split at h
      · exact ih _ hrest h
      · exact ih _ hrest h
  | notify n parser rest ih =>
      simp only [runCode, hS.notice, ne_eq, not_true_eq_false, if_false] at h
      exact ih _ hc.2 h
  | headersComplete parser rest skipBody ihrest ihskip =>
      simp only [runCode, hS.headersComplete, if_true] at h
      exact ihrest _ hc.2.1 h

/-! ### Lagging behind -/

/-- `s` marked `m` at `x ++ start`, `s'` only at `start`, having delivered `x` before. -/
structure Scan.Lags (S : Settings α) (m : Mark) (x start : Bytes) (s s' : Scan α) : Prop where
  parser : s.parser = s'.parser
  user : s'.user = (S.data m x s.user).2
  marks : s.marks = onlyMark m (x ++ start)
  marks' : s'.marks = onlyMark m start

/-- A coherent case keeps the lag, or ends it by the callback that both run. -/
theorem runCode_lag (hS : Lawful S) {m : Mark} {x start : Bytes} (c : Code)
    (hc : c.Coherent (some m)) {s s' : Scan α} {p : Bytes} (moved : ℕ)
    (hlag : Scan.Lags S m x start s s') (hp : p.length ≤ start.length) :
    runCode S c s p moved = runCode S c s' p moved ∨
      (∃ t t' moved', runCode S c s p moved = .next t moved' ∧
        runCode S c s' p moved = .next t' moved' ∧ Scan.Lags S m x start t t' ∧
        t.parser.state.openMark = some m ∧ t.parser.Going ∧ moved' = moved) ∨
      (∃ q q' v v', runCode S c s p moved = .done q v moved ∧
        runCode S c s' p moved = .done q' v' moved) := by
  induction c generalizing s s' with
  | next parser =>
      refine Or.inr (Or.inl ⟨_, _, moved, rfl, rfl, ⟨rfl, hlag.user, hlag.marks, hlag.marks'⟩, ?_⟩)
      exact ⟨hc.2, hc.1, rfl⟩
  | error parser errno => exact Or.inr (Or.inr ⟨_, _, _, _, rfl, rfl⟩)
  | leave parser => exact absurd hc.1 (by simp)
  | mark m' rest ih =>
      obtain ⟨hopen, hrest⟩ := hc
      have heq : m = m' := by simpa using hopen
      subst heq
      simp only [runCode, hlag.marks, hlag.marks', onlyMark, if_true]
      exact ih hrest hlag
  | advance n rest ih => exact absurd hc (by simp [Code.Coherent])
  | data m' parser extra consumed rest ih =>
      obtain ⟨rfl, hopen, hrest⟩ := hc
      have heq : m = m' := by simpa using hopen
      subst heq
      have htext : (x ++ start).take ((x ++ start).length - p.length + 0)
          = x ++ start.take (start.length - p.length + 0) := by
        rw [List.length_append, List.take_append, List.take_of_length_le (by omega)]
        congr 2
        omega
      have hset : ∀ t, onlyMark m t m = some t := fun t => by simp [onlyMark]
      left
      simp only [runCode, hlag.marks, hlag.marks', hlag.user, hset, htext, hS.data, ne_eq,
        not_true_eq_false, if_false, hS.append, update_onlyMark, hlag.parser]
  | notify n parser rest ih => exact absurd hc.1 (by simp)
  | headersComplete parser rest skipBody ihrest ihskip => exact absurd hc.1 (by simp)

theorem bulk_of_openMark {state : State} {m : Mark} (h : state.openMark = some m) :
    state.bulk = false := by
  cases state <;> first | rfl | exact absurd h (by simp [State.openMark])

/-- A lagging loop ends like the one ahead of it. -/
theorem runFrom_lag (hS : Lawful S) {m : Mark} {x start : Bytes} (p : Bytes) {s s' : Scan α}
    (hlag : Scan.Lags S m x start s s') (hp : p.length ≤ start.length)
    (hopen : s.parser.state.openMark = some m) (hok : s.parser.Going) :
    runFrom S s 0 p = runFrom S s' 0 p := by
  induction p generalizing s s' with
  | nil =>
      have hs : s = ⟨s.parser, s.user, onlyMark m (x ++ start)⟩ := by rw [← hlag.marks]
      have hs' : s' = ⟨s'.parser, s'.user, onlyMark m start⟩ := by rw [← hlag.marks']
      rw [runFrom, runFrom, hs, hs', settle_onlyMark hS, settle_onlyMark hS, hS.append]
      simp only [hlag.parser, hlag.user]
  | cons ch p ih =>
      have hcoh := turn_coherent s.parser ch (p.length + 1) hok (bulk_of_openMark hopen)
      rw [hopen] at hcoh
      have hcases := runCode_lag hS _ hcoh 0 hlag hp
      simp only [runFrom, ← hlag.parser]
      rcases hcases with heq | ⟨t, t', moved', ht, ht', hlag', hopen', hok', rfl⟩
        | ⟨q, q', v, v', hq, hq'⟩
      · rw [heq]
      · rw [ht, ht']
        exact ih hlag' (Nat.le_trans (Nat.le_succ _) hp) hopen' hok'
      · simp only [hq, hq', (Nat.succ_ne_zero p.length).symm, if_false]

/-! ### The bulk states -/

theorem runFrom_skip (s : Scan α) (skip : ℕ) (p : Bytes) :
    runFrom S s skip p = runFrom S s 0 (p.drop skip) := by
  induction p generalizing skip with
  | nil => cases skip <;> rfl
  | cons ch p ih =>
      cases skip with
      | zero => rfl
      | succ skip => exact ih skip

theorem marksAt_bulk {state : State} (h : state.bulk = true) (data : Bytes) :
    marksAt state data = fun _ => none :=
  marksAt_none (by cases state <;> first | rfl | exact absurd h (by simp [State.bulk])) data

theorem update_unmarked (m : Mark) (start : Bytes) :
    Function.update (fun _ => none) m (some start) = onlyMark m start := by
  funext m'
  by_cases h : m' = m <;> simp [onlyMark, h]

/-- `MARK` at the start of a bulk state. -/
theorem runCode_mark_unmarked (m : Mark) (c : Code) (parser : Parser) (u : α) (p : Bytes)
    (moved : ℕ) :
    runCode S (.mark m c) ⟨parser, u, fun _ => none⟩ p moved
      = runCode S c ⟨parser, u, onlyMark m p⟩ p moved := by
  simp only [runCode, update_unmarked]

/-- The number of bytes a body state moves over, before the `p++` of the loop. -/
def Parser.bodyStep (parser : Parser) (avail : ℕ) : ℕ := min parser.contentLength avail - 1

theorem length_drop_bodyStep (parser : Parser) (b : UInt8) (d : Bytes) :
    (b :: d).length - ((b :: d).drop (parser.bodyStep (d.length + 1))).length
      = parser.bodyStep (d.length + 1) := by
  simp only [Parser.bodyStep, List.length_drop, List.length_cons]
  omega

theorem run_bodyIdentity (hS : Lawful S) {parser : Parser} (hok : parser.Going)
    (hs : parser.state = .bodyIdentity) (u : α) (b : UInt8) (d : Bytes) :
    run S parser u (b :: d) =
      if parser.contentLength ≤ d.length + 1 then
        let done : Parser := { parser with contentLength := 0, state := .messageDone }
        runFrom S ⟨{ done with state := done.newMessage },
          (S.onMessageComplete
            (S.data .body ((b :: d).take (parser.bodyStep (d.length + 1) + 1)) u).2).2,
          fun _ => none⟩ 0 (d.drop (parser.bodyStep (d.length + 1)))
      else some ({ parser with contentLength := parser.contentLength - (d.length + 1) },
        (S.data .body (b :: d) u).2) := by
  have hheader : parser.state.parsingHeader = false := by rw [hs]; rfl
  have hcomplete : ∀ u, (S.onMessageComplete u).1 = 0 := hS.notice .messageComplete
  have hset : ∀ t, onlyMark .body t .body = some t := fun t => by simp [onlyMark]
  have htext := length_drop_bodyStep parser b d
  have hturn : turn parser b (d.length + 1) = caseBodyIdentity parser (d.length + 1) := by
    rw [turn, hheader, if_neg (by simp), switch, hs]
  rw [run, if_neg (by simp), if_pos hok, marksAt_bulk (by rw [hs]; rfl), runFrom, hturn,
    caseBodyIdentity, runCode_mark_unmarked]
  simp only [Parser.bodyStep] at htext ⊢
  by_cases hfits : parser.contentLength ≤ d.length + 1
  · have hzero : parser.contentLength - min parser.contentLength (d.length + 1) = 0 := by omega
    simp only [hzero, if_true, caseMessageDone, runCode, hset, hS.data, ne_eq, not_true_eq_false,
      if_false, Settings.notice, hcomplete, update_onlyMark, htext, hfits]
    rw [runFrom_skip, Nat.zero_add]
  · have hmin : min parser.contentLength (d.length + 1) = d.length + 1 := by omega
    have hmore : ¬ parser.contentLength - (d.length + 1) = 0 := by omega
    simp only [hmin, hmore, if_false, runCode, hfits]
    rw [runFrom_skip, Nat.zero_add, Nat.add_sub_cancel, List.drop_length, runFrom,
      settle_onlyMark hS]

theorem run_bodyIdentityEof (hS : Lawful S) {parser : Parser} (hok : parser.Going)
    (hs : parser.state = .bodyIdentityEof) (u : α) (b : UInt8) (d : Bytes) :
    run S parser u (b :: d) = some (parser, (S.data .body (b :: d) u).2) := by
  have hheader : parser.state.parsingHeader = false := by rw [hs]; rfl
  have hturn : turn parser b (d.length + 1) = caseBodyIdentityEof parser (d.length + 1) := by
    rw [turn, hheader, if_neg (by simp), switch, hs]
  rw [run, if_neg (by simp), if_pos hok, marksAt_bulk (by rw [hs]; rfl), runFrom, hturn,
    caseBodyIdentityEof, runCode_mark_unmarked]
  simp only [runCode, Nat.zero_add, Nat.add_sub_cancel]
  rw [runFrom_skip, List.drop_length, runFrom, settle_onlyMark hS]

/-- The body mark of a finished chunk is delivered at its line end, or when the data ends before. -/
theorem runFrom_chunkDataAlmostDone (hS : Lawful S) {parser : Parser}
    (hs : parser.state = .chunkDataAlmostDone) (u : α) (start p : Bytes) :
    runFrom S ⟨parser, u, onlyMark .body start⟩ 0 p
      = runFrom S ⟨parser, (S.data .body (start.take (start.length - p.length)) u).2, fun _ => none⟩
          0 p := by
  have hheader : parser.state.parsingHeader = false := by rw [hs]; rfl
  have hset : ∀ t, onlyMark .body t .body = some t := fun t => by simp [onlyMark]
  cases p with
  | nil => simp only [runFrom, settle_onlyMark hS, settle_unmarked, List.length_nil, Nat.sub_zero,
      List.take_length]
  | cons ch p =>
      have hturn : turn parser ch (p.length + 1) = caseChunkDataAlmostDone parser ch := by
        rw [turn, hheader, if_neg (by simp), switch, hs]
      simp only [runFrom, hturn, caseChunkDataAlmostDone, strictCheck]
      split_ifs
      · rfl
      · simp only [Code.callbackData, runCode, hset, hS.data, ne_eq, not_true_eq_false, if_false,
          update_onlyMark, Nat.add_zero, List.length_cons]

theorem run_chunkData (hS : Lawful S) {parser : Parser} (hok : parser.Going)
    (hs : parser.state = .chunkData) (u : α) (b : UInt8) (d : Bytes) :
    run S parser u (b :: d) =
      if parser.contentLength ≤ d.length + 1 then
        runFrom S ⟨{ parser with contentLength := 0, state := .chunkDataAlmostDone },
          (S.data .body ((b :: d).take (parser.bodyStep (d.length + 1) + 1)) u).2,
          fun _ => none⟩ 0 (d.drop (parser.bodyStep (d.length + 1)))
      else some ({ parser with contentLength := parser.contentLength - (d.length + 1) },
        (S.data .body (b :: d) u).2) := by
  have hheader : parser.state.parsingHeader = false := by rw [hs]; rfl
  have hturn : turn parser b (d.length + 1) = caseChunkData parser (d.length + 1) := by
    rw [turn, hheader, if_neg (by simp), switch, hs]
  rw [run, if_neg (by simp), if_pos hok, marksAt_bulk (by rw [hs]; rfl), runFrom, hturn,
    caseChunkData, runCode_mark_unmarked]
  simp only [runCode, Nat.zero_add]
  by_cases hfits : parser.contentLength ≤ d.length + 1
  · have hzero : parser.contentLength - min parser.contentLength (d.length + 1) = 0 := by omega
    have hlen : (b :: d).length - (d.drop (parser.bodyStep (d.length + 1))).length
        = parser.bodyStep (d.length + 1) + 1 := by
      simp only [Parser.bodyStep, List.length_drop, List.length_cons]
      omega
    rw [hzero, if_pos rfl, if_pos hfits, runFrom_skip, runFrom_chunkDataAlmostDone hS rfl]
    simp only [Parser.bodyStep] at hlen ⊢
    rw [hlen]
  · have hmin : min parser.contentLength (d.length + 1) = d.length + 1 := by omega
    have hmore : ¬ parser.contentLength - (d.length + 1) = 0 := by omega
    simp only [hmin, hmore, if_false, hfits, Nat.add_sub_cancel]
    rw [runFrom_skip, List.drop_length, runFrom, settle_onlyMark hS]

/-! ## Cutting the data -/

@[simp] theorem run_nil (parser : Parser) (u : α) : run S parser u [] = some (parser, u) := rfl

theorem run_of_stopped {parser : Parser} (h : ¬ parser.Going) (u : α) {data : Bytes}
    (hne : data ≠ []) : run S parser u data = none := by
  simp [run, h, hne]

/-- Resuming from an unmarked state. -/
theorem run_of_unmarked {parser : Parser} (hok : parser.Going)
    (hopen : parser.state.openMark = none) (u : α) (data : Bytes) :
    run S parser u data = runFrom S ⟨parser, u, fun _ => none⟩ 0 data := by
  simp only [run, hok, marksAt_none hopen]
  cases data <;> simp [runFrom, settle_unmarked]

/-- The first byte on its own, outside the bulk states. -/
theorem run_cons_still (hS : Lawful S) {parser : Parser} (hok : parser.Going)
    (hbulk : parser.state.bulk = false) (u : α) (b : UInt8) {d : Bytes} (hd : d ≠ []) :
    run S parser u (b :: d) = (run S parser u [b]).bind fun r => run S r.1 r.2 d := by
  have hcoh := turn_coherent parser b 1 hok hbulk
  have hextend := runCode_extend (S := S) d _ _ hcoh ⟨parser, u, marksAt parser.state [b]⟩ [b] 0
  have hstart : Scan.extend ⟨parser, u, marksAt parser.state [b]⟩ d
      = (⟨parser, u, marksAt parser.state (b :: d)⟩ : Scan α) := by
    simp only [Scan.extend, Scan.mk.injEq, true_and]
    funext m
    by_cases h : parser.state.openMark = some m <;> simp [marksAt, h]
  simp only [run, hok, if_true, if_false, List.isEmpty_cons, Bool.false_eq_true]
  rw [runFrom, runFrom, turn_avail parser b (d.length + 1) 1 hbulk, ← hstart]
  simp only [List.cons_append, List.nil_append] at hextend
  simp only [List.length_nil, Nat.zero_add]
  rw [hextend]
  cases hstep : runCode S (turn parser b 1) ⟨parser, u, marksAt parser.state [b]⟩ [b] 0 with
  | done q v k =>
      have hlen : d.length ≠ 0 := by simpa using hd
      rcases runCode_done hS _ _ hcoh hstep with rfl | ⟨rfl, -, hupgrade⟩
      · rfl
      · -- the byte ends HTTP, and the rest of the data is left over
        have hstopped : ¬ q.Going := fun hgo => by simp [hgo.2] at hupgrade
        simp [Step.extend, hd, hlen, hstopped]
  | next s' moved =>
      obtain ⟨hok', hmarks, rfl⟩ := runCode_marks hS _ _ hcoh rfl hstep
      simp only [Step.extend, runFrom, Option.bind_some]
      cases hopen : s'.parser.state.openMark with
      | none =>
          have hnone : s'.marks = fun _ => none := hmarks.trans (marksAt_none hopen _)
          have hs' : s' = ⟨s'.parser, s'.user, fun _ => none⟩ := by rw [← hnone]
          have hext : s'.extend d = ⟨s'.parser, s'.user, fun _ => none⟩ := by
            simp [Scan.extend, hnone]
          have hrest := run_of_unmarked (S := S) hok' hopen s'.user d
          rw [hext, ← hrest, hs', settle_unmarked]
          simp [run, hok', hd]
      | some m =>
          have honly : s'.marks = onlyMark m [b] := hmarks.trans (marksAt_some hopen _)
          have hs' : settle S s' = (S.data m [b] s'.user).2 := by
            rw [← settle_onlyMark hS s'.parser s'.user m [b], ← honly]
          have hlag : Scan.Lags S m [b] d (s'.extend d)
              ⟨s'.parser, (S.data m [b] s'.user).2, marksAt s'.parser.state d⟩ := by
            refine ⟨rfl, rfl, ?_, marksAt_some hopen d⟩
            funext m'
            by_cases h : m' = m <;> simp [Scan.extend, honly, onlyMark, h]
          rw [hs', runFrom_lag hS d hlag (Nat.le_refl _) hopen hok']
          simp [hok', hd]

theorem bodyStep_pred {parser : Parser} (h : ¬ parser.contentLength ≤ 1) (n : ℕ) :
    parser.bodyStep (n + 2)
      = Parser.bodyStep { parser with contentLength := parser.contentLength - 1 } (n + 1) + 1 := by
  simp only [Parser.bodyStep]
  omega

/-- A state that takes a body of counted length: with the last byte of it the parser goes on as `stop`
says, and what the body was for is done by `after`. -/
theorem run_cons_counted (hS : Lawful S) {state : State} (stop : Parser → Parser) (after : α → α)
    (hrun : ∀ {parser : Parser}, parser.Going → parser.state = state → ∀ (u : α) (b : UInt8)
      (d : Bytes), run S parser u (b :: d) =
        if parser.contentLength ≤ d.length + 1 then
          runFrom S ⟨stop parser,
            after (S.data .body ((b :: d).take (parser.bodyStep (d.length + 1) + 1)) u).2,
            fun _ => none⟩ 0 (d.drop (parser.bodyStep (d.length + 1)))
        else some ({ parser with contentLength := parser.contentLength - (d.length + 1) },
          (S.data .body (b :: d) u).2))
    (hstop : ∀ (parser : Parser) (n : ℕ), stop { parser with contentLength := n } = stop parser)
    (hgoing : ∀ parser : Parser, parser.Going → (stop parser).Going)
    (hopen : ∀ parser : Parser, (stop parser).state.openMark = none) {parser : Parser}
    (hok : parser.Going) (hs : parser.state = state) (u : α) (b c : UInt8) (d : Bytes) :
    run S parser u (b :: c :: d) = (run S parser u [b]).bind fun r => run S r.1 r.2 (c :: d) := by
  have hfirst := hrun hok hs u b []
  rw [hrun hok hs, hfirst]
  by_cases hone : parser.contentLength ≤ 1
  · -- the byte is the last one
    have hstep : ∀ n, parser.bodyStep (n + 1) = 0 := fun n => by
      simp only [Parser.bodyStep]
      omega
    have hrest := @run_of_unmarked _ S (stop parser) (hgoing parser hok) (hopen parser)
    rw [if_pos (Nat.le_trans hone (Nat.le_add_left _ _)), if_pos (by simpa using hone)]
    simp only [hstep, List.drop_zero, List.take_succ_cons, List.take_zero]
    rw [← hrest]
    rfl
  · have hsplit := hS.append .body [b]
    have hok' : Parser.Going { parser with contentLength := parser.contentLength - 1 } := hok
    rw [if_neg (show ¬ parser.contentLength ≤ List.length ([] : Bytes) + 1 by simpa using hone),
      Option.bind_some, List.length_nil, Nat.zero_add, hrun hok' hs,
      hstop parser (parser.contentLength - 1)]
    simp only [List.length_cons, bodyStep_pred hone, List.take_succ_cons, List.drop_succ_cons]
    by_cases hfits : parser.contentLength ≤ d.length + 2
    · have hfits' : parser.contentLength - 1 ≤ d.length + 1 := by omega
      rw [if_pos hfits, if_pos hfits', ← hsplit]
      rfl
    · have hfits' : ¬ parser.contentLength - 1 ≤ d.length + 1 := by omega
      rw [if_neg hfits, if_neg hfits', ← hsplit]
      simp only [Nat.sub_sub, Nat.add_comm 1]
      rfl

theorem run_cons_bodyIdentity (hS : Lawful S) {parser : Parser} (hok : parser.Going)
    (hs : parser.state = .bodyIdentity) (u : α) (b c : UInt8) (d : Bytes) :
    run S parser u (b :: c :: d) = (run S parser u [b]).bind fun r => run S r.1 r.2 (c :: d) :=
  run_cons_counted hS
    (fun parser =>
      let done : Parser := { parser with contentLength := 0, state := .messageDone }
      { done with state := done.newMessage })
    (fun u => (S.onMessageComplete u).2) (fun hok hs => run_bodyIdentity hS hok hs)
    (fun _ _ => rfl) (fun _ hok => hok) (fun _ => openMark_newMessage _) hok hs u b c d

theorem run_cons_chunkData (hS : Lawful S) {parser : Parser} (hok : parser.Going)
    (hs : parser.state = .chunkData) (u : α) (b c : UInt8) (d : Bytes) :
    run S parser u (b :: c :: d) = (run S parser u [b]).bind fun r => run S r.1 r.2 (c :: d) :=
  run_cons_counted hS
    (fun parser => { parser with contentLength := 0, state := .chunkDataAlmostDone }) (fun u => u)
    (fun hok hs => run_chunkData hS hok hs) (fun _ _ => rfl) (fun _ hok => hok) (fun _ => rfl)
    hok hs u b c d

/-- The first byte on its own. -/
theorem run_cons (hS : Lawful S) (parser : Parser) (u : α) (b : UInt8) {d : Bytes} (hd : d ≠ []) :
    run S parser u (b :: d) = (run S parser u [b]).bind fun r => run S r.1 r.2 d := by
  by_cases hstopped : ¬ parser.Going
  · simp [run_of_stopped hstopped]
  have hok : parser.Going := Decidable.not_not.1 hstopped
  obtain ⟨c, d, rfl⟩ := List.exists_cons_of_ne_nil hd
  cases hs : parser.state
  case bodyIdentity => exact run_cons_bodyIdentity hS hok hs u b c d
  case chunkData => exact run_cons_chunkData hS hok hs u b c d
  case bodyIdentityEof =>
    rw [run_bodyIdentityEof hS hok hs, run_bodyIdentityEof hS hok hs, Option.bind_some,
      run_bodyIdentityEof hS hok hs, ← hS.append]
    rfl
  all_goals exact run_cons_still hS hok (by rw [hs]; rfl) u b (List.cons_ne_nil c d)

/-- **Data may be cut anywhere.** -/
theorem run_append (hS : Lawful S) (parser : Parser) (u : α) (x y : Bytes) :
    run S parser u (x ++ y) = (run S parser u x).bind fun r => run S r.1 r.2 y := by
  induction x generalizing parser u with
  | nil => rfl
  | cons b x ih =>
      -- after the first byte the induction hypothesis applies
      have htail : ∀ z, run S parser u (b :: z) = (run S parser u [b]).bind
          fun r => run S r.1 r.2 z := by
        intro z
        by_cases hz : z = []
        · subst hz
          cases run S parser u [b] <;> rfl
        · exact run_cons hS parser u b hz
      rw [List.cons_append, htail, htail x, Option.bind_assoc]
      cases run S parser u [b] with
      | none => rfl
      | some r => exact ih r.1 r.2

/-- Execution of one read after another. -/
def runReads (S : Settings α) (parser : Parser) (u : α) (reads : List Bytes) :
    Option (Parser × α) :=
  reads.foldlM (fun r read => run S r.1 r.2 read) (parser, u)

/-- **Whichever way data is cut into reads, reading it leaves the same.** -/
theorem runReads_eq (hS : Lawful S) (parser : Parser) (u : α) (reads : List Bytes) :
    runReads S parser u reads = run S parser u reads.flatten := by
  induction reads generalizing parser u with
  | nil => rfl
  | cons x reads ih =>
      rw [List.flatten_cons, run_append hS, runReads, List.foldlM_cons]
      cases run S parser u x with
      | none => rfl
      | some r => exact ih r.1 r.2

/-! ### One byte -/

section

variable {parser next : Parser}

theorem turn_header (hheader : parser.state.parsingHeader = true) (hnread : parser.nread < maxHeaderSize)
    (ch : UInt8) (avail : ℕ) :
    turn parser ch avail = switch { parser with nread := parser.nread + 1 } ch avail := by
  simp only [turn, hheader, if_true]
  rw [if_neg (by omega)]

/-- A byte that only changes the parser. -/
theorem run_next (hok : parser.Going) (hopen : parser.state.openMark = none) {ch : UInt8}
    (hturn : turn parser ch 1 = .next next) (u : α) : run S parser u [ch] = some (next, u) := by
  rw [run_of_unmarked hok hopen, runFrom, List.length_nil, Nat.zero_add, hturn]
  simp only [runCode, runFrom, settle_unmarked]

theorem run_head (hS : Lawful S) (u : α) {ch : UInt8} (hok : parser.Going)
    (hopen : parser.state.openMark = none) (hturn : turn parser ch 1 = .next next) (rest : Bytes) :
    run S parser u (ch :: rest) = run S next u rest := by
  rw [← List.singleton_append, run_append hS, run_next hok hopen hturn]
  rfl

/-- The parser after bytes that only change it; `none` if one of them does more. -/
def walk (parser : Parser) : Bytes → Option Parser
  | [] => some parser
  | ch :: cs =>
      if parser.state.openMark = none ∧ parser.Going then
        match turn parser ch 1 with
        | .next next => walk next cs
        | _ => none
      else none

theorem run_walk (hS : Lawful S) (u : α) {cs : Bytes} (h : walk parser cs = some next) :
    run S parser u cs = some (next, u) := by
  induction cs generalizing parser with
  | nil =>
      obtain rfl := Option.some.inj h
      rfl
  | cons ch cs ih =>
      rw [walk] at h
      split at h
      · next hready =>
          split at h
          · next q hturn => rw [run_head hS u hready.2 hready.1 hturn, ih h]
          · exact absurd h (by simp)
      · exact absurd h (by simp)

/-- A byte of a string that is open. -/
theorem run_letter (hS : Lawful S) {m : Mark} (hok : parser.Going)
    (hopen : parser.state.openMark = some m) {ch : UInt8} (hturn : turn parser ch 1 = .next next)
    (u : α) : run S parser u [ch] = some (next, (S.data m [ch] u).2) := by
  rw [run, if_neg (by simp), if_pos hok, marksAt_some hopen, runFrom, List.length_nil, Nat.zero_add,
    hturn]
  simp only [runCode, runFrom, settle_onlyMark hS]

/-- More bytes of a string that is open. `I` is what holds of the parser behind the first of them. -/
theorem run_letters (hS : Lawful S) (parser : Parser) (u : α) (cs : Bytes) {m : Mark}
    {I : Bytes → Parser → Prop}
    (hstep : ∀ xs c rest p, cs = xs ++ c :: rest → I xs p → p.Going ∧ p.state.openMark = some m ∧
      ∃ next, turn p c 1 = .next next ∧ I (xs ++ [c]) next)
    (h : I [] parser) (x : Bytes) :
    ∃ next, I cs next ∧ run S parser (S.data m x u).2 cs = some (next, (S.data m (x ++ cs) u).2) := by
  induction cs generalizing parser x I with
  | nil => exact ⟨parser, h, by rw [run_nil, List.append_nil]⟩
  | cons c cs ih =>
      obtain ⟨hok, hopen, next, hturn, hnext⟩ := hstep [] c cs parser rfl h
      -- behind `c`, what holds is `I` with `c` in front
      obtain ⟨last, hlast, hrun⟩ := @ih next (fun xs => I (c :: xs)) (fun xs d rest p heq hp =>
        hstep (c :: xs) d rest p (congrArg (c :: ·) heq) hp) hnext (x ++ [c])
      refine ⟨last, hlast, ?_⟩
      rw [← List.singleton_append, run_append hS, run_letter hS hok hopen hturn, ← hS.append,
        Option.bind_some, hrun, List.append_assoc]

/-- The first byte of a string. -/
theorem run_opening (hS : Lawful S) {m : Mark} (hok : parser.Going)
    (hopen : parser.state.openMark = none) {ch : UInt8}
    (hturn : turn parser ch 1 = .mark m (.next next)) (u : α) :
    run S parser u [ch] = some (next, (S.data m [ch] u).2) := by
  rw [run_of_unmarked hok hopen, runFrom, List.length_nil, Nat.zero_add, hturn,
    runCode_mark_unmarked]
  simp only [runCode, runFrom, settle_onlyMark hS]

/-- The byte after a string. -/
theorem run_closing (hS : Lawful S) {m : Mark} (hok : parser.Going)
    (hopen : parser.state.openMark = some m) {ch : UInt8}
    (hturn : turn parser ch 1 = .callbackData m next (.next next)) (u : α) :
    run S parser u [ch] = some (next, (S.data m [] u).2) := by
  have hset : onlyMark m [ch] m = some [ch] := by simp [onlyMark]
  rw [run, if_neg (by simp), if_pos hok, marksAt_some hopen, runFrom, List.length_nil, Nat.zero_add,
    hturn, Code.callbackData]
  simp only [runCode, hset, List.length_singleton, Nat.sub_self, Nat.add_zero, List.take_zero, hS.data,
    ne_eq, not_true_eq_false, if_false, update_onlyMark, runFrom, settle_unmarked]

/-- An empty string. -/
theorem run_empty (hS : Lawful S) {m : Mark} (hok : parser.Going)
    (hopen : parser.state.openMark = none) {ch : UInt8}
    (hturn : turn parser ch 1 = .mark m (.callbackData m next (.next next))) (u : α) :
    run S parser u [ch] = some (next, (S.data m [] u).2) := by
  have hset : onlyMark m [ch] m = some [ch] := by simp [onlyMark]
  rw [run_of_unmarked hok hopen, runFrom, List.length_nil, Nat.zero_add, hturn,
    runCode_mark_unmarked, Code.callbackData]
  simp only [runCode, hset, List.length_singleton, Nat.sub_self, Nat.add_zero, List.take_zero, hS.data,
    ne_eq, not_true_eq_false, if_false, update_onlyMark, runFrom, settle_unmarked]

/-- A byte that is notified. -/
theorem run_notify (hS : Lawful S) {n : Notice} (hok : parser.Going)
    (hopen : parser.state.openMark = none) {ch : UInt8}
    (hturn : turn parser ch 1 = .notify n next (.next next)) (u : α) :
    run S parser u [ch] = some (next, (S.notice n u).2) := by
  rw [run_of_unmarked hok hopen, runFrom, List.length_nil, Nat.zero_add, hturn]
  simp only [runCode, hS.notice, ne_eq, not_true_eq_false, if_false, runFrom, settle_unmarked]

/-- Nothing more of a string. -/
theorem Lawful.data_nil (hS : Lawful S) (m : Mark) (x : Bytes) (u : α) :
    (S.data m [] (S.data m x u).2).2 = (S.data m x u).2 := by
  rw [← hS.append, List.append_nil]

end

/-! ## `run` and `execute` -/

/-- `run` tells whether `execute` consumes everything, and what it then leaves. -/
theorem run_eq_execute (hS : Lawful S) {parser : Parser} (hok : parser.Going) (u : α) {data : Bytes}
    (hne : data ≠ []) :
    run S parser u data =
      if (execute S parser u data).consumed = data.length
      then some ((execute S parser u data).parser, (execute S parser u data).user) else none := by
  have herr : ¬ parser.httpErrno ≠ .ok := by simp [hok.1]
  simp only [run, execute, herr, hok, if_true, if_false, List.isEmpty_iff, hne, runFrom_eq _ _ _ 0,
    Nat.zero_add]
  cases loop S ⟨parser, u, marksAt parser.state data⟩ 0 data 0 with
  | «return» r => rfl
  | «end» s =>
      obtain ⟨hparser, hconsumed⟩ := flush_lawful hS data.length Mark.all s
      simp only [hparser, hconsumed, if_true, settle, flush_len 0 data.length]

/-- Two applications that keep a relation read the same data alike. -/
theorem run_related {β : Type} {S' : Settings β} (hS : Lawful S) (hS' : Lawful S')
    {ρ : α → β → Prop} {parser : Parser} {u : α} {v : β} {data : Bytes}
    (hsim : Simulates S S' data.length ρ) (h : ρ u v) {r : Parser × α}
    (hr : run S parser u data = some r) :
    ∃ v', run S' parser v data = some (r.1, v') ∧ ρ r.2 v' := by
  by_cases hne : data = []
  · subst hne
    rw [run_nil, Option.some.injEq] at hr
    exact ⟨v, by rw [run_nil, ← hr], by rwa [← hr]⟩
  · by_cases hok : parser.Going
    · have hrelated := execute_related hsim parser data (Nat.le_refl _) h
      rw [run_eq_execute hS hok u hne] at hr
      split at hr
      · next hconsumed =>
          obtain rfl := Option.some.inj hr
          refine ⟨(execute S' parser v data).user, ?_, hrelated.user⟩
          rw [run_eq_execute hS' hok v hne, if_pos (by rw [← hrelated.consumed, hconsumed]),
            hrelated.parser]
      · exact absurd hr (by simp)
    · rw [run_of_stopped hok u hne] at hr
      exact absurd hr (by simp)

/-- What the callbacks preserve, a run preserves. -/
theorem run_preserves (hS : Lawful S) {P : α → Prop} (hnotice : ∀ n u, P u → P (S.notice n u).2)
    (hheaders : ∀ parser u, P u → P (S.onHeadersComplete parser u).2)
    (hdata : ∀ m x u, P u → P (S.data m x u).2) {parser : Parser} {u : α} {data : Bytes}
    {r : Parser × α} (hr : run S parser u data = some r) (hu : P u) : P r.2 := by
  by_cases hne : data = []
  · rw [hne, run_nil, Option.some.injEq] at hr
    exact hr ▸ hu
  · by_cases hok : parser.Going
    · have hsim : Simulates S S data.length fun u v => u = v ∧ P u :=
        { notice := fun n u v h => ⟨by rw [h.1], by rw [h.1], hnotice n u h.2⟩
          headersComplete := fun parser u v h => ⟨by rw [h.1], by rw [h.1], hheaders parser u h.2⟩
          data := fun m x u v _ h => ⟨by rw [h.1], by rw [h.1], hdata m x u h.2⟩ }
      have hrelated := execute_related hsim parser data (Nat.le_refl _) ⟨rfl, hu⟩
      rw [run_eq_execute hS hok u hne] at hr
      split at hr
      · simp only [Option.some.injEq] at hr
        exact hr ▸ hrelated.user.2
      · exact absurd hr (by simp)
    · rw [run_of_stopped hok u hne] at hr
      exact absurd hr (by simp)

/-- One call of `http_parser_execute` after another, whatever each of them returns. -/
def executeAll (S : Settings α) (parser : Parser) (user : α) (reads : List Bytes) :
    Parser × α :=
  reads.foldl (fun r data => ((execute S r.1 r.2 data).parser, (execute S r.1 r.2 data).user))
    (parser, user)

/-- Each read is consumed to its end, and leaves a parser that goes on. -/
def ReadsThrough (S : Settings α) : Parser → α → (reads : List Bytes) → Prop
  | _, _, [] => True
  | parser, u, data :: reads =>
      (execute S parser u data).consumed = data.length ∧ (execute S parser u data).parser.Going ∧
        ReadsThrough S (execute S parser u data).parser (execute S parser u data).user reads

theorem readsThrough_iff (hS : Lawful S) {parser : Parser} (hok : parser.Going) (u : α)
    {reads : List Bytes} (hne : ∀ data ∈ reads, data ≠ []) (r : Parser × α) :
    ReadsThrough S parser u reads ∧ executeAll S parser u reads = r ↔
      runReads S parser u reads = some r ∧ r.1.Going := by
  induction reads generalizing parser u with
  | nil =>
      constructor
      · rintro ⟨-, rfl⟩
        exact ⟨rfl, hok⟩
      · rintro ⟨hr, -⟩
        exact ⟨trivial, Option.some.inj hr⟩
  | cons data reads ih =>
      have hdata : data ≠ [] := hne data (by simp)
      have hrest : ∀ data ∈ reads, data ≠ [] := fun data hmem => hne data (by simp [hmem])
      have hrun : runReads S parser u (data :: reads)
          = (run S parser u data).bind fun r => runReads S r.1 r.2 reads := List.foldlM_cons
      have hall : executeAll S parser u (data :: reads) = executeAll S
          (execute S parser u data).parser (execute S parser u data).user reads := rfl
      rw [hrun, run_eq_execute hS hok u hdata, ReadsThrough, hall]
      split
      · next hconsumed =>
          by_cases hgoing : (execute S parser u data).parser.Going
          · simpa [hconsumed, hgoing] using ih hgoing (execute S parser u data).user hrest
          · -- a read that ends HTTP is the last one
            refine ⟨fun h => absurd h.1.2.1 hgoing, fun h => ?_⟩
            cases reads with
            | nil =>
                obtain ⟨hr, hgoing'⟩ := h
                obtain rfl := Option.some.inj hr
                exact absurd hgoing' hgoing
            | cons data' reads =>
                have hstop : runReads S (execute S parser u data).parser
                    (execute S parser u data).user (data' :: reads) = none := by
                  rw [runReads, List.foldlM_cons, run_of_stopped hgoing _ (hrest data' (by simp))]
                  rfl
                exact absurd (hstop.symm.trans h.1) (by simp)
      · next hpart => simp [hpart]

/-- Data that a run consumes is read through in any cut. -/
theorem readsThrough_of_run (hS : Lawful S) {parser : Parser} (hok : parser.Going) {u : α}
    {reads : List Bytes} {data : Bytes} (hreads : reads.flatten = data)
    (hne : ∀ data ∈ reads, data ≠ []) {r : Parser × α} (hrun : run S parser u data = some r)
    (hgoing : r.1.Going) : ReadsThrough S parser u reads ∧ executeAll S parser u reads = r := by
  rw [← hreads, ← runReads_eq hS] at hrun
  exact (readsThrough_iff hS hok u hne r).2 ⟨hrun, hgoing⟩

/-- **However data is cut, it is read through in all cuts or in none, and leaves the same parser and
the same state of the application.** Read through means that the parser goes on behind every read: a
read in which it stops for an upgrade or an error is not. -/
theorem executeAll_flatten (hS : Lawful S) {parser : Parser} (hok : parser.Going) (u : α)
    {reads : List Bytes} (hreads : reads ≠ []) (hne : ∀ data ∈ reads, data ≠ []) :
    (ReadsThrough S parser u reads ↔ ReadsThrough S parser u [reads.flatten]) ∧
      (ReadsThrough S parser u reads →
        executeAll S parser u reads = executeAll S parser u [reads.flatten]) := by
  have hflat : ∀ data ∈ [reads.flatten], data ≠ [] := by
    obtain ⟨data, reads, rfl⟩ := List.exists_cons_of_ne_nil hreads
    simp [hne data (by simp)]
  have hone : runReads S parser u [reads.flatten] = runReads S parser u reads := by
    rw [runReads_eq hS, runReads_eq hS]
    simp
  have hcut := readsThrough_iff hS hok u hne
  have hwhole := readsThrough_iff hS hok u hflat
  rw [hone] at hwhole
  refine ⟨⟨fun h => ?_, fun h => ?_⟩, fun h => ?_⟩
  · exact ((hwhole _).2 ((hcut _).1 ⟨h, rfl⟩)).1
  · exact ((hcut _).2 ((hwhole _).1 ⟨h, rfl⟩)).1
  · exact ((hwhole _).2 ((hcut _).1 ⟨h, rfl⟩)).2.symm

/-- An application that looks at nothing. -/
def ignoring : Settings Unit :=
  ⟨fun _ => (0, ()), fun _ _ => (0, ()), fun _ => (0, ()), fun _ _ => (0, ()), fun _ _ => (0, ()),
    fun _ _ => (0, ()), fun _ _ => (0, ()), fun _ => (0, ())⟩

theorem lawful_ignoring : Lawful ignoring where
  notice n u := by cases n <;> rfl
  headersComplete parser u := rfl
  data m x u := by cases m <;> rfl
  append m x y u := rfl

theorem executeAll_flatten_ignoring :
    executeAll ignoring (Parser.init .request) () [lit "GET /", lit "a HTTP/1.1\x0d", lit "\n\x0d\n"]
      = executeAll ignoring (Parser.init .request) () [lit "GET /a HTTP/1.1\x0d\n\x0d\n"] :=
  (executeAll_flatten lawful_ignoring (by decide) () (by decide) (by decide)).2
    ⟨by decide +kernel, by decide +kernel, by decide +kernel, by decide +kernel, by decide +kernel,
      by decide +kernel, trivial⟩

end ImageProxy.Http
