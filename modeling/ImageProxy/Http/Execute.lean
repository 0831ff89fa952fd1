import Mathlib.Data.Int.Notation
import Mathlib.Logic.Function.Basic
import ImageProxy.Http.Parser

set_option autoImplicit false

/-! # The HTTP parser: running the switch over data (`http_parser_execute`)

A pointer into the data is the rest of the data from it on, so `p - mark` is a difference of
lengths. The four marks, the parser record and the application's state are the locals of the loop. -/

namespace ImageProxy.Http

/-- `http_parser_settings`: the callbacks of an application whose state (what `parser->data` points
at) has type `α`. Each returns its `int` and the new state. Only `on_headers_complete` looks at the
parser. A null callback is one that returns 0 and does nothing. -/
structure Settings (α : Type) where
  onMessageBegin : α → ℤ × α
  onUrl : Bytes → α → ℤ × α
  onStatusComplete : α → ℤ × α
  onHeaderField : Bytes → α → ℤ × α
  onHeaderValue : Bytes → α → ℤ × α
  onHeadersComplete : Parser → α → ℤ × α
  onBody : Bytes → α → ℤ × α
  onMessageComplete : α → ℤ × α

variable {α β : Type}

def Settings.data (S : Settings α) : Mark → Bytes → α → ℤ × α
  | .headerField => S.onHeaderField
  | .headerValue => S.onHeaderValue
  | .url => S.onUrl
  | .body => S.onBody

def Settings.notice (S : Settings α) : Notice → α → ℤ × α
  | .messageBegin => S.onMessageBegin
  | .statusComplete => S.onStatusComplete
  | .messageComplete => S.onMessageComplete

/-- `HPE_CB_*` of a data callback. -/
def Mark.errno : Mark → Errno
  | .headerField => .cbHeaderField
  | .headerValue => .cbHeaderValue
  | .url => .cbUrl
  | .body => .cbBody

/-- `HPE_CB_*` of a callback without data. -/
def Notice.errno : Notice → Errno
  | .messageBegin => .cbMessageBegin
  | .statusComplete => .cbStatusComplete
  | .messageComplete => .cbMessageComplete

/-- The locals of the loop. -/
structure Scan (α : Type) where
  parser : Parser
  user : α
  marks : Mark → Option Bytes

/-- How a turn of the loop ends: with `p` moved by `moved` bytes and then `p++`, or by returning
`consumed` bytes more than were read before this turn. -/
inductive Step (α : Type) where
  | next (s : Scan α) (moved : ℕ)
  | done (parser : Parser) (user : α) (consumed : ℕ)

/-- Run the code of a case at `p`, which has moved by `moved` since the turn began. -/
def runCode (S : Settings α) : Code → Scan α → (p : Bytes) → (moved : ℕ) → Step α
  | .next parser, s, _, moved => .next { s with parser := parser } moved
  | .error parser errno, s, _, moved => .done { parser with httpErrno := errno } s.user moved
  | .leave parser, s, _, moved => .done parser s.user (moved + 1)
  | .mark m rest, s, p, moved =>
      match s.marks m with
      | none => runCode S rest { s with marks := Function.update s.marks m (some p) } p moved
      | some _ => runCode S rest s p moved
  | .advance n rest, s, p, moved => runCode S rest s (p.drop n) (moved + n)
  | .data m parser extra consumed rest, s, p, moved =>
      match s.marks m with
      | none => runCode S rest s p moved
      | some start =>
          let r := S.data m (start.take (start.length - p.length + extra)) s.user
          if r.1 ≠ 0 then .done { parser with httpErrno := m.errno } r.2 (moved + consumed)
          else runCode S rest { s with user := r.2, marks := Function.update s.marks m none } p moved
  | .notify n parser rest, s, p, moved =>
      let r := S.notice n s.user
      if r.1 ≠ 0 then .done { parser with httpErrno := n.errno } r.2 (moved + 1)
      else runCode S rest { s with user := r.2 } p moved
  | .headersComplete parser rest skipBody, s, p, moved =>
      let r := S.onHeadersComplete parser s.user
      if r.1 = 0 then runCode S rest { s with user := r.2 } p moved
      else if r.1 = 1 then runCode S skipBody { s with user := r.2 } p moved
      else .done { parser with httpErrno := .cbHeadersComplete } r.2 moved

/-- What `http_parser_execute` leaves: the parser, the application's state, and the return value. -/
@[ext] structure Result (α : Type) where
  parser : Parser
  user : α
  consumed : ℕ

/-- How the loop ends: at the end of the data, or by a return. -/
inductive Ending (α : Type) where
  | end (s : Scan α)
  | return (r : Result α)

/-- The loop over the data from `p = data + pos` on, its next `skip` bytes being consumed already. -/
def loop (S : Settings α) : Scan α → (skip : ℕ) → Bytes → (pos : ℕ) → Ending α
  | s, _, [], _ => .end s
  | s, skip + 1, _ :: p, pos => loop S s skip p (pos + 1)
  | s, 0, ch :: p, pos =>
      match runCode S (turn s.parser ch (p.length + 1)) s (ch :: p) 0 with
      | .next s' moved => loop S s' moved p (pos + 1)
      | .done parser user consumed => .return ⟨parser, user, pos + consumed⟩

/-- **What every turn keeps, the loop keeps**: `I`, of the locals, of how much of the data is consumed
already, and of the data. It ends with `F`, or returns with `E`. -/
theorem loop_induction {S : Settings α} {I : Scan α → ℕ → Bytes → Prop} {F : Scan α → Prop}
    {E : Parser → α → Prop} (hend : ∀ s skip, I s skip [] → F s)
    (hskip : ∀ s skip ch p, I s (skip + 1) (ch :: p) → I s skip p)
    (hturn : ∀ s ch p, I s 0 (ch :: p) →
      match runCode S (turn s.parser ch (p.length + 1)) s (ch :: p) 0 with
      | .next s' moved => I s' moved p
      | .done parser user _ => E parser user)
    {s : Scan α} {skip : ℕ} {p : Bytes} (h : I s skip p) (pos : ℕ) :
    match loop S s skip p pos with
    | .end s' => F s'
    | .return r => E r.parser r.user := by
  induction p generalizing s skip pos with
  | nil => cases skip <;> exact hend _ _ h
  | cons ch p ih =>
      cases skip with
      | succ skip => exact ih (hskip s skip ch p h) (pos + 1)
      | zero =>
          have hkept := hturn s ch p h
          rw [loop]
          cases hstep : runCode S (turn s.parser ch (p.length + 1)) s (ch :: p) 0 with
          | next s' moved =>
              rw [hstep] at hkept
              exact ih hkept (pos + 1)
          | done parser user consumed =>
              rw [hstep] at hkept
              exact hkept

/-- The string a state is in the middle of: its mark is set to `data` when execution resumes. -/
def State.openMark : State → Option Mark
  | .headerField => some .headerField
  | .headerValue => some .headerValue
  | .reqPath | .reqSchema | .reqSchemaSlash | .reqSchemaSlashSlash | .reqServerStart | .reqServer
  | .reqServerWithAt | .reqQueryStringStart | .reqQueryString | .reqFragmentStart | .reqFragment =>
      some .url
  | _ => none

/-- The marks at the start of the data. -/
def marksAt (state : State) (data : Bytes) : Mark → Option Bytes :=
  fun m => if state.openMark = some m then some data else none

/-- The callbacks for the marks left over at the end of the data. -/
def flush (S : Settings α) (len : ℕ) : List Mark → Scan α → Result α
  | [], s => ⟨s.parser, s.user, len⟩
  | m :: ms, s =>
      match s.marks m with
      | none => flush S len ms s
      | some start =>
          let r := S.data m start s.user
          if r.1 ≠ 0 then ⟨{ s.parser with httpErrno := m.errno }, r.2, len⟩
          else flush S len ms { s with user := r.2, marks := Function.update s.marks m none }

/-- The marks in the order in which they are flushed. -/
def Mark.all : List Mark := [.headerField, .headerValue, .url, .body]

/-- `http_parser_execute`. -/
def execute (S : Settings α) (parser : Parser) (user : α) (data : Bytes) : Result α :=
  if parser.httpErrno ≠ .ok then ⟨parser, user, 0⟩
  else if data.isEmpty then
    match parser.state with
    | .bodyIdentityEof =>
        let r := S.onMessageComplete user
        if r.1 ≠ 0 then ⟨{ parser with httpErrno := .cbMessageComplete }, r.2, 0⟩
        else ⟨parser, r.2, 0⟩
    | .dead | .startReqOrRes | .startRes | .startReq => ⟨parser, user, 0⟩
    | _ => ⟨{ parser with httpErrno := .invalidEofState }, user, 1⟩
  else
    match loop S ⟨parser, user, marksAt parser.state data⟩ 0 data 0 with
    | .return r => r
    | .end s => flush S data.length Mark.all s

/-! ## Two applications, one parser

The parser decides nothing on what the application knows, only on what its callbacks return. So if
the callbacks of two applications return the same and keep a relation between their states, then
executing the same data keeps it too, and leaves the same parser. -/

/-- The callbacks of `S` and `S'` return the same numbers and keep `ρ`, for data of up to `N`
bytes. -/
structure Simulates (S : Settings α) (S' : Settings β) (N : ℕ) (ρ : α → β → Prop) : Prop where
  notice : ∀ n u v, ρ u v →
    (S.notice n u).1 = (S'.notice n v).1 ∧ ρ (S.notice n u).2 (S'.notice n v).2
  headersComplete : ∀ parser u v, ρ u v →
    (S.onHeadersComplete parser u).1 = (S'.onHeadersComplete parser v).1 ∧
      ρ (S.onHeadersComplete parser u).2 (S'.onHeadersComplete parser v).2
  data : ∀ m x u v, x.length ≤ N → ρ u v →
    (S.data m x u).1 = (S'.data m x v).1 ∧ ρ (S.data m x u).2 (S'.data m x v).2

/-- Locals that differ in the application's state only; every mark is within `N` bytes. -/
structure Scan.Related (N : ℕ) (ρ : α → β → Prop) (s : Scan α) (s' : Scan β) : Prop where
  parser : s.parser = s'.parser
  marks : s.marks = s'.marks
  bound : ∀ m start, s.marks m = some start → start.length ≤ N
  user : ρ s.user s'.user

/-- Results that differ in the application's state only. -/
structure Result.Related (ρ : α → β → Prop) (r : Result α) (r' : Result β) : Prop where
  parser : r.parser = r'.parser
  consumed : r.consumed = r'.consumed
  user : ρ r.user r'.user

/-- Turns that end alike. -/
inductive Step.Related (N : ℕ) (ρ : α → β → Prop) : Step α → Step β → Prop where
  | next {s s'} (moved : ℕ) (h : Scan.Related N ρ s s') : Related N ρ (.next s moved) (.next s' moved)
  | done {u v} (parser : Parser) (consumed : ℕ) (h : ρ u v) :
      Related N ρ (.done parser u consumed) (.done parser v consumed)

variable {S : Settings α} {S' : Settings β} {N : ℕ} {ρ : α → β → Prop}

theorem Scan.Related.setMark {s : Scan α} {s' : Scan β} (h : Scan.Related N ρ s s') (m : Mark)
    (v : Option Bytes) (hv : ∀ start, v = some start → start.length ≤ N) {u : α} {u' : β}
    (hu : ρ u u') :
    Scan.Related N ρ ⟨s.parser, u, Function.update s.marks m v⟩
      ⟨s'.parser, u', Function.update s'.marks m v⟩ := by
  refine ⟨h.parser, congrArg (Function.update · m v) h.marks, fun m' start hm => ?_, hu⟩
  by_cases heq : m' = m
  · subst heq
    exact hv start (by simpa using hm)
  · exact h.bound m' start (by simpa [heq] using hm)

theorem Scan.Related.setUser {s : Scan α} {s' : Scan β} (h : Scan.Related N ρ s s') {u : α} {u' : β}
    (hu : ρ u u') :
    Scan.Related N ρ ⟨s.parser, u, s.marks⟩ ⟨s'.parser, u', s'.marks⟩ :=
  ⟨h.parser, h.marks, h.bound, hu⟩

/-- The code of one case, by induction on it. -/
theorem runCode_related (hS : Simulates S S' N ρ) (c : Code) {s : Scan α} {s' : Scan β} {p : Bytes}
    (moved : ℕ) (h : Scan.Related N ρ s s') (hp : p.length ≤ N) :
    Step.Related N ρ (runCode S c s p moved) (runCode S' c s' p moved) := by
  induction c generalizing s s' p moved with
  | next parser => exact .next moved ⟨rfl, h.marks, h.bound, h.user⟩
  | error parser errno => exact .done _ _ h.user
  | leave parser => exact .done _ _ h.user
  | mark m rest ih =>
      simp only [runCode, ← h.marks]
      cases hm : s.marks m with
      | none =>
          refine ih moved ?_ hp
          have hset := h.setMark m (some p) (fun start hstart => by cases hstart; exact hp) h.user
          rwa [← h.marks] at hset
      | some start => exact ih moved h hp
  | advance n rest ih =>
      exact ih (moved + n) h (Nat.le_trans (by rw [List.length_drop]; omega) hp)
  | data m parser extra consumed rest ih =>
      simp only [runCode, ← h.marks]
      cases hm : s.marks m with
      | none => exact ih moved h hp
      | some start =>
          have htext : (start.take (start.length - p.length + extra)).length ≤ N :=
            Nat.le_trans (List.length_take_le' _ _) (h.bound m start hm)
          obtain ⟨hcode, huser⟩ := hS.data m _ s.user s'.user htext h.user
          simp only [← hcode]
          split
          · exact .done _ _ huser
          · refine ih moved ?_ hp
            have hset := h.setMark m none (fun start hstart => by cases hstart) huser
            rwa [← h.marks] at hset
  | notify n parser rest ih =>
      obtain ⟨hcode, huser⟩ := hS.notice n s.user s'.user h.user
      simp only [runCode, ← hcode]
      split
      · exact .done _ _ huser
      · exact ih moved (h.setUser huser) hp
  | headersComplete parser rest skipBody ihrest ihskip =>
      obtain ⟨hcode, huser⟩ := hS.headersComplete parser s.user s'.user h.user
      simp only [runCode, ← hcode]
      split
      · exact ihrest moved (h.setUser huser) hp
      · split
        · exact ihskip moved (h.setUser huser) hp
        · exact .done _ _ huser

/-- Loops that end alike. -/
inductive Ending.Related (N : ℕ) (ρ : α → β → Prop) : Ending α → Ending β → Prop where
  | end {s s'} (h : Scan.Related N ρ s s') : Related N ρ (.end s) (.end s')
  | return {r r'} (h : Result.Related ρ r r') : Related N ρ (.return r) (.return r')

theorem loop_related (hS : Simulates S S' N ρ) (p : Bytes) {s : Scan α} {s' : Scan β}
    (skip pos : ℕ) (h : Scan.Related N ρ s s') (hp : p.length ≤ N) :
    Ending.Related N ρ (loop S s skip p pos) (loop S' s' skip p pos) := by
  induction p generalizing s s' skip pos with
  | nil =>
      cases skip <;> exact .end h
  | cons ch p ih =>
      have htail : p.length ≤ N := Nat.le_trans (Nat.le_succ _) hp
      cases skip with
      | succ skip => exact ih skip (pos + 1) h htail
      | zero =>
          have hturn := runCode_related hS (turn s.parser ch (p.length + 1)) 0 h hp
          simp only [loop, ← h.parser]
          revert hturn
          generalize runCode S _ s _ _ = step
          generalize runCode S' _ s' _ _ = step'
          intro hturn
          cases hturn with
          | next moved hs => exact ih moved (pos + 1) hs htail
          | done parser consumed hu => exact .return ⟨rfl, rfl, hu⟩

theorem flush_related (hS : Simulates S S' N ρ) (len : ℕ) (ms : List Mark) {s : Scan α}
    {s' : Scan β} (h : Scan.Related N ρ s s') :
    Result.Related ρ (flush S len ms s) (flush S' len ms s') := by
  induction ms generalizing s s' with
  | nil => exact ⟨h.parser, rfl, h.user⟩
  | cons m ms ih =>
      simp only [flush, ← h.marks]
      cases hm : s.marks m with
      | none => exact ih h
      | some start =>
          obtain ⟨hcode, huser⟩ := hS.data m start s.user s'.user (h.bound m start hm) h.user
          simp only [← hcode]
          split
          · exact ⟨by simp [h.parser], rfl, huser⟩
          · refine ih ?_
            have hset := h.setMark m none (fun start hstart => by cases hstart) huser
            rwa [← h.marks] at hset

/-- **Executing the same data keeps the relation and leaves the same parser.** -/
theorem execute_related (hS : Simulates S S' N ρ) (parser : Parser) {u : α} {v : β} (data : Bytes)
    (hN : data.length ≤ N) (h : ρ u v) :
    Result.Related ρ (execute S parser u data) (execute S' parser v data) := by
  have hstart : Scan.Related N ρ ⟨parser, u, marksAt parser.state data⟩
      ⟨parser, v, marksAt parser.state data⟩ := by
    refine ⟨rfl, rfl, fun m start hm => ?_, h⟩
    simp only [marksAt] at hm
    split at hm
    · cases hm
      exact hN
    · exact absurd hm (by simp)
  simp only [execute]
  split
  · exact ⟨rfl, rfl, h⟩
  · split
    · obtain ⟨hcode, huser⟩ := hS.notice .messageComplete u v h
      simp only [Settings.notice] at hcode huser
      split
      · simp only [← hcode]
        split
        · exact ⟨rfl, rfl, huser⟩
        · exact ⟨rfl, rfl, huser⟩
      all_goals exact ⟨rfl, rfl, h⟩
    · have hloop := loop_related hS data 0 0 hstart hN
      revert hloop
      generalize loop S _ 0 data 0 = ending
      generalize loop S' _ 0 data 0 = ending'
      intro hloop
      cases hloop with
      | «end» hs => exact flush_related hS _ _ hs
      | «return» hr => exact hr

end ImageProxy.Http
