import Mathlib.Tactic.SplitIfs
import ImageProxy.Http.Execute

set_option autoImplicit false

/-! # Marks fit states

The parser keeps a mark for the string it is in the middle of. A mark does not survive the call: when
execution resumes, the marks are set again from the state alone. That loses nothing because a turn
leaves set exactly the mark of the state it leads to (`turn_coherent`). Likewise `upgrade` is set by
no turn but the one that leaves the loop because of it. -/

namespace ImageProxy.Http

open Ascii

/-- Nothing has stopped the parser: neither an error nor the end of HTTP. -/
def Parser.Going (parser : Parser) : Prop := parser.httpErrno = .ok ∧ parser.upgrade = false

instance (parser : Parser) : Decidable parser.Going := inferInstanceAs (Decidable (_ ∧ _))

/-- The code leaves the mark `open` set and no other, keeps `p` where it is, runs no callback while
another string is marked, and leaves the loop for an upgrade only. -/
def Code.Coherent : Option Mark → Code → Prop
  | «open», .next parser => parser.Going ∧ parser.state.openMark = «open»
  | _, .error _ _ => True
  | «open», .leave parser => «open» = none ∧ parser.httpErrno = .ok ∧ parser.upgrade = true
  | «open», .mark m rest => («open» = none ∨ «open» = some m) ∧ rest.Coherent (some m)
  | _, .advance _ _ => False
  | «open», .data m _ extra _ rest =>
      extra = 0 ∧ («open» = none ∨ «open» = some m) ∧ rest.Coherent none
  | «open», .notify _ _ rest => «open» = none ∧ rest.Coherent none
  | «open», .headersComplete _ rest skipBody =>
      «open» = none ∧ rest.Coherent none ∧ skipBody.Coherent none

/-- The states whose case consumes as much of the data as it can. -/
def State.bulk : State → Bool
  | .bodyIdentity | .bodyIdentityEof | .chunkData => true
  | _ => false

@[simp] theorem openMark_newMessage (parser : Parser) : parser.newMessage.openMark = none := by
  simp only [Parser.newMessage, Parser.startState]
  split_ifs <;> rfl

theorem parseUrlChar_server_open (ch : UInt8) (h : parseUrlChar.server ch ≠ .dead) :
    (parseUrlChar.server ch).openMark = some .url := by
  simp only [parseUrlChar.server] at h ⊢
  split_ifs at h ⊢ <;> first | rfl | exact absurd rfl h

theorem parseUrlChar_query_open (ch : UInt8) (h : parseUrlChar.query ch ≠ .dead) :
    (parseUrlChar.query ch).openMark = some .url := by
  simp only [parseUrlChar.query] at h ⊢
  split_ifs at h ⊢ <;> first | rfl | exact absurd rfl h

/-- The URL automaton dies or stays in the URL. -/
theorem openMark_parseUrlChar (s : State) (ch : UInt8) (h : parseUrlChar s ch ≠ .dead) :
    (parseUrlChar s ch).openMark = some .url := by
  unfold parseUrlChar at h ⊢
  split at h
  · exact absurd rfl h
  · split at h
    · exact absurd rfl h
    · next hblank htab =>
        rw [if_neg hblank, if_neg htab]
        cases s <;> simp only at h ⊢ <;>
          first
          | exact parseUrlChar_server_open ch h
          | exact parseUrlChar_query_open ch h
          | exact absurd rfl h
          | (split_ifs at h ⊢ <;>
              first | rfl | exact absurd rfl h | exact parseUrlChar_server_open ch h)

@[simp] theorem fieldLetter_state (parser : Parser) (ch c : UInt8) :
    (fieldLetter parser ch c).state = parser.state := by
  simp only [fieldLetter]
  split <;> first | rfl | (split <;> rfl)

theorem fieldLetter_going {parser : Parser} (ch c : UInt8) (h : parser.Going) :
    (fieldLetter parser ch c).Going := by
  simp only [fieldLetter]
  split <;> first | exact h | (split <;> exact h)

section Coherence

variable {parser : Parser} (ch : UInt8)

theorem urlChar_coherent (h : parser.Going) :
    (urlChar parser ch).Coherent (some .url) := by
  simp only [urlChar]
  split
  · trivial
  · next hne => exact ⟨h, openMark_parseUrlChar _ _ hne⟩

theorem pushDigit_coherent {base digit : ℕ} {m : Option Mark} (h : parser.Going)
    (hm : parser.state.openMark = m) : (parser.pushDigit base digit).Coherent m := by
  simp only [Parser.pushDigit]
  split
  · trivial
  · exact ⟨h, hm⟩

theorem valueInitial_coherent {m : Option Mark} (h : parser.Going)
    (hm : parser.state.openMark = m) : (valueInitial parser ch).Coherent m := by
  simp only [valueInitial]
  split
  · exact ⟨h, hm⟩
  · exact ⟨h, hm⟩
  · split
    · trivial
    · exact ⟨h, hm⟩
  · exact ⟨h, hm⟩
  · exact ⟨h, hm⟩

theorem valueLetter_coherent (h : parser.Going) (hs : parser.state = .headerValue) :
    (valueLetter parser ch).Coherent (some .headerValue) := by
  have hopen : parser.state.openMark = some .headerValue := by rw [hs]; rfl
  have hnext : (Code.next parser).Coherent (some .headerValue) := ⟨h, hopen⟩
  simp only [valueLetter]
  split
  · exact hnext
  · exact hnext
  · exact hnext
  · split_ifs
    · exact hnext
    · trivial
    · exact pushDigit_coherent h hopen
  · exact ⟨h, hopen⟩
  · exact ⟨h, hopen⟩
  · exact ⟨h, hopen⟩
  iterate 3
    split_ifs
    · exact ⟨h, hopen⟩
    · exact hnext
  · exact ⟨h, rfl⟩

theorem caseLetter_coherent {letter : UInt8} {next : State} (h : parser.Going)
    (hnext : next.openMark = none) : (caseLetter letter next parser ch).Coherent none := by
  simp only [caseLetter, strictCheck]
  split
  · trivial
  · exact ⟨h, hnext⟩

theorem caseHttpMajor_coherent {next : State} (h : parser.Going)
    (hopen : parser.state.openMark = none) (hnext : next.openMark = none) :
    (caseHttpMajor next parser ch).Coherent none := by
  simp only [caseHttpMajor]
  split_ifs
  · exact ⟨h, hnext⟩
  · trivial
  · trivial
  · exact ⟨h, hopen⟩

theorem caseFirstHttpMinor_coherent {next : State} (h : parser.Going)
    (hnext : next.openMark = none) : (caseFirstHttpMinor next parser ch).Coherent none := by
  simp only [caseFirstHttpMinor]
  split
  · trivial
  · exact ⟨h, hnext⟩

theorem moreHttpMinor_coherent (h : parser.Going)
    (hopen : parser.state.openMark = none) : (moreHttpMinor parser ch).Coherent none := by
  simp only [moreHttpMinor]
  split_ifs
  · trivial
  · trivial
  · exact ⟨h, hopen⟩

theorem caseReqSchema_coherent (h : parser.Going) :
    (caseReqSchema parser ch).Coherent (some .url) := by
  simp only [caseReqSchema]
  split
  · trivial
  · exact urlChar_coherent ch h

theorem caseReqUrl_coherent (h : parser.Going) :
    (caseReqUrl parser ch).Coherent (some .url) := by
  simp only [caseReqUrl, Code.callbackData]
  split_ifs
  · exact ⟨rfl, Or.inr rfl, h, rfl⟩
  · exact ⟨rfl, Or.inr rfl, h, rfl⟩
  · exact ⟨rfl, Or.inr rfl, h, rfl⟩
  · exact urlChar_coherent ch h

theorem caseHeadersDone_coherent (hok : parser.httpErrno = .ok) :
    (caseHeadersDone parser ch).Coherent none := by
  simp only [caseHeadersDone, strictCheck]
  split
  · trivial
  · by_cases hupgrade : parser.upgrade = true
    · rw [if_pos hupgrade]
      exact ⟨rfl, rfl, hok, hupgrade⟩
    · have h : parser.Going := ⟨hok, by simpa using hupgrade⟩
      rw [if_neg hupgrade]
      split_ifs
      · exact ⟨rfl, h, openMark_newMessage _⟩
      · exact ⟨h, rfl⟩
      · exact ⟨rfl, h, openMark_newMessage _⟩
      · exact ⟨h, rfl⟩
      · exact ⟨rfl, h, openMark_newMessage _⟩
      · exact ⟨h, rfl⟩

theorem caseHeadersAlmostDone_coherent (h : parser.Going) :
    (caseHeadersAlmostDone parser ch).Coherent none := by
  simp only [caseHeadersAlmostDone, strictCheck]
  split_ifs
  · trivial
  · exact ⟨rfl, h, openMark_newMessage _⟩
  · exact ⟨rfl, caseHeadersDone_coherent ch h.1, caseHeadersDone_coherent ch h.1⟩

theorem caseHeaderFieldStart_coherent (h : parser.Going) :
    (caseHeaderFieldStart parser ch).Coherent none := by
  simp only [caseHeaderFieldStart]
  split_ifs
  · exact ⟨h, rfl⟩
  · exact caseHeadersAlmostDone_coherent ch h
  · trivial
  · exact ⟨Or.inl rfl, h, rfl⟩

theorem caseHeaderAlmostDone_coherent (h : parser.Going) :
    (caseHeaderAlmostDone parser ch).Coherent none := by
  simp only [caseHeaderAlmostDone, strictCheck]
  split_ifs
  · trivial
  · split <;> exact ⟨h, rfl⟩

end Coherence

/-- **A turn leaves set the mark of the state it leads to**, in all but the bulk states. -/
theorem switch_coherent (parser : Parser) (ch : UInt8) (avail : ℕ) (h : parser.Going)
    (hbulk : parser.state.bulk = false) :
    (switch parser ch avail).Coherent parser.state.openMark := by
  have hnext : (Code.next parser).Coherent parser.state.openMark := ⟨h, rfl⟩
  cases hs : parser.state <;> simp only [switch, hs] <;> rw [hs] at hnext
  case dead =>
    simp only [caseDead]
    split_ifs
    · exact hnext
    · trivial
  case startReqOrRes =>
    simp only [caseStartReqOrRes, caseStartReq, Parser.beginMessage]
    split_ifs
    · exact hnext
    · exact ⟨rfl, h, rfl⟩
    · trivial
    · split
      · trivial
      · exact ⟨rfl, h, rfl⟩
  case resOrRespH =>
    simp only [caseResOrRespH]
    split_ifs
    · exact ⟨h, rfl⟩
    · trivial
    · exact ⟨h, rfl⟩
  case startRes =>
    simp only [caseStartRes, Parser.beginMessage]
    split_ifs
    · exact ⟨rfl, h, rfl⟩
    · exact ⟨rfl, h, by rw [hs]; rfl⟩
    · trivial
  case startReq =>
    simp only [caseStartReq, Parser.beginMessage]
    split_ifs
    · exact hnext
    · trivial
    · split
      · trivial
      · exact ⟨rfl, h, rfl⟩
  case resLineAlmostDone =>
    simp only [caseResLineAlmostDone, strictCheck]
    split_ifs
    · trivial
    · exact ⟨rfl, h, rfl⟩
  case reqMethod =>
    simp only [caseReqMethod]
    split_ifs
    · trivial
    · exact ⟨h, rfl⟩
    · exact ⟨h, by simp [hs]⟩
    · split
      · trivial
      · exact ⟨h, by simp [hs]⟩
  case reqSpacesBeforeUrl =>
    simp only [caseReqSpacesBeforeUrl]
    split_ifs
    · exact hnext
    · exact ⟨Or.inl rfl, urlChar_coherent ch h⟩
    · exact ⟨Or.inl rfl, urlChar_coherent ch h⟩
  case headerFieldStart => exact caseHeaderFieldStart_coherent ch h
  case headerField =>
    simp only [caseHeaderField, Code.callbackData]
    split_ifs
    · exact ⟨fieldLetter_going ch _ h, by simp [hs]⟩
    · exact ⟨rfl, Or.inr rfl, h, rfl⟩
    · exact ⟨rfl, Or.inr rfl, h, rfl⟩
    · exact ⟨rfl, Or.inr rfl, h, rfl⟩
    · trivial
  case headerValueStart =>
    simp only [caseHeaderValueStart, Code.callbackData]
    split_ifs
    · exact hnext
    · exact ⟨Or.inl rfl, rfl, Or.inr rfl, h, rfl⟩
    · exact ⟨Or.inl rfl, rfl, Or.inr rfl, h, rfl⟩
    · exact ⟨Or.inl rfl, valueInitial_coherent ch h rfl⟩
  case headerValue =>
    simp only [caseHeaderValue, Code.callbackData, Code.callbackDataNoadvance]
    split_ifs
    · exact ⟨rfl, Or.inr rfl, h, rfl⟩
    · exact ⟨rfl, Or.inr rfl, caseHeaderAlmostDone_coherent ch h⟩
    · exact valueLetter_coherent ch h hs
  case headerValueLws =>
    simp only [caseHeaderValueLws]
    split_ifs
    · exact ⟨h, rfl⟩
    · exact caseHeaderFieldStart_coherent ch h
  case headerAlmostDone => exact caseHeaderAlmostDone_coherent ch h
  case headersAlmostDone => exact caseHeadersAlmostDone_coherent ch h
  case headersDone => exact caseHeadersDone_coherent ch h.1
  case chunkSizeStart =>
    simp only [caseChunkSizeStart]
    split
    · trivial
    · exact ⟨h, rfl⟩
  case chunkSize =>
    simp only [caseChunkSize]
    split
    · exact ⟨h, rfl⟩
    · split
      · split
        · exact ⟨h, rfl⟩
        · trivial
      · exact pushDigit_coherent h (by rw [hs])
  case chunkDataAlmostDone =>
    simp only [caseChunkDataAlmostDone, strictCheck, Code.callbackData]
    split_ifs
    · trivial
    · exact ⟨rfl, Or.inl rfl, h, rfl⟩
  case messageDone => exact ⟨rfl, h, openMark_newMessage _⟩
  case bodyIdentity => exact absurd hbulk (by simp [hs, State.bulk])
  case bodyIdentityEof => exact absurd hbulk (by simp [hs, State.bulk])
  case chunkData => exact absurd hbulk (by simp [hs, State.bulk])
  case resFirstHttpMajor =>
    simp only [caseResFirstHttpMajor]
    split
    · trivial
    · exact ⟨h, rfl⟩
  case resFirstStatusCode =>
    simp only [caseResFirstStatusCode]
    split_ifs
    · exact hnext
    · trivial
    · exact ⟨h, rfl⟩
  case resStatusCode =>
    simp only [caseResStatusCode]
    split_ifs
    · exact ⟨h, rfl⟩
    · exact ⟨h, rfl⟩
    · exact ⟨h, rfl⟩
    · trivial
    · trivial
    · exact ⟨h, by rw [hs]⟩
  case resStatus =>
    simp only [caseResStatus]
    split_ifs
    · exact ⟨h, rfl⟩
    · exact ⟨h, rfl⟩
    · exact hnext
  case resHttpMinor =>
    simp only [caseResHttpMinor]
    split
    · exact ⟨h, rfl⟩
    · exact moreHttpMinor_coherent ch h (by rw [hs]; rfl)
  case reqHttpMinor =>
    simp only [caseReqHttpMinor]
    split_ifs
    · exact ⟨h, rfl⟩
    · exact ⟨h, rfl⟩
    · exact moreHttpMinor_coherent ch h (by rw [hs]; rfl)
  case reqHttpStart =>
    simp only [caseReqHttpStart]
    split_ifs
    · exact ⟨h, rfl⟩
    · exact hnext
    · trivial
  case reqFirstHttpMajor =>
    simp only [caseReqFirstHttpMajor]
    split
    · trivial
    · exact ⟨h, rfl⟩
  case reqLineAlmostDone =>
    simp only [caseReqLineAlmostDone]
    split
    · trivial
    · exact ⟨h, rfl⟩
  case chunkParameters =>
    simp only [caseChunkParameters]
    split
    · exact ⟨h, rfl⟩
    · exact hnext
  case chunkSizeAlmostDone =>
    simp only [caseChunkSizeAlmostDone, strictCheck]
    split_ifs
    · trivial
    · exact ⟨h, rfl⟩
    · exact ⟨h, rfl⟩
  case chunkDataDone =>
    simp only [caseChunkDataDone, strictCheck]
    split
    · trivial
    · exact ⟨h, rfl⟩
  case resHttpMajor => exact caseHttpMajor_coherent ch h (by rw [hs]; rfl) rfl
  case reqHttpMajor => exact caseHttpMajor_coherent ch h (by rw [hs]; rfl) rfl
  all_goals first
    | exact caseLetter_coherent ch h rfl
    | exact caseFirstHttpMinor_coherent ch h rfl
    | exact caseReqSchema_coherent ch h
    | exact caseReqUrl_coherent ch h

/-- Counting the byte changes nothing about this. -/
theorem turn_coherent (parser : Parser) (ch : UInt8) (avail : ℕ) (h : parser.Going)
    (hbulk : parser.state.bulk = false) :
    (turn parser ch avail).Coherent parser.state.openMark := by
  simp only [turn]
  split
  · split
    · trivial
    · exact switch_coherent { parser with nread := parser.nread + 1 } ch avail h hbulk
  · exact switch_coherent parser ch avail h hbulk

/-- Outside the bulk states a turn does not ask how much data is left. -/
theorem turn_avail (parser : Parser) (ch : UInt8) (m n : ℕ) (hbulk : parser.state.bulk = false) :
    turn parser ch m = turn parser ch n := by
  have hswitch : ∀ q : Parser, q.state.bulk = false → switch q ch m = switch q ch n := by
    intro q hq
    cases hs : q.state <;> rw [hs] at hq <;>
      first | exact absurd hq (by decide) | simp only [switch, hs]
  simp only [turn]
  split
  · split
    · rfl
    · exact hswitch _ hbulk
  · exact hswitch _ hbulk

end ImageProxy.Http
