import ImageProxy.Http.Bytewise

set_option autoImplicit false

/-! # The order of the callbacks

An application is told about a message piece by piece, and relies on the order of the pieces: a header
value belongs to the name before it, the body to the headers that are complete. `Phase.after` is that
order as an automaton over the names of the callbacks. Whatever the callbacks return and however the
data is cut, the calls that the parser makes are a path of it (`callbacks_ordered`).

What carries the induction is `Parser.Fits`: the phases a parser can be in, given its state. The marks
come along, because a string is only handed over if its mark is set. -/

namespace ImageProxy.Http

open Ascii

/-- The members of `http_parser_settings`. -/
inductive Callback where
  | messageBegin
  | url
  | statusComplete
  | headerField
  | headerValue
  | headersComplete
  | body
  | messageComplete
deriving DecidableEq, Repr

def Mark.callback : Mark → Callback
  | .headerField => .headerField
  | .headerValue => .headerValue
  | .url => .url
  | .body => .body

def Notice.callback : Notice → Callback
  | .messageBegin => .messageBegin
  | .statusComplete => .statusComplete
  | .messageComplete => .messageComplete

/-! ## The order -/

/-- How much of a message the application has been told of. -/
inductive Phase where
  | idle
  | begun
  | url
  | status
  | headers
  | body
  | trailers
deriving DecidableEq, Repr

/-- The phase after a callback; `none` if the callback is out of order. Blank lines before a response
begin it again and again. -/
def Phase.after : Phase → Callback → Option Phase
  | .idle, .messageBegin => some .begun
  | .begun, .messageBegin => some .begun
  | .begun, .url => some .url
  | .begun, .statusComplete => some .status
  | .url, .url => some .url
  | .begun, .headerField | .url, .headerField | .status, .headerField => some .headers
  | .headers, .headerField | .headers, .headerValue => some .headers
  | .begun, .headersComplete | .url, .headersComplete => some .body
  | .status, .headersComplete | .headers, .headersComplete => some .body
  | .body, .body => some .body
  | .body, .headerField => some .trailers
  | .trailers, .headerField | .trailers, .headerValue => some .trailers
  | .body, .messageComplete | .trailers, .messageComplete => some .idle
  | _, _ => none

/-- The phase that a list of calls leads to. -/
def phaseAfter (calls : List Callback) : Option Phase := calls.foldlM Phase.after .idle

/-- The calls are in order. -/
def Ordered (calls : List Callback) : Prop := (phaseAfter calls).isSome = true

instance (calls : List Callback) : Decidable (Ordered calls) :=
  inferInstanceAs (Decidable (_ = true))

theorem phaseAfter_snoc {calls : List Callback} {φ φ' : Phase} {c : Callback}
    (h : phaseAfter calls = some φ) (hc : φ.after c = some φ') :
    phaseAfter (calls ++ [c]) = some φ' := by
  simp only [phaseAfter, List.foldlM_append] at h ⊢
  rw [h]
  simp [hc]

/-- The application `S`, with the calls of its callbacks noted in order. -/
def Settings.noted {α : Type} (S : Settings α) : Settings (List Callback × α) where
  onMessageBegin u := let r := S.onMessageBegin u.2; (r.1, u.1 ++ [.messageBegin], r.2)
  onUrl x u := let r := S.onUrl x u.2; (r.1, u.1 ++ [.url], r.2)
  onStatusComplete u := let r := S.onStatusComplete u.2; (r.1, u.1 ++ [.statusComplete], r.2)
  onHeaderField x u := let r := S.onHeaderField x u.2; (r.1, u.1 ++ [.headerField], r.2)
  onHeaderValue x u := let r := S.onHeaderValue x u.2; (r.1, u.1 ++ [.headerValue], r.2)
  onHeadersComplete parser u :=
    let r := S.onHeadersComplete parser u.2; (r.1, u.1 ++ [.headersComplete], r.2)
  onBody x u := let r := S.onBody x u.2; (r.1, u.1 ++ [.body], r.2)
  onMessageComplete u := let r := S.onMessageComplete u.2; (r.1, u.1 ++ [.messageComplete], r.2)

/-! ## Phases and states -/

/-- The headers, or the trailers, before or after the first name. -/
def Phase.inFields (trailing : Bool) (φ : Phase) : Prop :=
  if trailing then φ = .body ∨ φ = .trailers
  else φ = .begun ∨ φ = .url ∨ φ = .status ∨ φ = .headers

/-- The same after the first name. -/
def Phase.afterField (trailing : Bool) (φ : Phase) : Prop :=
  φ = if trailing then .trailers else .headers

/-- The parts of a message, as far as the order of the callbacks can tell them apart. -/
inductive Stage where
  | between
  | response
  | line
  | url
  | version
  | name
  | value
  | content
deriving DecidableEq, Repr

def State.stage : State → Stage
  | .dead | .startReqOrRes | .startReq => .between
  | .startRes => .response
  | .resOrRespH | .resH | .resHT | .resHTT | .resHTTP
  | .resFirstHttpMajor | .resHttpMajor | .resFirstHttpMinor | .resHttpMinor
  | .resFirstStatusCode | .resStatusCode | .resStatus | .resLineAlmostDone
  | .reqMethod | .reqSpacesBeforeUrl => .line
  | .reqSchema | .reqSchemaSlash | .reqSchemaSlashSlash | .reqServerStart | .reqServer
  | .reqServerWithAt | .reqPath | .reqQueryStringStart | .reqQueryString | .reqFragmentStart
  | .reqFragment => .url
  | .reqHttpStart | .reqHttpH | .reqHttpHT | .reqHttpHTT | .reqHttpHTTP
  | .reqFirstHttpMajor | .reqHttpMajor | .reqFirstHttpMinor | .reqHttpMinor
  | .reqLineAlmostDone => .version
  | .headerFieldStart | .headerField | .headersAlmostDone => .name
  | .headerValueStart | .headerValue | .headerValueLws | .headerAlmostDone => .value
  | .headersDone | .chunkSizeStart | .chunkSize | .chunkParameters | .chunkSizeAlmostDone
  | .chunkData | .chunkDataAlmostDone | .chunkDataDone | .bodyIdentity | .bodyIdentityEof
  | .messageDone => .content

/-- The phases that go with a part of the message, before or after its body. -/
def Stage.Fits (trailing : Bool) (φ : Phase) : Stage → Prop
  | .between => φ = .idle
  | .response => φ = .idle ∨ φ = .begun
  | .line => trailing = false ∧ φ = .begun
  | .url => trailing = false ∧ (φ = .begun ∨ φ = .url)
  | .version => trailing = false ∧ φ = .url
  | .name => φ.inFields trailing
  | .value => φ.afterField trailing
  | .content => trailing = false ∧ φ = .body

/-- The phases that go with the state of the parser. -/
def Parser.Fits (parser : Parser) (φ : Phase) : Prop :=
  parser.state.stage.Fits parser.flags.trailing φ

/-- The states between whose turns the mark of the body may be set. -/
def State.inBody : State → Bool
  | .bodyIdentity | .bodyIdentityEof | .chunkData | .chunkDataAlmostDone => true
  | _ => false

/-- The mark `open` is set, and of the others at most that of the body, if `inBody`. -/
structure MarksAre (marks : Mark → Option Bytes) («open» : Option Mark) (inBody : Bool) : Prop where
  isSet : ∀ m, «open» = some m → (marks m).isSome = true
  atMost : ∀ m, (marks m).isSome = true → «open» = some m ∨ (m = .body ∧ inBody = true)

/-- The code calls in order from the phase on: a parser it leaves fits the phase it leads to, with the
mark `open` set, and that of the body at most if `inBody`. -/
def Code.Follows : Option Mark → Bool → Phase → Code → Prop
  | «open», inBody, φ, .next parser =>
      parser.Fits φ ∧ parser.state.openMark = «open» ∧ (inBody = true → parser.state.inBody = true)
  | _, _, _, .error _ errno => errno ≠ .ok
  | _, _, φ, .leave parser => parser.Fits φ
  | «open», _, φ, .mark .body rest => «open» = none ∧ rest.Follows none true φ
  | «open», inBody, φ, .mark m rest =>
      («open» = none ∨ «open» = some m) ∧ rest.Follows (some m) inBody φ
  | «open», inBody, φ, .advance _ rest => rest.Follows «open» inBody φ
  | «open», _, φ, .data .body _ _ _ rest =>
      «open» = none ∧ φ = .body ∧ rest.Follows none false .body
  | «open», inBody, φ, .data m _ _ _ rest =>
      «open» = some m ∧ ∃ φ', φ.after m.callback = some φ' ∧ rest.Follows none inBody φ'
  | «open», inBody, φ, .notify n _ rest =>
      ∃ φ', φ.after n.callback = some φ' ∧ rest.Follows «open» inBody φ'
  | «open», inBody, φ, .headersComplete _ rest skipBody =>
      ∃ φ', φ.after .headersComplete = some φ' ∧ rest.Follows «open» inBody φ' ∧
        skipBody.Follows «open» inBody φ'

/-! ## The cases of the switch -/

theorem inFields_after {b : Bool} {φ : Phase} (h : φ.inFields b) :
    ∃ φ', φ.after .headerField = some φ' ∧ φ'.afterField b := by
  cases b with
  | false => rcases h with rfl | rfl | rfl | rfl <;> exact ⟨_, rfl, rfl⟩
  | true => rcases h with rfl | rfl <;> exact ⟨_, rfl, rfl⟩

theorem Phase.afterField.inFields {b : Bool} {φ : Phase} (h : φ.afterField b) : φ.inFields b := by
  cases b with
  | false => exact Or.inr (Or.inr (Or.inr h))
  | true => exact Or.inr h

theorem Phase.afterField.after {b : Bool} {φ : Phase} (h : φ.afterField b) :
    φ.after .headerValue = some φ := by
  cases b <;> (cases h; rfl)

theorem newMessage_cases (parser : Parser) :
    parser.newMessage = .dead ∨ parser.newMessage = .startReq ∨ parser.newMessage = .startRes := by
  simp only [Parser.newMessage, Parser.startState]
  split_ifs
  · exact Or.inr (Or.inl rfl)
  · exact Or.inr (Or.inr rfl)
  · exact Or.inl rfl

/-- After the last callback of a message the parser is in front of the next one. -/
theorem fits_newMessage {q : Parser} (parser : Parser) (h : q.state = parser.newMessage) :
    q.Fits .idle := by
  simp only [Parser.Fits]
  rcases newMessage_cases parser with hs | hs | hs <;> rw [h, hs]
  · exact rfl
  · exact rfl
  · exact Or.inl rfl

theorem stage_of_url {state : State} (hs : state.openMark = some .url) : state.stage = .url := by
  cases state <;> first | exact absurd hs (by decide) | rfl

section Follows

variable {parser : Parser} {φ : Phase} (ch : UInt8)

theorem urlChar_follows (hφ : φ = .begun ∨ φ = .url) (htrailing : parser.flags.trailing = false) :
    (urlChar parser ch).Follows (some .url) false φ := by
  simp only [urlChar]
  split
  · exact Errno.noConfusion
  · next hne =>
      have hopen := openMark_parseUrlChar _ _ hne
      refine ⟨?_, hopen, Bool.noConfusion⟩
      rw [Parser.Fits, stage_of_url hopen]
      exact ⟨htrailing, hφ⟩

/-- A letter of the first line leads on in the first line. -/
theorem caseLetter_follows {letter : UInt8} {next : State}
    (h : next.stage.Fits parser.flags.trailing φ) (hopen : next.openMark = none) :
    (caseLetter letter next parser ch).Follows none false φ := by
  simp only [caseLetter, strictCheck]
  split
  · exact Errno.noConfusion
  · exact ⟨h, hopen, Bool.noConfusion⟩

theorem caseHttpMajor_follows {next : State} (h : parser.Fits φ)
    (hnext : next.stage = parser.state.stage) (hopen : parser.state.openMark = none)
    (hopen' : next.openMark = none) : (caseHttpMajor next parser ch).Follows none false φ := by
  simp only [caseHttpMajor]
  split_ifs
  · exact ⟨by rw [Parser.Fits, hnext]; exact h, hopen', Bool.noConfusion⟩
  · exact Errno.noConfusion
  · exact Errno.noConfusion
  · exact ⟨h, hopen, Bool.noConfusion⟩

theorem caseFirstHttpMinor_follows {next : State}
    (h : next.stage.Fits parser.flags.trailing φ) (hopen : next.openMark = none) :
    (caseFirstHttpMinor next parser ch).Follows none false φ := by
  simp only [caseFirstHttpMinor]
  split
  · exact Errno.noConfusion
  · exact ⟨h, hopen, Bool.noConfusion⟩

theorem moreHttpMinor_follows (h : parser.Fits φ) (hopen : parser.state.openMark = none) :
    (moreHttpMinor parser ch).Follows none false φ := by
  simp only [moreHttpMinor]
  split_ifs
  · exact Errno.noConfusion
  · exact Errno.noConfusion
  · exact ⟨h, hopen, Bool.noConfusion⟩

theorem pushDigit_follows {base digit : ℕ} {m : Option Mark} (h : parser.Fits φ)
    (hopen : parser.state.openMark = m) : (parser.pushDigit base digit).Follows m false φ := by
  simp only [Parser.pushDigit]
  split
  · exact Errno.noConfusion
  · exact ⟨h, hopen, Bool.noConfusion⟩

/-- The first byte of a request. -/
theorem caseStartReq_follows (h : φ = .idle) (hs : parser.state = .startReq) :
    (caseStartReq parser ch).Follows none false φ := by
  subst h
  simp only [caseStartReq, Parser.beginMessage]
  split_ifs
  · exact ⟨by rw [Parser.Fits, hs]; rfl, by rw [hs]; rfl, Bool.noConfusion⟩
  · exact Errno.noConfusion
  · split
    · exact Errno.noConfusion
    · exact ⟨.begun, rfl, ⟨rfl, rfl⟩, rfl, Bool.noConfusion⟩

theorem caseStartReqOrRes_follows (h : φ = .idle) (hs : parser.state = .startReqOrRes) :
    (caseStartReqOrRes parser ch).Follows none false φ := by
  subst h
  simp only [caseStartReqOrRes, Parser.beginMessage]
  split_ifs
  · exact ⟨by rw [Parser.Fits, hs]; rfl, by rw [hs]; rfl, Bool.noConfusion⟩
  · exact ⟨.begun, rfl, ⟨rfl, rfl⟩, rfl, Bool.noConfusion⟩
  · exact caseStartReq_follows ch rfl rfl

/-! ### The first line of a response -/

theorem caseStartRes_follows (h : φ = .idle ∨ φ = .begun) (hs : parser.state = .startRes) :
    (caseStartRes parser ch).Follows none false φ := by
  -- a line end in front of a response has begun the message already
  have hafter : φ.after .messageBegin = some .begun := by rcases h with rfl | rfl <;> rfl
  simp only [caseStartRes, Parser.beginMessage]
  split_ifs
  · exact ⟨.begun, hafter, ⟨rfl, rfl⟩, rfl, Bool.noConfusion⟩
  · refine ⟨.begun, hafter, ?_, by simp only [hs]; rfl, Bool.noConfusion⟩
    rw [Parser.Fits, hs]
    exact Or.inr rfl
  · exact Errno.noConfusion

theorem caseResStatusCode_follows (htrailing : parser.flags.trailing = false)
    (hs : parser.state = .resStatusCode) :
    (caseResStatusCode parser ch).Follows none false .begun := by
  have hfields : Phase.begun.inFields parser.flags.trailing := htrailing ▸ Or.inl rfl
  simp only [caseResStatusCode]
  split_ifs
  · exact ⟨⟨htrailing, rfl⟩, rfl, Bool.noConfusion⟩
  · exact ⟨⟨htrailing, rfl⟩, rfl, Bool.noConfusion⟩
  · exact ⟨hfields, rfl, Bool.noConfusion⟩
  · exact Errno.noConfusion
  · exact Errno.noConfusion
  · refine ⟨?_, by simp only [hs]; rfl, Bool.noConfusion⟩
    rw [Parser.Fits, hs]
    exact ⟨htrailing, rfl⟩

theorem caseResStatus_follows (htrailing : parser.flags.trailing = false)
    (hs : parser.state = .resStatus) : (caseResStatus parser ch).Follows none false .begun := by
  have hfields : Phase.begun.inFields parser.flags.trailing := htrailing ▸ Or.inl rfl
  simp only [caseResStatus]
  split_ifs
  · exact ⟨⟨htrailing, rfl⟩, rfl, Bool.noConfusion⟩
  · exact ⟨hfields, rfl, Bool.noConfusion⟩
  · refine ⟨?_, by rw [hs]; rfl, Bool.noConfusion⟩
    rw [Parser.Fits, hs]
    exact ⟨htrailing, rfl⟩

theorem caseResLineAlmostDone_follows (htrailing : parser.flags.trailing = false) :
    (caseResLineAlmostDone parser ch).Follows none false .begun := by
  have hfields : Phase.status.inFields parser.flags.trailing := by
    rw [htrailing]
    exact Or.inr (Or.inr (Or.inl rfl))
  simp only [caseResLineAlmostDone, strictCheck]
  split_ifs
  · exact Errno.noConfusion
  · exact ⟨.status, rfl, hfields, rfl, Bool.noConfusion⟩

/-! ### The first line of a request -/

/-- An error of the method is an error. -/
theorem methodTurn_error {m : Method} {index : ℕ} {e : Errno}
    (h : methodTurn m index ch = .error e) : e ≠ .ok := by
  simp only [methodTurn] at h
  split_ifs at h <;> (first | exact Except.noConfusion h | (cases h; exact Errno.noConfusion))

theorem caseReqMethod_follows (h : parser.Fits φ) (hs : parser.state = .reqMethod) :
    (caseReqMethod parser ch).Follows none false φ := by
  have hnext : (Code.next parser).Follows none false φ := ⟨h, by rw [hs]; rfl, Bool.noConfusion⟩
  rw [Parser.Fits, hs] at h
  simp only [caseReqMethod]
  split_ifs
  · exact Errno.noConfusion
  · exact ⟨h, rfl, Bool.noConfusion⟩
  · exact ⟨hnext.1, by rw [hs]; rfl, Bool.noConfusion⟩
  · split
    · next hmethod => exact methodTurn_error ch hmethod
    · exact ⟨hnext.1, by rw [hs]; rfl, Bool.noConfusion⟩

theorem caseReqHttpMinor_follows (htrailing : parser.flags.trailing = false)
    (hs : parser.state = .reqHttpMinor) : (caseReqHttpMinor parser ch).Follows none false .url := by
  have hfields : Phase.url.inFields parser.flags.trailing := htrailing ▸ Or.inr (Or.inl rfl)
  simp only [caseReqHttpMinor]
  split_ifs
  · exact ⟨⟨htrailing, rfl⟩, rfl, Bool.noConfusion⟩
  · exact ⟨hfields, rfl, Bool.noConfusion⟩
  · refine moreHttpMinor_follows ch ?_ (by rw [hs]; rfl)
    rw [Parser.Fits, hs]
    exact ⟨htrailing, rfl⟩

theorem caseReqLineAlmostDone_follows (htrailing : parser.flags.trailing = false) :
    (caseReqLineAlmostDone parser ch).Follows none false .url := by
  have hfields : Phase.url.inFields parser.flags.trailing := htrailing ▸ Or.inr (Or.inl rfl)
  simp only [caseReqLineAlmostDone]
  split
  · exact Errno.noConfusion
  · exact ⟨hfields, rfl, Bool.noConfusion⟩

theorem caseReqUrl_follows (htrailing : parser.flags.trailing = false)
    (hφ : φ = .begun ∨ φ = .url) : (caseReqUrl parser ch).Follows (some .url) false φ := by
  have hafter : φ.after .url = some .url := by rcases hφ with rfl | rfl <;> rfl
  simp only [caseReqUrl, Code.callbackData]
  split_ifs
  · exact ⟨rfl, .url, hafter, ⟨htrailing, rfl⟩, rfl, Bool.noConfusion⟩
  · exact ⟨rfl, .url, hafter, ⟨htrailing, rfl⟩, rfl, Bool.noConfusion⟩
  · refine ⟨rfl, .url, hafter, ?_, rfl, Bool.noConfusion⟩
    show Phase.url.inFields parser.flags.trailing
    rw [htrailing]
    exact Or.inr (Or.inl rfl)
  · exact urlChar_follows ch hφ htrailing

theorem caseHeadersDone_follows (htrailing : parser.flags.trailing = false) :
    (caseHeadersDone parser ch).Follows none false .body := by
  have hbody : ∀ {q : Parser}, q.state.stage = .content → q.flags.trailing = false →
      q.Fits .body := by
    intro q hs ht
    rw [Parser.Fits, hs]
    exact ⟨ht, rfl⟩
  simp only [caseHeadersDone, strictCheck]
  split_ifs
  · exact Errno.noConfusion
  · exact ⟨.idle, rfl, fits_newMessage _ rfl⟩
  · exact ⟨.idle, rfl, fits_newMessage _ rfl, openMark_newMessage _, Bool.noConfusion⟩
  · exact ⟨hbody rfl htrailing, rfl, Bool.noConfusion⟩
  · exact ⟨.idle, rfl, fits_newMessage _ rfl, openMark_newMessage _, Bool.noConfusion⟩
  · exact ⟨hbody rfl htrailing, rfl, Bool.noConfusion⟩
  · exact ⟨.idle, rfl, fits_newMessage _ rfl, openMark_newMessage _, Bool.noConfusion⟩
  · exact ⟨hbody rfl htrailing, rfl, Bool.noConfusion⟩

/-- The blank line: trailers end the message, headers come before the body. -/
theorem caseHeadersAlmostDone_follows (h : φ.inFields parser.flags.trailing) :
    (caseHeadersAlmostDone parser ch).Follows none false φ := by
  simp only [caseHeadersAlmostDone, strictCheck]
  split_ifs with hch htrailing
  · exact Errno.noConfusion
  · rw [htrailing] at h
    refine ⟨.idle, ?_, fits_newMessage _ rfl, openMark_newMessage _, Bool.noConfusion⟩
    rcases h with rfl | rfl <;> rfl
  · rw [Bool.not_eq_true] at htrailing
    rw [htrailing] at h
    refine ⟨.body, ?_, caseHeadersDone_follows ch htrailing, caseHeadersDone_follows ch htrailing⟩
    rcases h with rfl | rfl | rfl | rfl <;> rfl

theorem caseHeaderFieldStart_follows (h : φ.inFields parser.flags.trailing) :
    (caseHeaderFieldStart parser ch).Follows none false φ := by
  simp only [caseHeaderFieldStart]
  split_ifs
  · exact ⟨h, rfl, Bool.noConfusion⟩
  · exact caseHeadersAlmostDone_follows ch h
  · exact Errno.noConfusion
  · exact ⟨Or.inl rfl, h, rfl, Bool.noConfusion⟩

@[simp] theorem fieldLetter_flags (c : UInt8) : (fieldLetter parser ch c).flags = parser.flags := by
  simp only [fieldLetter]
  split <;> first | rfl | (split <;> rfl)

theorem caseHeaderField_follows (h : φ.inFields parser.flags.trailing)
    (hs : parser.state = .headerField) :
    (caseHeaderField parser ch).Follows (some .headerField) false φ := by
  obtain ⟨φ', hafter, hφ'⟩ := inFields_after h
  simp only [caseHeaderField, Code.callbackData]
  split_ifs
  · refine ⟨?_, by simp [hs, State.openMark], Bool.noConfusion⟩
    rw [Parser.Fits, fieldLetter_state, hs, fieldLetter_flags]
    exact h
  · exact ⟨rfl, φ', hafter, hφ', rfl, Bool.noConfusion⟩
  · exact ⟨rfl, φ', hafter, hφ', rfl, Bool.noConfusion⟩
  · exact ⟨rfl, φ', hafter, hφ'.inFields, rfl, Bool.noConfusion⟩
  · exact Errno.noConfusion

theorem caseHeaderAlmostDone_follows (h : φ.afterField parser.flags.trailing) :
    (caseHeaderAlmostDone parser ch).Follows none false φ := by
  simp only [caseHeaderAlmostDone, strictCheck]
  split_ifs
  · exact Errno.noConfusion
  · split <;> exact ⟨h, rfl, Bool.noConfusion⟩

theorem valueInitial_follows (h : φ.afterField parser.flags.trailing)
    (hs : parser.state = .headerValue) :
    (valueInitial parser ch).Follows (some .headerValue) false φ := by
  have hnext : ∀ {q : Parser}, q.state = .headerValue → q.flags.trailing = parser.flags.trailing →
      (Code.next q).Follows (some .headerValue) false φ := by
    intro q hq hf
    refine ⟨?_, by rw [hq]; rfl, Bool.noConfusion⟩
    rw [Parser.Fits, hq, hf]
    exact h
  simp only [valueInitial]
  split
  · exact hnext hs rfl
  · exact hnext hs rfl
  · split
    · exact Errno.noConfusion
    · exact hnext hs rfl
  · exact hnext hs rfl
  · exact hnext hs rfl

theorem valueLetter_follows (h : φ.afterField parser.flags.trailing)
    (hs : parser.state = .headerValue) :
    (valueLetter parser ch).Follows (some .headerValue) false φ := by
  have hfits : parser.Fits φ := by
    rw [Parser.Fits, hs]
    exact h
  have hopen : parser.state.openMark = some .headerValue := by rw [hs]; rfl
  have hnext : (Code.next parser).Follows (some .headerValue) false φ :=
    ⟨hfits, hopen, Bool.noConfusion⟩
  simp only [valueLetter]
  split
  · exact hnext
  · exact hnext
  · exact hnext
  · split_ifs
    · exact hnext
    · exact Errno.noConfusion
    · exact pushDigit_follows hfits hopen
  · exact ⟨hfits, hopen, Bool.noConfusion⟩
  · exact ⟨hfits, hopen, Bool.noConfusion⟩
  · exact ⟨hfits, hopen, Bool.noConfusion⟩
  iterate 3
    split_ifs
    · exact ⟨hfits, hopen, Bool.noConfusion⟩
    · exact hnext
  · exact ⟨h, rfl, Bool.noConfusion⟩

theorem caseHeaderValueStart_follows (h : φ.afterField parser.flags.trailing)
    (hs : parser.state = .headerValueStart) :
    (caseHeaderValueStart parser ch).Follows none false φ := by
  simp only [caseHeaderValueStart, Code.callbackData]
  split_ifs
  · refine ⟨?_, by rw [hs]; rfl, Bool.noConfusion⟩
    rw [Parser.Fits, hs]
    exact h
  · exact ⟨Or.inl rfl, rfl, φ, h.after, h, rfl, Bool.noConfusion⟩
  · exact ⟨Or.inl rfl, rfl, φ, h.after, h.inFields, rfl, Bool.noConfusion⟩
  · exact ⟨Or.inl rfl, valueInitial_follows ch h rfl⟩

theorem caseHeaderValue_follows (h : φ.afterField parser.flags.trailing)
    (hs : parser.state = .headerValue) :
    (caseHeaderValue parser ch).Follows (some .headerValue) false φ := by
  simp only [caseHeaderValue, Code.callbackData, Code.callbackDataNoadvance]
  split_ifs
  · exact ⟨rfl, φ, h.after, h, rfl, Bool.noConfusion⟩
  · exact ⟨rfl, φ, h.after, caseHeaderAlmostDone_follows ch h⟩
  · exact valueLetter_follows ch h hs

/-! ### The body -/

theorem caseMessageDone_follows : (caseMessageDone parser).Follows none false .body :=
  ⟨.idle, rfl, fits_newMessage _ rfl, openMark_newMessage _, Bool.noConfusion⟩

theorem caseBodyIdentity_follows (avail : ℕ) (htrailing : parser.flags.trailing = false)
    (hs : parser.state = .bodyIdentity) :
    (caseBodyIdentity parser avail).Follows none true .body := by
  simp only [caseBodyIdentity]
  refine ⟨rfl, ?_⟩
  show Code.Follows none true .body (if _ then _ else _)
  split
  · exact ⟨rfl, rfl, caseMessageDone_follows⟩
  · refine ⟨?_, by simp only [hs]; rfl, fun _ => by simp only [hs]; rfl⟩
    simp only [Parser.Fits, hs]
    exact ⟨htrailing, rfl⟩

theorem caseChunkData_follows (avail : ℕ) (htrailing : parser.flags.trailing = false)
    (hs : parser.state = .chunkData) :
    (caseChunkData parser avail).Follows none true .body := by
  simp only [caseChunkData]
  refine ⟨rfl, ?_⟩
  split
  · exact ⟨⟨htrailing, rfl⟩, rfl, fun _ => rfl⟩
  · refine ⟨?_, by simp only [hs]; rfl, fun _ => by simp only [hs]; rfl⟩
    simp only [Parser.Fits, hs]
    exact ⟨htrailing, rfl⟩

theorem caseChunkSize_follows (htrailing : parser.flags.trailing = false)
    (hs : parser.state = .chunkSize) : (caseChunkSize parser ch).Follows none false .body := by
  simp only [caseChunkSize]
  split
  · exact ⟨⟨htrailing, rfl⟩, rfl, Bool.noConfusion⟩
  · split
    · split
      · exact ⟨⟨htrailing, rfl⟩, rfl, Bool.noConfusion⟩
      · exact Errno.noConfusion
    · refine pushDigit_follows ?_ (by rw [hs]; rfl)
      rw [Parser.Fits, hs]
      exact ⟨htrailing, rfl⟩

/-- A size of 0 leads to the trailer, any other to the bytes of the chunk. -/
theorem caseChunkSizeAlmostDone_follows (htrailing : parser.flags.trailing = false) :
    (caseChunkSizeAlmostDone parser ch).Follows none false .body := by
  simp only [caseChunkSizeAlmostDone, strictCheck]
  split_ifs
  · exact Errno.noConfusion
  · exact ⟨Or.inl rfl, rfl, Bool.noConfusion⟩
  · exact ⟨⟨htrailing, rfl⟩, rfl, Bool.noConfusion⟩

end Follows

/-- **From every state the switch calls in order.** -/
theorem switch_follows (parser : Parser) (ch : UInt8) (avail : ℕ) {φ : Phase} (h : parser.Fits φ) :
    (switch parser ch avail).Follows parser.state.openMark parser.state.inBody φ := by
  have hnext : (Code.next parser).Follows parser.state.openMark parser.state.inBody φ :=
    ⟨h, rfl, id⟩
  cases hs : parser.state <;> simp only [switch, hs] <;> rw [hs] at hnext <;>
    rw [Parser.Fits, hs] at h
  case dead =>
    simp only [caseDead]
    split_ifs
    · exact hnext
    · exact Errno.noConfusion
  case startReqOrRes => exact caseStartReqOrRes_follows ch h hs
  case startReq => exact caseStartReq_follows ch h hs
  case startRes => exact caseStartRes_follows ch h hs
  case resOrRespH =>
    simp only [caseResOrRespH]
    split_ifs
    · exact ⟨h, rfl, Bool.noConfusion⟩
    · exact Errno.noConfusion
    · exact ⟨h, rfl, Bool.noConfusion⟩
  case resFirstHttpMajor =>
    simp only [caseResFirstHttpMajor]
    split
    · exact Errno.noConfusion
    · exact ⟨h, rfl, Bool.noConfusion⟩
  case resHttpMinor =>
    simp only [caseResHttpMinor]
    split
    · exact ⟨h, rfl, Bool.noConfusion⟩
    · exact moreHttpMinor_follows ch hnext.1 (by rw [hs]; rfl)
  case resFirstStatusCode =>
    simp only [caseResFirstStatusCode]
    split_ifs
    · exact hnext
    · exact Errno.noConfusion
    · exact ⟨h, rfl, Bool.noConfusion⟩
  case resStatusCode =>
    obtain ⟨htrailing, rfl⟩ := h
    exact caseResStatusCode_follows ch htrailing hs
  case resStatus =>
    obtain ⟨htrailing, rfl⟩ := h
    exact caseResStatus_follows ch htrailing hs
  case resLineAlmostDone =>
    obtain ⟨htrailing, rfl⟩ := h
    exact caseResLineAlmostDone_follows ch htrailing
  case reqMethod => exact caseReqMethod_follows ch hnext.1 hs
  case reqSpacesBeforeUrl =>
    simp only [caseReqSpacesBeforeUrl]
    split_ifs
    · exact hnext
    · exact ⟨Or.inl rfl, urlChar_follows ch (Or.inl h.2) h.1⟩
    · exact ⟨Or.inl rfl, urlChar_follows ch (Or.inl h.2) h.1⟩
  case reqHttpStart =>
    simp only [caseReqHttpStart]
    split_ifs
    · exact ⟨h, rfl, Bool.noConfusion⟩
    · exact hnext
    · exact Errno.noConfusion
  case reqFirstHttpMajor =>
    simp only [caseReqFirstHttpMajor]
    split
    · exact Errno.noConfusion
    · exact ⟨h, rfl, Bool.noConfusion⟩
  case reqHttpMinor =>
    obtain ⟨htrailing, rfl⟩ := h
    exact caseReqHttpMinor_follows ch htrailing hs
  case reqLineAlmostDone =>
    obtain ⟨htrailing, rfl⟩ := h
    exact caseReqLineAlmostDone_follows ch htrailing
  case headerFieldStart => exact caseHeaderFieldStart_follows ch h
  case headerField => exact caseHeaderField_follows ch h hs
  case headerValueStart => exact caseHeaderValueStart_follows ch h hs
  case headerValue => exact caseHeaderValue_follows ch h hs
  case headerValueLws =>
    simp only [caseHeaderValueLws]
    split_ifs
    · exact ⟨h, rfl, Bool.noConfusion⟩
    · exact caseHeaderFieldStart_follows ch (Phase.afterField.inFields h)
  case headerAlmostDone => exact caseHeaderAlmostDone_follows ch h
  case headersAlmostDone => exact caseHeadersAlmostDone_follows ch h
  case headersDone =>
    obtain ⟨htrailing, rfl⟩ := h
    exact caseHeadersDone_follows ch htrailing
  case chunkSizeStart =>
    simp only [caseChunkSizeStart]
    split
    · exact Errno.noConfusion
    · exact ⟨h, rfl, Bool.noConfusion⟩
  case chunkSize =>
    obtain ⟨htrailing, rfl⟩ := h
    exact caseChunkSize_follows ch htrailing hs
  case chunkParameters =>
    simp only [caseChunkParameters]
    split
    · exact ⟨h, rfl, Bool.noConfusion⟩
    · exact hnext
  case chunkSizeAlmostDone =>
    obtain ⟨htrailing, rfl⟩ := h
    exact caseChunkSizeAlmostDone_follows ch htrailing
  case chunkData =>
    obtain ⟨htrailing, rfl⟩ := h
    exact caseChunkData_follows avail htrailing hs
  case chunkDataAlmostDone =>
    obtain ⟨htrailing, rfl⟩ := h
    simp only [caseChunkDataAlmostDone, strictCheck, Code.callbackData]
    split_ifs
    · exact Errno.noConfusion
    · exact ⟨rfl, rfl, ⟨htrailing, rfl⟩, rfl, Bool.noConfusion⟩
  case chunkDataDone =>
    simp only [caseChunkDataDone, strictCheck]
    split
    · exact Errno.noConfusion
    · exact ⟨h, rfl, Bool.noConfusion⟩
  case bodyIdentity =>
    obtain ⟨htrailing, rfl⟩ := h
    exact caseBodyIdentity_follows avail htrailing hs
  case bodyIdentityEof =>
    refine ⟨rfl, hnext.1, by rw [hs]; rfl, fun _ => by rw [hs]; rfl⟩
  case messageDone =>
    obtain ⟨htrailing, rfl⟩ := h
    exact caseMessageDone_follows
  case resHttpMajor => exact caseHttpMajor_follows ch hnext.1 (by rw [hs]; rfl) (by rw [hs]; rfl) rfl
  case reqHttpMajor => exact caseHttpMajor_follows ch hnext.1 (by rw [hs]; rfl) (by rw [hs]; rfl) rfl
  case reqSchema | reqSchemaSlash | reqSchemaSlashSlash | reqServerStart =>
    simp only [caseReqSchema]
    split
    · exact Errno.noConfusion
    · exact urlChar_follows ch h.2 h.1
  case reqServer | reqServerWithAt | reqPath | reqQueryStringStart | reqQueryString
      | reqFragmentStart | reqFragment => exact caseReqUrl_follows ch h.1 h.2
  -- what is left are the letters of `HTTP/` and the first digit of the minor version
  all_goals first
    | exact caseLetter_follows ch h rfl
    | exact caseFirstHttpMinor_follows ch h rfl

theorem turn_follows (parser : Parser) (ch : UInt8) (avail : ℕ) {φ : Phase} (h : parser.Fits φ) :
    (turn parser ch avail).Follows parser.state.openMark parser.state.inBody φ := by
  simp only [turn]
  split
  · split
    · exact Errno.noConfusion
    · exact switch_follows { parser with nread := parser.nread + 1 } ch avail h
  · exact switch_follows parser ch avail h

/-! ## Running the code -/

variable {α : Type}

/-- The callbacks of `S` keep a relation between the phase and the state of the application. -/
structure Settings.Tracks (S : Settings α) (R : Phase → α → Prop) : Prop where
  data : ∀ (m : Mark) (x : Bytes) {φ φ' : Phase} {u : α}, R φ u → φ.after m.callback = some φ' →
    R φ' (S.data m x u).2
  notice : ∀ (n : Notice) {φ φ' : Phase} {u : α}, R φ u → φ.after n.callback = some φ' →
    R φ' (S.notice n u).2
  headersComplete : ∀ (parser : Parser) {φ φ' : Phase} {u : α}, R φ u →
    φ.after .headersComplete = some φ' → R φ' (S.onHeadersComplete parser u).2

theorem Mark.errno_ne_ok (m : Mark) : m.errno ≠ .ok := by cases m <;> exact Errno.noConfusion

theorem Notice.errno_ne_ok (n : Notice) : n.errno ≠ .ok := by cases n <;> exact Errno.noConfusion

variable {R : Phase → α → Prop}

/-- The application is in a phase that fits the parser if it can go on. -/
def InOrder (R : Phase → α → Prop) (parser : Parser) (u : α) : Prop :=
  ∃ φ, R φ u ∧ (parser.httpErrno = .ok → parser.Fits φ)

/-- An error ends the calls. -/
theorem InOrder.of_error {parser : Parser} {u : α} {φ : Phase} (h : R φ u)
    (herrno : parser.httpErrno ≠ .ok) : InOrder R parser u :=
  ⟨φ, h, fun hok => absurd hok herrno⟩

/-- What holds between two turns of the loop. -/
structure Scan.InOrder (R : Phase → α → Prop) (s : Scan α) : Prop where
  calls : ∃ φ, R φ s.user ∧ s.parser.Fits φ
  marks : MarksAre s.marks s.parser.state.openMark s.parser.state.inBody

/-- Setting or clearing one mark. -/
theorem MarksAre.update {marks : Mark → Option Bytes} {«open» open' : Option Mark}
    {inBody inBody' : Bool} {m : Mark} {start : Option Bytes} (h : MarksAre marks «open» inBody)
    (hopen : «open» = none ∨ «open» = some m)
    (hset : open' = if m = .body then none else start.map fun _ => m)
    (hbody : inBody' = if m = .body then start.isSome else inBody) :
    MarksAre (Function.update marks m start) open' inBody' where
  isSet m' hm' := by
    by_cases hm : m = .body
    · simp [hset, hm] at hm'
    · rw [if_neg hm] at hset
      cases start with
      | none => simp [hset] at hm'
      | some p =>
          obtain rfl : m = m' := by simpa [hset] using hm'
          simp
  atMost m' hm' := by
    by_cases heq : m' = m
    · subst heq
      rw [Function.update_self] at hm'
      by_cases hm : m' = .body
      · exact Or.inr ⟨hm, by rw [hbody, if_pos hm, hm']⟩
      · obtain ⟨p, rfl⟩ := Option.isSome_iff_exists.1 hm'
        exact Or.inl (by rw [hset, if_neg hm]; rfl)
    · rw [Function.update_of_ne heq] at hm'
      rcases h.atMost m' hm' with hm'' | hbody'
      · rcases hopen with hnone | hsome
        · exact absurd (hnone.symm.trans hm'') (by simp)
        · exact absurd (Option.some.inj (hsome.symm.trans hm'')).symm heq
      · refine Or.inr ⟨hbody'.1, ?_⟩
        rw [hbody, if_neg fun hm => heq (hbody'.1.trans hm.symm)]
        exact hbody'.2

/-- A mark that stays as it is has been set to what it was. -/
theorem MarksAre.same {marks : Mark → Option Bytes} {«open» : Option Mark} {inBody : Bool} {m : Mark}
    {start : Option Bytes} (h : MarksAre marks «open» inBody)
    (hopen : «open» = none ∨ «open» = some m) (hstart : marks m = start) :
    MarksAre marks (if m = .body then none else start.map fun _ => m)
      (if m = .body then start.isSome else inBody) := by
  have hsame : MarksAre (Function.update marks m (marks m)) _ _ := h.update hopen rfl rfl
  rwa [Function.update_eq_self, hstart] at hsame

theorem follows_mark {m : Mark} {rest : Code} {«open» : Option Mark} {inBody : Bool} {φ : Phase}
    (h : (Code.mark m rest).Follows «open» inBody φ) :
    («open» = none ∨ «open» = some m) ∧
      rest.Follows (if m = .body then none else some m) (if m = .body then true else inBody) φ := by
  cases m with
  | body => exact ⟨Or.inl h.1, h.2⟩
  | headerField | headerValue | url => exact h

/-- A string handed over is marked, unless it is the body. -/
theorem follows_data {m : Mark} {parser : Parser} {extra consumed : ℕ} {rest : Code}
    {«open» : Option Mark} {inBody : Bool} {φ : Phase}
    (h : (Code.data m parser extra consumed rest).Follows «open» inBody φ) :
    («open» = some m ∨ («open» = none ∧ m = .body ∧ φ = .body)) ∧
      ∃ φ', φ.after m.callback = some φ' ∧
        rest.Follows none (if m = .body then false else inBody) φ' := by
  cases m with
  | body =>
      obtain ⟨hopen, rfl, hrest⟩ := h
      exact ⟨Or.inr ⟨hopen, rfl, rfl⟩, .body, rfl, hrest⟩
  | headerField | headerValue | url => exact ⟨Or.inl h.1, h.2⟩

/-- What holds after a turn. -/
def Step.InOrder (R : Phase → α → Prop) : Step α → Prop
  | .next s _ => s.InOrder R
  | .done parser u _ => Http.InOrder R parser u

variable {S : Settings α}

/-- **Code that calls in order keeps the order**, whatever the callbacks return. -/
theorem runCode_inOrder (hS : S.Tracks R) (c : Code) {«open» : Option Mark} {inBody : Bool}
    {φ : Phase} (hc : c.Follows «open» inBody φ) {s : Scan α} (hu : R φ s.user)
    (hm : MarksAre s.marks «open» inBody) (p : Bytes) (moved : ℕ) :
    (runCode S c s p moved).InOrder R := by
  induction c generalizing «open» inBody φ s p moved with
  | next parser =>
      obtain ⟨hfits, hopen, hbody⟩ := hc
      refine ⟨⟨φ, hu, hfits⟩, fun m h => hm.isSet m (hopen.symm.trans h), fun m h => ?_⟩
      rcases hm.atMost m h with h | ⟨hmark, h⟩
      · exact Or.inl (hopen.trans h)
      · exact Or.inr ⟨hmark, hbody h⟩
  | error parser errno => exact InOrder.of_error hu hc
  | leave parser => exact ⟨φ, hu, fun _ => hc⟩
  | mark m rest ih =>
      obtain ⟨hopen, hrest⟩ := follows_mark hc
      rw [runCode]
      cases hmark : s.marks m with
      | none =>
          refine ih hrest ?_ ?_ p moved
          · exact hu
          · exact hm.update hopen (by simp) (by simp)
      | some start => exact ih hrest hu (hm.same hopen hmark) p moved
  | advance n rest ih => exact ih hc hu hm (p.drop n) (moved + n)
  | data m parser extra consumed rest ih =>
      obtain ⟨hopen, φ', hafter, hrest⟩ := follows_data hc
      rw [runCode]
      cases hmark : s.marks m with
      | none =>
          -- a string that is open has its mark, so it can only be the body
          rcases hopen with hopen | ⟨rfl, rfl, rfl⟩
          · exact absurd (hm.isSet m hopen) (by simp [hmark])
          · cases hafter
            exact ih hrest hu (hm.same (Or.inl rfl) hmark) p moved
      | some start =>
          have hopen' : «open» = none ∨ «open» = some m := by
            rcases hopen with hopen | ⟨hopen, -, -⟩
            · exact Or.inr hopen
            · exact Or.inl hopen
          simp only
          split_ifs
          · exact InOrder.of_error (hS.data m _ hu hafter) m.errno_ne_ok
          · refine ih hrest ?_ ?_ p moved
            · exact hS.data m _ hu hafter
            · exact hm.update hopen' (by simp) (by simp)
  | notify n parser rest ih =>
      obtain ⟨φ', hafter, hrest⟩ := hc
      rw [runCode]
      split_ifs
      · exact InOrder.of_error (hS.notice n hu hafter) n.errno_ne_ok
      · refine ih hrest ?_ ?_ p moved
        · exact hS.notice n hu hafter
        · exact hm
  | headersComplete parser rest skipBody ihrest ihskip =>
      obtain ⟨φ', hafter, hrest, hskip⟩ := hc
      rw [runCode]
      split_ifs
      · refine ihrest hrest ?_ ?_ p moved
        · exact hS.headersComplete parser hu hafter
        · exact hm
      · refine ihskip hskip ?_ ?_ p moved
        · exact hS.headersComplete parser hu hafter
        · exact hm
      · exact InOrder.of_error (hS.headersComplete parser hu hafter) Errno.noConfusion

/-! ## Executing data -/

/-- One turn of the loop. -/
theorem Scan.InOrder.turn (hS : S.Tracks R) {s : Scan α} (h : s.InOrder R) (ch : UInt8) (p : Bytes) :
    (runCode S (Http.turn s.parser ch (p.length + 1)) s (ch :: p) 0).InOrder R := by
  obtain ⟨φ, hu, hfits⟩ := h.calls
  exact runCode_inOrder hS _ (turn_follows s.parser ch (p.length + 1) hfits) hu h.marks (ch :: p) 0

def Ending.InOrder (R : Phase → α → Prop) : Ending α → Prop
  | .end s => s.InOrder R
  | .return r => Http.InOrder R r.parser r.user

theorem loop_inOrder (hS : S.Tracks R) (p : Bytes) {s : Scan α} (h : s.InOrder R) (skip pos : ℕ) :
    (loop S s skip p pos).InOrder R :=
  loop_induction (I := fun s _ _ => s.InOrder R) (F := fun s => s.InOrder R) (E := InOrder R)
    (fun _ _ h => h) (fun _ _ _ _ h => h) (fun _ ch p h => h.turn hS ch p) h pos

/-- A string may be handed over in parts: the first part changes nothing about the next. -/
theorem Parser.Fits.call {parser : Parser} {φ : Phase} (h : parser.Fits φ) {m : Mark}
    (hm : parser.state.openMark = some m ∨ (m = .body ∧ parser.state.inBody = true)) :
    ∃ φ', φ.after m.callback = some φ' ∧ parser.Fits φ' := by
  simp only [Parser.Fits] at h ⊢
  cases hs : parser.state <;> rw [hs] at h hm <;> simp only [State.openMark, State.inBody] at hm <;>
    rcases hm with hm | ⟨rfl, hm⟩ <;> cases hm
  -- the phase behind a part of a name takes another part of it
  case headerField.inl.refl =>
    obtain ⟨φ', hafter, hφ'⟩ := inFields_after h
    exact ⟨φ', hafter, hφ'.inFields⟩
  case headerValue.inl.refl => exact ⟨φ, Phase.afterField.after h, h⟩
  case bodyIdentity.inr.intro | bodyIdentityEof.inr.intro | chunkData.inr.intro
      | chunkDataAlmostDone.inr.intro =>
    obtain ⟨htrailing, rfl⟩ := h
    exact ⟨.body, rfl, htrailing, rfl⟩
  all_goals
    obtain ⟨htrailing, rfl | rfl⟩ := h
    · exact ⟨.url, rfl, htrailing, Or.inr rfl⟩
    · exact ⟨.url, rfl, htrailing, Or.inr rfl⟩

theorem flush_inOrder (hS : S.Tracks R) (len : ℕ) (ms : List Mark) {s : Scan α}
    (hcalls : ∃ φ, R φ s.user ∧ s.parser.Fits φ)
    (hmarks : ∀ m, (s.marks m).isSome = true →
      s.parser.state.openMark = some m ∨ (m = .body ∧ s.parser.state.inBody = true)) :
    InOrder R (flush S len ms s).parser (flush S len ms s).user := by
  induction ms generalizing s with
  | nil =>
      obtain ⟨φ, hu, hfits⟩ := hcalls
      exact ⟨φ, hu, fun _ => hfits⟩
  | cons m ms ih =>
      rw [flush]
      cases hmark : s.marks m with
      | none => exact ih hcalls hmarks
      | some start =>
          obtain ⟨φ, hu, hfits⟩ := hcalls
          obtain ⟨φ', hafter, hfits'⟩ := hfits.call (hmarks m (by rw [hmark]; rfl))
          have hu' := hS.data m start hu hafter
          simp only
          split_ifs
          · exact InOrder.of_error hu' m.errno_ne_ok
          · refine ih ⟨φ', hu', hfits'⟩ ?_
            dsimp only
            intro m' hm'
            -- the mark that was flushed is cleared, the others are as they were
            by_cases heq : m' = m
            · rw [heq, Function.update_self] at hm'
              exact absurd hm' (by simp)
            · rw [Function.update_of_ne heq] at hm'
              exact hmarks m' hm'

theorem marksAre_marksAt (state : State) (data : Bytes) :
    MarksAre (marksAt state data) state.openMark state.inBody where
  isSet m hm := by simp [marksAt, hm]
  atMost m hm := by
    refine Or.inl (Classical.not_not.1 fun hne => ?_)
    rw [marksAt, if_neg hne] at hm
    exact absurd hm (by simp)

/-- Execution starts with the marks that the state asks for. -/
theorem InOrder.scan {parser : Parser} {u : α} (h : InOrder R parser u)
    (hok : parser.httpErrno = .ok) (data : Bytes) :
    Scan.InOrder R ⟨parser, u, marksAt parser.state data⟩ := by
  obtain ⟨φ, hu, hfits⟩ := h
  exact ⟨⟨φ, hu, hfits hok⟩, marksAre_marksAt parser.state data⟩

/-- **A call with data keeps what the callbacks keep**, with the phase that fits the parser. -/
theorem execute_inOrder (hS : S.Tracks R) {parser : Parser} {u : α} (h : InOrder R parser u)
    {data : Bytes} (hne : data ≠ []) :
    InOrder R (execute S parser u data).parser (execute S parser u data).user := by
  simp only [execute, List.isEmpty_iff, if_neg hne]
  split
  · exact h
  · next hok =>
      have hloop := loop_inOrder hS data (h.scan (not_not.1 hok) data) 0 0
      cases hend : loop S ⟨parser, u, marksAt parser.state data⟩ 0 data 0 with
      | «return» r =>
          rw [hend] at hloop
          exact hloop
      | «end» s =>
          rw [hend] at hloop
          exact flush_inOrder hS data.length Mark.all hloop.calls hloop.marks.atMost

/-- The end of the connection may complete a message; either way the application is in some phase. -/
theorem execute_eof (hS : S.Tracks R) {parser : Parser} {u : α} (h : InOrder R parser u) :
    ∃ φ, R φ (execute S parser u []).user := by
  obtain ⟨φ, hu, hfits⟩ := h
  simp only [execute, List.isEmpty_nil, if_true]
  split
  · exact ⟨φ, hu⟩
  · next hok =>
      split
      · next hs =>
          have hfits' := hfits (not_not.1 hok)
          rw [Parser.Fits, hs] at hfits'
          obtain ⟨-, rfl⟩ := hfits'
          have hu' : R .idle (S.onMessageComplete u).2 := hS.notice .messageComplete hu rfl
          split_ifs <;> exact ⟨.idle, hu'⟩
      · exact ⟨φ, hu⟩
      · exact ⟨φ, hu⟩
      · exact ⟨φ, hu⟩
      · exact ⟨φ, hu⟩
      · exact ⟨φ, hu⟩

theorem executeAll_inOrder (hS : S.Tracks R) {parser : Parser} {u : α} (h : InOrder R parser u)
    {reads : List Bytes} (hne : ∀ data ∈ reads, data ≠ []) :
    InOrder R (executeAll S parser u reads).1 (executeAll S parser u reads).2 := by
  induction reads generalizing parser u with
  | nil => exact h
  | cons data reads ih =>
      exact ih (execute_inOrder hS h (hne data List.mem_cons_self))
        fun d hd => hne d (List.mem_cons_of_mem data hd)

theorem inOrder_init (type : ParserType) {u : α} (h : R .idle u) : InOrder R (Parser.init type) u := by
  refine ⟨.idle, h, fun _ => ?_⟩
  cases type
  · exact rfl
  · exact Or.inl rfl
  · exact rfl

/-! ## The calls -/

/-- The calls noted so far lead to the phase. -/
theorem tracks_noted (S : Settings α) : S.noted.Tracks fun φ u => phaseAfter u.1 = some φ where
  data m x _ _ _ hu hafter := by cases m <;> exact phaseAfter_snoc hu hafter
  notice n _ _ _ hu hafter := by cases n <;> exact phaseAfter_snoc hu hafter
  headersComplete _ _ _ _ hu hafter := phaseAfter_snoc hu hafter

theorem ordered_of_phase {calls : List Callback} {φ : Phase} (h : phaseAfter calls = some φ) :
    Ordered calls := by
  rw [Ordered, h]
  rfl

/-- **The callbacks of a run are in order**, however the data is cut and whatever they return; an
empty read is the end of the connection and comes last. -/
theorem callbacks_ordered (S : Settings α) (type : ParserType) (u : α) (reads : List Bytes)
    (hne : ∀ data ∈ reads.dropLast, data ≠ []) :
    Ordered (executeAll S.noted (Parser.init type) ([], u) reads).2.1 := by
  have hinit : InOrder (fun φ (u : List Callback × α) => phaseAfter u.1 = some φ)
      (Parser.init type) ([], u) := inOrder_init type rfl
  rcases List.eq_nil_or_concat reads with rfl | ⟨reads, data, rfl⟩
  · exact ordered_of_phase (φ := .idle) rfl
  · rw [List.concat_eq_append] at hne ⊢
    rw [List.dropLast_concat] at hne
    have hreads := executeAll_inOrder (tracks_noted S) hinit hne
    rw [executeAll, List.foldl_append]
    by_cases hdata : data = []
    · subst hdata
      obtain ⟨φ, hφ⟩ := execute_eof (tracks_noted S) hreads
      exact ordered_of_phase hφ
    · obtain ⟨φ, hφ, -⟩ := execute_inOrder (tracks_noted S) hreads hdata
      exact ordered_of_phase hφ

/-- A message with a chunked body and a trailer, cut in the middle of a name. -/
def chunkedReads : List Bytes :=
  [lit "HTTP/1.1 200 OK\x0d\nTransfer-En",
    lit "coding: chunked\x0d\n\x0d\n1\x0d\nx\x0d\n0\x0d\nA: b", lit "\x0d\n\x0d\n", []]

theorem callbacks_ordered_chunkedReads :
    Ordered (executeAll ignoring.noted (Parser.init .response) ([], ()) chunkedReads).2.1 :=
  callbacks_ordered ignoring .response () chunkedReads (by decide)

example : (executeAll ignoring.noted (Parser.init .response) ([], ()) chunkedReads).2.1 =
    [.messageBegin, .statusComplete, .headerField, .headerField, .headerValue, .headersComplete,
      .body, .headerField, .headerValue, .headerValue, .messageComplete] := by decide +kernel

end ImageProxy.Http
