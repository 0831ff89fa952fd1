import ImageProxy.Http.Coherence
import ImageProxy.Http.CallbackOrder

set_option autoImplicit false

/-! # The strings that are delivered

Whatever the data, the bytes of a URL are visible ones, those of a header's name are token characters
and there is no line end in a header's value. This holds between any two turns of the loop, so it does
not matter how the data is cut, what the callbacks return or what state the parser began in. -/

namespace ImageProxy.Http

open Ascii

/-- A visible character. -/
def isVisible (c : UInt8) : Bool := asc '!' ≤ c && c ≤ asc '~'

/-- The bytes that a string may have. -/
def Mark.Takes : Mark → UInt8 → Prop
  | .headerField, c => token c ≠ 0
  | .headerValue, c => c ≠ CR ∧ c ≠ LF
  | .url, c => isVisible c = true
  | .body, _ => True

/-! ## The URL automaton -/

theorem isVisible_of_isUrlChar {c : UInt8} (h : isUrlChar c = true) : isVisible c = true := by
  simp only [isUrlChar, Bool.and_eq_true] at h
  simp only [isVisible, Bool.and_eq_true]
  exact h.1.1

theorem isVisible_of_isUserinfoChar {c : UInt8} (h : isUserinfoChar c = true) :
    isVisible c = true := by
  have hall : ∀ n < 256, isUserinfoChar (UInt8.ofNat n) = true → isVisible (UInt8.ofNat n) = true := by
    decide +kernel
  have hc := hall c.toNat (UInt8.toNat_lt c)
  rw [UInt8.ofNat_toNat] at hc
  exact hc h

theorem isVisible_of_isAlpha {c : UInt8} (h : isAlpha c = true) : isVisible c = true :=
  isVisible_of_isUserinfoChar (by simp only [isUserinfoChar, isAlphanum, h, Bool.true_or])

/-- The automaton dies of a byte that is not visible. -/
theorem parseUrlChar_invisible (s : State) {c : UInt8} (h : isVisible c = false) :
    parseUrlChar s c = .dead := by
  have hne : ∀ d, isVisible d = true → c ≠ d := by
    rintro d hd rfl
    rw [h] at hd
    exact absurd hd (by simp)
  have hnot : ∀ {f : UInt8 → Bool}, (f c = true → isVisible c = true) → f c = false := by
    intro f hf
    cases hc : f c with
    | false => rfl
    | true => exact absurd (h.symm.trans (hf hc)) (by simp)
  have hurl : isUrlChar c = false := hnot isVisible_of_isUrlChar
  have halpha : isAlpha c = false := hnot isVisible_of_isAlpha
  have huser : isUserinfoChar c = false := hnot isVisible_of_isUserinfoChar
  have hslash : c ≠ asc '/' := hne _ (by decide)
  have hstar : c ≠ asc '*' := hne _ (by decide)
  have hcolon : c ≠ asc ':' := hne _ (by decide)
  have hat : c ≠ asc '@' := hne _ (by decide)
  have hquery : c ≠ asc '?' := hne _ (by decide)
  have hhash : c ≠ asc '#' := hne _ (by decide)
  have hleft : c ≠ asc '[' := hne _ (by decide)
  have hright : c ≠ asc ']' := hne _ (by decide)
  cases s <;> simp [parseUrlChar, parseUrlChar.server, parseUrlChar.query, hurl, halpha, huser, hslash,
    hstar, hcolon, hat, hquery, hhash, hleft, hright]

theorem isVisible_of_alive {s : State} {c : UInt8} (h : parseUrlChar s c ≠ .dead) :
    isVisible c = true := by
  by_contra hc
  exact h (parseUrlChar_invisible s (by simpa using hc))

/-! ## One turn -/

/-- Code that touches no string but the body. -/
def Code.Quiet : Code → Prop
  | .next parser => parser.state.openMark = none
  | .error _ _ => True
  | .leave _ => True
  | .mark _ _ => False
  | .advance _ rest => rest.Quiet
  | .data m _ _ _ rest => m = .body ∧ rest.Quiet
  | .notify _ _ rest => rest.Quiet
  | .headersComplete _ rest skipBody => rest.Quiet ∧ skipBody.Quiet

/-- The code keeps the strings: a byte that stays in the string `open` is one that this may have, and
what is delivered ends in front of the byte `ch`. -/
def Code.Takes (ch : UInt8) : Option Mark → Code → Prop
  | «open», .next parser =>
      parser.state.openMark = «open» ∧ ∀ m, «open» = some m → m.Takes ch
  | _, .error _ _ => True
  | _, .leave _ => True
  | «open», .mark .body rest => rest.Takes ch «open»
  | «open», .mark m rest => «open» = none ∧ rest.Takes ch (some m)
  | «open», .advance _ rest => «open» = none ∧ rest.Quiet
  | «open», .data .body _ _ _ rest => rest.Takes ch «open»
  | «open», .data m _ extra _ rest => «open» = some m ∧ extra = 0 ∧ rest.Takes ch none
  | «open», .notify _ _ rest => rest.Takes ch «open»
  | «open», .headersComplete _ rest skipBody =>
      rest.Takes ch «open» ∧ skipBody.Takes ch «open»

section Takes

variable {parser : Parser} (ch : UInt8)

/-- A byte of no string. -/
theorem takes_next (h : parser.state.openMark = none) : (Code.next parser).Takes ch none :=
  ⟨h, fun _ hm => absurd hm (by simp)⟩

theorem takes_letter {m : Mark} (h : parser.state.openMark = some m) (hm : m.Takes ch) :
    (Code.next parser).Takes ch (some m) :=
  ⟨h, fun _ hm' => Option.some.inj hm' ▸ hm⟩

theorem urlChar_takes : (urlChar parser ch).Takes ch (some .url) := by
  simp only [urlChar]
  split
  · trivial
  · next hne => exact takes_letter ch (openMark_parseUrlChar _ _ hne) (isVisible_of_alive hne)

theorem caseHeadersDone_takes : (caseHeadersDone parser ch).Takes ch none := by
  simp only [caseHeadersDone, strictCheck]
  split_ifs
  all_goals first
    | trivial
    | exact takes_next ch (openMark_newMessage _)
    | exact takes_next ch rfl

theorem caseHeadersAlmostDone_takes : (caseHeadersAlmostDone parser ch).Takes ch none := by
  simp only [caseHeadersAlmostDone, strictCheck]
  split_ifs
  · trivial
  · exact takes_next ch (openMark_newMessage _)
  · exact ⟨caseHeadersDone_takes ch, caseHeadersDone_takes ch⟩

theorem caseHeaderFieldStart_takes : (caseHeaderFieldStart parser ch).Takes ch none := by
  simp only [caseHeaderFieldStart]
  split_ifs with hcr hlf htoken
  · exact takes_next ch rfl
  · exact caseHeadersAlmostDone_takes ch
  · trivial
  · exact ⟨rfl, takes_letter ch rfl htoken⟩

theorem caseHeaderField_takes (hs : parser.state = .headerField) :
    (caseHeaderField parser ch).Takes ch (some .headerField) := by
  simp only [caseHeaderField, Code.callbackData]
  split_ifs with htoken
  · exact takes_letter ch (by simp [hs, State.openMark]) htoken
  · exact ⟨rfl, rfl, takes_next ch rfl⟩
  · exact ⟨rfl, rfl, takes_next ch rfl⟩
  · exact ⟨rfl, rfl, takes_next ch rfl⟩
  · trivial

theorem caseHeaderAlmostDone_takes : (caseHeaderAlmostDone parser ch).Takes ch none := by
  simp only [caseHeaderAlmostDone, strictCheck]
  split_ifs
  · trivial
  · split <;> exact takes_next ch rfl

theorem valueInitial_takes (hs : parser.state = .headerValue) (hch : ch ≠ CR ∧ ch ≠ LF) :
    (valueInitial parser ch).Takes ch (some .headerValue) := by
  have hopen : parser.state.openMark = some .headerValue := by rw [hs]; rfl
  simp only [valueInitial]
  split
  case h_3 =>
    split
    · trivial
    · exact takes_letter ch hopen hch
  all_goals exact takes_letter ch hopen hch

theorem pushDigit_takes {m : Mark} {base digit : ℕ} (hopen : parser.state.openMark = some m)
    (hch : m.Takes ch) : (parser.pushDigit base digit).Takes ch (some m) := by
  simp only [Parser.pushDigit]
  split
  · trivial
  · exact takes_letter ch hopen hch

theorem valueLetter_takes (hs : parser.state = .headerValue) (hch : ch ≠ CR ∧ ch ≠ LF) :
    (valueLetter parser ch).Takes ch (some .headerValue) := by
  have hopen : parser.state.openMark = some .headerValue := by rw [hs]; rfl
  have hnext : ∀ {q : Parser}, q.state = .headerValue → (Code.next q).Takes ch (some .headerValue) :=
    fun hq => takes_letter ch (by rw [hq]; rfl) hch
  simp only [valueLetter]
  split <;> (try split_ifs) <;> first
    | trivial
    | exact hnext hs
    | exact hnext rfl
    | exact pushDigit_takes ch hopen hch

theorem caseHeaderValueStart_takes (hs : parser.state = .headerValueStart) :
    (caseHeaderValueStart parser ch).Takes ch none := by
  simp only [caseHeaderValueStart, Code.callbackData]
  split_ifs with hblank hcr hlf
  · exact takes_next ch (by rw [hs]; rfl)
  · exact ⟨rfl, rfl, rfl, takes_next ch rfl⟩
  · exact ⟨rfl, rfl, rfl, takes_next ch rfl⟩
  · exact ⟨rfl, valueInitial_takes ch rfl ⟨hcr, hlf⟩⟩

theorem caseHeaderValue_takes (hs : parser.state = .headerValue) :
    (caseHeaderValue parser ch).Takes ch (some .headerValue) := by
  simp only [caseHeaderValue, Code.callbackData, Code.callbackDataNoadvance]
  split_ifs with hcr hlf
  · exact ⟨rfl, rfl, takes_next ch rfl⟩
  · exact ⟨rfl, rfl, caseHeaderAlmostDone_takes ch⟩
  · exact valueLetter_takes ch hs ⟨hcr, hlf⟩

theorem caseReqUrl_takes : (caseReqUrl parser ch).Takes ch (some .url) := by
  simp only [caseReqUrl, Code.callbackData]
  split_ifs
  · exact ⟨rfl, rfl, takes_next ch rfl⟩
  · exact ⟨rfl, rfl, takes_next ch rfl⟩
  · exact ⟨rfl, rfl, takes_next ch rfl⟩
  · exact urlChar_takes ch

theorem caseStartReq_takes (h : parser.state.openMark = none) :
    (caseStartReq parser ch).Takes ch none := by
  simp only [caseStartReq, Parser.beginMessage]
  split_ifs
  · exact takes_next ch h
  · trivial
  · split
    · trivial
    · exact takes_next ch rfl

end Takes

/-- **From every state the switch keeps the strings.** -/
theorem switch_takes (parser : Parser) (ch : UInt8) (avail : ℕ) :
    (switch parser ch avail).Takes ch parser.state.openMark := by
  have hstay : parser.state.openMark = none → (Code.next parser).Takes ch none := takes_next ch
  cases hs : parser.state <;> simp only [switch, hs] <;> rw [hs] at hstay
  case startReq => exact caseStartReq_takes ch (by rw [hs]; rfl)
  case startReqOrRes =>
    simp only [caseStartReqOrRes]
    split_ifs
    · exact hstay rfl
    · exact takes_next ch rfl
    · exact caseStartReq_takes ch rfl
  case reqMethod =>
    simp only [caseReqMethod]
    split_ifs
    · trivial
    · exact takes_next ch rfl
    · exact takes_next ch (by rw [hs]; rfl)
    · split
      · trivial
      · exact takes_next ch (by rw [hs]; rfl)
  case reqSpacesBeforeUrl =>
    simp only [caseReqSpacesBeforeUrl]
    split
    · exact hstay rfl
    · exact ⟨rfl, urlChar_takes ch⟩
  case reqSchema | reqSchemaSlash | reqSchemaSlashSlash | reqServerStart =>
    simp only [caseReqSchema]
    split
    · trivial
    · exact urlChar_takes ch
  case reqServer | reqServerWithAt | reqPath | reqQueryStringStart | reqQueryString
      | reqFragmentStart | reqFragment => exact caseReqUrl_takes ch
  case headerFieldStart => exact caseHeaderFieldStart_takes ch
  case headerField => exact caseHeaderField_takes ch hs
  case headerValueStart => exact caseHeaderValueStart_takes ch hs
  case headerValue => exact caseHeaderValue_takes ch hs
  case headerValueLws =>
    simp only [caseHeaderValueLws]
    split
    · exact takes_next ch rfl
    · exact caseHeaderFieldStart_takes ch
  case headerAlmostDone => exact caseHeaderAlmostDone_takes ch
  case headersAlmostDone => exact caseHeadersAlmostDone_takes ch
  case headersDone => exact caseHeadersDone_takes ch
  case bodyIdentity =>
    simp only [caseBodyIdentity, caseMessageDone]
    refine ⟨rfl, ?_⟩
    split
    · exact ⟨rfl, openMark_newMessage _⟩
    · show parser.state.openMark = none
      rw [hs]
      rfl
  case bodyIdentityEof => exact ⟨rfl, (hstay rfl).1⟩
  case chunkData =>
    simp only [caseChunkData]
    refine ⟨rfl, ?_⟩
    show State.openMark (Parser.state (if _ then _ else _)) = none
    split
    · rfl
    · rw [hs]
      rfl
  case messageDone => exact takes_next ch (openMark_newMessage _)
  -- a state without a string, where at most the state changes
  all_goals
    simp only [caseDead, caseStartRes, caseResOrRespH, caseLetter, caseResFirstHttpMajor, caseHttpMajor,
      caseFirstHttpMinor, caseResHttpMinor, moreHttpMinor, caseResFirstStatusCode, caseResStatusCode,
      caseResStatus, caseResLineAlmostDone, caseReqHttpStart, caseReqFirstHttpMajor, caseReqHttpMinor,
      caseReqLineAlmostDone, caseChunkSizeStart, caseChunkSize, caseChunkParameters,
      caseChunkSizeAlmostDone, caseChunkDataAlmostDone, caseChunkDataDone, strictCheck,
      Code.callbackData, Parser.pushDigit, Parser.beginMessage]
    repeat' split
    all_goals first
      | trivial
      | exact takes_next ch rfl
      | exact takes_next ch (by rw [hs]; rfl)

theorem turn_takes (parser : Parser) (ch : UInt8) (avail : ℕ) :
    (turn parser ch avail).Takes ch parser.state.openMark := by
  simp only [turn]
  split
  · split
    · trivial
    · exact switch_takes { parser with nread := parser.nread + 1 } ch avail
  · exact switch_takes parser ch avail

/-! ## Running the code -/

variable {α : Type} {S : Settings α} {P : α → Prop}

/-- `P` is kept by the callbacks, if the strings have only the bytes that they may have. -/
structure Settings.Accepts (S : Settings α) (P : α → Prop) : Prop where
  data : ∀ (m : Mark) (x : Bytes) {u : α}, P u → (∀ b ∈ x, m.Takes b) → P (S.data m x u).2
  notice : ∀ (n : Notice) {u : α}, P u → P (S.notice n u).2
  headersComplete : ∀ (parser : Parser) {u : α}, P u → P (S.onHeadersComplete parser u).2

/-- No string but the body is being read. -/
def Scan.Unmarked (s : Scan α) : Prop := ∀ m, m ≠ .body → s.marks m = none

/-- The strings being read, in front of the data `p`. -/
def Scan.Strings (s : Scan α) («open» : Option Mark) (p : Bytes) : Prop :=
  ∀ m start, m ≠ .body → s.marks m = some start →
    «open» = some m ∧ ∃ taken, start = taken ++ p ∧ ∀ b ∈ taken, m.Takes b

theorem Scan.Unmarked.strings {s : Scan α} (h : s.Unmarked) («open» : Option Mark) (p : Bytes) :
    s.Strings «open» p := by
  intro m start hm hstart
  exact absurd ((h m hm).symm.trans hstart) (by simp)

theorem Scan.Strings.unmarked {s : Scan α} {p : Bytes} (h : s.Strings none p) : s.Unmarked := by
  intro m hm
  cases hstart : s.marks m with
  | none => rfl
  | some start => exact absurd (h m start hm hstart).1 (by simp)

/-- Setting or clearing the mark of the body. -/
theorem Scan.Strings.update_body {s : Scan α} {«open» : Option Mark} {p : Bytes}
    (h : s.Strings «open» p) (v : Option Bytes) (u : α) :
    Scan.Strings ⟨s.parser, u, Function.update s.marks .body v⟩ «open» p := by
  intro m start hm hstart
  exact h m start hm ((Function.update_of_ne hm _ _).symm.trans hstart)

/-- A string begins. -/
theorem Scan.Strings.begin {s : Scan α} {m : Mark} {p : Bytes} (h : s.Strings none p) :
    Scan.Strings ⟨s.parser, s.user, Function.update s.marks m (some p)⟩ (some m) p := by
  intro m' start hm' hstart
  dsimp only at hstart
  by_cases heq : m' = m
  · subst heq
    rw [Function.update_self] at hstart
    exact ⟨rfl, [], (Option.some.inj hstart).symm, fun b hb => absurd hb List.not_mem_nil⟩
  · have hold : s.marks m' = some start := (Function.update_of_ne heq _ _).symm.trans hstart
    exact absurd (h m' start hm' hold).1 (by simp)

/-- A mark is cleared. -/
theorem Scan.Strings.clear {s : Scan α} {«open» : Option Mark} {p : Bytes} (h : s.Strings «open» p)
    (m : Mark) (u : α) :
    Scan.Strings ⟨s.parser, u, Function.update s.marks m none⟩ «open» p := by
  intro m' start hm' hstart
  dsimp only at hstart
  by_cases heq : m' = m
  · subst heq
    rw [Function.update_self] at hstart
    exact absurd hstart (by simp)
  · exact h m' start hm' ((Function.update_of_ne heq _ _).symm.trans hstart)

/-- A string ends. -/
theorem Scan.Strings.finish {s : Scan α} {m : Mark} {p : Bytes} (h : s.Strings (some m) p) (u : α) :
    Scan.Strings ⟨s.parser, u, Function.update s.marks m none⟩ none p := by
  intro m' start hm' hstart
  obtain ⟨heq, -⟩ := h.clear m u m' start hm' hstart
  obtain rfl := Option.some.inj heq
  dsimp only at hstart
  rw [Function.update_self] at hstart
  exact absurd hstart (by simp)

/-- How a turn ends in front of the data `p`. -/
def Step.Strings (P : α → Prop) (p : Bytes) : Step α → Prop
  | .next s moved => P s.user ∧ s.Strings s.parser.state.openMark p ∧ (moved ≠ 0 → s.Unmarked)
  | .done _ u _ => P u

theorem Scan.Unmarked.update_body {s : Scan α} (h : s.Unmarked) (v : Option Bytes) (u : α) :
    Scan.Unmarked ⟨s.parser, u, Function.update s.marks .body v⟩ := by
  intro m hm
  exact (Function.update_of_ne hm _ _).trans (h m hm)

theorem runCode_quiet (hS : S.Accepts P) (c : Code) (hc : c.Quiet) {s : Scan α} (hu : P s.user)
    (hm : s.Unmarked) (p q : Bytes) (moved : ℕ) : (runCode S c s p moved).Strings P q := by
  induction c generalizing s p moved with
  | next parser => exact ⟨hu, Scan.Unmarked.strings (by exact hm) _ _, fun _ => hm⟩
  | error parser errno => exact hu
  | leave parser => exact hu
  | mark m rest => exact hc.elim
  | advance n rest ih => exact ih hc hu hm (p.drop n) (moved + n)
  | data m parser extra consumed rest ih =>
      obtain ⟨rfl, hrest⟩ := hc
      rw [runCode]
      split
      · exact ih hrest hu hm p moved
      · have hu' : ∀ x, P (S.data .body x s.user).2 := fun x => hS.data .body x hu fun _ _ => trivial
        simp only
        split_ifs
        · exact hu' _
        · refine ih hrest ?_ (hm.update_body none _) p moved
          exact hu' _
  | notify n parser rest ih =>
      rw [runCode]
      split_ifs
      · exact hS.notice n hu
      · refine ih hc ?_ ?_ p moved
        · exact hS.notice n hu
        · exact hm
  | headersComplete parser rest skipBody ihrest ihskip =>
      have hu' := hS.headersComplete parser hu
      rw [runCode]
      split_ifs
      · refine ihrest hc.1 ?_ ?_ p moved
        · exact hu'
        · exact hm
      · refine ihskip hc.2 ?_ ?_ p moved
        · exact hu'
        · exact hm
      · exact hu'

theorem takes_mark {ch : UInt8} {m : Mark} {rest : Code} {«open» : Option Mark} (hm : m ≠ .body)
    (h : (Code.mark m rest).Takes ch «open») : «open» = none ∧ rest.Takes ch (some m) := by
  cases m with
  | body => exact absurd rfl hm
  | headerField | headerValue | url => exact h

theorem takes_data {ch : UInt8} {m : Mark} {parser : Parser} {extra consumed : ℕ} {rest : Code}
    {«open» : Option Mark} (hm : m ≠ .body)
    (h : (Code.data m parser extra consumed rest).Takes ch «open») :
    «open» = some m ∧ extra = 0 ∧ rest.Takes ch none := by
  cases m with
  | body => exact absurd rfl hm
  | headerField | headerValue | url => exact h

theorem runCode_strings (hS : S.Accepts P) (ch : UInt8) (p : Bytes) (c : Code) {«open» : Option Mark}
    (hc : c.Takes ch «open») {s : Scan α} (hu : P s.user) (hm : s.Strings «open» (ch :: p)) :
    (runCode S c s (ch :: p) 0).Strings P p := by
  induction c generalizing «open» s with
  | next parser =>
      obtain ⟨hopen, htakes⟩ := hc
      refine ⟨hu, fun m start hne hstart => ?_, fun h => absurd rfl h⟩
      obtain ⟨hm', taken, rfl, htaken⟩ := hm m start hne hstart
      refine ⟨hopen.trans hm', taken ++ [ch], by simp, fun b hb => ?_⟩
      -- the byte of this turn joins the string that stays open
      rcases List.mem_append.1 hb with hb | hb
      · exact htaken b hb
      · rw [List.mem_singleton.1 hb]
        exact htakes m hm'
  | error parser errno => exact hu
  | leave parser => exact hu
  | mark m rest ih =>
      rw [runCode]
      by_cases hbody : m = .body
      · subst hbody
        split
        · exact ih hc (by exact hu) (hm.update_body _ s.user)
        · exact ih hc hu hm
      · obtain ⟨rfl, hrest⟩ := takes_mark hbody hc
        rw [hm.unmarked m hbody]
        exact ih hrest (by exact hu) hm.begin
  | advance n rest ih =>
      -- only the states of a body move `p`, and behind that they mark nothing
      obtain ⟨rfl, hquiet⟩ := hc
      exact runCode_quiet hS rest hquiet hu hm.unmarked _ p _
  | data m parser extra consumed rest ih =>
      rw [runCode]
      by_cases hbody : m = .body
      · subst hbody
        have hu' : ∀ x, P (S.data .body x s.user).2 := fun x => hS.data .body x hu fun _ _ => trivial
        split
        · exact ih hc hu hm
        · simp only
          split_ifs
          · exact hu' _
          · refine ih hc ?_ (hm.update_body none _)
            exact hu' _
      · obtain ⟨rfl, rfl, hrest⟩ := takes_data hbody hc
        cases hstart : s.marks m with
        | none =>
            refine ih hrest hu fun m' start hm' hstart' => ?_
            obtain ⟨heq, -⟩ := hm m' start hm' hstart'
            rw [Option.some.inj heq, hstart'] at hstart
            exact absurd hstart (by simp)
        | some start =>
            obtain ⟨-, taken, rfl, htaken⟩ := hm m start hbody hstart
            -- the byte at `p` is not part of the string that ends here
            have hcut : (taken ++ ch :: p).take ((taken ++ ch :: p).length - (ch :: p).length + 0)
                = taken := by
              rw [List.length_append, Nat.add_sub_cancel, Nat.add_zero, List.take_left']
              rfl
            have hu' := hS.data m taken hu htaken
            simp only [hcut]
            split_ifs
            · exact hu'
            · exact ih hrest (by exact hu') (hm.finish _)
  | notify n parser rest ih =>
      rw [runCode]
      split_ifs
      · exact hS.notice n hu
      · refine ih hc ?_ ?_
        · exact hS.notice n hu
        · exact hm
  | headersComplete parser rest skipBody ihrest ihskip =>
      have hu' := hS.headersComplete parser hu
      rw [runCode]
      split_ifs
      · refine ihrest hc.1 ?_ ?_
        · exact hu'
        · exact hm
      · refine ihskip hc.2 ?_ ?_
        · exact hu'
        · exact hm
      · exact hu'

/-! ## Executing data -/

def Ending.Strings (P : α → Prop) : Ending α → Prop
  | .end s => P s.user ∧ s.Strings s.parser.state.openMark []
  | .return r => P r.user

theorem loop_strings (hS : S.Accepts P) (p : Bytes) {s : Scan α} (hu : P s.user) (skip pos : ℕ)
    (hm : s.Strings s.parser.state.openMark p) (hskip : skip ≠ 0 → s.Unmarked) :
    (loop S s skip p pos).Strings P := by
  refine loop_induction
    (I := fun s skip p => P s.user ∧ s.Strings s.parser.state.openMark p ∧ (skip ≠ 0 → s.Unmarked))
    (F := fun s => P s.user ∧ s.Strings s.parser.state.openMark []) (E := fun _ u => P u)
    (fun s _ h => ⟨h.1, h.2.1⟩) (fun s skip ch p h => ?_) (fun s ch p h => ?_) ⟨hu, hm, hskip⟩ pos
  · -- bytes are skipped in a body only, where no string is open
    have hnone := h.2.2 (Nat.succ_ne_zero skip)
    exact ⟨h.1, hnone.strings _ p, fun _ => hnone⟩
  · exact runCode_strings hS ch p _ (turn_takes s.parser ch (p.length + 1)) h.1 h.2.1

theorem flush_strings (hS : S.Accepts P) (len : ℕ) (ms : List Mark) {s : Scan α} (hu : P s.user)
    {«open» : Option Mark} (hm : s.Strings «open» []) : P (flush S len ms s).user := by
  induction ms generalizing s «open» with
  | nil => exact hu
  | cons m ms ih =>
      rw [flush]
      cases hstart : s.marks m with
      | none => exact ih hu hm
      | some start =>
          have htakes : ∀ b ∈ start, m.Takes b := by
            intro b hb
            by_cases hbody : m = .body
            · rw [hbody]
              trivial
            · obtain ⟨-, taken, rfl, htaken⟩ := hm m start hbody hstart
              exact htaken b (by simpa using hb)
          have hu' := hS.data m start hu htakes
          simp only
          split_ifs
          · exact hu'
          · refine ih ?_ (hm.clear m _)
            exact hu'

/-- **Executing data keeps what the callbacks keep**, whatever the data and the state before. -/
theorem execute_strings (hS : S.Accepts P) (parser : Parser) {u : α} (hu : P u) (data : Bytes) :
    P (execute S parser u data).user := by
  simp only [execute]
  split
  · exact hu
  · split
    · have hu' : P (S.onMessageComplete u).2 := hS.notice .messageComplete hu
      split
      · split_ifs
        · exact hu'
        · exact hu'
      all_goals exact hu
    · -- an open string goes on with the data, of which nothing has been taken
      have hmarks : Scan.Strings ⟨parser, u, marksAt parser.state data⟩ parser.state.openMark data := by
        intro m start _ hstart
        simp only [marksAt] at hstart
        split_ifs at hstart with hopen
        exact ⟨hopen, [], (Option.some.inj hstart).symm, fun b hb => absurd hb List.not_mem_nil⟩
      have hloop := loop_strings hS data (by exact hu) 0 0 hmarks fun h => absurd rfl h
      cases hend : loop S ⟨parser, u, marksAt parser.state data⟩ 0 data 0 with
      | «return» r =>
          rw [hend] at hloop
          exact hloop
      | «end» s =>
          rw [hend] at hloop
          exact flush_strings hS _ _ hloop.1 hloop.2

theorem executeAll_strings (hS : S.Accepts P) (parser : Parser) {u : α} (hu : P u)
    (reads : List Bytes) : P (executeAll S parser u reads).2 := by
  induction reads generalizing parser u with
  | nil => exact hu
  | cons data reads ih => exact ih (execute S parser u data).parser (execute_strings hS parser hu data)

/-- `S`, which also lists the strings that it is given. -/
def Settings.listed (S : Settings α) : Settings (List (Mark × Bytes) × α) where
  onMessageBegin u := let r := S.onMessageBegin u.2; (r.1, u.1, r.2)
  onUrl x u := let r := S.onUrl x u.2; (r.1, u.1 ++ [(.url, x)], r.2)
  onStatusComplete u := let r := S.onStatusComplete u.2; (r.1, u.1, r.2)
  onHeaderField x u := let r := S.onHeaderField x u.2; (r.1, u.1 ++ [(.headerField, x)], r.2)
  onHeaderValue x u := let r := S.onHeaderValue x u.2; (r.1, u.1 ++ [(.headerValue, x)], r.2)
  onHeadersComplete parser u := let r := S.onHeadersComplete parser u.2; (r.1, u.1, r.2)
  onBody x u := let r := S.onBody x u.2; (r.1, u.1 ++ [(.body, x)], r.2)
  onMessageComplete u := let r := S.onMessageComplete u.2; (r.1, u.1, r.2)

theorem accepts_listed (S : Settings α) :
    S.listed.Accepts fun u => ∀ e ∈ u.1, ∀ b ∈ e.2, e.1.Takes b where
  data m x u hu hx := by
    have hadd : ∀ e ∈ u.1 ++ [(m, x)], ∀ b ∈ e.2, e.1.Takes b := by
      intro e he
      rcases List.mem_append.1 he with he | he
      · exact hu e he
      · rw [List.mem_singleton.1 he]
        exact hx
    cases m <;> exact hadd
  notice n u hu := by cases n <;> exact hu
  headersComplete _ _ hu := hu

/-- **Every string that is delivered has only bytes that it may have**, whatever the data, the cuts, the
application and the parser at the start. -/
theorem strings_wellFormed (S : Settings α) (parser : Parser) (u : α) (reads : List Bytes) :
    ∀ e ∈ (executeAll S.listed parser ([], u) reads).2.1, ∀ b ∈ e.2, e.1.Takes b :=
  executeAll_strings (accepts_listed S) parser (by simp) reads

/-- A request that breaks off in the name of its second header. -/
def brokenReads : List Bytes :=
  [lit "GET /im", lit "age HTTP/1.1\x0d\nHost: a\x0d\nB", lit "(d: c\x0d\n"]

theorem strings_wellFormed_broken :
    (Mark.url, lit "/im") ∈ (executeAll ignoring.listed (Parser.init .request) ([], ()) brokenReads).2.1 ∧
      Mark.url.Takes (asc 'm') :=
  have hmem : (Mark.url, lit "/im") ∈
      (executeAll ignoring.listed (Parser.init .request) ([], ()) brokenReads).2.1 := by
    decide +kernel
  ⟨hmem, strings_wellFormed ignoring (Parser.init .request) () brokenReads _ hmem (asc 'm')
    (by decide)⟩

end ImageProxy.Http
