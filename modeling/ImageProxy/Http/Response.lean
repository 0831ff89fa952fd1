import ImageProxy.Http.HttpParse

set_option autoImplicit false

/-! # Responses in reads

What the proxy waits for is a response with status 200 that the parser reports complete. When it does
is decided at the line feed that ends the head, where the parser knows how the body is framed. A
response that asks for an upgrade has no body for it: it is complete at once, and the parser leaves
the data. A response without a length and not in chunks lasts as long as its connection, and no byte
completes it. -/

namespace ImageProxy.Http

/-- `parser->flags & F_UPGRADE || parser->method == HTTP_CONNECT`. -/
def Parser.wantsUpgrade (parser : Parser) : Bool :=
  parser.flags.upgrade || parser.method = .connect

/-- The parser of a message whose wish for an upgrade is overlooked. -/
def Parser.withoutUpgrade (parser : Parser) : Parser :=
  { parser with
    flags := { parser.flags with upgrade := false }
    method := if parser.method = .connect then .get else parser.method }

/-- The parser expects the line feed that ends a head. -/
structure Parser.AtHeadEnd (parser : Parser) : Prop where
  going : parser.Going
  state : parser.state = .headersAlmostDone
  notTrailing : parser.flags.trailing = false

theorem caseHeadersDone_needsEof {parser : Parser} (hupgrade : parser.upgrade = false)
    (heof : parser.messageNeedsEof = true) :
    caseHeadersDone parser LF = .next { parser with nread := 0, state := .bodyIdentityEof } := by
  obtain ⟨hrequest, hskip, hchunked, hlength⟩ : parser.type ≠ .request ∧
      parser.flags.skipbody = false ∧ parser.flags.chunked = false ∧
      parser.contentLength = ullongMax := by
    simp only [Parser.messageNeedsEof] at heof
    split_ifs at heof with hrequest hnone hframed
    rw [not_or, not_not] at hframed
    simp only [not_or] at hnone
    exact ⟨hrequest, by simpa using hnone.2.2.2, by simpa using hframed.1, hframed.2⟩
  have hne : parser.contentLength ≠ 0 := by rw [hlength]; decide
  have heof' : Parser.messageNeedsEof { parser with nread := 0 } = true := heof
  simp only [caseHeadersDone, strictCheck]
  rw [if_neg (by decide), if_neg (by simp [hupgrade]), if_neg (by simp [hskip]),
    if_neg (by simp [hchunked]), if_neg hne, if_neg (not_not.2 hlength),
    if_neg (not_or.2 ⟨hrequest, by simp [heof']⟩)]

/-- At the end of a head the message may be over. -/
theorem caseHeadersDone_cases (parser : Parser) :
    ∃ q : Parser, (caseHeadersDone parser LF = .notify .messageComplete q (.leave q) ∨
      caseHeadersDone parser LF = .notify .messageComplete q (.next q) ∨
      caseHeadersDone parser LF = .next q) ∧ q.method = parser.method := by
  simp only [caseHeadersDone, strictCheck]
  rw [if_neg (by decide)]
  split_ifs
  · exact ⟨_, Or.inl rfl, rfl⟩
  · exact ⟨_, Or.inr (Or.inl rfl), rfl⟩
  · exact ⟨_, Or.inr (Or.inr rfl), rfl⟩
  · exact ⟨_, Or.inr (Or.inl rfl), rfl⟩
  · exact ⟨_, Or.inr (Or.inr rfl), rfl⟩
  · exact ⟨_, Or.inr (Or.inl rfl), rfl⟩
  · exact ⟨_, Or.inr (Or.inr rfl), rfl⟩

namespace Parser.AtHeadEnd

variable {parser : Parser}

theorem nread_lt (h : parser.AtHeadEnd) {l : Log} {d : Bytes} {r : Parser × Log}
    (hr : run Log.recorder parser l (LF :: d) = some r) : parser.nread < maxHeaderSize := by
  by_contra hfull
  have hturn : turn parser LF (d.length + 1)
      = .error { parser with nread := parser.nread + 1 } .headerOverflow := by
    simp only [turn, h.state, State.parsingHeader, if_true]
    rw [if_pos (by omega)]
  rw [run_of_unmarked h.going (by rw [h.state]; rfl), runFrom, hturn] at hr
  simp [runCode] at hr

theorem turn_eq (h : parser.AtHeadEnd) (hnread : parser.nread < maxHeaderSize) (avail : ℕ) :
    turn parser LF avail =
      let done : Parser := { parser with
        nread := parser.nread + 1, state := .headersDone, upgrade := parser.wantsUpgrade }
      .headersComplete done (caseHeadersDone done LF)
        (caseHeadersDone { done with flags := { done.flags with skipbody := true } } LF) := by
  simp only [turn, h.state, State.parsingHeader, if_true]
  rw [if_neg (by omega)]
  simp only [switch, caseHeadersAlmostDone, strictCheck, h.notTrailing, Parser.wantsUpgrade]
  rfl

/-- The message that asks for an upgrade is over with its head. -/
theorem run_upgrade (h : parser.AtHeadEnd) (hnread : parser.nread < maxHeaderSize)
    (hupgrade : parser.wantsUpgrade = true) (l : Log) :
    ∃ q : Parser, ¬q.Going ∧ run Log.recorder parser l [LF]
      = some (q, { l.complete parser with messageComplete := true }) := by
  rw [run_of_unmarked h.going (by rw [h.state]; rfl), runFrom, h.turn_eq hnread]
  simp only [runCode, Log.recorder, caseHeadersDone, strictCheck, hupgrade]
  refine ⟨_, ?_, rfl⟩
  simp [Parser.Going]

/-- The response that lasts as long as its connection has its head complete, and nothing else. -/
theorem run_needsEof (h : parser.AtHeadEnd) (hnread : parser.nread < maxHeaderSize)
    (hupgrade : parser.wantsUpgrade = false) (heof : parser.messageNeedsEof = true) (l : Log) :
    ∃ q : Parser, q.Going ∧ q.state = .bodyIdentityEof ∧
      run Log.recorder parser l [LF] = some (q, l.complete parser) := by
  rw [run_of_unmarked h.going (by rw [h.state]; rfl), runFrom, h.turn_eq hnread]
  simp only [hupgrade]
  rw [caseHeadersDone_needsEof (by rfl) (by exact heof)]
  simp only [runCode, Log.recorder, if_true]
  refine ⟨_, ?_, ?_, rfl⟩
  · exact ⟨h.going.1, rfl⟩
  · rfl

/-- The line feed that ends a head. -/
theorem run_lf (h : parser.AtHeadEnd)
    (hnread : parser.nread < maxHeaderSize) (l : Log) :
    ∃ q b, q.method = parser.method ∧ run Log.recorder parser l [LF]
      = some (q, { l.complete parser with messageComplete := l.messageComplete || b }) := by
  rw [run_of_unmarked h.going (by rw [h.state]; rfl), runFrom, h.turn_eq hnread]
  simp only [runCode]
  rw [if_pos (by rfl)]
  obtain ⟨q, hcode, hmethod⟩ := caseHeadersDone_cases { parser with
    nread := parser.nread + 1, state := .headersDone, upgrade := parser.wantsUpgrade }
  have hcomplete : (Log.recorder.onHeadersComplete { parser with
      nread := parser.nread + 1, state := .headersDone, upgrade := parser.wantsUpgrade } l).2
    = l.complete parser := rfl
  rcases hcode with hcode | hcode | hcode
  · refine ⟨q, true, hmethod, ?_⟩
    rw [hcode, hcomplete, Bool.or_true]
    rfl
  · refine ⟨q, true, hmethod, ?_⟩
    rw [hcode, hcomplete, Bool.or_true]
    rfl
  · refine ⟨q, false, hmethod, ?_⟩
    rw [hcode, hcomplete, Bool.or_false]
    rfl

/-- With the head the headers are complete. -/
theorem headersComplete_of_run (h : parser.AtHeadEnd) {l : Log}
    {d : Bytes} {r : Parser × Log} (hr : run Log.recorder parser l (LF :: d) = some r) :
    r.2.headersComplete = true := by
  obtain ⟨q, b, -, hq⟩ := h.run_lf (h.nread_lt hr) l
  rw [← List.singleton_append, run_append Log.lawful_recorder, hq] at hr
  exact Log.run_headersComplete hr rfl

end Parser.AtHeadEnd

/-! ## The file in reads -/

/-- The response has no head yet, or it is the file and not complete. -/
def Log.Waiting (l : Log) : Prop :=
  l.headersComplete = true → l.statusCode = 200 ∧ l.messageComplete = false

/-- The response is the file, and complete. -/
def Log.Arrived (l : Log) : Prop :=
  l.headersComplete = true ∧ l.statusCode = 200 ∧ l.messageComplete = true

instance (l : Log) : Decidable l.Waiting := inferInstanceAs (Decidable (_ → _))

instance (l : Log) : Decidable l.Arrived := inferInstanceAs (Decidable (_ ∧ _))

theorem Log.Arrived.not_waiting {l : Log} (h : l.Arrived) : ¬l.Waiting :=
  fun hw => absurd (hw h.1).2 (by simp [h.2.2])

theorem Log.waiting_empty : Log.empty.Waiting := fun h => absurd h (by simp [Log.empty])

/-- The body that the file has when `SendPage` is called; `none` if it is not. The last read comes
with the end of the connection. -/
def deliver (p : Parser) (l : Log) : (reads : List Bytes) → Option Bytes
  | [] => none
  | read :: reads =>
      match run Log.recorder p l read with
      | none => none
      | some r =>
          if r.2.Waiting then deliver r.1 r.2 reads
          else if r.2.Arrived then some r.2.body
          else none

/-- All that may follow leaves the response waiting. -/
def StaysOpen (p : Parser) (l : Log) (data : Bytes) : Prop :=
  ∀ x y, data = x ++ y → y ≠ [] → ∃ r, run Log.recorder p l x = some r ∧ r.2.Waiting

theorem StaysOpen.drop {p : Parser} {l : Log} {x y : Bytes} (h : StaysOpen p l (x ++ y))
    {r : Parser × Log} (hr : run Log.recorder p l x = some r) : StaysOpen r.1 r.2 y := by
  intro u v hy hv
  have hopen := h (x ++ u) v (by rw [hy, List.append_assoc]) hv
  rwa [run_append Log.lawful_recorder, hr] at hopen

/-- The parser is not stopped while the response is waited for and more of it comes. -/
def Steady (p : Parser) (l : Log) (data : Bytes) : Prop :=
  ∀ x y, data = x ++ y → y ≠ [] → ∀ r, run Log.recorder p l x = some r → r.2.Waiting → r.1.Going

theorem Steady.drop {p : Parser} {l : Log} {x y : Bytes} (h : Steady p l (x ++ y)) {r : Parser × Log}
    (hr : run Log.recorder p l x = some r) : Steady r.1 r.2 y := by
  intro u v hy hv t ht
  refine h (x ++ u) v (by rw [hy, List.append_assoc]) hv t ?_
  rw [run_append Log.lawful_recorder, hr]
  exact ht

/-- Reads up to the completion of the file. -/
theorem deliver_of_arrived {p : Parser} {l : Log} (reads : List Bytes) (k : ℕ)
    {r : Parser × Log} (hr : run Log.recorder p l (reads.take k).flatten = some r)
    (harrived : r.2.Arrived) (hopen : StaysOpen p l (reads.take k).flatten) (hl : l.Waiting) :
    deliver p l reads = some r.2.body := by
  induction reads generalizing p l k with
  | nil =>
      simp only [List.take_nil, List.flatten_nil, run_nil, Option.some.injEq] at hr
      exact absurd hl (by rw [← hr] at harrived; exact harrived.not_waiting)
  | cons read reads ih =>
      cases k with
      | zero =>
          simp only [List.take_zero, List.flatten_nil, run_nil, Option.some.injEq] at hr
          exact absurd hl (by rw [← hr] at harrived; exact harrived.not_waiting)
      | succ k =>
          simp only [List.take_succ_cons, List.flatten_cons] at hr hopen
          rw [run_append Log.lawful_recorder] at hr
          cases hread : run Log.recorder p l read with
          | none => simp [hread] at hr
          | some t =>
              rw [hread] at hr
              simp only [deliver, hread]
              by_cases hrest : (reads.take k).flatten = []
              · rw [hrest] at hr
                simp only [Option.bind_some, run_nil, Option.some.injEq] at hr
                subst hr
                rw [if_neg harrived.not_waiting, if_pos harrived]
              · obtain ⟨t', ht', hwaiting⟩ := hopen read _ rfl hrest
                rw [hread, Option.some.injEq] at ht'
                subst ht'
                rw [if_pos hwaiting]
                exact ih k hr (hopen.drop hread) hwaiting

/-- Reads that never complete the file. -/
theorem deliver_of_open {p : Parser} {l : Log} (reads : List Bytes)
    (hopen : StaysOpen p l reads.flatten)
    (hlast : ∀ r, run Log.recorder p l reads.flatten = some r → r.2.Waiting) :
    deliver p l reads = none := by
  induction reads generalizing p l with
  | nil => rfl
  | cons read reads ih =>
      rw [List.flatten_cons] at hopen hlast
      simp only [deliver]
      cases hread : run Log.recorder p l read with
      | none => rfl
      | some t =>
          have hwaiting : t.2.Waiting := by
            by_cases hrest : reads.flatten = []
            · exact hlast t (by rw [hrest, List.append_nil, hread])
            · obtain ⟨t', ht', hwaiting⟩ := hopen read _ rfl hrest
              rw [hread, Option.some.injEq] at ht'
              exact ht' ▸ hwaiting
          simp only [if_pos hwaiting]
          refine ih (hopen.drop hread) fun r hr => hlast r ?_
          rw [run_append Log.lawful_recorder, hread]
          exact hr

/-! ## Complete responses -/

/-- No head has ended yet. -/
structure Log.InHead (l : Log) : Prop where
  headersComplete : l.headersComplete = false
  messageComplete : l.messageComplete = false
  body : l.body = []

/-- `H`, a line feed and `D` are a complete response with status 200. `p` and `l₀` are what the parser
makes of `H`, `l` what it makes of the whole, without leaving for an upgrade; `l.body` is the body. It
ends with the connection, or with its last byte and no earlier. -/
structure Complete200 (H D : Bytes) (p : Parser) (l₀ l : Log) : Prop where
  head : run Log.recorder (Parser.init .response) Log.empty H = some (p, l₀)
  headEnd : p.AtHeadEnd
  inHead : l₀.InHead
  status : p.statusCode = 200
  body : ∃ q, run Log.recorder p.withoutUpgrade l₀ (LF :: D) = some (q, l)
  ends : p.messageNeedsEof = true ∨
    (l.Arrived ∧ ∀ x y, D = x ++ y → y ≠ [] →
      ∀ r, run Log.recorder p.withoutUpgrade l₀ (LF :: x) = some r → r.2.Waiting)

/-- One of the reads ends where the head does. -/
def CutAtHeadEnd (H : Bytes) (reads : List Bytes) : Prop :=
  ∃ k, (reads.take k).flatten = H ++ [LF]

namespace Complete200

variable {H D : Bytes} {p : Parser} {l₀ l : Log}

theorem withoutUpgrade_eq (hupgrade : p.wantsUpgrade = false) : p.withoutUpgrade = p := by
  simp only [Parser.wantsUpgrade, Bool.or_eq_false_iff, decide_eq_false_iff_not] at hupgrade
  obtain ⟨hflag, hmethod⟩ := hupgrade
  simp only [Parser.withoutUpgrade, if_neg hmethod, ← hflag]

theorem headEnd_withoutUpgrade (h : p.AtHeadEnd) : p.withoutUpgrade.AtHeadEnd :=
  ⟨h.going, h.state, h.notTrailing⟩

theorem nread_lt (h : Complete200 H D p l₀ l) : p.nread < maxHeaderSize := by
  obtain ⟨q, hq⟩ := h.body
  exact (headEnd_withoutUpgrade h.headEnd).nread_lt hq

/-- Before the end of the head there is nothing to wait for. -/
theorem open_head (h : Complete200 H D p l₀ l) {x y : Bytes} (hx : H = x ++ y) :
    ∃ r, run Log.recorder (Parser.init .response) Log.empty x = some r ∧ r.2.Waiting := by
  have hhead := h.head
  rw [hx, run_append Log.lawful_recorder] at hhead
  cases hr : run Log.recorder (Parser.init .response) Log.empty x with
  | none => simp [hr] at hhead
  | some r =>
      rw [hr] at hhead
      refine ⟨r, rfl, fun hcomplete => ?_⟩
      have hlater := Log.run_headersComplete hhead hcomplete
      exact absurd hlater (by simp [h.inHead.headersComplete])

/-- A prefix of the response is one of the head, or the head and a prefix of the rest. -/
theorem append_eq_cases {x y : Bytes} (h : H ++ LF :: D = x ++ y) :
    (∃ z, H = x ++ z) ∨ ∃ z, x = H ++ LF :: z ∧ D = z ++ y := by
  rcases List.append_eq_append_iff.1 h with ⟨z, rfl, hz⟩ | ⟨z, rfl, hz⟩
  · cases z with
    | nil => exact Or.inl ⟨[], by simp⟩
    | cons c z =>
        rw [List.cons_append, List.cons.injEq] at hz
        obtain ⟨rfl, hz⟩ := hz
        exact Or.inr ⟨z, rfl, hz⟩
  · exact Or.inl ⟨z, rfl⟩

/-- Without an upgrade the parser reads all of it. -/
theorem run_whole (h : Complete200 H D p l₀ l) (hupgrade : p.wantsUpgrade = false) :
    ∃ q, run Log.recorder (Parser.init .response) Log.empty (H ++ LF :: D) = some (q, l) := by
  obtain ⟨q, hq⟩ := h.body
  rw [withoutUpgrade_eq hupgrade] at hq
  exact ⟨q, by rw [run_append Log.lawful_recorder, h.head]; exact hq⟩

/-- The body that ends with the connection keeps it waiting. -/
theorem waiting_of_needsEof (h : Complete200 H D p l₀ l) (hupgrade : p.wantsUpgrade = false)
    (heof : p.messageNeedsEof = true) (x : Bytes) :
    ∃ r, run Log.recorder (Parser.init .response) Log.empty (H ++ LF :: x) = some r ∧
      r.2.Waiting := by
  obtain ⟨q, hgoing, hstate, hq⟩ := h.headEnd.run_needsEof h.nread_lt hupgrade heof l₀
  have hsplit : H ++ LF :: x = H ++ [LF] ++ x := by simp
  rw [hsplit, run_append Log.lawful_recorder, run_append Log.lawful_recorder, h.head]
  simp only [Option.bind_some, hq]
  have hwaiting : (l₀.complete p).Waiting :=
    fun _ => ⟨by simp [Log.complete, h.status], h.inHead.messageComplete⟩
  cases x with
  | nil => exact ⟨_, rfl, hwaiting⟩
  | cons b x =>
      rw [run_bodyIdentityEof Log.lawful_recorder hgoing hstate]
      exact ⟨_, rfl, hwaiting⟩

theorem staysOpen (h : Complete200 H D p l₀ l) (hupgrade : p.wantsUpgrade = false) :
    StaysOpen (Parser.init .response) Log.empty (H ++ LF :: D) := by
  intro x y hxy hy
  rcases append_eq_cases hxy with ⟨z, hz⟩ | ⟨z, rfl, hz⟩
  · exact h.open_head hz
  · rcases h.ends with heof | ⟨-, hopen⟩
    · exact h.waiting_of_needsEof hupgrade heof z
    · obtain ⟨q, hq⟩ := h.run_whole hupgrade
      rw [hxy, run_append Log.lawful_recorder] at hq
      cases hr : run Log.recorder (Parser.init .response) Log.empty (H ++ LF :: z) with
      | none => simp [hr] at hq
      | some r =>
          refine ⟨r, rfl, hopen z y hz hy r ?_⟩
          rw [withoutUpgrade_eq hupgrade]
          rwa [run_append Log.lawful_recorder, h.head] at hr

/-- What is delivered of the response if the parser does not leave. -/
theorem deliver_framed (h : Complete200 H D p l₀ l) (hupgrade : p.wantsUpgrade = false)
    {reads : List Bytes} (hreads : reads.flatten = H ++ LF :: D) :
    deliver (Parser.init .response) Log.empty reads
      = if p.messageNeedsEof then none else some l.body := by
  have hopen := h.staysOpen hupgrade
  obtain ⟨q, hq⟩ := h.run_whole hupgrade
  rw [← hreads] at hopen hq
  cases heof : p.messageNeedsEof with
  | true =>
      rw [if_pos rfl]
      refine deliver_of_open reads hopen ?_
      intro r hr
      obtain ⟨r', hr', hwaiting⟩ := h.waiting_of_needsEof hupgrade heof D
      rw [← hreads, hr, Option.some.injEq] at hr'
      exact hr' ▸ hwaiting
  | false =>
      have harrived : l.Arrived := (h.ends.resolve_left (by simp [heof])).1
      rw [if_neg (by simp)]
      refine deliver_of_arrived reads reads.length (r := (q, l)) ?_ harrived ?_ Log.waiting_empty
      · rwa [List.take_length]
      · rwa [List.take_length]

/-- A parser that has left at the end of a head fails on what else the read has. -/
theorem deliver_of_not_cut {p' : Parser} {l' : Log} (reads : List Bytes) {r : Parser × Log}
    (hr : run Log.recorder p' l' (H ++ [LF]) = some r)
    (hopen : ∀ x y, H = x ++ y → ∃ t, run Log.recorder p' l' x = some t ∧ t.2.Waiting)
    (hstopped : ¬r.1.Going) (hreads : reads.flatten = H ++ LF :: D)
    (hcut : ¬CutAtHeadEnd H reads) : deliver p' l' reads = none := by
  induction reads generalizing p' l' H with
  | nil => exact absurd hreads (by simp)
  | cons read reads ih =>
      simp only [deliver]
      rw [List.flatten_cons] at hreads
      rcases append_eq_cases hreads.symm with ⟨z, rfl⟩ | ⟨z, rfl, hz⟩
      · -- the read is inside the head
        obtain ⟨t, ht, hwaiting⟩ := hopen read z rfl
        rw [ht]
        simp only [if_pos hwaiting]
        rw [List.append_assoc, run_append Log.lawful_recorder, ht] at hr
        refine ih hr (fun x y hxy => ?_) (List.append_cancel_left (hreads.trans (List.append_assoc ..))) ?_
        · have hx := hopen (read ++ x) y (by rw [hxy, List.append_assoc])
          rwa [run_append Log.lawful_recorder, ht] at hx
        · rintro ⟨k, hk⟩
          exact hcut ⟨k + 1, by rw [List.take_succ_cons, List.flatten_cons, hk, List.append_assoc]⟩
      · -- the read goes on after the head
        have hne : z ≠ [] := fun hnil => hcut ⟨1, by simp [hnil]⟩
        have hsplit : H ++ LF :: z = H ++ [LF] ++ z := by simp
        rw [hsplit, run_append Log.lawful_recorder, hr, Option.bind_some, run_of_stopped hstopped _ hne]

/-- The parser that leaves at the end of the head. -/
theorem run_head_upgrade (h : Complete200 H D p l₀ l) (hupgrade : p.wantsUpgrade = true) :
    ∃ q : Parser, ¬q.Going ∧ run Log.recorder (Parser.init .response) Log.empty (H ++ [LF])
      = some (q, { l₀.complete p with messageComplete := true }) := by
  obtain ⟨q, hstopped, hq⟩ := h.headEnd.run_upgrade h.nread_lt hupgrade l₀
  exact ⟨q, hstopped, by rw [run_append Log.lawful_recorder, h.head]; exact hq⟩

/-- If the parser leaves, nothing is delivered unless a read ends there. -/
theorem deliver_upgrade (h : Complete200 H D p l₀ l) (hupgrade : p.wantsUpgrade = true)
    {reads : List Bytes} (hreads : reads.flatten = H ++ LF :: D) :
    (CutAtHeadEnd H reads → deliver (Parser.init .response) Log.empty reads = some []) ∧
      (¬CutAtHeadEnd H reads → deliver (Parser.init .response) Log.empty reads = none) := by
  obtain ⟨q, hstopped, hhead⟩ := h.run_head_upgrade hupgrade
  constructor
  · rintro ⟨k, hk⟩
    have hbody : ({ l₀.complete p with messageComplete := true } : Log).body = [] := h.inHead.body
    rw [← hbody]
    refine deliver_of_arrived reads k (r := (q, _)) (by rw [hk, hhead])
      ⟨rfl, by simp [Log.complete, h.status], rfl⟩ ?_ Log.waiting_empty
    intro x y hxy hy
    rw [hk] at hxy
    rcases append_eq_cases hxy with ⟨z, hz⟩ | ⟨z, -, hz⟩
    · exact h.open_head hz
    · exact absurd (List.append_eq_nil_iff.1 hz.symm).2 hy
  · exact fun hcut => deliver_of_not_cut reads hhead (fun x y hxy => h.open_head hxy) hstopped hreads hcut

/-- The parser is only stopped at the end. -/
theorem steady (h : Complete200 H D p l₀ l) :
    Steady (Parser.init .response) Log.empty (H ++ LF :: D) := by
  intro x y hxy hy r hr hwaiting
  by_contra hstopped
  have hnone : ∀ z, z ≠ [] → run Log.recorder (Parser.init .response) Log.empty (x ++ z) = none := by
    intro z hz
    rw [run_append Log.lawful_recorder, hr, Option.bind_some, run_of_stopped hstopped _ hz]
  cases hupgrade : p.wantsUpgrade with
  | false =>
      obtain ⟨q, hq⟩ := h.run_whole hupgrade
      rw [hxy, hnone y hy] at hq
      exact absurd hq (by simp)
  | true =>
      obtain ⟨q, hq, hhead⟩ := h.run_head_upgrade hupgrade
      rcases append_eq_cases hxy with ⟨z, rfl⟩ | ⟨z, rfl, hz⟩
      · rw [List.append_assoc, hnone _ (by simp)] at hhead
        exact absurd hhead (by simp)
      · have hsplit : H ++ LF :: z = H ++ [LF] ++ z := by simp
        rw [hsplit, run_append Log.lawful_recorder, hhead, Option.bind_some] at hr
        by_cases hz : z = []
        · rw [hz, run_nil, Option.some.injEq] at hr
          rw [← hr] at hwaiting
          exact absurd (hwaiting rfl).2 (by simp)
        · rw [run_of_stopped hq _ hz] at hr
          exact absurd hr (by simp)

end Complete200

end ImageProxy.Http
