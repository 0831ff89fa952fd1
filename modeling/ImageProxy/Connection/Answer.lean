import ImageProxy.Http.Message
import ImageProxy.Connection.BuildRequest
import ImageProxy.Connection.ChunkedResponse

set_option autoImplicit false

/-! # Answers without an image

A status, or the description of a page: `BuildResponse` writes the whole answer at once. A client with
the same `http_parser` reads from it what was meant (`clientReads_answer`). -/

namespace ImageProxy

open Ascii Cpcl Http ChunkedCoding

/-! ## Numbers -/

theorem isNum_digit {d : ℕ} (h : d < 10) : isNum (digit d) = true := by
  revert d
  decide

theorem digitValue_digit {d : ℕ} (h : d < 10) : digitValue (digit d) = d := by
  revert d
  decide

theorem decimalFrom_append (n : ℕ) (cs ds : Bytes) :
    decimalFrom n (cs ++ ds) = decimalFrom (decimalFrom n cs) ds :=
  List.foldl_append

/-- A numeral is read as its number. -/
theorem decimalValue_numeral (n : ℕ) :
    decimalValue (numeral 10 n) = n ∧ ∀ c ∈ numeral 10 n, isNum c = true := by
  refine numeral_induction (by decide)
    (P := fun n cs => decimalValue cs = n ∧ ∀ c ∈ cs, isNum c = true) ?_ ?_ n
  · intro n hn
    refine ⟨?_, fun c hc => ?_⟩
    · rw [decimalValue_cons, digitValue_digit hn]
      rfl
    · rw [List.mem_singleton.1 hc, isNum_digit hn]
  · intro n _ ih
    have hdigit : n % 10 < 10 := Nat.mod_lt _ (by decide)
    refine ⟨?_, fun c hc => ?_⟩
    · have happend := decimalFrom_append 0 (numeral 10 (n / 10)) [digit (n % 10)]
      have hvalue : decimalFrom 0 (numeral 10 (n / 10)) = n / 10 := ih.1
      rw [hvalue] at happend
      refine happend.trans ?_
      show 10 * (n / 10) + digitValue (digit (n % 10)) = n
      rw [digitValue_digit hdigit, Nat.div_add_mod]
    · rcases List.mem_append.1 hc with hc | hc
      · exact ih.2 c hc
      · rw [List.mem_singleton.1 hc, isNum_digit hdigit]

theorem isNumber_numeral {n : ℕ} (h : n ≤ 999) : IsNumber (numeral 10 n) where
  ne_nil := by
    rw [numeral, ne_eq, List.map_eq_nil_iff]
    exact Nat.toDigits_ne_nil
  digits := (decimalValue_numeral n).2
  small := by rw [(decimalValue_numeral n).1]; exact h

/-! ## The heads -/

/-- The status line that `BuildResponse` writes. -/
def statusLine (code : ℕ) : StatusLine :=
  ⟨lit "1", lit "1", numeral 10 code, lit " " ++ statusMessage code⟩

/-- The head of a status. -/
def statusHead (code : ℕ) : ResponseHead := ⟨statusLine code, []⟩

/-- The head of a document of `len` bytes. -/
def jsonHead (len : ℕ) : ResponseHead :=
  ⟨statusLine 200, [⟨⟨lit "Connection", lit "close"⟩, lit " "⟩,
    ⟨⟨lit "Content-Type", lit "application/json"⟩, lit " "⟩,
    ⟨⟨lit "Content-Length", numeral 10 len⟩, lit " "⟩]⟩

/-- The messages of the table, and the one for what is not in it. -/
def messages : List Bytes := lit "Not Implemented" :: responses.map Prod.snd

theorem statusMessage_mem (code : ℤ) : statusMessage code ∈ messages := by
  rw [statusMessage]
  split
  · next r hr =>
      split_ifs
      · exact List.mem_cons_of_mem _ (List.mem_map_of_mem (List.mem_of_find?_eq_some hr))
      · exact List.mem_cons_self
  · exact List.mem_cons_self

theorem statusMessage_check (code : ℤ) : (statusMessage code).all (fun c => c != CR && c != LF) = true ∧
    (statusMessage code).length ≤ 15 := by
  have hall : messages.all (fun m => m.all (fun c => c != CR && c != LF) && decide (m.length ≤ 15))
      = true := by decide +kernel
  have hmem := List.all_eq_true.1 hall _ (statusMessage_mem code)
  rwa [Bool.and_eq_true, decide_eq_true_eq] at hmem

theorem valid_statusLine {code : ℕ} (hcode : code ≤ 999) : (statusLine code).Valid where
  major := isNumber_of_check (show isNumberCheck (lit "1") = true by decide)
  minor := isNumber_of_check (show isNumberCheck (lit "1") = true by decide)
  code := isNumber_numeral hcode
  reason c hc := by
    rcases List.mem_append.1 hc with hc | hc
    · rw [List.mem_singleton.1 hc]
      decide
    · have hmessage := List.all_eq_true.1 (statusMessage_check code).1 c hc
      simpa using hmessage
  space c hc := (Option.some.inj hc).symm

theorem length_statusLine_lt {code : ℕ} (hcode : code ≤ 999) : (statusLine code).text.length < 50 := by
  have hdigits : (numeral 10 code).length ≤ 3 :=
    (length_numeral_le_iff (by decide) (by decide)).2 (by omega)
  have hmessage := (statusMessage_check code).2
  simp only [StatusLine.text, statusLine, List.length_append, crlf, List.length_cons,
    List.length_nil]
  have hlit : (lit "HTTP/").length + (lit "1").length + (lit "1").length + (lit " ").length = 8 := by
    decide
  omega

theorem valid_statusHead {code : ℕ} (hcode : code ≤ 999) : (statusHead code).Valid where
  status := valid_statusLine hcode
  lines l hl := absurd hl List.not_mem_nil
  length := by
    have hlen := length_statusLine_lt hcode
    simp only [ResponseHead.text, statusHead, List.map_nil, List.flatten_nil, List.append_nil,
      List.length_append, List.length_singleton, maxHeaderSize]
    omega

theorem length_jsonHead_lt {len : ℕ} (hlen : len < 0x100) : (jsonHead len).text.length < 0x200 := by
  have hstatus := length_statusLine_lt (show 200 ≤ 999 by decide)
  have hdigits : (numeral 10 len).length ≤ 3 :=
    (length_numeral_le_iff (by decide) (by decide)).2 (by omega)
  have hlits : (lit "Connection").length = 10 ∧ (lit "close").length = 5 ∧
      (lit "Content-Type").length = 12 ∧ (lit "application/json").length = 16 ∧
      (lit "Content-Length").length = 14 ∧ (lit " ").length = 1 := by decide
  obtain ⟨h1, h2, h3, h4, h5, h6⟩ := hlits
  simp only [ResponseHead.text, jsonHead, HeaderLine.text, List.map_cons, List.map_nil,
    List.flatten_cons, List.flatten_nil, List.length_append, List.length_cons, List.length_nil, crlf]
  omega

theorem valid_jsonHead {len : ℕ} (hlen : len < 0x100) : (jsonHead len).Valid where
  status := valid_statusLine (by decide)
  lines l hl := by
    simp only [jsonHead, List.mem_cons, List.not_mem_nil, or_false] at hl
    rcases hl with rfl | rfl | rfl
    · exact HeaderLine.valid_of_check (by decide +kernel)
    · exact HeaderLine.valid_of_check (by decide +kernel)
    · obtain ⟨hvalue, hdigits⟩ := decimalValue_numeral len
      refine ⟨⟨show lit "Content-Length" ≠ [] by decide, ?_, ?_, ?_, fun _ => hdigits, fun _ => ?_⟩,
        fun c hc => Or.inl (List.mem_singleton.1 hc)⟩
      · intro c hc
        have htokens : (lit "Content-Length").all (fun c => token c != 0) = true := by decide +kernel
        simpa using List.all_eq_true.1 htokens c hc
      · intro c hc
        exact ⟨isNum_ne (hdigits c hc) (by decide), isNum_ne (hdigits c hc) (by decide)⟩
      · intro c hc
        have hc' := hdigits c (List.mem_of_mem_head? hc)
        exact not_or.2 ⟨isNum_ne hc' (by decide), isNum_ne hc' (by decide)⟩
      · rw [hvalue]
        exact Nat.lt_trans hlen (by decide)
  length := Nat.lt_trans (length_jsonHead_lt hlen) (by decide)

/-! ## What is written -/

theorem length_stringFormat_lt {n : ℕ} (hn : 0 < n) (s : Bytes) : (stringFormat n s).length < n := by
  rw [stringFormat, if_neg (by omega)]
  split_ifs
  · exact hn
  · rw [List.length_take]
    omega
  · omega

theorem length_jsonResponse_lt (pf : List ℕ) (page : PageInfo) :
    (jsonResponse pf page).length < 0x100 := length_stringFormat_lt (by decide) _

/-- The status line as `BuildResponse` puts it together. -/
theorem text_statusLine (code : ℕ) : (statusLine code).text
    = lit "HTTP/1.1 " ++ signedNumeral code ++ lit " " ++ statusMessage code ++ lit "\r\n" := by
  simp only [StatusLine.text, statusLine, List.append_assoc]
  rfl

theorem stringFormat_statusLine {code : ℕ} (hcode : code ≤ 999) :
    stringFormat bufferSize (lit "HTTP/1.1 " ++ signedNumeral code ++ lit " " ++ statusMessage code
      ++ lit "\r\n") = fitting (statusLine code).text := by
  have hlen := length_statusLine_lt hcode
  rw [← text_statusLine, stringFormat_fitting (by omega)]

/-- A status other than 200 is written as its head alone. -/
theorem buildResponse_status (pf : List ℕ) {code : ℕ} (hcode : code ≤ 999) (hne : code ≠ 200)
    (json : Bool) (page : PageInfo) (n : ℕ) :
    buildResponse pf code json page n = (statusHead code).text ++ [LF] := by
  have hne' : (code : ℤ) ≠ 200 := by omega
  have hlen := length_statusLine_lt hcode
  simp only [buildResponse, hne', false_and, if_false, stringFormat_statusLine hcode,
    stringAdvance_fitting]
  rw [fitting_of_lt]
  · simp only [ResponseHead.text, statusHead, List.map_nil, List.flatten_nil, List.append_nil,
      List.append_assoc]
    rfl
  · have hcrlf : (lit "\r\n").length = 2 := by decide
    rw [List.length_append, hcrlf, bufferSize]
    omega

/-- The description of a page is written behind its head. -/
theorem buildResponse_json (pf : List ℕ) (page : PageInfo) (n : ℕ) :
    buildResponse pf 200 true page n = (jsonHead (jsonResponse pf page).length).text
      ++ LF :: jsonResponse pf page := by
  have hjson := length_jsonResponse_lt pf page
  have hnumeral : stringFormat 0x10 (numeral 10 (jsonResponse pf page).length)
      = numeral 10 (jsonResponse pf page).length := by
    have hdigits : (numeral 10 (jsonResponse pf page).length).length ≤ 3 :=
      (length_numeral_le_iff (by decide) (by decide)).2 (by omega)
    exact stringFormat_of_lt (by omega) (by decide)
  have hstatus : stringFormat bufferSize (lit "HTTP/1.1 " ++ signedNumeral 200 ++ lit " "
      ++ statusMessage 200 ++ lit "\r\n") = fitting (statusLine 200).text :=
    stringFormat_statusLine (by decide)
  have hhead : (jsonHead (jsonResponse pf page).length).text ++ [LF]
      = (statusLine 200).text
        ++ (lit "Connection" ++ lit ": " ++ lit "close" ++ lit "\r\n")
        ++ (lit "Content-Type" ++ lit ": " ++ lit "application/json" ++ lit "\r\n")
        ++ (lit "Content-Length" ++ lit ": " ++ numeral 10 (jsonResponse pf page).length
          ++ lit "\r\n") ++ lit "\r\n" := by
    simp only [ResponseHead.text, jsonHead, HeaderLine.text, List.map_cons, List.map_nil,
      List.flatten_cons, List.flatten_nil, List.append_nil, List.append_assoc]
    rfl
  have hlen : ((jsonHead (jsonResponse pf page).length).text ++ [LF]).length ≤ 0x200 := by
    rw [List.length_append, List.length_singleton]
    exact length_jsonHead_lt hjson
  simp only [buildResponse, if_true, hstatus, Bool.not_true, Bool.false_eq_true, if_false, hnumeral,
    writeHeader_fitting, stringAdvance_fitting, true_and, ← hhead]
  rw [fitting_of_lt (by rw [bufferSize]; omega), List.take_of_length_le (by rw [bufferSize]; omega)]
  simp

/-! ## What is read -/

theorem framing_jsonHead (len : ℕ) : (jsonHead len).framing
    = ⟨{ Flags.none with connectionClose := true }, len⟩ := by
  have hstart : (Framing.none.add ⟨lit "Connection", lit "close"⟩).add
      ⟨lit "Content-Type", lit "application/json"⟩
      = ⟨{ Flags.none with connectionClose := true }, ullongMax⟩ := by decide +kernel
  have hkind : Header.kind ⟨lit "Content-Length", numeral 10 len⟩ = .contentLength := by
    show HeaderKind.of ((lit "Content-Length").map token) = _
    decide +kernel
  have hne : numeral 10 len ≠ [] := by
    rw [numeral, ne_eq, List.map_eq_nil_iff]
    exact Nat.toDigits_ne_nil
  show (((Framing.none.add ⟨lit "Connection", lit "close"⟩).add
      ⟨lit "Content-Type", lit "application/json"⟩).add ⟨lit "Content-Length", numeral 10 len⟩) = _
  rw [hstart, Framing.add, hkind, if_pos ⟨rfl, hne⟩, (decimalValue_numeral len).1]
  rfl

theorem run_jsonAnswer (pf : List ℕ) (page : PageInfo) (n : ℕ) :
    ∃ q : Parser, q.Going ∧
      run Log.recorder (Parser.init .response) Log.empty (buildResponse pf 200 true page n)
        = some (q, { (jsonHead (jsonResponse pf page).length).log with
          body := jsonResponse pf page, messageComplete := true }) := by
  have hjson := length_jsonResponse_lt pf page
  have hframing := framing_jsonHead (jsonResponse pf page).length
  rw [buildResponse_json]
  refine (run_response (valid_jsonHead hjson) (by rw [hframing]; rfl) ?_).1
  rw [hframing]
  refine .length rfl ?_ rfl
  show (jsonResponse pf page).length ≠ ullongMax
  rw [ullongMax]
  omega

theorem run_statusAnswer (pf : List ℕ) {code : ℕ} (hcode : code ≤ 999) (hne : code ≠ 200) (json : Bool)
    (page : PageInfo) (n : ℕ) : ∃ q : Parser, q.Going ∧
      run Log.recorder (Parser.init .response) Log.empty (buildResponse pf code json page n)
        = some (q, { (statusHead code).log with
            messageComplete := code / 100 = 1 ∨ code = 204 ∨ code = 304 }) := by
  have hvalid := valid_statusHead hcode
  obtain ⟨p, hread, hrun⟩ := run_responseHead Log.lawful_recorder Log.empty hvalid
  rw [(statusHead code).deliver_recorder] at hrun
  have hplain := hread.plain rfl
  have hchunked : p.flags.chunked = false := by rw [hread.flags]; rfl
  have hlength : p.contentLength = ullongMax := by rw [hread.contentLength]; rfl
  have hstatus : p.statusCode = code := hread.statusCode.trans (decimalValue_numeral code).1
  have hnread : p.nread < maxHeaderSize := by
    rw [hread.nread]
    exact hvalid.length
  -- without a length and without chunks, the status decides whether there is an end
  have hneeds : (!p.messageNeedsEof) = decide (code / 100 = 1 ∨ code = 204 ∨ code = 304) := by
    rw [Parser.messageNeedsEof, hread.type, hstatus, hplain.skipbody, hchunked, hlength]
    by_cases hnone : code / 100 = 1 ∨ code = 204 ∨ code = 304
    · simp [hnone]
    · simp [hnone]
  obtain ⟨q, hgoing, hlf⟩ := hread.atHeadEnd.run_bareHead
    (l := { Log.empty with headers := (statusHead code).headers }) hplain hnread hchunked hlength rfl
  refine ⟨q, hgoing, ?_⟩
  rw [buildResponse_status pf hcode hne, run_append Log.lawful_recorder, hrun, Option.bind_some, hlf,
    hread.complete, hneeds]

namespace Sys

/-- What the client reads of an answer without an image. -/
def answerLog (pf : List ℕ) (code : ℕ) (page : PageInfo) : Log :=
  if code = 200 then { (jsonHead (jsonResponse pf page).length).log with
    body := jsonResponse pf page, messageComplete := true }
  else { (statusHead code).log with messageComplete := code / 100 = 1 ∨ code = 204 ∨ code = 304 }

theorem run_answer (pf : List ℕ) {code : ℕ} (hcode : code ≤ 999) {json : Bool}
    (hanswer : code ≠ 200 ∨ json = true) (page : PageInfo) (n : ℕ) : ∃ q : Parser, q.Going ∧
      run Log.recorder (Parser.init .response) Log.empty (buildResponse pf code json page n)
        = some (q, answerLog pf code page) := by
  by_cases hok : code = 200
  · obtain rfl := hanswer.resolve_left (not_not.2 hok)
    subst hok
    exact run_jsonAnswer pf page n
  · obtain ⟨q, hgoing, hrun⟩ := run_statusAnswer pf hcode hok json page n
    exact ⟨q, hgoing, by rw [answerLog, if_neg hok]; exact hrun⟩

/-- The text, if there is one, is being written, and nothing comes after it. -/
structure Answering (s : Sys) (text : Option Bytes) : Prop where
  image : s.conn.image = none
  pending : s.pending = (text.map Op.writeResponse).toList

theorem handleWriteResponse_none {s : Sys} (himage : s.conn.image = none) :
    s.handleWriteResponse true = s := by
  simp only [handleWriteResponse, if_true, himage, ite_self]

theorem step_answering {s s' : Sys} {e : Event} {text : Option Bytes} (h : Answering s text)
    (he : ∀ ok, e = .wroteResponse ok → ok = true) (hstep : step s e = some s') :
    ∃ rest, writtenBy s e ++ rest.toList = text.toList ∧ Answering s' rest := by
  have hpending := h.pending
  cases e with
  | wroteResponse ok =>
      cases he ok rfl
      cases text with
      | none => simp [step, complete, hpending, takeOp] at hstep
      | some text =>
          simp only [step, complete, hpending, Option.map_some, Option.toList_some, takeOp,
            Option.some.injEq] at hstep
          refine ⟨none, by simp [writtenBy, hpending, takeOp], ?_⟩
          rw [← hstep, handleWriteResponse_none (by exact h.image)]
          exact ⟨h.image, rfl⟩
  | stop =>
      cases hstep
      exact ⟨text, rfl, h.image, h.pending⟩
  | others cache =>
      cases hstep
      exact ⟨text, rfl, h.image, h.pending⟩
  | _ => cases text <;> simp [step, complete, hpending, takeOp] at hstep

theorem run_answering {s s' : Sys} {es : List Event} {text : Option Bytes} (h : Answering s text)
    (hes : .wroteResponse false ∉ es) (hrun : StepSystem.run step s es = some s') :
    ∃ rest, writes s es ++ rest.toList = text.toList ∧ Answering s' rest := by
  induction es generalizing s text with
  | nil =>
      cases hrun
      exact ⟨text, rfl, h⟩
  | cons e es ih =>
      have he : ∀ ok, e = .wroteResponse ok → ok = true := by
        rintro ok rfl
        cases ok with
        | true => rfl
        | false => exact absurd List.mem_cons_self hes
      obtain ⟨s₁, hstep, hrun⟩ := StepSystem.run_cons_eq_some.1 hrun
      obtain ⟨rest, hwritten, hnext⟩ := step_answering h he hstep
      obtain ⟨rest', hwrites, hlast⟩ := ih hnext (fun hmem => hes (List.mem_cons_of_mem _ hmem)) hrun
      refine ⟨rest', ?_, hlast⟩
      rw [writes, hstep]
      simp only [List.append_assoc, hwrites, hwritten]

/-- **The client reads the answer.** When the write of an answer without an image has succeeded, what
has been written, cut into any reads, is for `http_parser` a response with that status: the document
of the page if there is one, and otherwise no header and no body. -/
theorem clientReads_answer {s s' : Sys} {code : ℕ} {es : List Event} (hpending : s.pending = [])
    (hanswer : code ≠ 200 ∨ s.conn.query.json = true) (hcode : code ≤ 999)
    (hrun : StepSystem.run step (s.sendResponse code) es = some s') (hes : .wroteResponse false ∉ es)
    (hend : s'.pending = []) {reads : List Bytes}
    (hreads : reads.flatten = (writes (s.sendResponse code) es).flatten)
    (hcut : ∀ data ∈ reads, data ≠ []) :
    ReadsThrough Log.recorder (Parser.init .response) Log.empty reads ∧
      (executeAll Log.recorder (Parser.init .response) Log.empty reads).2
        = answerLog s.pixfmts code s.conn.page := by
  have hnoImage : ¬((code : ℤ) = 200 ∧ (!s.conn.query.json) = true) := by
    rintro ⟨hok, hjson⟩
    rcases hanswer with hne | hyes
    · exact hne (by omega)
    · simp [hyes] at hjson
  have hsend : s.sendResponse code
      = (s.modify fun c => { c with image := none }).beginResponse code 0 := by
    rw [sendResponse, if_neg hnoImage]
  have hanswering : Answering (s.sendResponse code)
      (some (buildResponse s.pixfmts code s.conn.query.json s.conn.page 0)) := by
    rw [hsend]
    exact ⟨rfl, congrArg _ hpending⟩
  obtain ⟨rest, hwrites, hlast⟩ := run_answering hanswering hes hrun
  -- nothing is pending, so the write has come to its end
  have hnone : rest = none := by
    have hrest := hlast.pending
    rw [hend] at hrest
    cases rest with
    | none => rfl
    | some text => exact absurd hrest (by simp)
  rw [hnone] at hwrites
  simp only [Option.toList_none, List.append_nil, Option.toList_some] at hwrites
  rw [hwrites, List.flatten_singleton] at hreads
  obtain ⟨q, hgoing, hread⟩ := run_answer s.pixfmts hcode hanswer s.conn.page 0
  have hinit : (Parser.init .response).Going := by decide
  obtain ⟨hthrough, hall⟩ := readsThrough_of_run Log.lawful_recorder hinit hreads hcut hread hgoing
  exact ⟨hthrough, by rw [hall]⟩

/-- A connection that is asked what the page is like. -/
def describedSys : Sys :=
  { exampleInit with
    conn := { exampleInit.conn with
      query := { exampleInit.conn.query with json := true }
      page := ⟨640, 480, 0⟩ }
    pixfmts := [0]
    pending := [] }

def describedReads : List Bytes :=
  [lit "HTTP/1.1 200 OK\x0d\nConnection: close\x0d\nContent-Type: application/json\x0d\nConte",
    lit "nt-Length: 53\x0d\n\x0d\n\x7b'width' : '640', 'height' : '480',", lit " 'pf' : 'invalid'\x7d"]

theorem clientReads_answer_described :
    (executeAll Log.recorder (Parser.init .response) Log.empty describedReads).2
      = answerLog [0] 200 ⟨640, 480, 0⟩ := by
  have hrun : (StepSystem.run step (describedSys.sendResponse 200) [.wroteResponse true]).map
      Sys.pending = some [] := by decide +kernel
  obtain ⟨s', hs', hend⟩ := Option.map_eq_some_iff.1 hrun
  have hreads : describedReads.flatten
      = (writes (describedSys.sendResponse 200) [.wroteResponse true]).flatten := by decide +kernel
  exact (@clientReads_answer describedSys s' 200 [.wroteResponse true] rfl (Or.inr rfl) (by decide) hs'
    (by simp) hend describedReads hreads (by decide +kernel)).2

end Sys

end ImageProxy
