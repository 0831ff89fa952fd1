import ImageProxy.Http.UrlParts

set_option autoImplicit false

/-! # The host and the port of a URL

The same for `http_parse_host`, which goes through the authority a second time. -/

namespace ImageProxy.Http

open Ascii

/-! ## Host and port as strings -/

/-- The authority without `userinfo@`. -/
def hostPart (uri : Bytes) : Bytes :=
  let A := authority uri
  if asc '@' ∈ A then (A.dropWhile (· ≠ asc '@')).drop 1 else A

/-- An IPv6 address stands in brackets. -/
def bracketed (s : Bytes) : Bool := s.head? = some (asc '[')

def hostOf (s : Bytes) : Bytes :=
  if bracketed s then (s.drop 1).takeWhile (· ≠ asc ']') else s.takeWhile (· ≠ asc ':')

/-- What follows the host: nothing, or a colon and the port. -/
def afterHost (s : Bytes) : Bytes :=
  if bracketed s then (s.dropWhile (· ≠ asc ']')).drop 1 else s.dropWhile (· ≠ asc ':')

/-- **The host component.** -/
def hostComponent (uri : Bytes) : Bytes := hostOf (hostPart uri)

/-- **The port component**, if the URL has one. -/
def portComponent (uri : Bytes) : Option Bytes :=
  match afterHost (hostPart uri) with
  | [] => none
  | _ :: port => some port

/-! ## The loop of `http_parse_host` finds them -/

/-- The states `http_parse_host` goes through do not depend on the record. -/
def hostRun (s : HostState) (p : Bytes) : HostState := p.foldl parseHostChar s

theorem hostRun_dead (p : Bytes) : hostRun .dead p = .dead := by
  induction p with
  | nil => rfl
  | cons ch p ih => exact ih

theorem hostLoop_state (narrow : ℕ → ℕ) (p : Bytes) (pos : ℕ) (s : HostState) (u : Url) :
    (hostLoop narrow pos s u p).1 = hostRun s p := by
  induction p generalizing pos s u with
  | nil => rfl
  | cons ch p ih =>
      simp only [hostLoop, hostRun, List.foldl_cons]
      split
      · next hdead => rw [hdead]; exact (hostRun_dead p).symm
      · exact ih _ _ _

theorem hostRun_cons (s : HostState) (ch : UInt8) (p : Bytes) :
    hostRun s (ch :: p) = hostRun (parseHostChar s ch) p := rfl

theorem hostLoop_cons {s : HostState} {ch : UInt8} (h : parseHostChar s ch ≠ .dead) (p : Bytes)
    (pos : ℕ) (u : Url) :
    hostLoop id pos s u (ch :: p)
      = hostLoop id (pos + 1) (parseHostChar s ch) (hostTurn id pos s (parseHostChar s ch) u) p := by
  simp only [hostLoop, if_neg h]

/-- A byte the loop got over, since it ended well. -/
theorem parseHostChar_ne_dead {s : HostState} {ch : UInt8} {p : Bytes}
    (h : (hostRun s (ch :: p)).final = true) : parseHostChar s ch ≠ .dead := by
  intro hdead
  rw [hostRun_cons, hdead, hostRun_dead] at h
  exact absurd h (by decide)

theorem parseHostChar_port {s : HostState} {ch : UInt8} (hs : s = .hostPort ∨ s = .hostPortStart)
    (h : parseHostChar s ch ≠ .dead) : parseHostChar s ch = .hostPort := by
  by_cases hnum : isNum ch = true <;> rcases hs with rfl | rfl <;>
    simp_all [parseHostChar]

theorem afterHost_ne_dead {ch : UInt8} (h : parseHostChar.afterHost ch ≠ .dead) :
    parseHostChar.afterHost ch = .hostPortStart ∧ ch = asc ':' := by
  simp only [parseHostChar.afterHost] at h ⊢
  split_ifs at h ⊢ with hcolon
  · exact ⟨rfl, hcolon⟩
  · exact absurd rfl h

theorem hostLoop_port (p : Bytes) (pos : ℕ) (u : Url) {off len : ℕ}
    (hdata : u.fieldData .port = ⟨off, len⟩) (hfinal : (hostRun .hostPort p).final = true) :
    (hostLoop id pos .hostPort u p).2.fieldData .host = u.fieldData .host ∧
      (hostLoop id pos .hostPort u p).2.fieldSet .port = u.fieldSet .port ∧
      (hostLoop id pos .hostPort u p).2.fieldData .port = ⟨off, len + p.length⟩ := by
  induction p generalizing pos u len with
  | nil => exact ⟨rfl, rfl, hdata⟩
  | cons ch p ih =>
      have hne := parseHostChar_ne_dead hfinal
      have hstate := parseHostChar_port (Or.inl rfl) hne
      rw [hostLoop_cons hne, hstate]
      rw [hostRun_cons, hstate] at hfinal
      have hmore : (u.more id .port).fieldData .port = ⟨off, len + 1⟩ := by
        simp [Url.more, Url.setLen, hdata]
      obtain ⟨hhost, hset, hport⟩ := ih (pos + 1) (u.more id .port) hmore hfinal
      refine ⟨hhost.trans (by simp [Url.more, Url.setLen]), hset, ?_⟩
      rw [List.length_cons, Nat.add_comm p.length 1, ← Nat.add_assoc]
      exact hport

/-- The record says that the host `H` is at `hostAt` and that `rest`, from `restAt` on, is empty or
the port with its colon. -/
structure HostFound (u : Url) (hostAt : ℕ) (H : Bytes) (restAt : ℕ) (rest : Bytes) : Prop where
  host : u.fieldData .host = ⟨hostAt, H.length⟩
  port : u.fieldSet .port = !rest.isEmpty
  portData : ∀ c ds, rest = c :: ds → u.fieldData .port = ⟨restAt + 1, ds.length⟩

theorem HostFound.moveRest {u : Url} {hostAt restAt restAt' : ℕ} {H rest : Bytes}
    (h : HostFound u hostAt H restAt rest) (hrest : rest ≠ [] → restAt = restAt') :
    HostFound u hostAt H restAt' rest :=
  ⟨h.host, h.port, fun c ds hcons => by
    rw [← hrest (by simp [hcons])]
    exact h.portData c ds hcons⟩

/-- After the host. -/
theorem hostLoop_afterHost {s : HostState} (rest : Bytes) (pos : ℕ) {u : Url} {hostAt : ℕ}
    {H : Bytes} (hs : ∀ ch, rest.head? = some ch → parseHostChar s ch = parseHostChar.afterHost ch)
    (hfinal : (hostRun s rest).final = true) (hhost : u.fieldData .host = ⟨hostAt, H.length⟩)
    (hport : u.fieldSet .port = false) :
    HostFound (hostLoop id pos s u rest).2 hostAt H pos rest := by
  match rest with
  | [] => exact ⟨hhost, hport, fun _ _ h => absurd h (by simp)⟩
  | ch :: rest =>
      have hne := parseHostChar_ne_dead hfinal
      have hstate : parseHostChar s ch = .hostPortStart := by
        rw [hs ch rfl] at hne ⊢
        exact (afterHost_ne_dead hne).1
      rw [hostLoop_cons (by rw [hstate]; decide), hstate]
      rw [hostRun_cons, hstate] at hfinal
      match rest with
      | [] => exact absurd hfinal (by decide)
      | c :: ds =>
          have hne' := parseHostChar_ne_dead hfinal
          have hstate' := parseHostChar_port (Or.inr rfl) hne'
          rw [hostLoop_cons hne', hstate']
          rw [hostRun_cons, hstate'] at hfinal
          have hstart : ((u.start id .port (pos + 1) 0).more id .port).fieldData .port
              = ⟨pos + 1, 1⟩ := by
            simp [Url.more, Url.setLen, Url.start]
          obtain ⟨hhost', hset, hdata⟩ := hostLoop_port ds (pos + 1 + 1)
            ((u.start id .port (pos + 1) 0).more id .port) hstart hfinal
          refine ⟨hhost'.trans (by simpa [Url.more, Url.setLen, Url.start] using hhost),
            hset.trans (by simp [Url.more, Url.setLen, Url.start]), fun c' ds' h => ?_⟩
          simp only [List.cons.injEq] at h
          obtain ⟨-, rfl⟩ := h
          rw [List.length_cons, Nat.add_comm ds.length 1]
          exact hdata

theorem hostLoop_host (p : Bytes) (pos : ℕ) {u : Url} {hostAt : ℕ} {H : Bytes}
    (hfinal : (hostRun .host p).final = true) (hhost : u.fieldData .host = ⟨hostAt, H.length⟩)
    (hport : u.fieldSet .port = false) :
    HostFound (hostLoop id pos .host u p).2 hostAt (H ++ p.takeWhile (· ≠ asc ':'))
      (pos + (p.takeWhile (· ≠ asc ':')).length) (p.dropWhile (· ≠ asc ':')) := by
  induction p generalizing pos u H with
  | nil => simpa using hostLoop_afterHost [] pos (s := .host) (by simp) hfinal hhost hport
  | cons ch p ih =>
      have hne := parseHostChar_ne_dead hfinal
      by_cases hchar : isHostChar ch = true
      · have hcolon : ch ≠ asc ':' := by
          rintro rfl
          exact absurd hchar (by decide)
        have hstate : parseHostChar .host ch = .host := by simp [parseHostChar, hchar]
        rw [hostLoop_cons hne, hstate]
        rw [hostRun_cons, hstate] at hfinal
        have hmore : (u.more id .host).fieldData .host = ⟨hostAt, (H ++ [ch]).length⟩ := by
          simp [Url.more, Url.setLen, hhost]
        have hrest := ih (pos + 1) (u := u.more id .host) (H := H ++ [ch]) hfinal hmore hport
        rw [List.takeWhile_cons_of_pos (by simpa using hcolon),
          List.dropWhile_cons_of_pos (by simpa using hcolon)]
        simpa [Nat.add_assoc, Nat.add_comm 1, hostTurn] using hrest
      · have hstate : parseHostChar .host ch = parseHostChar.afterHost ch := by
          simp [parseHostChar, hchar]
        rw [hstate] at hne
        have hcolon := (afterHost_ne_dead hne).2
        have hafter := hostLoop_afterHost (s := .host) (ch :: p) pos
          (fun c hc => by cases hc; exact hstate) hfinal hhost hport
        subst hcolon
        simpa using hafter

theorem hostLoop_v6 (p : Bytes) (pos : ℕ) {u : Url} {hostAt : ℕ} {H : Bytes}
    (hfinal : (hostRun .hostV6 p).final = true) (hhost : u.fieldData .host = ⟨hostAt, H.length⟩)
    (hport : u.fieldSet .port = false) :
    HostFound (hostLoop id pos .hostV6 u p).2 hostAt (H ++ p.takeWhile (· ≠ asc ']'))
      (pos + (p.takeWhile (· ≠ asc ']')).length + 1) ((p.dropWhile (· ≠ asc ']')).drop 1) := by
  induction p generalizing pos u H with
  | nil => exact absurd hfinal (by decide)
  | cons ch p ih =>
      have hne := parseHostChar_ne_dead hfinal
      by_cases hclose : ch = asc ']'
      · subst hclose
        have hstate : parseHostChar .hostV6 (asc ']') = .hostV6End := by decide
        rw [hostLoop_cons hne, hstate]
        rw [hostRun_cons, hstate] at hfinal
        have hafter := hostLoop_afterHost (s := .hostV6End) p (pos + 1) (fun _ _ => rfl) hfinal hhost
          hport
        simpa [hostTurn] using hafter
      · have hstate : parseHostChar .hostV6 ch = .hostV6 := by
          simp only [parseHostChar, if_neg hclose, parseHostChar.insideV6] at hne ⊢
          split_ifs at hne ⊢
          · rfl
          · exact absurd rfl hne
        rw [hostLoop_cons hne, hstate]
        rw [hostRun_cons, hstate] at hfinal
        have hmore : (u.more id .host).fieldData .host = ⟨hostAt, (H ++ [ch]).length⟩ := by
          simp [Url.more, Url.setLen, hhost]
        have hrest := ih (pos + 1) (u := u.more id .host) (H := H ++ [ch]) hfinal hmore hport
        rw [List.takeWhile_cons_of_pos (by simpa using hclose),
          List.dropWhile_cons_of_pos (by simpa using hclose)]
        simpa [Nat.add_assoc, Nat.add_comm 1, hostTurn] using hrest

/-- Where the host begins in `s`, which starts at `pos`. -/
def hostAt (pos : ℕ) (s : Bytes) : ℕ := if bracketed s then pos + 1 else pos

theorem hostLoop_start (s : Bytes) (pos : ℕ) {u : Url}
    (hfinal : (hostRun .hostStart s).final = true) (hlen : (u.fieldData .host).len = 0)
    (hport : u.fieldSet .port = false) :
    HostFound (hostLoop id pos .hostStart u s).2 (hostAt pos s) (hostOf s)
      (pos + s.length - (afterHost s).length) (afterHost s) := by
  cases s with
  | nil => exact absurd hfinal (by decide)
  | cons ch p =>
      have hne := parseHostChar_ne_dead hfinal
      -- the first byte of the host, at `pos'`
      have hfirst : ∀ pos', ((u.setOff id .host pos').more id .host).fieldData .host
          = ⟨pos', [ch].length⟩ := fun pos' => by
        simp [Url.more, Url.setLen, Url.setOff, hlen]
      by_cases hopen : ch = asc '['
      · subst hopen
        have hstate : parseHostChar .hostStart (asc '[') = .hostV6Start := by decide
        rw [hostLoop_cons hne, hstate]
        rw [hostRun_cons, hstate] at hfinal
        cases p with
        | nil => exact absurd hfinal (by decide)
        | cons c p =>
            have hne' := parseHostChar_ne_dead hfinal
            have hstate' : parseHostChar .hostV6Start c = .hostV6 := by
              simp only [parseHostChar, parseHostChar.insideV6] at hne' ⊢
              split_ifs at hne' ⊢
              · rfl
              · exact absurd rfl hne'
            have hclose : c ≠ asc ']' := by
              rintro rfl
              exact absurd hstate' (by decide)
            rw [hostLoop_cons hne', hstate']
            rw [hostRun_cons, hstate'] at hfinal
            have hfound := hostLoop_v6 p (pos + 1 + 1) (H := [c]) hfinal
              (hfirst (pos + 1)) (by simpa [Url.more, Url.setLen, Url.setOff] using hport)
            have hform : bracketed (asc '[' :: c :: p) = true := rfl
            have hwhole := congrArg List.length
              (List.takeWhile_append_dropWhile (p := (· ≠ asc ']')) (l := p))
            rw [List.length_append] at hwhole
            simp only [hostAt, hostOf, afterHost, hform, if_true, List.drop_succ_cons, List.drop_zero]
            rw [List.takeWhile_cons_of_pos (by simpa using hclose),
              List.dropWhile_cons_of_pos (by decide),
              List.dropWhile_cons_of_pos (by simpa using hclose)]
            refine hfound.moveRest ?_
            intro hrest
            have hpos := List.length_pos_iff.2 hrest
            simp only [List.length_drop, List.length_cons] at hpos ⊢
            omega
      · have hstate : parseHostChar .hostStart ch = .host := by
          simp only [parseHostChar, if_neg hopen] at hne ⊢
          split_ifs at hne ⊢
          · rfl
          · exact absurd rfl hne
        have hcolon : ch ≠ asc ':' := by
          rintro rfl
          exact absurd hstate (by decide)
        rw [hostLoop_cons hne, hstate]
        rw [hostRun_cons, hstate] at hfinal
        have hfound := hostLoop_host p (pos + 1) (H := [ch]) hfinal (hfirst pos)
          (by simpa [Url.more, Url.setLen, Url.setOff] using hport)
        have hform : bracketed (ch :: p) = false := by simp [bracketed, hopen]
        have hwhole := congrArg List.length
          (List.takeWhile_append_dropWhile (p := (· ≠ asc ':')) (l := p))
        rw [List.length_append] at hwhole
        simp only [hostAt, hostOf, afterHost, hform, Bool.false_eq_true, if_false]
        rw [List.takeWhile_cons_of_pos (by simpa using hcolon),
          List.dropWhile_cons_of_pos (by simpa using hcolon)]
        refine hfound.moveRest ?_
        intro hrest
        simp only [List.length_cons]
        omega

/-- The part before the `@`. -/
theorem hostLoop_userinfo {s : HostState} (p : Bytes) (pos : ℕ) {u : Url}
    (hs : s = .userinfoStart ∨ s = .userinfo) (hfinal : (hostRun s p).final = true)
    (hlen : (u.fieldData .host).len = 0) (hport : u.fieldSet .port = false) :
    let host := (p.dropWhile (· ≠ asc '@')).drop 1
    HostFound (hostLoop id pos s u p).2 (hostAt (pos + p.length - host.length) host) (hostOf host)
      (pos + p.length - (afterHost host).length) (afterHost host) := by
  induction p generalizing pos s u with
  | nil => rcases hs with rfl | rfl <;> exact absurd hfinal (by decide)
  | cons ch p ih =>
      have hne := parseHostChar_ne_dead hfinal
      by_cases hat : ch = asc '@'
      · subst hat
        have hstate : parseHostChar s (asc '@') = .hostStart := by
          rcases hs with rfl | rfl <;> decide
        rw [hostLoop_cons hne, hstate]
        rw [hostRun_cons, hstate] at hfinal
        have hfound := hostLoop_start p (pos + 1) (u := u) hfinal hlen hport
        have hturn : hostTurn id pos s .hostStart u = u := rfl
        have hpos : pos + (p.length + 1) - p.length = pos + 1 := by omega
        have hpos' : pos + 1 + p.length = pos + (p.length + 1) := by omega
        simpa [hturn, hpos, ← hpos'] using hfound
      · have hstate : parseHostChar s ch = .userinfo := by
          rcases hs with rfl | rfl <;> simp only [parseHostChar, if_neg hat] at hne ⊢ <;>
            split_ifs at hne ⊢ <;> first | rfl | exact absurd rfl hne
        rw [hostLoop_cons hne, hstate]
        rw [hostRun_cons, hstate] at hfinal
        have hframe : ∀ pos, ((hostTurn id pos s .userinfo u).fieldData .host).len = 0 ∧
            (hostTurn id pos s .userinfo u).fieldSet .port = false := fun pos => by
          rcases hs with rfl | rfl <;>
            simp [hostTurn, Url.more, Url.setLen, Url.start, hlen, hport]
        have hfound := ih (pos + 1) (Or.inr rfl) hfinal (hframe pos).1 (hframe pos).2
        rw [List.dropWhile_cons_of_pos (by simpa using hat)]
        have hpos : pos + 1 + p.length = pos + (p.length + 1) := by omega
        simpa only [List.length_cons, hpos] using hfound

/-! ## The record of a short URL -/

/-- Where a suffix of a piece of `uri` stands in `uri`. -/
theorem drop_of_suffix {uri s t R : Bytes} {pos : ℕ} (h : uri.drop pos = s ++ R) (ht : t <:+ s) :
    uri.drop (pos + s.length - t.length) = t ++ R := by
  obtain ⟨r, rfl⟩ := ht
  have hpos : pos + (r ++ t).length - t.length = pos + r.length := by
    rw [List.length_append]
    omega
  rw [hpos, ← List.drop_drop, h, List.append_assoc, List.drop_left]

theorem afterHost_suffix (s : Bytes) : afterHost s <:+ s := by
  rw [afterHost]
  split
  · exact (List.drop_suffix _ _).trans (List.dropWhile_suffix _)
  · exact List.dropWhile_suffix _

theorem hostPart_suffix (uri : Bytes) : hostPart uri <:+ authority uri := by
  simp only [hostPart]
  split
  · exact (List.drop_suffix _ _).trans (List.dropWhile_suffix _)
  · exact List.suffix_refl _

theorem drop_authority (uri : Bytes) (h : authority uri ≠ []) :
    uri.drop (authorityOffset uri)
      = authority uri ++ (afterSchema uri).dropWhile isAuthorityChar := by
  rw [drop_authorityOffset]
  rw [authority] at h ⊢
  split at h
  · exact absurd rfl h
  · next horigin => rw [if_neg horigin, List.takeWhile_append_dropWhile]

/-- Where `http_parse_host` starts. -/
def hostStartState (A : Bytes) : HostState :=
  if asc '@' ∈ A then .userinfoStart else .hostStart

theorem hostLoop_authority (uri : Bytes) {u : Url}
    (hfinal : (hostRun (hostStartState (authority uri)) (authority uri)).final = true)
    (hlen : (u.fieldData .host).len = 0) (hport : u.fieldSet .port = false) :
    let pos := authorityOffset uri + (authority uri).length - (hostPart uri).length
    HostFound
      (hostLoop id (authorityOffset uri) (hostStartState (authority uri)) u (authority uri)).2
      (hostAt pos (hostPart uri)) (hostComponent uri)
      (pos + (hostPart uri).length - (afterHost (hostPart uri)).length) (afterHost (hostPart uri)) := by
  have hle := (hostPart_suffix uri).length_le
  have hpos : authorityOffset uri + (authority uri).length - (hostPart uri).length
      + (hostPart uri).length = authorityOffset uri + (authority uri).length := by omega
  simp only [hpos]
  by_cases hat : asc '@' ∈ authority uri
  · have hpart : hostPart uri = ((authority uri).dropWhile (· ≠ asc '@')).drop 1 := by
      simp only [hostPart, if_pos hat]
    rw [hostStartState, if_pos hat] at hfinal ⊢
    rw [hostComponent, hpart]
    exact hostLoop_userinfo (authority uri) (authorityOffset uri) (Or.inl rfl) hfinal hlen hport
  · have hpart : hostPart uri = authority uri := by simp only [hostPart, if_neg hat]
    rw [hostStartState, if_neg hat] at hfinal ⊢
    rw [hostComponent, hpart, Nat.add_sub_cancel]
    exact hostLoop_start (authority uri) (authorityOffset uri) hfinal hlen hport

/-- What is left of the record after `http_parse_host`. -/
theorem parseUrl_host (uri : Bytes) (halive : (urlLoop u16 0 UrlScan.init uri).1 = true)
    (hset : (urlLoop u16 0 UrlScan.init uri).2.u.fieldSet .host = true) :
    let sc := (urlLoop u16 0 UrlScan.init uri).2
    (httpParserParseUrl uri).2.fieldSet = (parseHost u16 uri sc.u sc.foundAt).2.fieldSet ∧
      (httpParserParseUrl uri).2.fieldData = (parseHost u16 uri sc.u sc.foundAt).2.fieldData ∧
      ((httpParserParseUrl uri).1 = true → (parseHost u16 uri sc.u sc.foundAt).1 = true) := by
  have hinit : (⟨.reqSpacesBeforeUrl, none, false, Url.empty⟩ : UrlScan) = UrlScan.init := rfl
  simp only [httpParserParseUrl, parseUrl, Bool.false_eq_true, if_false, hinit, Bool.false_and]
  revert halive hset
  generalize urlLoop u16 0 UrlScan.init uri = r
  obtain ⟨ended, sc⟩ := r
  intro halive hset
  split_ifs <;> simp_all

/-- Sixteen bits are enough for a piece of a short URL. -/
theorem piece_narrowed {u : Url} {part : UrlPart} {uri t X : Bytes} {off : ℕ}
    (hlen : uri.length < 2 ^ 16) (hdata : u.fieldData part = ⟨off, t.length⟩)
    (hdrop : uri.drop off = t ++ X) : u.narrowed.piece part uri = t := by
  simp only [Url.piece, Url.narrowed, hdata]
  by_cases hempty : t = []
  · subst hempty
    exact List.take_zero
  · have hle := congrArg List.length hdrop
    rw [List.length_drop, List.length_append] at hle
    have hpos := List.length_pos_iff.2 hempty
    rw [u16, u16, Nat.mod_eq_of_lt (by omega), Nat.mod_eq_of_lt (by omega), hdrop, List.take_left]

/-- The host stands where it is said to. -/
theorem drop_hostAt {uri s R : Bytes} {pos : ℕ} (h : uri.drop pos = s ++ R) :
    ∃ X, uri.drop (hostAt pos s) = hostOf s ++ X := by
  rw [hostAt, hostOf]
  split
  · match s with
    | [] => exact ⟨_, (List.nil_append _).symm⟩
    | c :: s =>
        rw [← List.drop_drop, h]
        refine ⟨s.dropWhile (· ≠ asc ']') ++ R, ?_⟩
        rw [← List.append_assoc, List.drop_succ_cons, List.drop_zero,
          List.takeWhile_append_dropWhile]
        rfl
  · refine ⟨s.dropWhile (· ≠ asc ':') ++ R, ?_⟩
    rw [← List.append_assoc, List.takeWhile_append_dropWhile, h]

/-- **The record of a URL of fewer than 2 ^ 16 bytes names its host and its port.** -/
theorem httpParserParseUrl_host {uri : Bytes} (hlen : uri.length < 2 ^ 16)
    (halive : (urlLoop id 0 UrlScan.init uri).1 = true) (hA : authority uri ≠ [])
    (hfinal : (hostRun (hostStartState (authority uri)) (authority uri)).final = true) :
    (httpParserParseUrl uri).2.piece .host uri = hostComponent uri ∧
      (httpParserParseUrl uri).2.fieldSet .port = (portComponent uri).isSome ∧
      ∀ port, portComponent uri = some port →
        (httpParserParseUrl uri).2.piece .port uri = port := by
  have hparts := urlLoop_parts uri halive
  have hnarrow : urlLoop u16 0 UrlScan.init uri
      = ((urlLoop id 0 UrlScan.init uri).1, (urlLoop id 0 UrlScan.init uri).2.narrowed) :=
    urlLoop_narrowed uri 0 UrlScan.init
  have hdrop := drop_authority uri hA
  obtain ⟨hset, hdata, -⟩ := parseUrl_host uri (by rw [hnarrow]; exact halive)
    (by rw [hnarrow]; exact hparts.host.trans (by simpa using hA))
  -- the bounds that make sixteen bits enough
  have hbound : authorityOffset uri + (authority uri).length ≤ uri.length := by
    have hle := congrArg List.length hdrop
    rw [List.length_drop, List.length_append] at hle
    have hpos := List.length_pos_iff.2 hA
    omega
  rw [hnarrow] at hset hdata
  generalize (urlLoop id 0 UrlScan.init uri).2 = sc at hparts hset hdata
  have hhost := hparts.hostData hA
  have hpiece : sc.u.narrowed.piece .host uri = authority uri := piece_narrowed hlen hhost hdrop
  have hoff : (sc.u.narrowed.fieldData .host).off = authorityOffset uri := by
    simp only [Url.narrowed, hhost, u16]
    exact Nat.mod_eq_of_lt (by omega)
  have hzero : sc.u.narrowed.setLen .host 0 = (sc.u.setLen .host 0).narrowed := by
    rw [Url.setLen, Url.setLen, Url.narrowed_update]
    rfl
  have hstart : (if sc.foundAt then HostState.userinfoStart else .hostStart)
      = hostStartState (authority uri) := by
    rw [hparts.foundAt, hostStartState]
    simp
  have hfound := hostLoop_authority uri (u := sc.u.setLen .host 0) hfinal
    (by simp [Url.setLen]) hparts.port
  have hparse : parseHost u16 uri sc.u.narrowed sc.foundAt
      = ((hostLoop id (authorityOffset uri) (hostStartState (authority uri))
          (sc.u.setLen .host 0) (authority uri)).1.final,
        (hostLoop id (authorityOffset uri) (hostStartState (authority uri))
          (sc.u.setLen .host 0) (authority uri)).2.narrowed) := by
    simp only [parseHost, hpiece, hoff, hzero, hstart, hostLoop_narrowed]
  simp only [UrlScan.narrowed] at hset hdata
  rw [hparse] at hset hdata
  revert hfound hset hdata
  generalize (hostLoop id (authorityOffset uri) (hostStartState (authority uri))
    (sc.u.setLen .host 0) (authority uri)).2 = u
  intro hset hdata hfound
  simp only at hfound
  -- where the host part stands in the URL
  have hpos := drop_of_suffix hdrop (hostPart_suffix uri)
  generalize authorityOffset uri + (authority uri).length - (hostPart uri).length = pos
    at hfound hpos
  have hnames : ∀ part, (httpParserParseUrl uri).2.piece part uri = u.narrowed.piece part uri :=
    fun part => by rw [Url.piece, Url.piece, hdata]
  refine ⟨?_, ?_, fun port hport => ?_⟩
  · rw [hnames]
    obtain ⟨X, hX⟩ := drop_hostAt hpos
    exact piece_narrowed hlen hfound.host hX
  · rw [hset]
    refine hfound.port.trans ?_
    rw [portComponent]
    cases afterHost (hostPart uri) <;> rfl
  · rw [hnames]
    rw [portComponent] at hport
    have hrest := drop_of_suffix hpos (afterHost_suffix (hostPart uri))
    generalize pos + (hostPart uri).length - (afterHost (hostPart uri)).length = restAt
      at hfound hrest
    generalize afterHost (hostPart uri) = rest at hfound hrest hport
    cases rest with
    | nil => exact absurd hport (by simp)
    | cons c ds =>
        cases hport
        refine piece_narrowed hlen (hfound.portData c port rfl)
          (X := (afterSchema uri).dropWhile isAuthorityChar) ?_
        rw [← List.drop_drop, hrest]
        rfl

/-- A URL that is accepted is lived through by the automaton. -/
theorem alive_of_accepted {uri : Bytes} (h : (httpParserParseUrl uri).1 = true) :
    (urlLoop id 0 UrlScan.init uri).1 = true := by
  have hinit : (⟨.reqSpacesBeforeUrl, none, false, Url.empty⟩ : UrlScan) = UrlScan.init := rfl
  have hnarrow : urlLoop u16 0 UrlScan.init uri
      = ((urlLoop id 0 UrlScan.init uri).1, (urlLoop id 0 UrlScan.init uri).2.narrowed) :=
    urlLoop_narrowed uri 0 UrlScan.init
  by_contra hdead
  have hfalse : (urlLoop u16 0 UrlScan.init uri).1 = false := by simpa [hnarrow] using hdead
  revert h hfalse
  simp only [httpParserParseUrl, parseUrl, Bool.false_eq_true, if_false, hinit]
  generalize urlLoop u16 0 UrlScan.init uri = r
  obtain ⟨ended, sc⟩ := r
  intro h hfalse
  obtain rfl : ended = false := hfalse
  simp at h

/-- A URL that is accepted has a proper host. -/
theorem hostRun_of_accepted {uri : Bytes} (h : (httpParserParseUrl uri).1 = true)
    (hA : authority uri ≠ [])
    (hshort : authorityOffset uri + (authority uri).length < 2 ^ 16) :
    (hostRun (hostStartState (authority uri)) (authority uri)).final = true := by
  have halive := alive_of_accepted h
  have hparts := urlLoop_parts uri halive
  have hnarrow : urlLoop u16 0 UrlScan.init uri
      = ((urlLoop id 0 UrlScan.init uri).1, (urlLoop id 0 UrlScan.init uri).2.narrowed) :=
    urlLoop_narrowed uri 0 UrlScan.init
  have hok := (parseUrl_host uri (by rw [hnarrow]; exact halive)
    (by rw [hnarrow]; exact hparts.host.trans (by simpa using hA))).2.2 h
  rw [hnarrow] at hok
  generalize (urlLoop id 0 UrlScan.init uri).2 = sc at hparts hok
  have hhost := hparts.hostData hA
  have hpiece : sc.u.narrowed.piece .host uri = authority uri := by
    simp only [Url.piece, Url.narrowed, hhost, u16]
    rw [Nat.mod_eq_of_lt (by omega), Nat.mod_eq_of_lt (by omega), drop_authority uri hA,
      List.take_left]
  have hstart : (if sc.foundAt then HostState.userinfoStart else .hostStart)
      = hostStartState (authority uri) := by
    rw [hparts.foundAt, hostStartState]
    simp
  have hparse : parseHost u16 uri sc.u.narrowed sc.foundAt
      = ((hostRun (hostStartState (authority uri)) (authority uri)).final,
        (parseHost u16 uri sc.u.narrowed sc.foundAt).2) := by
    rw [parseHost, hpiece, hstart, hostLoop_state]
  simp only [UrlScan.narrowed] at hok
  rw [hparse] at hok
  exact hok

/-! ## A URL that was cut -/

theorem dropWhile_append_of_ne_nil {f : UInt8 → Bool} {t : Bytes} (h : t.dropWhile f ≠ [])
    (z : Bytes) : (t ++ z).dropWhile f = t.dropWhile f ++ z := by
  rw [List.dropWhile_append, if_neg (by simpa using h)]

theorem takeWhile_append_of_ne_nil {f : UInt8 → Bool} {t : Bytes} (h : t.dropWhile f ≠ [])
    (z : Bytes) : (t ++ z).takeWhile f = t.takeWhile f := by
  have hlen : (t.takeWhile f).length ≠ t.length := by
    intro hlen
    have hall := congrArg List.length (List.takeWhile_append_dropWhile (p := f) (l := t))
    rw [List.length_append] at hall
    exact h (List.length_eq_zero_iff.1 (by omega))
  rw [List.takeWhile_append, if_neg hlen]

/-- A URL and what is left of it when it was cut behind its authority. -/
theorem authority_append {t : Bytes} (hA : authority t ≠ [])
    (hpath : t.drop (pathOffset t) ≠ []) (z : Bytes) :
    authority (t ++ z) = authority t ∧ authorityOffset (t ++ z) = authorityOffset t := by
  have horigin : originForm t = false := by
    by_contra h
    exact hA (by rw [authority, if_pos (by simpa using h)])
  have hne : t ≠ [] := by
    rintro rfl
    exact hpath (by simp)
  have horigin' : originForm (t ++ z) = false := by
    obtain ⟨c, t, rfl⟩ := List.exists_cons_of_ne_nil hne
    exact horigin
  have hafter : afterSchema t ≠ [] := by
    intro h
    exact hA (by rw [authority, horigin, h]; rfl)
  have hcolon : t.dropWhile (· ≠ asc ':') ≠ [] := by
    intro h
    exact hafter (by rw [afterSchema, h]; rfl)
  have happend : afterSchema (t ++ z) = afterSchema t ++ z := by
    have hlen := List.length_pos_iff.2 hafter
    rw [afterSchema, List.length_drop] at hlen
    rw [afterSchema, dropWhile_append_of_ne_nil hcolon, List.drop_append_of_le_length (by omega),
      afterSchema]
  have hrest : (afterSchema t).dropWhile isAuthorityChar ≠ [] := by
    rw [pathOffset, if_neg (by simp [horigin]), ← List.drop_drop, drop_authorityOffset, authority,
      if_neg (by simp [horigin]), drop_length_takeWhile] at hpath
    exact hpath
  constructor
  · rw [authority, authority, if_neg (by simp [horigin']), if_neg (by simp [horigin]), happend,
      takeWhile_append_of_ne_nil hrest]
  · rw [authorityOffset, authorityOffset, happend, List.length_append, List.length_append]
    omega

theorem parseUrlChar_nul (s : State) : parseUrlChar s 0 = .dead := by
  cases s <;> decide

theorem parseUrlChar_space (s : State) : parseUrlChar s (asc ' ') = .dead := by
  cases s <;> decide

/-- A URL the automaton lives through has no byte on which it dies. -/
theorem not_mem_of_alive {ch : UInt8} (hch : ∀ s, parseUrlChar s ch = .dead) (p : Bytes) {pos : ℕ}
    {sc : UrlScan} (halive : (urlLoop id pos sc p).1 = true) : ch ∉ p := by
  induction p generalizing pos sc with
  | nil => simp
  | cons c p ih =>
      rw [List.mem_cons, not_or]
      constructor
      · rintro rfl
        rw [urlLoop_dead (hch _)] at halive
        exact absurd halive (by simp)
      · simp only [urlLoop] at halive
        split at halive
        · exact absurd halive (by simp)
        · exact ih halive

/-- A prefix of a URL the automaton lives through. -/
theorem alive_prefix (t z : Bytes) {pos : ℕ} {sc : UrlScan}
    (halive : (urlLoop id pos sc (t ++ z)).1 = true) : (urlLoop id pos sc t).1 = true := by
  induction t generalizing pos sc with
  | nil => rfl
  | cons c t ih =>
      simp only [List.cons_append, urlLoop] at halive ⊢
      split
      · next hnone => simp [hnone] at halive
      · next sc' hsome =>
          rw [hsome] at halive
          exact ih halive

/-- The host of a URL is that of what is left of it. -/
theorem host_append {t : Bytes} (hA : authority t ≠ []) (hpath : t.drop (pathOffset t) ≠ [])
    (z : Bytes) :
    hostComponent (t ++ z) = hostComponent t ∧ portComponent (t ++ z) = portComponent t := by
  have hpart : hostPart (t ++ z) = hostPart t := by
    simp only [hostPart, (authority_append hA hpath z).1]
  exact ⟨by rw [hostComponent, hpart, hostComponent], by rw [portComponent, hpart, portComponent]⟩

end ImageProxy.Http
