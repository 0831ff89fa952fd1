import ImageProxy.Http.Strings
import ImageProxy.Http.UrlParts

set_option autoImplicit false

/-! # The bytes of the parts of a URL

`http_parser_parse_url` gives up at the first byte that no URL has. What it has put into the record by
then lies before that byte, so the host and the path have visible bytes only, whether it succeeds or
not (`httpParserParseUrl_visible`). -/

namespace ImageProxy.Http

open Ascii

/-- The host and the path end at `n` at the latest. -/
def Url.Within (u : Url) (n : ℕ) : Prop :=
  ∀ part, part = .host ∨ part = .path → (u.fieldData part).off + (u.fieldData part).len ≤ n

theorem Url.Within.mono {u : Url} {n n' : ℕ} (h : u.Within n) (hle : n ≤ n') : u.Within n' :=
  fun part hpart => Nat.le_trans (h part hpart) hle

variable {narrow : ℕ → ℕ}

/-- One more byte of a part that ends at `pos`. -/
theorem Url.Within.more (hnarrow : ∀ n, narrow n ≤ n) {u : Url} {pos : ℕ} (h : u.Within pos)
    (part : UrlPart) : (u.more narrow part).Within (pos + 1) := by
  intro part' hpart'
  have hold := h part' hpart'
  by_cases heq : part' = part
  · subst heq
    have hlen := hnarrow ((u.fieldData part').len + 1)
    simp only [Url.more, Url.setLen, Function.update_self]
    omega
  · simp only [Url.more, Url.setLen, Function.update_of_ne heq]
    omega

/-- A part begins at `pos`. -/
theorem Url.Within.start (hnarrow : ∀ n, narrow n ≤ n) {u : Url} {pos len : ℕ} (h : u.Within pos)
    (part : UrlPart) : (u.start narrow part pos len).Within (pos + len) := by
  intro part' hpart'
  have hold := h part' hpart'
  by_cases heq : part' = part
  · subst heq
    have hoff := hnarrow pos
    simp only [Url.start, Function.update_self]
    omega
  · simp only [Url.start, Function.update_of_ne heq]
    omega

theorem urlTurn_within (hnarrow : ∀ n, narrow n ≤ n) {pos : ℕ} {ch : UInt8} {sc sc' : UrlScan}
    (h : sc.u.Within pos) (hturn : urlTurn narrow pos ch sc = some sc') :
    sc'.u.Within (pos + 1) ∧ isVisible ch = true := by
  have halive : parseUrlChar sc.state ch ≠ .dead := by
    intro hdead
    simp [urlTurn, hdead, State.urlPart] at hturn
  refine ⟨?_, isVisible_of_alive halive⟩
  simp only [urlTurn] at hturn
  split at hturn
  · exact absurd hturn (by simp)
  · obtain rfl := Option.some.inj hturn
    exact h.mono (Nat.le_succ pos)
  · next uf _ =>
      split at hturn
      · obtain rfl := Option.some.inj hturn
        exact h.more hnarrow uf
      · obtain rfl := Option.some.inj hturn
        exact h.start hnarrow uf

/-- `t` is a beginning of `uri` that has visible bytes only, and the host and the path are in it. -/
structure Url.Covered (u : Url) (uri t : Bytes) : Prop where
  isPrefix : t <+: uri
  visible : ∀ b ∈ t, isVisible b = true
  within : u.Within t.length

theorem urlLoop_covered (hnarrow : ∀ n, narrow n ≤ n) {uri t : Bytes} (p : Bytes) {sc : UrlScan}
    (h : sc.u.Covered uri t) (huri : uri = t ++ p) :
    ∃ t', (urlLoop narrow t.length sc p).2.u.Covered uri t' := by
  induction p generalizing t sc with
  | nil => exact ⟨t, h⟩
  | cons ch p ih =>
      rw [urlLoop]
      cases hturn : urlTurn narrow t.length ch sc with
      | none => exact ⟨t, h⟩
      | some sc' =>
          obtain ⟨hwithin, hch⟩ := urlTurn_within hnarrow h.within hturn
          have hlen : (t ++ [ch]).length = t.length + 1 := by rw [List.length_append]; rfl
          have hnext : sc'.u.Covered uri (t ++ [ch]) := by
            refine ⟨⟨p, by rw [huri, List.append_assoc]; rfl⟩, fun b hb => ?_, hlen ▸ hwithin⟩
            rcases List.mem_append.1 hb with hb | hb
            · exact h.visible b hb
            · rw [List.mem_singleton.1 hb]
              exact hch
          rw [← hlen]
          exact ih hnext (by rw [huri, List.append_assoc]; rfl)

/-! ## The host -/

/-- The states before the host. -/
def HostState.beforeHost : HostState → Bool
  | .userinfoStart | .userinfo | .hostStart | .hostV6Start => true
  | _ => false

/-- Before the host there has been none, and after it there is no other. -/
theorem parseHostChar_order (s : HostState) (ch : UInt8) :
    ((parseHostChar s ch).beforeHost = true → s.beforeHost = true) ∧
    (parseHostChar s ch = .host → s = .host ∨ s.beforeHost = true) ∧
    (parseHostChar s ch = .hostV6 → s = .hostV6 ∨ s.beforeHost = true) := by
  cases s <;> simp only [parseHostChar, parseHostChar.afterHost, parseHostChar.insideV6] <;>
    (try split_ifs) <;> decide

/-- The host ends at `pos` at the latest; it is empty before it begins. -/
structure Url.HostBy (u : Url) (s : HostState) (pos : ℕ) : Prop where
  ends : (u.fieldData .host).off + (u.fieldData .host).len ≤ pos
  empty : s.beforeHost = true → (u.fieldData .host).len = 0

/-- One more byte of the host, or its first one. -/
theorem Url.HostBy.more (hnarrow : ∀ n, narrow n ≤ n) {u : Url} {s newS : HostState} {pos : ℕ}
    (h : u.HostBy s pos) (hs : s = newS ∨ s.beforeHost = true) (hnew : newS.beforeHost = false) :
    ((if s ≠ newS then u.setOff narrow .host pos else u).more narrow .host).HostBy newS (pos + 1) := by
  refine ⟨?_, fun hbefore => absurd (hbefore.symm.trans hnew) (by simp)⟩
  have hends := h.ends
  by_cases hsame : s = newS
  · have hlen := hnarrow ((u.fieldData .host).len + 1)
    rw [if_neg (not_not.2 hsame)]
    simp only [Url.more, Url.setLen, Function.update_self]
    omega
  · -- its first byte: nothing has been counted before it
    have hempty := h.empty (hs.resolve_left hsame)
    have hoff := hnarrow pos
    have hlen := hnarrow (0 + 1)
    rw [if_pos hsame]
    simp only [Url.more, Url.setLen, Url.setOff, Function.update_self, hempty]
    omega

theorem Url.HostBy.turn (hnarrow : ∀ n, narrow n ≤ n) {u : Url} {s : HostState} {pos : ℕ}
    (h : u.HostBy s pos) (ch : UInt8) :
    (hostTurn narrow pos s (parseHostChar s ch) u).HostBy (parseHostChar s ch) (pos + 1) := by
  obtain ⟨hbefore, hhost, hv6⟩ := parseHostChar_order s ch
  generalize parseHostChar s ch = newS at hbefore hhost hv6
  -- nothing but the host itself touches its offset and length
  have hkeep : ∀ u' : Url, u'.fieldData .host = u.fieldData .host → u'.HostBy newS (pos + 1) :=
    fun u' hsame => ⟨by rw [hsame]; exact Nat.le_succ_of_le h.ends,
      fun hnew => by rw [hsame]; exact h.empty (hbefore hnew)⟩
  cases newS with
  | host => exact h.more hnarrow (hhost rfl) rfl
  | hostV6 => exact h.more hnarrow (hv6 rfl) rfl
  | hostPort | userinfo =>
      refine hkeep _ ?_
      simp only [hostTurn]
      split_ifs <;> rfl
  | dead | userinfoStart | hostStart | hostV6Start | hostV6End | hostPortStart => exact hkeep _ rfl

theorem hostLoop_host_within (hnarrow : ∀ n, narrow n ≤ n) (p : Bytes) {pos : ℕ} {s : HostState}
    {u : Url} (h : u.HostBy s pos) :
    ((hostLoop narrow pos s u p).2.fieldData .host).off
      + ((hostLoop narrow pos s u p).2.fieldData .host).len ≤ pos + p.length := by
  induction p generalizing pos s u with
  | nil => exact h.ends
  | cons ch p ih =>
      have hends := h.ends
      rw [hostLoop, List.length_cons]
      split
      · dsimp only
        omega
      · have hrest := ih (h.turn hnarrow ch)
        omega

/-- `http_parse_host` looks for the host in what has been found for it. -/
theorem parseHost_within (hnarrow : ∀ n, narrow n ≤ n) (buf : Bytes) {u : Url} {n : ℕ}
    (h : u.Within n) (foundAt : Bool) : (parseHost narrow buf u foundAt).2.Within n := by
  intro part hpart
  have hold := h part hpart
  have hlen : (u.piece .host buf).length ≤ (u.fieldData .host).len := List.length_take_le _ _
  have hstart : Url.HostBy (u.setLen .host 0) (if foundAt then .userinfoStart else .hostStart)
      (u.fieldData .host).off := by
    refine ⟨?_, fun _ => ?_⟩
    · simp [Url.setLen]
    · simp [Url.setLen]
  -- the host is looked for anew, the path stays where the loop over the URL found it
  rcases hpart with rfl | rfl
  · have hhost := hostLoop_host_within hnarrow (u.piece .host buf) hstart
    simp only [parseHost]
    omega
  · have hframe := (hostLoop_frame narrow (u.piece .host buf) (u.fieldData .host).off
      (if foundAt then .userinfoStart else .hostStart) (u.setLen .host 0)).2 .path (by decide)
      (by decide) (by decide)
    simp only [parseHost, hframe]
    exact hold

/-! ## The record -/

theorem u16_le (n : ℕ) : u16 n ≤ n := Nat.mod_le n _

theorem httpParserParseUrl_covered (uri : Bytes) :
    ∃ t, (httpParserParseUrl uri).2.Covered uri t := by
  have hinit : Url.Covered UrlScan.init.u uri [] := by
    refine ⟨List.nil_prefix, fun b hb => absurd hb List.not_mem_nil, fun part _ => ?_⟩
    exact Nat.le_refl 0
  obtain ⟨t, hloop⟩ := urlLoop_covered u16_le uri hinit rfl
  refine ⟨t, hloop.isPrefix, hloop.visible, ?_⟩
  revert hloop
  have hstart : (⟨.reqSpacesBeforeUrl, none, false, Url.empty⟩ : UrlScan) = UrlScan.init := rfl
  simp only [httpParserParseUrl, parseUrl, Bool.false_eq_true, if_false, hstart, Bool.false_and,
    List.length_nil]
  generalize urlLoop u16 0 UrlScan.init uri = r
  intro hloop
  have hhost := parseHost_within u16_le uri hloop.within r.2.foundAt
  split_ifs <;> first | exact hloop.within | exact hhost

/-- **The host and the path have visible bytes only**, whatever the URL. -/
theorem httpParserParseUrl_visible (uri : Bytes) {part : UrlPart}
    (hpart : part = .host ∨ part = .path) :
    ∀ b ∈ (httpParserParseUrl uri).2.piece part uri, isVisible b = true := by
  obtain ⟨t, ⟨rest, rfl⟩, hvisible, hwithin⟩ := httpParserParseUrl_covered uri
  intro b hb
  refine hvisible b ?_
  have hle := hwithin part hpart
  rw [Url.piece, List.take_drop, List.take_append_of_le_length (by omega)] at hb
  exact List.mem_of_mem_take (List.mem_of_mem_drop hb)

end ImageProxy.Http
