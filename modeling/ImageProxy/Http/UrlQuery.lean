import ImageProxy.Http.UrlParts

set_option autoImplicit false

/-! # The query of a URL, as a string and as the record has it

The query is what is between the first `?` and the first `#`. The loop goes through three phases:
before the `?`, in the query, in the fragment. -/

namespace ImageProxy.Http

open Ascii

def isQueryChar (c : UInt8) : Bool := c ≠ asc '#'

def isBeforeQueryChar (c : UInt8) : Bool := c ≠ asc '?' && c ≠ asc '#'

/-- The query of a URL, without its `?`. -/
def queryComponent (uri : Bytes) : Bytes :=
  ((uri.takeWhile isQueryChar).dropWhile isBeforeQueryChar).drop 1

/-- Where the query begins. -/
def queryOffset (uri : Bytes) : ℕ := (uri.takeWhile isBeforeQueryChar).length + 1

theorem queryComponent_cons {ch : UInt8} {p : Bytes} (hch : isBeforeQueryChar ch = true) :
    queryComponent (ch :: p) = queryComponent p := by
  have hin : isQueryChar ch = true := by
    simp only [isBeforeQueryChar, Bool.and_eq_true] at hch
    exact hch.2
  rw [queryComponent, List.takeWhile_cons_of_pos hin, List.dropWhile_cons_of_pos hch,
    queryComponent]

theorem queryOffset_cons {ch : UInt8} {p : Bytes} (hch : isBeforeQueryChar ch = true) :
    queryOffset (ch :: p) = queryOffset p + 1 := by
  rw [queryOffset, List.takeWhile_cons_of_pos hch, List.length_cons, queryOffset]

/-! ## The loop finds it -/

/-- The scan has found the query `Q` at `queryAt`. -/
structure UrlScan.QueryAt (sc : UrlScan) (queryAt : ℕ) (Q : Bytes) : Prop where
  query : sc.u.fieldSet .query = !Q.isEmpty
  queryData : Q ≠ [] → sc.u.fieldData .query = ⟨queryAt, Q.length⟩

theorem UrlScan.QueryAt.nothing {sc : UrlScan} {a : ℕ} (h : sc.QueryAt a []) (b : ℕ) :
    sc.QueryAt b [] := ⟨h.query, fun hne => absurd rfl hne⟩

/-- The states of the fragment. -/
def State.inFragment : State → Bool
  | .reqFragmentStart | .reqFragment => true
  | _ => false

/-- The states of the query. -/
def State.inQuery : State → Bool
  | .reqQueryStringStart | .reqQueryString => true
  | _ => false

/-- A turn that does not lead into the query leaves what is found of it. -/
theorem urlTurn_otherPart {pos : ℕ} {ch : UInt8} {sc sc' : UrlScan} {queryAt : ℕ} {Q : Bytes}
    (hs : (parseUrlChar sc.state ch).urlPart ≠ some (some .query))
    (hturn : urlTurn id pos ch sc = some sc') (h : sc.QueryAt queryAt Q) :
    sc'.state = parseUrlChar sc.state ch ∧ sc'.QueryAt queryAt Q ∧
      (sc.oldUf ≠ some .query → sc'.oldUf ≠ some .query) := by
  simp only [urlTurn] at hturn
  revert hs hturn
  generalize parseUrlChar sc.state ch = s
  intro hs hturn
  rcases hpart : s.urlPart with _ | _ | uf
  · simp [hpart] at hturn
  · simp only [hpart, Option.some.injEq] at hturn
    subst hturn
    exact ⟨rfl, ⟨h.query, h.queryData⟩, id⟩
  · have hne : UrlPart.query ≠ uf := fun heq => hs (by rw [hpart, heq])
    simp only [hpart] at hturn
    split at hturn <;> cases hturn
    · refine ⟨rfl, ⟨h.query, fun hQ => ?_⟩, id⟩
      simpa [Url.more, Url.setLen, hne] using h.queryData hQ
    · refine ⟨rfl, ⟨?_, fun hQ => ?_⟩, fun _ => ?_⟩
      · simpa [Url.start, hne] using h.query
      · simpa [Url.start, hne] using h.queryData hQ
      · simpa using hne.symm

theorem parseUrlChar_inFragment {s : State} (ch : UInt8) (h : s.inFragment = true) :
    parseUrlChar s ch = .dead ∨ (parseUrlChar s ch).inFragment = true := by
  unfold parseUrlChar
  split
  · exact Or.inl rfl
  split
  · exact Or.inl rfl
  cases s <;> simp only <;> first
    | exact absurd h (by decide)
    | (split_ifs <;> simp [State.inFragment])

theorem State.urlPart_inFragment {s : State} (h : s.inFragment = true) :
    s.urlPart ≠ some (some .query) := by
  cases s <;> first | exact absurd h (by decide) | simp [State.urlPart]

theorem urlLoop_inFragment (p : Bytes) {pos : ℕ} {sc : UrlScan} {queryAt : ℕ} {Q : Bytes}
    (hs : sc.state.inFragment = true) (h : sc.QueryAt queryAt Q) :
    (urlLoop id pos sc p).2.QueryAt queryAt Q := by
  induction p generalizing pos sc with
  | nil => exact h
  | cons ch p ih =>
      simp only [urlLoop]
      split
      · exact h
      · next sc' hturn =>
          rcases parseUrlChar_inFragment ch hs with hdead | hin
          · simp [urlTurn, hdead, State.urlPart] at hturn
          · obtain ⟨hstate, hquery, -⟩ := urlTurn_otherPart (State.urlPart_inFragment hin) hturn h
            exact ih (by rw [hstate]; exact hin) hquery

/-- A `#` begins the fragment. -/
theorem urlLoop_fragment {pos : ℕ} {ch : UInt8} {p : Bytes} {sc : UrlScan} {queryAt : ℕ} {Q : Bytes}
    (hs : parseUrlChar sc.state ch = .reqFragmentStart) (h : sc.QueryAt queryAt Q) :
    (urlLoop id pos sc (ch :: p)).2.QueryAt queryAt Q := by
  rw [urlLoop_delimiter (by rw [hs]; rfl), hs]
  exact urlLoop_inFragment p rfl ⟨h.query, h.queryData⟩

theorem parseUrlChar_inQuery {s : State} (ch : UInt8) (h : s.inQuery = true) :
    parseUrlChar s ch = .dead ∨
    (parseUrlChar s ch = .reqQueryString ∧ isQueryChar ch = true) ∨
    (parseUrlChar s ch = .reqFragmentStart ∧ isQueryChar ch = false) := by
  have hchar : parseUrlChar s ch = .dead ∨ parseUrlChar s ch = parseUrlChar.query ch := by
    unfold parseUrlChar
    split
    · exact Or.inl rfl
    split
    · exact Or.inl rfl
    cases s <;> first | exact absurd h (by decide) | exact Or.inr rfl
  rcases hchar with hdead | hquery
  · exact Or.inl hdead
  · rw [hquery, parseUrlChar.query]
    split_ifs with hurl hmark hhash
    · refine Or.inr (Or.inl ⟨rfl, ?_⟩)
      simp only [isUrlChar, Bool.and_eq_true, bne_iff_ne] at hurl
      simp [isQueryChar, hurl.1.2]
    · exact Or.inr (Or.inl ⟨rfl, by subst hmark; decide⟩)
    · exact Or.inr (Or.inr ⟨rfl, by subst hhash; decide⟩)
    · exact Or.inl rfl

theorem urlLoop_inQuery (p : Bytes) (pos : ℕ) (sc : UrlScan) {queryAt : ℕ} {Q : Bytes}
    (hs : sc.state.inQuery = true) (hold : Q ≠ [] → sc.oldUf = some .query)
    (hold' : Q = [] → sc.oldUf ≠ some .query ∧ queryAt = pos) (h : sc.QueryAt queryAt Q)
    (halive : (urlLoop id pos sc p).1 = true) :
    (urlLoop id pos sc p).2.QueryAt queryAt (Q ++ p.takeWhile isQueryChar) := by
  induction p generalizing pos sc Q with
  | nil => simpa [urlLoop] using h
  | cons ch p ih =>
      rcases parseUrlChar_inQuery ch hs with hdead | ⟨hquery, hch⟩ | ⟨hfragment, hch⟩
      · rw [urlLoop_dead hdead] at halive
        exact absurd halive (by simp)
      · -- another character of the query: the first one starts the field
        have hpart : (parseUrlChar sc.state ch).urlPart = some (some .query) := by
          rw [hquery]
          rfl
        have hstarted : Q ≠ [] → sc.oldUf = some .query ∧ sc.u.fieldSet .query = true ∧
            sc.u.fieldData .query = ⟨queryAt, Q.length⟩ :=
          fun hQ => ⟨hold hQ, by simp [h.query, hQ], h.queryData hQ⟩
        obtain ⟨u', hturn, hset, hdata, -⟩ := urlTurn_part hpart hstarted hold'
        rw [urlLoop, hturn] at halive ⊢
        have hrest := ih (pos + 1) ⟨parseUrlChar sc.state ch, some .query, _, u'⟩
          (by rw [hquery]; rfl) (fun _ => rfl) (fun hnil => absurd hnil (by simp))
          (⟨hset.trans (by simp), fun _ => hdata⟩ : UrlScan.QueryAt _ queryAt (Q ++ [ch])) halive
        rw [List.takeWhile_cons_of_pos hch]
        simpa using hrest
      · rw [List.takeWhile_cons_of_neg (by simp [hch]), List.append_nil]
        exact urlLoop_fragment hfragment h

theorem parseUrlChar_server_afterPath {ch : UInt8} (h : ch ≠ asc '?') :
    (parseUrlChar.server ch).afterPath = false := by
  unfold parseUrlChar.server
  split_ifs <;> rfl

theorem parseUrlChar_beforeQuery {s : State} (ch : UInt8) (h : s.afterPath = false) :
    parseUrlChar s ch = .dead ∨
    (parseUrlChar s ch = .reqQueryStringStart ∧ ch = asc '?') ∨
    (parseUrlChar s ch = .reqFragmentStart ∧ ch = asc '#') ∨
    ((parseUrlChar s ch).afterPath = false ∧ isBeforeQueryChar ch = true) := by
  by_cases hmark : ch = asc '?'
  · subst hmark
    cases s <;> first | exact absurd h (by decide) | decide
  by_cases hhash : ch = asc '#'
  · subst hhash
    cases s <;> first | exact absurd h (by decide) | decide
  have hch : isBeforeQueryChar ch = true := by simp [isBeforeQueryChar, hmark, hhash]
  refine Or.inr (Or.inr (Or.inr ⟨?_, hch⟩))
  unfold parseUrlChar
  split
  · rfl
  split
  · rfl
  cases s <;> simp only <;> first
    | exact absurd h (by decide)
    | exact parseUrlChar_server_afterPath hmark
    | (split_ifs <;> first | rfl | exact parseUrlChar_server_afterPath hmark)
    | rfl

theorem State.urlPart_beforeQuery {s : State} (h : s.afterPath = false) :
    s.urlPart ≠ some (some .query) := by
  cases s <;> first | exact absurd h (by decide) | simp [State.urlPart]

theorem urlLoop_beforeQuery (p : Bytes) (pos : ℕ) (sc : UrlScan)
    (hs : sc.state.afterPath = false) (hold : sc.oldUf ≠ some .query) (h : sc.QueryAt 0 [])
    (halive : (urlLoop id pos sc p).1 = true) :
    (urlLoop id pos sc p).2.QueryAt (pos + queryOffset p) (queryComponent p) := by
  induction p generalizing pos sc with
  | nil => exact h.nothing _
  | cons ch p ih =>
      rcases parseUrlChar_beforeQuery ch hs with hdead | ⟨hquery, rfl⟩ | ⟨hfragment, rfl⟩
        | ⟨hbefore, hch⟩
      · rw [urlLoop_dead hdead] at halive
        exact absurd halive (by simp)
      · -- the `?`
        rw [urlLoop_delimiter (by rw [hquery]; rfl), hquery] at halive ⊢
        have hoffset : queryOffset (asc '?' :: p) = 1 := rfl
        have hcomponent : queryComponent (asc '?' :: p) = [] ++ p.takeWhile isQueryChar := by
          rw [queryComponent, List.takeWhile_cons_of_pos (by decide),
            List.dropWhile_cons_of_neg (by decide)]
          rfl
        rw [hoffset, hcomponent]
        exact urlLoop_inQuery p _ _ rfl (fun hne => absurd rfl hne) (fun _ => ⟨hold, rfl⟩)
          ⟨h.query, fun hne => absurd rfl hne⟩ halive
      · have hcomponent : queryComponent (asc '#' :: p) = [] := by
          rw [queryComponent, List.takeWhile_cons_of_neg (by decide)]
          rfl
        rw [hcomponent]
        exact urlLoop_fragment hfragment (h.nothing _)
      · have hoffset : pos + queryOffset (ch :: p) = pos + 1 + queryOffset p := by
          rw [queryOffset_cons hch]
          omega
        rw [hoffset, queryComponent_cons hch]
        match hturn : urlTurn id pos ch sc with
        | none => simp [urlLoop, hturn] at halive
        | some sc' =>
            obtain ⟨hstate, hnone, hold'⟩ :=
              urlTurn_otherPart (State.urlPart_beforeQuery hbefore) hturn h
            rw [urlLoop, hturn] at halive ⊢
            exact ih (pos + 1) sc' (by rw [hstate]; exact hbefore) (hold' hold) hnone halive

/-- **A URL the automaton lives through has the query it has as a string.** -/
theorem urlLoop_query (uri : Bytes) (halive : (urlLoop id 0 UrlScan.init uri).1 = true) :
    (urlLoop id 0 UrlScan.init uri).2.QueryAt (queryOffset uri) (queryComponent uri) := by
  have hinit : UrlScan.init.QueryAt 0 [] := ⟨rfl, fun hne => absurd rfl hne⟩
  have hquery := urlLoop_beforeQuery uri 0 UrlScan.init rfl (by simp [UrlScan.init]) hinit halive
  rwa [Nat.zero_add] at hquery

/-- **The query the record names**: the query component, cut out at sixteen bits. -/
theorem httpParserParseUrl_query (uri : Bytes)
    (halive : (urlLoop id 0 UrlScan.init uri).1 = true) :
    (httpParserParseUrl uri).2.fieldSet .query = !(queryComponent uri).isEmpty ∧
    (queryComponent uri ≠ [] → (httpParserParseUrl uri).2.piece .query uri
      = (uri.drop (u16 (queryOffset uri))).take (u16 (queryComponent uri).length)) := by
  have hquery := urlLoop_query uri halive
  obtain ⟨hset, hdata⟩ := httpParserParseUrl_part uri (by simp : UrlPart.query ≠ .host) (by simp)
    (by simp)
  refine ⟨hset.trans hquery.query, fun hne => ?_⟩
  rw [Url.piece, hdata, hquery.queryData hne]

/-- The query is where `queryOffset` says. -/
theorem drop_queryOffset (uri : Bytes) (hne : queryComponent uri ≠ []) :
    ∃ rest, uri.drop (queryOffset uri) = queryComponent uri ++ rest := by
  induction uri with
  | nil => exact absurd rfl hne
  | cons ch p ih =>
      by_cases hch : isBeforeQueryChar ch = true
      · rw [queryComponent_cons hch] at hne ⊢
        rw [queryOffset_cons hch, List.drop_succ_cons]
        exact ih hne
      · by_cases hin : isQueryChar ch = true
        · refine ⟨p.dropWhile isQueryChar, ?_⟩
          rw [queryOffset, List.takeWhile_cons_of_neg hch, queryComponent,
            List.takeWhile_cons_of_pos hin, List.dropWhile_cons_of_neg hch]
          exact List.takeWhile_append_dropWhile.symm
        · rw [queryComponent, List.takeWhile_cons_of_neg hin] at hne
          exact absurd rfl hne

end ImageProxy.Http
