import ImageProxy.Http.Url

set_option autoImplicit false

/-! # The path of a URL

The loop of `http_parser_parse_url` splits a URL with an automaton. What it finds is said here without
one: the authority and the path are cut out of the string. The record agrees with that (`urlLoop_parts`)
up to its sixteen bits. -/

namespace ImageProxy.Http

open Ascii

/-! ## The parts of a URL as strings -/

/-- A target that begins with its path. -/
def originForm (uri : Bytes) : Bool := uri.head? = some (asc '/') || uri.head? = some (asc '*')

/-- What follows `schema://`. -/
def afterSchema (uri : Bytes) : Bytes := (uri.dropWhile (· ≠ asc ':')).drop 3

def isAuthorityChar (c : UInt8) : Bool := c ≠ asc '/' && c ≠ asc '?'

/-- The part between `schema://` and the path or the query. -/
def authority (uri : Bytes) : Bytes :=
  if originForm uri then [] else (afterSchema uri).takeWhile isAuthorityChar

/-- Where the authority begins, or would. -/
def authorityOffset (uri : Bytes) : ℕ := uri.length - (afterSchema uri).length

/-- Where the path begins, or would. -/
def pathOffset (uri : Bytes) : ℕ :=
  if originForm uri then 0 else authorityOffset uri + (authority uri).length

def isPathChar (c : UInt8) : Bool := c ≠ asc '?' && c ≠ asc '#'

/-- **The path component**: up to the query and the fragment. -/
def pathComponent (uri : Bytes) : Bytes := (uri.drop (pathOffset uri)).takeWhile isPathChar

theorem afterSchema_suffix (uri : Bytes) : afterSchema uri <:+ uri :=
  (List.drop_suffix _ _).trans (List.dropWhile_suffix _)

theorem drop_length_takeWhile (f : UInt8 → Bool) (l : Bytes) :
    l.drop (l.takeWhile f).length = l.dropWhile f := by
  induction l with
  | nil => rfl
  | cons c l ih => by_cases h : f c <;> simp [h, ih]

theorem drop_authorityOffset (uri : Bytes) : uri.drop (authorityOffset uri) = afterSchema uri :=
  (List.suffix_iff_eq_drop.1 (afterSchema_suffix uri)).symm

/-! ## The loop finds these parts -/

/-- The states after the path. -/
def State.afterPath : State → Bool
  | .reqQueryStringStart | .reqQueryString | .reqFragmentStart | .reqFragment => true
  | _ => false

/-- Two scans that differ in what comes after the path at most. -/
structure UrlScan.SamePath (sc sc' : UrlScan) : Prop where
  foundAt : sc'.foundAt = sc.foundAt
  fieldSet : ∀ part, part ≠ .query → part ≠ .fragment → sc'.u.fieldSet part = sc.u.fieldSet part
  fieldData : ∀ part, part ≠ .query → part ≠ .fragment → sc'.u.fieldData part = sc.u.fieldData part

theorem UrlScan.SamePath.refl (sc : UrlScan) : SamePath sc sc :=
  ⟨rfl, fun _ _ _ => rfl, fun _ _ _ => rfl⟩

theorem UrlScan.SamePath.trans {a b c : UrlScan} (h : SamePath a b) (h' : SamePath b c) :
    SamePath a c :=
  ⟨h'.foundAt.trans h.foundAt,
    fun part hq hf => (h'.fieldSet part hq hf).trans (h.fieldSet part hq hf),
    fun part hq hf => (h'.fieldData part hq hf).trans (h.fieldData part hq hf)⟩

theorem parseUrlChar_query (ch : UInt8) : parseUrlChar.query ch = .dead ∨
    parseUrlChar.query ch = .reqQueryString ∨ parseUrlChar.query ch = .reqFragmentStart := by
  simp only [parseUrlChar.query]
  split_ifs <;> simp

/-- After the path comes what is after the path. -/
theorem parseUrlChar_afterPath {s : State} (ch : UInt8) (h : s.afterPath = true) :
    parseUrlChar s ch = .dead ∨ (parseUrlChar s ch).afterPath = true := by
  unfold parseUrlChar
  split
  · exact Or.inl rfl
  split
  · exact Or.inl rfl
  cases s <;> simp only <;> first
    | exact absurd h (by decide)
    | (split_ifs <;> simp [State.afterPath])
    | (rcases parseUrlChar_query ch with hq | hq | hq <;> simp [hq, State.afterPath])

theorem urlTurn_afterPath {narrow : ℕ → ℕ} {pos : ℕ} {ch : UInt8} {sc sc' : UrlScan}
    (h : sc.state.afterPath = true) (hturn : urlTurn narrow pos ch sc = some sc') :
    sc'.state.afterPath = true ∧ sc.SamePath sc' := by
  rcases parseUrlChar_afterPath ch h with hdead | hafter
  · simp [urlTurn, hdead, State.urlPart] at hturn
  · simp only [urlTurn] at hturn
    revert hafter hturn
    generalize parseUrlChar sc.state ch = s
    intro hafter hturn
    cases s <;> first | exact absurd hafter (by decide) | skip
    case reqQueryStringStart | reqFragmentStart =>
      simp only [State.urlPart, Option.some.injEq] at hturn
      subst hturn
      exact ⟨rfl, rfl, fun _ _ _ => rfl, fun _ _ _ => rfl⟩
    case reqQueryString | reqFragment =>
      simp only [State.urlPart, reduceCtorEq, decide_false, Bool.or_false] at hturn
      split at hturn <;> cases hturn
      · refine ⟨rfl, rfl, fun _ _ _ => rfl, fun part hq hf => ?_⟩
        simp [Url.more, Url.setLen, hq, hf]
      · refine ⟨rfl, rfl, fun part hq hf => ?_, fun part hq hf => ?_⟩ <;>
          simp [Url.start, hq, hf]

theorem urlLoop_samePath {narrow : ℕ → ℕ} (p : Bytes) {pos : ℕ} {sc : UrlScan}
    (h : sc.state.afterPath = true) : sc.SamePath (urlLoop narrow pos sc p).2 := by
  induction p generalizing pos sc with
  | nil => exact UrlScan.SamePath.refl sc
  | cons ch p ih =>
      simp only [urlLoop]
      split
      · exact UrlScan.SamePath.refl sc
      · next sc' hturn =>
          obtain ⟨hafter, hsame⟩ := urlTurn_afterPath h hturn
          exact hsame.trans (ih hafter)

/-- The scan has found the authority `A` at `hostAt` and the path `P` at `pathAt`. -/
structure UrlScan.Parts (sc : UrlScan) (hostAt : ℕ) (A : Bytes) (pathAt : ℕ) (P : Bytes) : Prop where
  foundAt : sc.foundAt = decide (asc '@' ∈ A)
  host : sc.u.fieldSet .host = !A.isEmpty
  hostData : A ≠ [] → sc.u.fieldData .host = ⟨hostAt, A.length⟩
  path : sc.u.fieldSet .path = !P.isEmpty
  pathData : P ≠ [] → sc.u.fieldData .path = ⟨pathAt, P.length⟩
  port : sc.u.fieldSet .port = false

theorem UrlScan.Parts.of_samePath {sc sc' : UrlScan} {hostAt pathAt : ℕ} {A P : Bytes}
    (h : sc.Parts hostAt A pathAt P) (hsame : sc.SamePath sc') : sc'.Parts hostAt A pathAt P where
  foundAt := hsame.foundAt.trans h.foundAt
  host := (hsame.fieldSet .host (by simp) (by simp)).trans h.host
  hostData := fun hA => (hsame.fieldData .host (by simp) (by simp)).trans (h.hostData hA)
  path := (hsame.fieldSet .path (by simp) (by simp)).trans h.path
  pathData := fun hP => (hsame.fieldData .path (by simp) (by simp)).trans (h.pathData hP)
  port := (hsame.fieldSet .port (by simp) (by simp)).trans h.port

/-- A delimiter after which the path is over. -/
theorem urlLoop_leave (pos : ℕ) {ch : UInt8} {p : Bytes} {sc : UrlScan} {hostAt pathAt : ℕ}
    {A P : Bytes} (h : sc.Parts hostAt A pathAt P)
    (hs : (parseUrlChar sc.state ch).urlPart = some none)
    (hafter : (parseUrlChar sc.state ch).afterPath = true) :
    (urlLoop id pos sc (ch :: p)).2.Parts hostAt A pathAt P := by
  have hturn : urlTurn id pos ch sc = some { sc with state := parseUrlChar sc.state ch } := by
    simp only [urlTurn, hs]
  have hsame : sc.SamePath { sc with state := parseUrlChar sc.state ch } :=
    ⟨rfl, fun _ _ _ => rfl, fun _ _ _ => rfl⟩
  rw [urlLoop, hturn]
  exact (h.of_samePath hsame).of_samePath (urlLoop_samePath p hafter)

theorem parseUrlChar_path (ch : UInt8) : parseUrlChar .reqPath ch = .dead ∨
    (parseUrlChar .reqPath ch = .reqPath ∧ isPathChar ch = true) ∨
    (parseUrlChar .reqPath ch = .reqQueryStringStart ∧ isPathChar ch = false) ∨
    (parseUrlChar .reqPath ch = .reqFragmentStart ∧ isPathChar ch = false) := by
  unfold parseUrlChar
  split
  · exact Or.inl rfl
  split
  · exact Or.inl rfl
  simp only
  split_ifs with hurl hquery hfragment
  · refine Or.inr (Or.inl ⟨rfl, ?_⟩)
    simp only [isUrlChar, Bool.and_eq_true, bne_iff_ne] at hurl
    simp [isPathChar, hurl.2, hurl.1.2]
  · exact Or.inr (Or.inr (Or.inl ⟨rfl, by subst hquery; decide⟩))
  · exact Or.inr (Or.inr (Or.inr ⟨rfl, by subst hfragment; decide⟩))
  · exact Or.inl rfl

theorem urlLoop_path (p : Bytes) (pos : ℕ) (sc : UrlScan) {hostAt pathAt : ℕ} {A P : Bytes}
    (hs : sc.state = .reqPath) (hold : sc.oldUf = some .path) (h : sc.Parts hostAt A pathAt P)
    (hP : P ≠ []) (halive : (urlLoop id pos sc p).1 = true) :
    (urlLoop id pos sc p).2.Parts hostAt A pathAt (P ++ p.takeWhile isPathChar) := by
  induction p generalizing pos sc P with
  | nil => simpa [urlLoop] using h
  | cons ch p ih =>
      rcases parseUrlChar_path ch with hdead | ⟨hpath, hch⟩ | ⟨hquery, hch⟩ | ⟨hfragment, hch⟩
      · simp [urlLoop, urlTurn, hs, hdead, State.urlPart] at halive
      · have hturn : urlTurn id pos ch sc = some { sc with u := sc.u.more id .path } := by
          simp [urlTurn, hs, hpath, State.urlPart, hold]
        have hmore : UrlScan.Parts { sc with u := sc.u.more id .path } hostAt A pathAt (P ++ [ch]) :=
          { foundAt := h.foundAt
            host := h.host
            hostData := fun hA => by simpa [Url.more, Url.setLen] using h.hostData hA
            path := by
              have hset := h.path
              cases P with
              | nil => exact absurd rfl hP
              | cons c P => simpa [Url.more, Url.setLen] using hset
            pathData := fun _ => by simp [Url.more, Url.setLen, h.pathData hP]
            port := h.port }
        rw [urlLoop, hturn] at halive ⊢
        have hrest := ih (pos + 1) { sc with u := sc.u.more id .path } hs hold hmore (by simp) halive
        rw [List.takeWhile_cons_of_pos hch]
        simpa using hrest
      · rw [List.takeWhile_cons_of_neg (by simp [hch]), List.append_nil]
        exact urlLoop_leave _ h (by rw [hs, hquery]; rfl) (by rw [hs, hquery]; rfl)
      · rw [List.takeWhile_cons_of_neg (by simp [hch]), List.append_nil]
        exact urlLoop_leave _ h (by rw [hs, hfragment]; rfl) (by rw [hs, hfragment]; rfl)

/-- The first byte of the path. -/
theorem urlLoop_startPath {pos : ℕ} {ch : UInt8} {p : Bytes} {sc : UrlScan} {hostAt : ℕ} {A : Bytes}
    (h : sc.Parts hostAt A 0 []) (hs : parseUrlChar sc.state ch = .reqPath)
    (hold : sc.oldUf ≠ some .path) (hch : isPathChar ch = true)
    (halive : (urlLoop id pos sc (ch :: p)).1 = true) :
    (urlLoop id pos sc (ch :: p)).2.Parts hostAt A pos ((ch :: p).takeWhile isPathChar) := by
  have hturn : urlTurn id pos ch sc = some { sc with
      state := .reqPath
      oldUf := some .path
      u := sc.u.start id .path pos 1 } := by
    simp [urlTurn, hs, State.urlPart, hold]
  have hstart : UrlScan.Parts { sc with
      state := .reqPath
      oldUf := some .path
      u := sc.u.start id .path pos 1 } hostAt A pos [ch] :=
    { foundAt := h.foundAt
      host := by simpa [Url.start] using h.host
      hostData := fun hA => by simpa [Url.start] using h.hostData hA
      path := by simp [Url.start]
      pathData := fun _ => by simp [Url.start]
      port := by simpa [Url.start] using h.port }
  rw [urlLoop, hturn] at halive ⊢
  rw [List.takeWhile_cons_of_pos hch]
  exact urlLoop_path p _ _ rfl rfl hstart (by simp) halive

theorem parseUrlChar_server (ch : UInt8) : parseUrlChar.server ch = .dead ∨
    (parseUrlChar.server ch = .reqPath ∧ ch = asc '/') ∨
    (parseUrlChar.server ch = .reqQueryStringStart ∧ ch = asc '?') ∨
    (parseUrlChar.server ch = .reqServerWithAt ∧ ch = asc '@') ∨
    (parseUrlChar.server ch = .reqServer ∧ isAuthorityChar ch = true ∧ ch ≠ asc '@') := by
  simp only [parseUrlChar.server]
  split_ifs with hslash hquery hat
  · exact Or.inr (Or.inl ⟨rfl, hslash⟩)
  · exact Or.inr (Or.inr (Or.inl ⟨rfl, hquery⟩))
  · exact Or.inr (Or.inr (Or.inr (Or.inl ⟨rfl, hat⟩)))
  · exact Or.inr (Or.inr (Or.inr (Or.inr ⟨rfl, by simp [isAuthorityChar, hslash, hquery], hat⟩)))
  · exact Or.inl rfl

/-- The states in which the authority goes on. -/
def State.inServer : State → Bool
  | .reqServerStart | .reqServer | .reqServerWithAt => true
  | _ => false

theorem parseUrlChar_inServer {s : State} (ch : UInt8) (h : s.inServer = true) :
    parseUrlChar s ch = .dead ∨ parseUrlChar s ch = parseUrlChar.server ch := by
  unfold parseUrlChar
  split
  · exact Or.inl rfl
  split
  · exact Or.inl rfl
  cases s <;> first | exact absurd h (by decide) | skip
  case reqServerStart | reqServer => exact Or.inr rfl
  case reqServerWithAt =>
    simp only
    split
    · exact Or.inl rfl
    · exact Or.inr rfl

/-- A turn that adds a byte to what there is of a part; the first one starts the part. -/
theorem urlTurn_part {pos : ℕ} {ch : UInt8} {sc : UrlScan} {uf : UrlPart} {partAt : ℕ} {A : Bytes}
    (hpart : (parseUrlChar sc.state ch).urlPart = some (some uf))
    (hold : A ≠ [] → sc.oldUf = some uf ∧ sc.u.fieldSet uf = true ∧
      sc.u.fieldData uf = ⟨partAt, A.length⟩)
    (hold' : A = [] → sc.oldUf ≠ some uf ∧ partAt = pos) :
    ∃ u' : Url, urlTurn id pos ch sc = some ⟨parseUrlChar sc.state ch, some uf,
        sc.foundAt || decide (parseUrlChar sc.state ch = .reqServerWithAt), u'⟩ ∧
      u'.fieldSet uf = true ∧ u'.fieldData uf = ⟨partAt, (A ++ [ch]).length⟩ ∧
      ∀ part, part ≠ uf → u'.fieldSet part = sc.u.fieldSet part := by
  by_cases hA : A = []
  · obtain ⟨hne, rfl⟩ := hold' hA
    refine ⟨sc.u.start id uf partAt 1, ?_, ?_, ?_, fun part hother => ?_⟩
    · simp [urlTurn, hpart, hne]
    · simp [Url.start]
    · simp [Url.start, hA]
    · simp [Url.start, hother]
  · obtain ⟨hsame, hset, hdata⟩ := hold hA
    refine ⟨sc.u.more id uf, ?_, hset, ?_, fun _ _ => rfl⟩
    · simp [urlTurn, hpart, hsame]
    · simp [Url.more, Url.setLen, hdata]

theorem urlLoop_server (p : Bytes) (pos : ℕ) (sc : UrlScan) {hostAt : ℕ} {A : Bytes}
    (hs : sc.state.inServer = true) (hold : A ≠ [] → sc.oldUf = some .host)
    (hold' : A = [] → sc.oldUf = some .schema ∧ hostAt = pos) (h : sc.Parts hostAt A 0 [])
    (halive : (urlLoop id pos sc p).1 = true) :
    (urlLoop id pos sc p).2.Parts hostAt (A ++ p.takeWhile isAuthorityChar)
      (pos + (p.takeWhile isAuthorityChar).length)
      ((p.dropWhile isAuthorityChar).takeWhile isPathChar) := by
  induction p generalizing pos sc A with
  | nil =>
      simp only [List.takeWhile_nil, List.dropWhile_nil, List.append_nil]
      exact ⟨h.foundAt, h.host, h.hostData, h.path, fun hne => absurd rfl hne, h.port⟩
  | cons ch p ih =>
      have hnext : parseUrlChar sc.state ch ≠ .dead := by
        intro hdead
        simp [urlLoop, urlTurn, hdead, State.urlPart] at halive
      have hserver : parseUrlChar sc.state ch = parseUrlChar.server ch :=
        (parseUrlChar_inServer ch hs).resolve_left hnext
      -- another character of the authority
      have hmore : ∀ s, parseUrlChar sc.state ch = s → s.urlPart = some (some .host) →
          s.inServer = true → decide (s = .reqServerWithAt) = decide (ch = asc '@') →
          isAuthorityChar ch = true →
          (urlLoop id pos sc (ch :: p)).2.Parts hostAt (A ++ (ch :: p).takeWhile isAuthorityChar)
            (pos + ((ch :: p).takeWhile isAuthorityChar).length)
            (((ch :: p).dropWhile isAuthorityChar).takeWhile isPathChar) := by
        intro s hstate hpart hin hat hch
        have hfound : (sc.foundAt || decide (s = .reqServerWithAt))
            = decide (asc '@' ∈ A ++ [ch]) := by
          rw [hat, h.foundAt, ← Bool.decide_or]
          simp [eq_comm]
        have hnextPart : (parseUrlChar sc.state ch).urlPart = some (some .host) := by
          rw [hstate, hpart]
        have hstarted : A ≠ [] → sc.oldUf = some .host ∧ sc.u.fieldSet .host = true ∧
            sc.u.fieldData .host = ⟨hostAt, A.length⟩ :=
          fun hA => ⟨hold hA, by simp [h.host, hA], h.hostData hA⟩
        have hfirst : A = [] → sc.oldUf ≠ some .host ∧ hostAt = pos :=
          fun hA => ⟨by simp [(hold' hA).1], (hold' hA).2⟩
        obtain ⟨u', hturn, hset, hdata, hothers⟩ := urlTurn_part hnextPart hstarted hfirst
        rw [hstate] at hturn
        have hparts : UrlScan.Parts
            ⟨s, some .host, sc.foundAt || decide (s = .reqServerWithAt), u'⟩ hostAt (A ++ [ch]) 0 [] :=
          { foundAt := hfound
            host := hset.trans (by simp)
            hostData := fun _ => hdata
            path := (hothers .path (by simp)).trans h.path
            pathData := fun hne => absurd rfl hne
            port := (hothers .port (by simp)).trans h.port }
        rw [urlLoop, hturn] at halive ⊢
        have hrest := ih (pos + 1) ⟨s, some .host, sc.foundAt || decide (s = .reqServerWithAt), u'⟩ hin
          (fun _ => rfl) (fun hnil => absurd hnil (by simp)) hparts halive
        rw [List.takeWhile_cons_of_pos hch, List.dropWhile_cons_of_pos hch]
        simpa [Nat.add_assoc, Nat.add_comm 1] using hrest
      rcases parseUrlChar_server ch with hdead | ⟨hpath, rfl⟩ | ⟨hquery, rfl⟩ | ⟨hat, rfl⟩
        | ⟨hhost, hch, hne⟩
      · exact absurd (hserver.trans hdead) hnext
      · rw [List.takeWhile_cons_of_neg (by decide), List.dropWhile_cons_of_neg (by decide),
          List.append_nil]
        refine urlLoop_startPath h (hserver.trans hpath) ?_ (by decide) halive
        by_cases hA : A = []
        · simp [(hold' hA).1]
        · simp [hold hA]
      · rw [List.takeWhile_cons_of_neg (by decide), List.dropWhile_cons_of_neg (by decide),
          List.append_nil, List.takeWhile_cons_of_neg (by decide)]
        have hleave := urlLoop_leave pos (p := p) h (by rw [hserver, hquery]; rfl)
          (by rw [hserver, hquery]; rfl)
        exact ⟨hleave.foundAt, hleave.host, hleave.hostData, hleave.path,
          fun hne => absurd rfl hne, hleave.port⟩
      · exact hmore _ (hserver.trans hat) rfl rfl (by decide) (by decide)
      · exact hmore _ (hserver.trans hhost) rfl rfl (by simp [hne]) hch

theorem UrlScan.Parts.nothing {sc : UrlScan} {a b : ℕ} (h : sc.Parts a [] b []) (a' b' : ℕ) :
    sc.Parts a' [] b' [] :=
  ⟨h.foundAt, h.host, fun hne => absurd rfl hne, h.path, fun hne => absurd rfl hne, h.port⟩

theorem UrlScan.Parts.setState {sc : UrlScan} {hostAt pathAt : ℕ} {A P : Bytes}
    (h : sc.Parts hostAt A pathAt P) (s : State) :
    UrlScan.Parts { sc with state := s } hostAt A pathAt P :=
  ⟨h.foundAt, h.host, h.hostData, h.path, h.pathData, h.port⟩

/-- A turn that only changes the state. -/
theorem urlLoop_delimiter {pos : ℕ} {ch : UInt8} {p : Bytes} {sc : UrlScan}
    (hs : (parseUrlChar sc.state ch).urlPart = some none) :
    urlLoop id pos sc (ch :: p)
      = urlLoop id (pos + 1) { sc with state := parseUrlChar sc.state ch } p := by
  simp only [urlLoop, urlTurn, hs]

theorem urlLoop_dead {pos : ℕ} {ch : UInt8} {p : Bytes} {sc : UrlScan}
    (hs : parseUrlChar sc.state ch = .dead) : (urlLoop id pos sc (ch :: p)).1 = false := by
  simp [urlLoop, urlTurn, hs, State.urlPart]

theorem parseUrlChar_slash {s : State} (ch : UInt8)
    (h : s = .reqSchemaSlash ∨ s = .reqSchemaSlashSlash) :
    parseUrlChar s ch = .dead ∨ ch = asc '/' := by
  unfold parseUrlChar
  split
  · exact Or.inl rfl
  split
  · exact Or.inl rfl
  rcases h with rfl | rfl <;> simp only <;> split <;> simp_all

/-- In the scheme a letter goes on, and nothing else but a colon. -/
theorem parseUrlChar_schema (ch : UInt8) : parseUrlChar .reqSchema ch = .dead ∨
    parseUrlChar .reqSchema ch = .reqSchema ∨ ch = asc ':' := by
  unfold parseUrlChar
  split
  · exact Or.inl rfl
  split
  · exact Or.inl rfl
  simp only
  split_ifs with halpha hcolon
  · exact Or.inr (Or.inl rfl)
  · exact Or.inr (Or.inr hcolon)
  · exact Or.inl rfl

/-- A URL begins with its path or with its scheme. -/
theorem parseUrlChar_spacesBeforeUrl (ch : UInt8) : parseUrlChar .reqSpacesBeforeUrl ch = .dead ∨
    parseUrlChar .reqSpacesBeforeUrl ch = .reqSchema ∨ ch = asc '/' ∨ ch = asc '*' := by
  unfold parseUrlChar
  split
  · exact Or.inl rfl
  split
  · exact Or.inl rfl
  simp only
  split_ifs with horigin halpha
  · exact Or.inr (Or.inr horigin)
  · exact Or.inr (Or.inl rfl)
  · exact Or.inl rfl

theorem urlLoop_schema (p : Bytes) (pos : ℕ) (sc : UrlScan) (hs : sc.state = .reqSchema)
    (hold : sc.oldUf = some .schema) (h : sc.Parts 0 [] 0 [])
    (halive : (urlLoop id pos sc p).1 = true) :
    (urlLoop id pos sc p).2.Parts (pos + authorityOffset p)
      ((afterSchema p).takeWhile isAuthorityChar)
      (pos + authorityOffset p + ((afterSchema p).takeWhile isAuthorityChar).length)
      (((afterSchema p).dropWhile isAuthorityChar).takeWhile isPathChar) := by
  induction p generalizing pos sc with
  | nil => exact h.nothing _ _
  | cons ch p ih =>
      by_cases hcolon : ch = asc ':'
      · -- the delimiter `://`, or what there is of it
        subst hcolon
        have hstate : parseUrlChar sc.state (asc ':') = .reqSchemaSlash := by rw [hs]; decide
        rw [urlLoop_delimiter (by rw [hstate]; rfl), hstate] at halive ⊢
        match p with
        | [] => exact (h.setState _).nothing _ _
        | c :: p =>
            rcases parseUrlChar_slash c (Or.inl rfl) with hdead | rfl
            · rw [urlLoop_dead hdead] at halive
              exact absurd halive (by simp)
            have hslash : parseUrlChar .reqSchemaSlash (asc '/') = .reqSchemaSlashSlash := by decide
            rw [urlLoop_delimiter (by simp only [hslash]; rfl)] at halive ⊢
            simp only [hslash] at halive ⊢
            match p with
            | [] => exact (h.setState _).nothing _ _
            | c :: p =>
                rcases parseUrlChar_slash c (Or.inr rfl) with hdead | rfl
                · rw [urlLoop_dead hdead] at halive
                  exact absurd halive (by simp)
                have hstart : parseUrlChar .reqSchemaSlashSlash (asc '/') = .reqServerStart := by
                  decide
                rw [urlLoop_delimiter (by simp only [hstart]; rfl)] at halive ⊢
                simp only [hstart] at halive ⊢
                have hafter : afterSchema (asc ':' :: asc '/' :: asc '/' :: p) = p := rfl
                have hoffset : authorityOffset (asc ':' :: asc '/' :: asc '/' :: p) = 3 := by
                  simp only [authorityOffset, hafter, List.length_cons]
                  omega
                rw [hafter, hoffset]
                exact urlLoop_server p _ _ rfl (fun hne => absurd rfl hne) (fun _ => ⟨hold, rfl⟩)
                  ((h.setState _).nothing _ _) halive
      · -- another letter
        have hafter : afterSchema (ch :: p) = afterSchema p := by
          simp [afterSchema, hcolon]
        have hoffset : authorityOffset (ch :: p) = authorityOffset p + 1 := by
          have hle := (afterSchema_suffix p).length_le
          simp only [authorityOffset, hafter, List.length_cons]
          omega
        have hstate : parseUrlChar sc.state ch = .reqSchema := by
          rw [hs]
          rcases parseUrlChar_schema ch with hdead | hschema | hcolon'
          · rw [urlLoop_dead (by rw [hs, hdead])] at halive
            exact absurd halive (by simp)
          · exact hschema
          · exact absurd hcolon' hcolon
        have hturn : urlTurn id pos ch sc = some { sc with u := sc.u.more id .schema } := by
          rw [hs] at hstate
          simp [urlTurn, hs, hstate, State.urlPart, hold]
        rw [urlLoop, hturn] at halive ⊢
        have hrest := ih (pos + 1) { sc with u := sc.u.more id .schema } hs hold
          ⟨h.foundAt, h.host, fun hne => absurd rfl hne, h.path, fun hne => absurd rfl hne, h.port⟩
          halive
        have hpos : pos + 1 + authorityOffset p = pos + (authorityOffset p + 1) := by omega
        rwa [hafter, hoffset, ← hpos]

/-- The locals before the loop. -/
def UrlScan.init : UrlScan := ⟨.reqSpacesBeforeUrl, none, false, Url.empty⟩

/-- **A URL the automaton lives through has the authority and the path it has as a string.** -/
theorem urlLoop_parts (uri : Bytes) (halive : (urlLoop id 0 UrlScan.init uri).1 = true) :
    (urlLoop id 0 UrlScan.init uri).2.Parts (authorityOffset uri) (authority uri) (pathOffset uri)
      (pathComponent uri) := by
  have hinit : UrlScan.init.Parts 0 [] 0 [] :=
    ⟨rfl, rfl, fun hne => absurd rfl hne, rfl, fun hne => absurd rfl hne, rfl⟩
  match uri with
  | [] => exact hinit.nothing _ _
  | ch :: p =>
      by_cases horigin : ch = asc '/' ∨ ch = asc '*'
      · have hpath : parseUrlChar .reqSpacesBeforeUrl ch = .reqPath := by
          rcases horigin with rfl | rfl <;> decide
        have hch : isPathChar ch = true := by rcases horigin with rfl | rfl <;> decide
        have hform : originForm (ch :: p) = true := by
          rcases horigin with rfl | rfl <;> simp [originForm]
        have hparts := urlLoop_startPath (hinit.nothing (authorityOffset (ch :: p)) 0) hpath
          (by simp [UrlScan.init]) hch halive
        simpa [authority, pathOffset, pathComponent, hform] using hparts
      · have hform : originForm (ch :: p) = false := by
          simp only [not_or] at horigin
          simp [originForm, horigin]
        have hstate : parseUrlChar .reqSpacesBeforeUrl ch = .reqSchema := by
          rcases parseUrlChar_spacesBeforeUrl ch with hdead | hschema | hpath
          · rw [urlLoop_dead hdead] at halive
            exact absurd halive (by simp)
          · exact hschema
          · exact absurd hpath horigin
        have hcolon : ch ≠ asc ':' := by
          rintro rfl
          exact absurd hstate (by decide)
        have hturn : urlTurn id 0 ch UrlScan.init = some ⟨.reqSchema, some .schema, false,
            Url.empty.start id .schema 0 1⟩ := by
          simp [urlTurn, UrlScan.init, hstate, State.urlPart]
        have hafter : afterSchema (ch :: p) = afterSchema p := by
          simp [afterSchema, hcolon]
        have hoffset : authorityOffset (ch :: p) = 0 + 1 + authorityOffset p := by
          have hle := (afterSchema_suffix p).length_le
          simp only [authorityOffset, hafter, List.length_cons]
          omega
        have hpath : pathComponent (ch :: p)
            = ((afterSchema p).dropWhile isAuthorityChar).takeWhile isPathChar := by
          rw [pathComponent, pathOffset, hform, if_neg (by simp), authority, hform, if_neg (by simp),
            ← List.drop_drop, drop_authorityOffset, hafter, drop_length_takeWhile]
        rw [urlLoop, hturn] at halive ⊢
        have hparts := urlLoop_schema p 1 ⟨.reqSchema, some .schema, false,
            Url.empty.start id .schema 0 1⟩ rfl rfl
          ⟨rfl, rfl, fun hne => absurd rfl hne, rfl, fun hne => absurd rfl hne, rfl⟩ halive
        rw [hpath, pathOffset, authority, hform, hoffset, hafter]
        exact hparts

/-! ## Sixteen bits -/

/-- The record with every offset and length stored in sixteen bits. -/
def Url.narrowed (u : Url) : Url :=
  { u with fieldData := fun part => ⟨u16 (u.fieldData part).off, u16 (u.fieldData part).len⟩ }

def UrlScan.narrowed (sc : UrlScan) : UrlScan := { sc with u := sc.u.narrowed }

theorem Url.narrowed_update (u : Url) (part : UrlPart) (field : UrlField)
    (fieldSet : UrlPart → Bool) :
    (⟨fieldSet, u.port, Function.update u.fieldData part field⟩ : Url).narrowed
      = ⟨fieldSet, u.port,
          Function.update u.narrowed.fieldData part ⟨u16 field.off, u16 field.len⟩⟩ := by
  simp only [narrowed, Url.mk.injEq, true_and]
  funext part'
  by_cases h : part' = part <;> simp [h]

theorem Url.narrowed_more (u : Url) (part : UrlPart) :
    u.narrowed.more u16 part = (u.more id part).narrowed := by
  have hlen : u16 (u16 (u.fieldData part).len + 1) = u16 ((u.fieldData part).len + 1) :=
    Nat.mod_add_mod _ _ _
  rw [more, more, setLen, setLen, narrowed_update]
  simp only [narrowed, hlen, id]

theorem Url.narrowed_start (u : Url) (part : UrlPart) (pos len : ℕ) (hlen : u16 len = len) :
    u.narrowed.start u16 part pos len = (u.start id part pos len).narrowed := by
  rw [start, start, narrowed_update]
  simp only [narrowed, hlen, id]

theorem Url.narrowed_setOff (u : Url) (part : UrlPart) (pos : ℕ) :
    u.narrowed.setOff u16 part pos = (u.setOff id part pos).narrowed := by
  rw [setOff, setOff, narrowed_update]
  simp only [narrowed, id]

theorem urlTurn_narrowed (pos : ℕ) (ch : UInt8) (sc : UrlScan) :
    urlTurn u16 pos ch sc.narrowed = (urlTurn id pos ch sc).map UrlScan.narrowed := by
  have hmore := Url.narrowed_more sc.u
  have hstart := fun part => Url.narrowed_start sc.u part pos 1 rfl
  simp only [urlTurn, UrlScan.narrowed]
  cases (parseUrlChar sc.state ch).urlPart with
  | none => rfl
  | some part =>
      cases part with
      | none => rfl
      | some uf =>
          simp only [hmore, hstart]
          split <;> rfl

/-- The source computes what the reference computes, in sixteen bits. -/
theorem urlLoop_narrowed (p : Bytes) (pos : ℕ) (sc : UrlScan) :
    urlLoop u16 pos sc.narrowed p
      = ((urlLoop id pos sc p).1, (urlLoop id pos sc p).2.narrowed) := by
  induction p generalizing pos sc with
  | nil => rfl
  | cons ch p ih =>
      simp only [urlLoop, urlTurn_narrowed]
      cases urlTurn id pos ch sc with
      | none => rfl
      | some sc' => exact ih (pos + 1) sc'

theorem hostTurn_narrowed (pos : ℕ) (s newS : HostState) (u : Url) :
    hostTurn u16 pos s newS u.narrowed = (hostTurn id pos s newS u).narrowed := by
  cases newS <;> simp only [hostTurn] <;> try rfl
  case host | hostV6 =>
    split <;> simp only [Url.narrowed_setOff, Url.narrowed_more]
  case hostPort | userinfo =>
    split <;> simp only [Url.narrowed_start _ _ _ 0 rfl, Url.narrowed_more]

theorem hostLoop_narrowed (p : Bytes) (pos : ℕ) (s : HostState) (u : Url) :
    hostLoop u16 pos s u.narrowed p
      = ((hostLoop id pos s u p).1, (hostLoop id pos s u p).2.narrowed) := by
  induction p generalizing pos s u with
  | nil => rfl
  | cons ch p ih =>
      simp only [hostLoop]
      split
      · rfl
      · rw [hostTurn_narrowed]
        exact ih _ _ _

/-- The host is all `http_parse_host` looks at; it leaves the other parts alone. -/
theorem hostLoop_frame (narrow : ℕ → ℕ) (p : Bytes) (pos : ℕ) (s : HostState) (u : Url) :
    (∀ part, part ≠ .port → part ≠ .userinfo →
      (hostLoop narrow pos s u p).2.fieldSet part = u.fieldSet part) ∧
    (∀ part, part ≠ .host → part ≠ .port → part ≠ .userinfo →
      (hostLoop narrow pos s u p).2.fieldData part = u.fieldData part) := by
  have hturn : ∀ pos s newS (u : Url),
      (∀ part, part ≠ .port → part ≠ .userinfo →
        (hostTurn narrow pos s newS u).fieldSet part = u.fieldSet part) ∧
      (∀ part, part ≠ .host → part ≠ .port → part ≠ .userinfo →
        (hostTurn narrow pos s newS u).fieldData part = u.fieldData part) := by
    intro pos s newS u
    refine ⟨fun part hport huser => ?_, fun part hhost hport huser => ?_⟩ <;>
      cases newS <;> simp only [hostTurn] <;>
      first
      | rfl
      | (split <;> simp [Url.more, Url.setLen, Url.setOff, Url.start, *])
  induction p generalizing pos s u with
  | nil => exact ⟨fun _ _ _ => rfl, fun _ _ _ _ => rfl⟩
  | cons ch p ih =>
      simp only [hostLoop]
      split
      · exact ⟨fun _ _ _ => rfl, fun _ _ _ _ => rfl⟩
      · obtain ⟨hset, hdata⟩ := ih (pos + 1) (parseHostChar s ch)
          (hostTurn narrow pos s (parseHostChar s ch) u)
        obtain ⟨hset', hdata'⟩ := hturn pos s (parseHostChar s ch) u
        exact ⟨fun part hport huser => (hset part hport huser).trans (hset' part hport huser),
          fun part hhost hport huser =>
            (hdata part hhost hport huser).trans (hdata' part hhost hport huser)⟩

/-- Neither the path nor the query nor whether there is a host depends on `http_parse_host`. -/
theorem parseUrl_frame (narrow : ℕ → ℕ) (uri : Bytes) :
    (∀ part, part ≠ .port → part ≠ .userinfo →
      (parseUrl narrow uri false).2.fieldSet part
        = (urlLoop narrow 0 UrlScan.init uri).2.u.fieldSet part) ∧
    (∀ part, part ≠ .host → part ≠ .port → part ≠ .userinfo →
      (parseUrl narrow uri false).2.fieldData part
        = (urlLoop narrow 0 UrlScan.init uri).2.u.fieldData part) := by
  have hinit : (⟨.reqSpacesBeforeUrl, none, false, Url.empty⟩ : UrlScan) = UrlScan.init := rfl
  simp only [parseUrl, Bool.false_eq_true, if_false, hinit, Bool.false_and]
  generalize urlLoop narrow 0 UrlScan.init uri = r
  obtain ⟨ended, sc⟩ := r
  obtain ⟨hset, hdata⟩ := hostLoop_frame narrow (sc.u.piece .host uri)
    (sc.u.fieldData .host).off (if sc.foundAt then .userinfoStart else .hostStart)
    (sc.u.setLen .host 0)
  constructor
  · intro part hport huser
    have hsame : (parseHost narrow uri sc.u sc.foundAt).2.fieldSet part = sc.u.fieldSet part :=
      hset part hport huser
    split_ifs <;> first | rfl | exact hsame
  · intro part hhost hport huser
    have hsame : (parseHost narrow uri sc.u sc.foundAt).2.fieldData part = sc.u.fieldData part := by
      refine (hdata part hhost hport huser).trans ?_
      simp [Url.setLen, hhost]
    split_ifs <;> first | rfl | exact hsame

theorem httpParserParseUrl_part (uri : Bytes) {part : UrlPart} (hhost : part ≠ .host)
    (hport : part ≠ .port) (huser : part ≠ .userinfo) :
    (httpParserParseUrl uri).2.fieldSet part
      = (urlLoop id 0 UrlScan.init uri).2.u.fieldSet part ∧
    (httpParserParseUrl uri).2.fieldData part
      = ⟨u16 ((urlLoop id 0 UrlScan.init uri).2.u.fieldData part).off,
          u16 ((urlLoop id 0 UrlScan.init uri).2.u.fieldData part).len⟩ := by
  have hnarrow := urlLoop_narrowed uri 0 UrlScan.init
  have hinit : UrlScan.init.narrowed = UrlScan.init := rfl
  rw [hinit] at hnarrow
  rw [httpParserParseUrl, (parseUrl_frame u16 uri).1 part hport huser,
    (parseUrl_frame u16 uri).2 part hhost hport huser, hnarrow]
  exact ⟨rfl, rfl⟩

/-- **The path the record names**: the path component, cut out at sixteen bits. -/
theorem httpParserParseUrl_path (uri : Bytes)
    (halive : (urlLoop id 0 UrlScan.init uri).1 = true) :
    (httpParserParseUrl uri).2.fieldSet .path = !(pathComponent uri).isEmpty ∧
    (pathComponent uri ≠ [] → (httpParserParseUrl uri).2.piece .path uri
      = (uri.drop (u16 (pathOffset uri))).take (u16 (pathComponent uri).length)) := by
  have hparts := urlLoop_parts uri halive
  obtain ⟨hset, hdata⟩ := httpParserParseUrl_part uri (by simp : UrlPart.path ≠ .host) (by simp)
    (by simp)
  refine ⟨hset.trans hparts.path, fun hne => ?_⟩
  rw [Url.piece, hdata, hparts.pathData hne]

theorem length_pathComponent_le (uri : Bytes) :
    pathOffset uri + (pathComponent uri).length ≤ uri.length ∨ pathComponent uri = [] := by
  by_cases h : pathOffset uri ≤ uri.length
  · have hle := (List.takeWhile_prefix isPathChar (l := uri.drop (pathOffset uri))).length_le
    rw [List.length_drop] at hle
    rw [pathComponent]
    omega
  · right
    rw [pathComponent, List.drop_of_length_le (by omega)]
    rfl

/-- In a URL of fewer than 2 ^ 16 bytes that is the path component. -/
theorem httpParserParseUrl_path_short {uri : Bytes} (hlen : uri.length < 2 ^ 16)
    (halive : (urlLoop id 0 UrlScan.init uri).1 = true) (hne : pathComponent uri ≠ []) :
    (httpParserParseUrl uri).2.piece .path uri = pathComponent uri := by
  have hle := (length_pathComponent_le uri).resolve_right hne
  rw [(httpParserParseUrl_path uri halive).2 hne, u16, u16, Nat.mod_eq_of_lt (by omega),
    Nat.mod_eq_of_lt (by omega), pathComponent]
  exact (List.prefix_iff_eq_take.1 (List.takeWhile_prefix isPathChar)).symm

end ImageProxy.Http
