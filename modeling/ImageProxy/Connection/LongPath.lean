import ImageProxy.Connection.QueryParse

set_option autoImplicit false

/-! # The path of a long URL

`http_parser_url` keeps offsets and lengths in 16 bits, and the head of a request may have 80 KiB.
`get_eq_found` says what `GetQuery` returns for any URL, `computesPath_iff` for which URLs the request
path is still the path component. -/

namespace ImageProxy.Query

open Ascii Cpcl Http

/-- `GetQuery` returns, and the request path is the path component of the URL. -/
def ComputesPath (uri : Bytes) : Prop :=
  ∃ r, get uri = some r ∧ r.requestPath = pathComponent uri

/-- The length of the path fits in sixteen bits. So does its offset, or the same bytes stand at what
is left of it. -/
def PathFits (uri : Bytes) : Prop :=
  (pathComponent uri).length < 2 ^ 16 ∧ (pathOffset uri < 2 ^ 16 ∨
    (uri.drop (pathOffset uri % 2 ^ 16)).take (pathComponent uri).length = pathComponent uri)

/-! ## When `GetQuery` returns -/

theorem isSome_turn {it : StringPiece} (hit : Sound it) (r : Query) :
    (if (splitPair it (asc '=')).2.size ≠ 0
      then store (splitPair it (asc '=')).1 (splitPair it (asc '=')).2 r else some r).isSome
      = !throws it.bytes := by
  cases hthrows : throws it.bytes with
  | false =>
      rw [turn_eq hit hthrows]
      rfl
  | true =>
      rw [turn_doubled hit (Bool.and_eq_true_iff.1 hthrows).1, hthrows]
      rfl

theorem isSome_parameters (its : List StringPiece) (r : Query) (hits : ∀ it ∈ its, Sound it) :
    (parameters its r).isSome
      = ((its.map StringPiece.bytes).takeWhile (!isInfo ·)).all (!throws ·) := by
  induction its generalizing r with
  | nil => rfl
  | cons it its ih =>
      obtain ⟨hit, hits⟩ := List.forall_mem_cons.1 hits
      rw [List.map_cons]
      cases hinfo : isInfo it.bytes with
      | true =>
          have hjson : parameters (it :: its) r = some { r with json := true } := by
            rw [parameters]
            exact if_pos hinfo
          rw [hjson, List.takeWhile_cons_of_neg (by simp [hinfo])]
          rfl
      | false =>
          have hturn := isSome_turn hit r
          rw [parameters_cons (by simp [hinfo]), List.takeWhile_cons_of_pos (by simp [hinfo]),
            List.all_cons, ← hturn]
          cases (if (splitPair it (asc '=')).2.size ≠ 0
            then store (splitPair it (asc '=')).1 (splitPair it (asc '=')).2 r else some r) with
          | none => rfl
          | some r' => exact ih r' hits

theorem isSome_get (uri : Bytes) :
    (get uri).isSome = (considered (located uri)).all (!throws ·) := by
  obtain ⟨path, hget⟩ := get_eq uri
  have hsound : ∀ it ∈ splitPieces (located uri) (asc '&'), Sound it :=
    fun _ hmem => sound_of_mem_pieces hmem
  rw [hget, isSome_parameters _ _ hsound, map_bytes_splitPieces]
  split
  · next hnil =>
      rw [List.isEmpty_iff.1 hnil]
      decide
  · rfl

/-! ## What it cuts out of the URL -/

/-- What sixteen bits leave of the path of a URL. -/
def cutPath (uri : Bytes) : Bytes :=
  if pathComponent uri = [] then []
  else (uri.drop (pathOffset uri % 2 ^ 16)).take ((pathComponent uri).length % 2 ^ 16)

/-- The request path, for any URL. -/
theorem requestPath_eq {uri : Bytes} {r : Query} (h : get uri = some r) :
    r.requestPath = cutPath (taken uri) := by
  rw [get_requestPath h, pathSet_eq, cutPath]
  by_cases hpath : pathComponent (taken uri) = []
  · simp [hpath]
  · have hdata := (urlLoop_parts (taken uri) (alive_taken uri)).pathData hpath
    rw [if_pos (by simpa using hpath), if_neg hpath]
    exact piece_taken uri (by simp) (by simp) (by simp) hdata
      ((length_pathComponent_le (taken uri)).resolve_right hpath)

/-- What sixteen bits leave of the URL says. -/
def found (uri : Bytes) : Query :=
  let said := reference (cutQuery (taken uri))
  ⟨cutPath (taken uri), said.1, said.2.1, said.2.2⟩

/-- No token before `info` makes `GetQuery` throw. -/
def returns (uri : Bytes) : Bool := (considered (cutQuery (taken uri))).all (!throws ·)

/-- **What `GetQuery` returns, for any URL.** -/
theorem get_eq_found (uri : Bytes) : get uri = if returns uri then some (found uri) else none := by
  have hsome := isSome_get uri
  rw [located_eq, ← returns] at hsome
  cases hget : get uri with
  | none =>
      rw [hget] at hsome
      rw [← hsome]
      rfl
  | some r =>
      rw [hget] at hsome
      rw [← hsome, Option.isSome_some, if_pos rfl]
      have hclean : (considered (located uri)).all (!throws ·) = true := by
        rw [located_eq]
        exact hsome.symm
      have hparsed := get_of_all (all_visited hclean)
      rw [hget, located_eq, Option.map_some, Option.some.injEq] at hparsed
      have hpath := requestPath_eq hget
      obtain ⟨path, width, height, json⟩ := r
      rw [found, ← hparsed, ← hpath]
      rfl

theorem get_eq_some_iff {uri : Bytes} {r : Query} :
    get uri = some r ↔ returns uri = true ∧ found uri = r := by
  rw [get_eq_found]
  cases returns uri <;> simp

theorem take_drop_pathOffset (uri : Bytes) :
    (uri.drop (pathOffset uri)).take (pathComponent uri).length = pathComponent uri :=
  (List.prefix_iff_eq_take.1 (List.takeWhile_prefix isPathChar)).symm

/-- That is the path component exactly if it fits. -/
theorem slice_eq_iff (uri : Bytes) :
    (uri.drop (pathOffset uri % 2 ^ 16)).take ((pathComponent uri).length % 2 ^ 16)
      = pathComponent uri ↔ PathFits uri := by
  rw [PathFits]
  by_cases hlen : (pathComponent uri).length < 2 ^ 16
  · rw [Nat.mod_eq_of_lt hlen]
    by_cases hoff : pathOffset uri < 2 ^ 16
    · rw [Nat.mod_eq_of_lt hoff]
      exact ⟨fun _ => ⟨hlen, Or.inl hoff⟩, fun _ => take_drop_pathOffset uri⟩
    · exact ⟨fun h => ⟨hlen, Or.inr h⟩, fun h => h.2.resolve_left hoff⟩
  · -- fewer bytes are cut out than the path has
    refine ⟨fun h => ?_, fun h => absurd h.1 hlen⟩
    have hcut := congrArg List.length h
    have hle := List.length_take_le ((pathComponent uri).length % 2 ^ 16)
      (uri.drop (pathOffset uri % 2 ^ 16))
    have hmod := Nat.mod_lt (pathComponent uri).length (by decide : 0 < 2 ^ 16)
    omega

/-- **When the request path is the path of the URL.** For a URL that the request parser takes: exactly
when no token before `info` makes `GetQuery` throw, and the path is empty or fits. -/
theorem computesPath_iff {uri : Bytes} (h : AcceptsUrl uri) : ComputesPath uri ↔
    (considered (located uri)).all (!throws ·) = true ∧ (pathComponent uri = [] ∨ PathFits uri) := by
  rw [← isSome_get, ComputesPath]
  cases hget : get uri with
  | none => simp
  | some r =>
      have hpath := requestPath_eq hget
      rw [taken_of_accepts h, cutPath] at hpath
      simp only [Option.some.injEq, exists_eq_left', Option.isSome_some, true_and, hpath]
      by_cases hnil : pathComponent uri = []
      · simp [hnil]
      · rw [if_neg hnil, slice_eq_iff, or_iff_right hnil]

/-- A short URL. -/
theorem computesPath_short : ComputesPath (lit "/image?w=5") ↔
    (considered (located (lit "/image?w=5"))).all (!throws ·) = true ∧
      (pathComponent (lit "/image?w=5") = [] ∨ PathFits (lit "/image?w=5")) := by
  exact computesPath_iff (acceptsUrl_of_run (by decide) rfl rfl)

/-! ## A long path -/

/-- A slash and 2 ^ 16 + 1 letters. -/
def longUrl : Bytes := asc '/' :: List.replicate (2 ^ 16 + 1) (asc 'a')

theorem acceptsUrl_longUrl : AcceptsUrl longUrl := by
  have hletter : ∀ b ∈ List.replicate (2 ^ 16 + 1) (asc 'a'),
      endsUrl b = false ∧ parseUrlChar .reqPath b = .reqPath := fun b hb => by
    rw [List.eq_of_mem_replicate hb]
    decide
  refine ⟨List.forall_mem_cons.2 ⟨by decide, fun b hb => (hletter b hb).1⟩, beforeUrl, Log.empty,
    asc ' ', ({ beforeUrl with nread := 2 ^ 16 + 3, state := .reqHttpStart },
      { Log.empty with url := longUrl }), rfl, by decide, by decide, ?_, rfl⟩
  have hslash : run Log.recorder beforeUrl Log.empty [asc '/']
      = some ({ beforeUrl with nread := 1, state := .reqPath },
        { Log.empty with url := [asc '/'] }) := rfl
  have hgoing : ∀ n s, Parser.Going { beforeUrl with nread := n, state := s } := fun _ _ => ⟨rfl, rfl⟩
  have hletters := run_path (hgoing 1 .reqPath) rfl (List.replicate (2 ^ 16 + 1) (asc 'a')) hletter
    { Log.empty with url := [asc '/'] } (by rw [List.length_replicate]; decide)
  rw [List.length_replicate] at hletters
  have hend := run_pathEnd (hgoing (2 ^ 16 + 2) .reqPath) rfl { Log.empty with url := longUrl }
    (by decide)
  rw [longUrl, List.cons_append, ← List.singleton_append, run_append Log.lawful_recorder, hslash,
    Option.bind_some, run_append Log.lawful_recorder]
  refine (congrArg (Option.bind · _) hletters).trans ?_
  exact hend

/-- Of a path of 65538 bytes `GetQuery` keeps two. -/
theorem not_computesPath_longUrl : AcceptsUrl longUrl ∧ ¬ComputesPath longUrl := by
  refine ⟨acceptsUrl_longUrl, ?_⟩
  rintro ⟨r, hget, hpath⟩
  have hall : ∀ b ∈ longUrl, isPathChar b = true := List.forall_mem_cons.2
    ⟨by decide, fun b hb => by rw [List.eq_of_mem_replicate hb]; decide⟩
  have hcomponent : pathComponent longUrl = longUrl := by
    have horigin : originForm longUrl = true := rfl
    rw [Http.pathComponent, pathOffset, if_pos horigin, List.drop_zero]
    exact List.takeWhile_eq_self_iff.2 hall
  have hlen : longUrl.length = 2 ^ 16 + 2 := by
    rw [longUrl, List.length_cons, List.length_replicate]
  have hne : longUrl ≠ [] := List.cons_ne_nil _ _
  rw [requestPath_eq hget, taken_of_accepts acceptsUrl_longUrl, cutPath, hcomponent,
    if_neg hne] at hpath
  have hcut := congrArg List.length hpath
  have hle := List.length_take_le (longUrl.length % 2 ^ 16)
    (longUrl.drop (pathOffset longUrl % 2 ^ 16))
  rw [hcut, hlen] at hle
  exact absurd hle (by decide)

end ImageProxy.Query
