import ImageProxy.Connection.Query
import ImageProxy.Http.RequestUrl
import ImageProxy.Http.UrlQuery
import ImageProxy.Library.Pieces

set_option autoImplicit false

/-! # What the query says

The reference reads the query of a URL as a string: tokens between the `&`, a key and a value around
the first `=` of a token, the last number of a key, nothing behind the first `info`. `GetQuery`
agrees with it when no token it splits has a second `=` directly behind its first one. -/

namespace ImageProxy.Query

open Ascii Cpcl Http
open Pieces (not_mem_takeWhile_ne head_dropWhile_ne)

/-! ## The reference -/

/-- A token at its first `=`: the key, and the value if there is one. -/
def keyValue (token : Bytes) : Bytes × Option Bytes :=
  (token.takeWhile (· ≠ asc '='), (token.dropWhile (· ≠ asc '=')).tail?)

def isInfo (token : Bytes) : Bool := stringEqualsIgnoreCaseASCII (lit "info") token

/-- The tokens before the first `info`. -/
def considered (query : Bytes) : List Bytes := (query.splitOn (asc '&')).takeWhile (!isInfo ·)

/-- The number a token gives to `key`. -/
def numberOf (key token : Bytes) : Option ℕ :=
  if stringEqualsIgnoreCaseASCII (keyValue token).1 key then
    (keyValue token).2.bind tryConvertUnsignedInt
  else none

/-- The last number of `key`, `default` if there is none. -/
def lastNumber (key : Bytes) (default : ℕ) (tokens : List Bytes) : ℕ :=
  (tokens.filterMap (numberOf key)).getLast?.getD default

/-- Width, height and whether there is an `info`. -/
def reference (query : Bytes) : ℕ × ℕ × Bool :=
  (lastNumber (lit "w") 0 (considered query), lastNumber (lit "h") 0 (considered query),
    (query.splitOn (asc '&')).any isInfo)

/-- A second `=` directly behind the first one. -/
def doubled (token : Bytes) : Bool := (keyValue token).2.any fun value => value.head? = some (asc '=')

/-- A doubled token that `GetQuery` converts: its key is that of a number. -/
def throws (token : Bytes) : Bool :=
  doubled token && numbers.any fun entry =>
    stringEqualsIgnoreCaseASCII (keyValue token).1 entry.1

/-! ## What `GetQuery` splits -/

/-- The query `GetQuery` splits: the one the record names, if the record names a path. -/
def located (uri : Bytes) : Bytes :=
  let url := (httpParserParseUrl uri).2
  if url.fieldSet .path && url.fieldSet .query then url.piece .query uri else []

/-- The pieces `SplitPair` is called with. -/
def visited (uri : Bytes) : List StringPiece :=
  (splitPieces (located uri) (asc '&')).takeWhile fun it => !isInfo it.bytes

/-- What the query of a request is about. -/
def parsed (r : Query) : ℕ × ℕ × Bool := (r.width, r.height, r.json)

/-- `GetQuery` returns what the query of `uri` says, and every piece on the way is sound. -/
structure Parses (uri : Bytes) : Prop where
  value : (get uri).map parsed = some (reference (queryComponent uri))
  split : ∀ it ∈ visited uri, asc '=' ∈ it.bytes →
    asc '=' ∉ (splitPair it (asc '=')).1.bytes ∧
      (splitPair it (asc '=')).1.bytes ++ asc '=' :: (splitPair it (asc '=')).2.bytes = it.bytes
  pieces : ∀ it ∈ visited uri, ∀ s ∈ [it, (splitPair it (asc '=')).1, (splitPair it (asc '=')).2],
    s.data = none → s.size = 0

/-! ## The pieces -/

/-- A piece that a split iterator points at. -/
def Sound (it : StringPiece) : Prop := it.size = it.bytes.length ∧ (it.data = none → it.size = 0)

theorem sound_deref (it : SplitIterator) : Sound it.deref := by
  obtain ⟨pointers⟩ := it
  cases pointers with
  | none => exact ⟨rfl, fun _ => rfl⟩
  | some p =>
      simp only [SplitIterator.deref]
      split
      · exact ⟨rfl, fun _ => rfl⟩
      · exact ⟨by simp [StringPiece.bytes], fun h => absurd h (by simp)⟩

theorem bytes_deref (piece rest : Bytes) :
    (SplitIterator.deref ⟨some (piece, rest)⟩).bytes = piece := by
  simp only [SplitIterator.deref]
  split
  · next h => simpa [StringPiece.null, StringPiece.bytes] using h
  · simp [StringPiece.bytes]

theorem sound_of_mem_pieces {split : UInt8} {turns : ℕ} {it : SplitIterator} {s : StringPiece}
    (h : s ∈ it.pieces split turns) : Sound s := by
  induction turns generalizing it with
  | zero => exact absurd h (by simp [SplitIterator.pieces])
  | succ turns ih =>
      unfold SplitIterator.pieces at h
      split at h
      · exact absurd h (by simp)
      · rcases List.mem_cons.1 h with rfl | hmem
        · exact sound_deref it
        · exact ih hmem

theorem map_bytes_pieces (split : UInt8) (turns : ℕ) (s : Bytes) (h : s.length < turns) :
    (SplitIterator.pieces split turns ⟨some (SplitIterator.cut split s)⟩).map StringPiece.bytes
      = s.splitOn split := by
  have hne : ∀ s, (⟨some (SplitIterator.cut split s)⟩ : SplitIterator) ≠ SplitIterator.tail := by
    simp [SplitIterator.tail]
  induction s using Pieces.induction split generalizing turns with
  | last piece hnot =>
      -- the iterator comes to `tail` behind the last piece
      have htail : SplitIterator.next split ⟨some (piece, [])⟩ = SplitIterator.tail := rfl
      obtain ⟨turns, rfl⟩ : ∃ t, turns = t + 1 := ⟨turns - 1, by omega⟩
      rw [SplitIterator.pieces, if_neg (hne piece), List.map_cons, SplitIterator.cut, bytes_deref,
        Pieces.takeWhile_of_not_mem hnot, Pieces.dropWhile_of_not_mem hnot, htail,
        List.splitOn_eq_singleton hnot]
      cases turns <;> simp [SplitIterator.pieces]
  | more piece behind hnot ih =>
      rw [List.length_append, List.length_cons] at h
      obtain ⟨turns, rfl⟩ : ∃ t, turns = t + 1 := ⟨turns - 1, by omega⟩
      rw [SplitIterator.pieces, if_neg (hne _), List.map_cons, SplitIterator.cut, bytes_deref,
        Pieces.takeWhile_separator hnot, Pieces.dropWhile_separator hnot,
        List.splitOn_append_cons_self_of_not_mem hnot]
      exact congrArg _ (ih turns (by omega))

/-- The pieces are the tokens, and there are none of the empty string. -/
theorem map_bytes_splitPieces (s : Bytes) (split : UInt8) :
    (splitPieces s split).map StringPiece.bytes = if s.isEmpty then [] else s.splitOn split := by
  unfold splitPieces SplitIterator.start
  split
  · simp [SplitIterator.pieces]
  · exact map_bytes_pieces split _ s (by omega)

/-! ## One token -/

theorem bytes_deref_start (s : Bytes) (split : UInt8) :
    (SplitIterator.start s split).deref.bytes = s.takeWhile (· ≠ split) := by
  cases s with
  | nil => rfl
  | cons c s => exact bytes_deref _ _

theorem next_start_of_nil {s : Bytes} {split : UInt8} (h : s.dropWhile (· ≠ split) = []) :
    (SplitIterator.start s split).next split = SplitIterator.tail := by
  cases s with
  | nil => rfl
  | cons c s =>
      show SplitIterator.next split ⟨some (_, (c :: s).dropWhile (· ≠ split))⟩ = SplitIterator.tail
      rw [h]
      rfl

theorem next_start_of_cons {s rest : Bytes} {split c : UInt8}
    (h : s.dropWhile (· ≠ split) = c :: rest) :
    (SplitIterator.start s split).next split = ⟨some (SplitIterator.cut split rest)⟩ := by
  cases s with
  | nil => exact absurd h (by simp)
  | cons d s =>
      show SplitIterator.next split ⟨some (_, (d :: s).dropWhile (· ≠ split))⟩ = _
      rw [h]
      rfl

theorem splitPair_of_nil {it : StringPiece} (h : it.bytes.dropWhile (· ≠ asc '=') = []) :
    splitPair it (asc '=') = ((SplitIterator.start it.bytes (asc '=')).deref, .null) := by
  unfold splitPair
  simp only [next_start_of_nil h, ne_eq, not_true_eq_false, if_false]

theorem splitPair_of_cons {it : StringPiece} {c : UInt8} {value : Bytes}
    (h : it.bytes.dropWhile (· ≠ asc '=') = c :: value) (hit : Sound it) :
    splitPair it (asc '=') = ((SplitIterator.start it.bytes (asc '=')).deref,
      ⟨(SplitIterator.deref ⟨some (SplitIterator.cut (asc '=') value)⟩).data, value.length⟩) := by
  have hne : (⟨some (SplitIterator.cut (asc '=') value)⟩ : SplitIterator) ≠ SplitIterator.tail := by
    simp [SplitIterator.tail]
  have hlen := congrArg List.length
    (List.takeWhile_append_dropWhile (p := (· ≠ asc '=')) (l := it.bytes))
  have hsize : it.size - (SplitIterator.start it.bytes (asc '=')).deref.size - 1 = value.length := by
    rw [h, List.length_append, List.length_cons] at hlen
    rw [hit.1, (sound_deref _).1, bytes_deref_start]
    omega
  unfold splitPair
  simp only [next_start_of_cons h, if_pos hne, hsize]

/-- The key ends at the first `=` either way. -/
theorem splitPair_fst {it : StringPiece} (hit : Sound it) :
    (splitPair it (asc '=')).1 = (SplitIterator.start it.bytes (asc '=')).deref := by
  cases hrest : it.bytes.dropWhile (· ≠ asc '=') with
  | nil => rw [splitPair_of_nil hrest]
  | cons c value => rw [splitPair_of_cons hrest hit]

theorem bytes_splitPair_fst {it : StringPiece} (hit : Sound it) :
    (splitPair it (asc '=')).1.bytes = it.bytes.takeWhile (· ≠ asc '=') := by
  rw [splitPair_fst hit]
  exact bytes_deref_start _ _

theorem keyValue_of_nil {token : Bytes} (h : token.dropWhile (· ≠ asc '=') = []) :
    keyValue token = (token.takeWhile (· ≠ asc '='), none) := by
  rw [keyValue, h]
  rfl

theorem keyValue_of_cons {token value : Bytes} {c : UInt8}
    (h : token.dropWhile (· ≠ asc '=') = c :: value) :
    keyValue token = (token.takeWhile (· ≠ asc '='), some value) := by
  rw [keyValue, h]
  rfl

/-- The value a token is split at is sound unless the token is doubled; then it is a null pointer
with a size. -/
theorem splitPair_value {it : StringPiece} {c : UInt8} {value : Bytes}
    (h : it.bytes.dropWhile (· ≠ asc '=') = c :: value) (hit : Sound it) :
    (splitPair it (asc '=')).2 = if doubled it.bytes then ⟨none, value.length⟩
      else if value.isEmpty then .null else .of value := by
  rw [splitPair_of_cons h hit, doubled, keyValue_of_cons h]
  cases value with
  | nil => rfl
  | cons d value =>
      by_cases hd : d = asc '='
      · -- the piece behind the first `=` is empty, so its pointer is null
        subst hd
        rfl
      · have hcut : SplitIterator.cut (asc '=') (d :: value)
            = (d :: value.takeWhile (· ≠ asc '='), value.dropWhile (· ≠ asc '=')) := by
          simp [SplitIterator.cut, hd]
        have hdata : (SplitIterator.deref ⟨some (SplitIterator.cut (asc '=') (d :: value))⟩).data
            = some (d :: value) := by
          rw [hcut]
          show some (d :: value.takeWhile (· ≠ asc '=') ++ value.dropWhile (· ≠ asc '='))
            = some (d :: value)
          rw [List.cons_append, List.takeWhile_append_dropWhile]
        simp [hdata, hd, StringPiece.of]

/-- A doubled token has a value, and it is not empty. -/
theorem value_of_doubled {token : Bytes} (h : doubled token = true) :
    ∃ c value, token.dropWhile (· ≠ asc '=') = c :: value ∧ value ≠ [] := by
  cases hrest : token.dropWhile (· ≠ asc '=') with
  | nil => simp [doubled, keyValue_of_nil hrest] at h
  | cons c value =>
      refine ⟨c, value, rfl, ?_⟩
      rintro rfl
      simp [doubled, keyValue_of_cons hrest] at h

/-! ## One turn, and the loop -/

/-- The numbers a token sets. -/
def set (r : Query) (token : Bytes) : Query :=
  { r with
    width := (numberOf (lit "w") token).getD r.width
    height := (numberOf (lit "h") token).getD r.height }

theorem store_eq {key value : StringPiece} {text : Bytes} (h : value.asString = some text)
    (r : Query) : store key value r = some { r with
      width := (if stringEqualsIgnoreCaseASCII key.bytes (lit "w")
        then tryConvertUnsignedInt text else none).getD r.width
      height := (if stringEqualsIgnoreCaseASCII key.bytes (lit "h")
        then tryConvertUnsignedInt text else none).getD r.height } := by
  simp only [store, numbers, List.foldlM_cons, List.foldlM_nil, h, Option.map_some]
  cases stringEqualsIgnoreCaseASCII key.bytes (lit "w") <;>
    cases stringEqualsIgnoreCaseASCII key.bytes (lit "h") <;>
    cases tryConvertUnsignedInt text <;> rfl

/-- A null pointer with a size. -/
theorem store_null {key value : StringPiece} (h : value.asString = none) (r : Query) :
    store key value r
      = if numbers.any fun entry => stringEqualsIgnoreCaseASCII key.bytes entry.1 then none
        else some r := by
  simp only [store, numbers, List.foldlM_cons, List.foldlM_nil, h, Option.map_none, List.any_cons,
    List.any_nil, Bool.or_false]
  cases stringEqualsIgnoreCaseASCII key.bytes (lit "w") <;>
    cases stringEqualsIgnoreCaseASCII key.bytes (lit "h") <;> rfl

theorem throws_of_clean {token : Bytes} (h : doubled token = false) : throws token = false := by
  rw [throws, h, Bool.false_and]

/-- A turn with a doubled token. -/
theorem turn_doubled {it : StringPiece} (hit : Sound it) (hdoubled : doubled it.bytes = true)
    (r : Query) : (if (splitPair it (asc '=')).2.size ≠ 0
      then store (splitPair it (asc '=')).1 (splitPair it (asc '=')).2 r else some r)
      = if throws it.bytes then none else some r := by
  obtain ⟨c, value, hrest, hne⟩ := value_of_doubled hdoubled
  have hsize : value.length ≠ 0 := fun h => hne (List.length_eq_zero_iff.1 h)
  have hnull : (⟨none, value.length⟩ : StringPiece).asString = none := by
    rw [StringPiece.asString, if_neg hsize]
    rfl
  have hkey : (splitPair it (asc '=')).1.bytes = (keyValue it.bytes).1 := by
    rw [bytes_splitPair_fst hit, keyValue_of_cons hrest]
  rw [splitPair_value hrest hit, if_pos hdoubled, if_pos hsize, store_null hnull, hkey, throws,
    hdoubled, Bool.true_and]

/-- A doubled token that does not throw has the key of neither number. -/
theorem set_of_doubled {token : Bytes} (hdoubled : doubled token = true) (h : throws token = false)
    (r : Query) : set r token = r := by
  rw [throws, hdoubled, Bool.true_and] at h
  simp only [numbers, List.any_cons, List.any_nil, Bool.or_false, Bool.or_eq_false_iff] at h
  simp [set, numberOf, h.1, h.2]

/-- A turn with a token that is not doubled. -/
theorem turn_clean {it : StringPiece} (hit : Sound it) (hclean : doubled it.bytes = false) (r : Query) :
    (if (splitPair it (asc '=')).2.size ≠ 0
      then store (splitPair it (asc '=')).1 (splitPair it (asc '=')).2 r else some r)
      = some (set r it.bytes) := by
  cases hrest : it.bytes.dropWhile (· ≠ asc '=') with
  | nil =>
      rw [splitPair_of_nil hrest]
      simp [StringPiece.null, set, numberOf, keyValue_of_nil hrest]
  | cons c value =>
      have hkey : (splitPair it (asc '=')).1.bytes = (keyValue it.bytes).1 := by
        rw [bytes_splitPair_fst hit, keyValue_of_cons hrest]
      have hvalue : (splitPair it (asc '=')).2
          = if value.isEmpty then .null else .of value := by
        rw [splitPair_value hrest hit, if_neg (by simp [hclean])]
      cases value with
      | nil =>
          have hnull : (splitPair it (asc '=')).2 = .null := hvalue
          have hnone : tryConvertUnsignedInt [] = none := by decide
          rw [hnull]
          simp [StringPiece.null, set, numberOf, keyValue_of_cons hrest, hnone]
      | cons d value =>
          -- `Store` converts the value for either key
          have htext : (StringPiece.of (d :: value)).asString = some (d :: value) := by
            simp [StringPiece.of, StringPiece.asString]
          have hof : (splitPair it (asc '=')).2 = .of (d :: value) := hvalue
          rw [hof, if_pos (by simp [StringPiece.of]), store_eq htext, hkey, set, numberOf, numberOf,
            keyValue_of_cons hrest]
          rfl

theorem turn_eq {it : StringPiece} (hit : Sound it) (h : throws it.bytes = false) (r : Query) :
    (if (splitPair it (asc '=')).2.size ≠ 0
      then store (splitPair it (asc '=')).1 (splitPair it (asc '=')).2 r else some r)
      = some (set r it.bytes) := by
  cases hdoubled : doubled it.bytes with
  | true =>
      rw [turn_doubled hit hdoubled, set_of_doubled hdoubled h, if_neg (by simp [h])]
  | false => exact turn_clean hit hdoubled r

theorem lastNumber_cons (key token : Bytes) (default : ℕ) (tokens : List Bytes) :
    lastNumber key default (token :: tokens)
      = lastNumber key ((numberOf key token).getD default) tokens := by
  unfold lastNumber
  cases h : numberOf key token with
  | none => rw [List.filterMap_cons_none h, Option.getD_none]
  | some n => rw [List.filterMap_cons_some h, List.getLast?_cons, Option.getD_some, Option.getD_some]

theorem parameters_cons {it : StringPiece} {its : List StringPiece} {r : Query}
    (hinfo : ¬isInfo it.bytes = true) : parameters (it :: its) r
      = (if (splitPair it (asc '=')).2.size ≠ 0
          then store (splitPair it (asc '=')).1 (splitPair it (asc '=')).2 r else some r).bind
        (parameters its) := by
  unfold isInfo at hinfo
  rw [parameters, if_neg hinfo]
  show (if (splitPair it (asc '=')).2.size ≠ 0 then _ else _) = _
  split <;> rfl

/-- The loop over sound pieces, none of which makes it throw before the first `info`. -/
theorem parameters_eq (its : List StringPiece) (r : Query) (hits : ∀ it ∈ its, Sound it)
    (hclean : ∀ it ∈ its.takeWhile (fun it => !isInfo it.bytes), throws it.bytes = false) :
    (parameters its r).map parsed = some
      (lastNumber (lit "w") r.width ((its.map StringPiece.bytes).takeWhile (!isInfo ·)),
        lastNumber (lit "h") r.height ((its.map StringPiece.bytes).takeWhile (!isInfo ·)),
        r.json || (its.map StringPiece.bytes).any isInfo) := by
  induction its generalizing r with
  | nil => simp [parameters, parsed, lastNumber]
  | cons it its ih =>
      have hrest : ∀ it' ∈ its, Sound it' := fun it' h => hits it' (List.mem_cons_of_mem _ h)
      cases hinfo : isInfo it.bytes with
      | true =>
          -- `info` sets `json` and ends the loop
          have hjson : parameters (it :: its) r = some { r with json := true } := by
            rw [parameters]
            exact if_pos hinfo
          rw [hjson, List.map_cons, List.takeWhile_cons_of_neg (by simp [hinfo]), List.any_cons, hinfo]
          simp [parsed, lastNumber]
      | false =>
          rw [List.takeWhile_cons_of_pos (by simp [hinfo])] at hclean
          have hturn := turn_eq (hits it List.mem_cons_self) (hclean it List.mem_cons_self) r
          have hloop : parameters (it :: its) r = parameters its (set r it.bytes) := by
            rw [parameters_cons (by simp [hinfo]), hturn, Option.bind_some]
          rw [hloop, ih _ hrest fun it' h => hclean it' (List.mem_cons_of_mem _ h), List.map_cons,
            List.takeWhile_cons_of_pos (by simp [hinfo]), lastNumber_cons, lastNumber_cons,
            List.any_cons, hinfo, Bool.false_or]
          rfl

/-! ## The query of a URL -/

/-- `GetQuery` is the loop over the query it has located. -/
theorem get_eq (uri : Bytes) : ∃ path, get uri
    = parameters (splitPieces (located uri) (asc '&')) { empty with requestPath := path } := by
  simp only [get, located]
  cases (httpParserParseUrl uri).2.fieldSet .path with
  | false => exact ⟨[], rfl⟩
  | true =>
      cases (httpParserParseUrl uri).2.fieldSet .query with
      | false => exact ⟨(httpParserParseUrl uri).2.piece .path uri, rfl⟩
      | true => exact ⟨(httpParserParseUrl uri).2.piece .path uri, rfl⟩

theorem map_bytes_visited (uri : Bytes) : (visited uri).map StringPiece.bytes
    = if (located uri).isEmpty then [] else considered (located uri) := by
  have hmap := map_bytes_splitPieces (located uri) (asc '&')
  have htake : (visited uri).map StringPiece.bytes
      = ((splitPieces (located uri) (asc '&')).map StringPiece.bytes).takeWhile (!isInfo ·) := by
    rw [visited, List.takeWhile_map]
    rfl
  rw [htake, hmap]
  split <;> rfl

/-- What holds of the tokens of the located query holds of the pieces that are split. -/
theorem all_visited {uri : Bytes} {bad : Bytes → Bool}
    (h : (considered (located uri)).all (!bad ·) = true) :
    ∀ it ∈ visited uri, bad it.bytes = false := by
  intro it hit
  have hmem := List.mem_map_of_mem (f := StringPiece.bytes) hit
  rw [map_bytes_visited] at hmem
  split at hmem
  · exact absurd hmem (by simp)
  · simpa using List.all_eq_true.1 h _ hmem

theorem sound_visited {uri : Bytes} : ∀ it ∈ visited uri, Sound it := fun _ hit =>
  sound_of_mem_pieces (List.takeWhile_subset _ hit)

/-- If no token makes it throw, the loop returns what the located query says. -/
theorem get_of_all {uri : Bytes} (h : ∀ it ∈ visited uri, throws it.bytes = false) :
    (get uri).map parsed = some (reference (located uri)) := by
  obtain ⟨path, hget⟩ := get_eq uri
  have hsound : ∀ it ∈ splitPieces (located uri) (asc '&'), Sound it :=
    fun _ hmem => sound_of_mem_pieces hmem
  rw [hget, parameters_eq _ _ hsound h, map_bytes_splitPieces]
  split
  · next hnil =>
      have hempty : reference [] = (0, 0, false) := by decide
      rw [List.isEmpty_iff.1 hnil, hempty]
      rfl
  · rfl

theorem get_of_clean {uri : Bytes} (h : (considered (located uri)).all (!doubled ·) = true) :
    (get uri).map parsed = some (reference (located uri)) :=
  get_of_all fun it hit => throws_of_clean (all_visited h it hit)

/-- Sound pieces mean that no token that is split is doubled. -/
theorem clean_of_pieces {uri : Bytes}
    (h : ∀ it ∈ visited uri, (splitPair it (asc '=')).2.data = none →
      (splitPair it (asc '=')).2.size = 0) :
    (considered (located uri)).all (!doubled ·) = true := by
  rw [List.all_eq_true]
  intro token htoken
  by_contra hdoubled
  simp only [Bool.not_eq_true', Bool.not_eq_false] at hdoubled
  -- a token of the query is one of the pieces
  obtain ⟨it, hit, rfl⟩ : ∃ it ∈ visited uri, it.bytes = token := by
    by_cases hnil : located uri = []
    · -- the empty query has one token, which is empty
      have hone : considered [] = [[]] := by decide
      rw [hnil, hone, List.mem_singleton] at htoken
      subst htoken
      exact absurd hdoubled (by decide)
    · have hmap := map_bytes_visited uri
      rw [if_neg (by simpa using hnil)] at hmap
      rw [← hmap] at htoken
      exact List.mem_map.1 htoken
  obtain ⟨c, value, hrest, hne⟩ := value_of_doubled hdoubled
  have hvalue := splitPair_value hrest (sound_visited it hit)
  rw [if_pos hdoubled] at hvalue
  have hsize := h it hit (by rw [hvalue])
  rw [hvalue] at hsize
  exact hne (List.length_eq_zero_iff.1 hsize)

theorem splitPair_bytes {it : StringPiece} (hit : Sound it) (hclean : doubled it.bytes = false)
    (heq : asc '=' ∈ it.bytes) : asc '=' ∉ (splitPair it (asc '=')).1.bytes ∧
      (splitPair it (asc '=')).1.bytes ++ asc '=' :: (splitPair it (asc '=')).2.bytes = it.bytes := by
  cases hrest : it.bytes.dropWhile (· ≠ asc '=') with
  | nil =>
      have hall := List.dropWhile_eq_nil_iff.1 hrest (asc '=') heq
      exact absurd hall (by simp)
  | cons c value =>
      have hkey := bytes_splitPair_fst hit
      have hvalue : (splitPair it (asc '=')).2.bytes = value := by
        rw [splitPair_value hrest hit, if_neg (by simp [hclean])]
        cases value with
        | nil => rfl
        | cons d value => exact List.take_length
      refine ⟨by rw [hkey]; exact not_mem_takeWhile_ne _ _, ?_⟩
      have hsplit := List.takeWhile_append_dropWhile (p := (· ≠ asc '=')) (l := it.bytes)
      rw [hrest, head_dropWhile_ne hrest] at hsplit
      rw [hkey, hvalue]
      exact hsplit

theorem splitPair_sound {it : StringPiece} (hit : Sound it) (hclean : doubled it.bytes = false) :
    ∀ s ∈ [it, (splitPair it (asc '=')).1, (splitPair it (asc '=')).2],
      s.data = none → s.size = 0 := by
  have hsecond : (splitPair it (asc '=')).2.data = none → (splitPair it (asc '=')).2.size = 0 := by
    cases hrest : it.bytes.dropWhile (· ≠ asc '=') with
    | nil =>
        rw [splitPair_of_nil hrest]
        exact fun _ => rfl
    | cons c value =>
        rw [splitPair_value hrest hit, if_neg (by simp [hclean])]
        cases value with
        | nil => exact fun _ => rfl
        | cons d value => exact fun h => absurd h (by simp [StringPiece.of])
  intro s hs
  simp only [List.mem_cons, List.not_mem_nil, or_false] at hs
  rcases hs with rfl | rfl | rfl
  · exact hit.2
  · rw [splitPair_fst hit]
    exact (sound_deref _).2
  · exact hsecond

/-! ## What sixteen bits leave -/

/-- The part of a URL that `http_parser_parse_url` goes through. -/
def taken (uri : Bytes) : Bytes := urlTaken .reqSpacesBeforeUrl uri

/-- What sixteen bits leave of the query of a URL, and nothing of it if the URL has no path. -/
def cutQuery (uri : Bytes) : Bytes :=
  if pathComponent uri = [] then []
  else (uri.drop (queryOffset uri % 2 ^ 16)).take ((queryComponent uri).length % 2 ^ 16)

/-- The URL is taken whole, and there is no query to be cut, or there is a path, and the offset and the
length of the query fit in sixteen bits. -/
def QueryFits (uri : Bytes) : Prop :=
  taken uri = uri ∧ (queryComponent uri = [] ∨
    pathComponent uri ≠ [] ∧ queryOffset uri < 2 ^ 16 ∧ (queryComponent uri).length < 2 ^ 16)

theorem cutQuery_of_fits {uri : Bytes} (h : QueryFits uri) :
    cutQuery (taken uri) = queryComponent uri := by
  rw [h.1, cutQuery]
  rcases h.2 with hnil | ⟨hpath, hoffset, hlen⟩
  · simp [hnil]
  · rw [if_neg hpath, Nat.mod_eq_of_lt hoffset, Nat.mod_eq_of_lt hlen]
    by_cases hnil : queryComponent uri = []
    · simp [hnil]
    · obtain ⟨rest, hrest⟩ := drop_queryOffset uri hnil
      rw [hrest, List.take_left]

theorem urlLoop_taken (uri : Bytes) :
    urlLoop id 0 UrlScan.init (taken uri) = (true, (urlLoop id 0 UrlScan.init uri).2) :=
  urlLoop_urlTaken uri 0 UrlScan.init

/-- The path and the query of the record are those of what is taken. -/
theorem httpParserParseUrl_taken (uri : Bytes) {part : UrlPart} (hhost : part ≠ .host)
    (hport : part ≠ .port) (huser : part ≠ .userinfo) :
    (httpParserParseUrl uri).2.fieldSet part = (httpParserParseUrl (taken uri)).2.fieldSet part ∧
      (httpParserParseUrl uri).2.fieldData part
        = (httpParserParseUrl (taken uri)).2.fieldData part := by
  obtain ⟨hset, hdata⟩ := httpParserParseUrl_part uri hhost hport huser
  obtain ⟨hset', hdata'⟩ := httpParserParseUrl_part (taken uri) hhost hport huser
  rw [urlLoop_taken] at hset' hdata'
  exact ⟨hset.trans hset'.symm, hdata.trans hdata'.symm⟩

theorem take_drop_of_isPrefix {x y : Bytes} (h : x <+: y) {a b : ℕ} (hle : a + b ≤ x.length) :
    (y.drop a).take b = (x.drop a).take b := by
  obtain ⟨z, rfl⟩ := h
  rw [List.drop_append_of_le_length (by omega),
    List.take_append_of_le_length (by rw [List.length_drop]; omega)]

/-- A part of what is taken is the same cut out of the URL or of what is taken of it. -/
theorem piece_taken (uri : Bytes) {part : UrlPart} (hhost : part ≠ .host) (hport : part ≠ .port)
    (huser : part ≠ .userinfo) {off len : ℕ}
    (hdata : (urlLoop id 0 UrlScan.init (taken uri)).2.u.fieldData part = ⟨off, len⟩)
    (hle : off + len ≤ (taken uri).length) : (httpParserParseUrl uri).2.piece part uri
      = ((taken uri).drop (off % 2 ^ 16)).take (len % 2 ^ 16) := by
  have hoff := Nat.mod_le off (2 ^ 16)
  have hlen := Nat.mod_le len (2 ^ 16)
  rw [Url.piece, (httpParserParseUrl_taken uri hhost hport huser).2,
    (httpParserParseUrl_part (taken uri) hhost hport huser).2, hdata]
  exact take_drop_of_isPrefix (urlTaken_isPrefix .reqSpacesBeforeUrl uri)
    (show _ ≤ (taken uri).length by simp only [u16]; omega)

theorem alive_taken (uri : Bytes) : (urlLoop id 0 UrlScan.init (taken uri)).1 = true := by
  rw [urlLoop_taken]

theorem pathSet_eq (uri : Bytes) :
    (httpParserParseUrl uri).2.fieldSet .path = !(pathComponent (taken uri)).isEmpty :=
  (httpParserParseUrl_taken uri (by simp) (by simp) (by simp)).1.trans
    (httpParserParseUrl_path (taken uri) (alive_taken uri)).1

theorem querySet_eq (uri : Bytes) :
    (httpParserParseUrl uri).2.fieldSet .query = !(queryComponent (taken uri)).isEmpty :=
  (httpParserParseUrl_taken uri (by simp) (by simp) (by simp)).1.trans
    (httpParserParseUrl_query (taken uri) (alive_taken uri)).1

/-- The query that the record names. -/
theorem queryPiece_eq (uri : Bytes) (hne : queryComponent (taken uri) ≠ []) :
    (httpParserParseUrl uri).2.piece .query uri
      = ((taken uri).drop (queryOffset (taken uri) % 2 ^ 16)).take
          ((queryComponent (taken uri)).length % 2 ^ 16) := by
  have hquery := (urlLoop_query (taken uri) (alive_taken uri)).queryData hne
  obtain ⟨rest, hrest⟩ := drop_queryOffset (taken uri) hne
  have hle := congrArg List.length hrest
  have hpos := List.length_pos_iff.2 hne
  rw [List.length_drop, List.length_append] at hle
  exact piece_taken uri (by simp) (by simp) (by simp) hquery (by omega)

/-- **What `GetQuery` locates**, for any URL. -/
theorem located_eq (uri : Bytes) : located uri = cutQuery (taken uri) := by
  simp only [located, cutQuery, pathSet_eq, querySet_eq]
  by_cases hpath : pathComponent (taken uri) = []
  · simp [hpath]
  · by_cases hquery : queryComponent (taken uri) = []
    · simp [hquery]
    · simp [hpath, hquery, queryPiece_eq uri hquery]

/-- A URL that the request parser takes is taken whole. -/
theorem taken_of_accepts {uri : Bytes} (h : AcceptsUrl uri) : taken uri = uri :=
  urlTaken_of_alive uri 0 UrlScan.init h.alive

/-! ## When `GetQuery` agrees -/

/-- **What `GetQuery` makes of the query of a URL.** It returns what the query says, without a piece
that is null and has a size, exactly when no token it splits has a second `=` directly behind its
first, and the query fits or what is left of it says the same. A URL that the request parser takes is
taken whole. -/
theorem parses_iff (uri : Bytes) :
    (Parses uri ↔ (considered (cutQuery (taken uri))).all (!doubled ·) = true ∧
      (QueryFits uri ∨ reference (cutQuery (taken uri)) = reference (queryComponent uri))) ∧
    (AcceptsUrl uri → taken uri = uri) := by
  have hsame : (QueryFits uri ∨ reference (cutQuery (taken uri)) = reference (queryComponent uri)) ↔
      reference (cutQuery (taken uri)) = reference (queryComponent uri) :=
    or_iff_right_of_imp fun hfits => by rw [cutQuery_of_fits hfits]
  refine ⟨?_, taken_of_accepts⟩
  rw [hsame, ← located_eq]
  constructor
  · intro h
    have hclean := clean_of_pieces fun it hit => h.pieces it hit _ (by simp)
    refine ⟨hclean, ?_⟩
    have hvalue := h.value
    rw [get_of_clean hclean] at hvalue
    exact Option.some.inj hvalue
  · rintro ⟨hclean, hsays⟩
    exact
      { value := by rw [get_of_clean hclean, hsays]
        split := fun it hit =>
          splitPair_bytes (sound_visited it hit) (all_visited hclean it hit)
        pieces := fun it hit =>
          splitPair_sound (sound_visited it hit) (all_visited hclean it hit) }

/-- The parser in front of the URL of a GET request. -/
def beforeUrl : Parser := { Parser.init .request with state := .reqSpacesBeforeUrl, method := .get }

theorem acceptsUrl_of_run {U : Bytes} (hU : U.all (fun b => endsUrl b == false) = true)
    {r : Parser × Log} (hr : run Log.recorder beforeUrl Log.empty (U ++ [asc ' ']) = some r)
    (hurl : r.2.url = U) : AcceptsUrl U :=
  ⟨fun b hb => beq_iff_eq.1 (List.all_eq_true.1 hU b hb),
    beforeUrl, Log.empty, asc ' ', r, rfl, by decide, by decide, hr, hurl⟩

theorem parses_number : Parses (lit "/image?w=5&h=x") := by
  have haccepts : AcceptsUrl (lit "/image?w=5&h=x") := acceptsUrl_of_run (by decide) rfl rfl
  obtain ⟨hiff, htaken⟩ := parses_iff (lit "/image?w=5&h=x")
  exact hiff.2 ⟨by decide, Or.inl ⟨htaken haccepts, Or.inr ⟨by decide, by decide, by decide⟩⟩⟩

/-- A width that begins with `=`: converting the null pointer throws. -/
theorem not_parses_doubled : AcceptsUrl (lit "/image?w==5") ∧ ¬Parses (lit "/image?w==5") := by
  refine ⟨acceptsUrl_of_run (by decide) rfl rfl, fun h => ?_⟩
  have hthrows : get (lit "/image?w==5") = none := by decide +kernel
  have hvalue := h.value
  rw [hthrows] at hvalue
  exact absurd hvalue (by simp)

end ImageProxy.Query
