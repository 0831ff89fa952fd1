import ImageProxy.Cpcl.SplitIterator
import ImageProxy.Http.UrlParts

set_option autoImplicit false

/-! # The query of a request (`Connection::GetQuery`)

`SplitPair` takes the value of a parameter from the iterator behind the first `=`. When the value
begins with another `=`, that iterator points at an empty piece, whose pointer is null, so the value
is a null pointer with a size. Converting it to a number throws. -/

namespace ImageProxy

open Ascii Cpcl Http

/-- `Connection::Query`. -/
structure Query where
  requestPath : Bytes
  width : ℕ
  height : ℕ
  json : Bool
deriving DecidableEq, Repr

namespace Query

def empty : Query := ⟨[], 0, 0, false⟩

/-- `SplitPair`: `s.split(c, 1)`. -/
def splitPair (s : StringPiece) (c : UInt8) : StringPiece × StringPiece :=
  let it := SplitIterator.start s.bytes c
  let first := it.deref
  let it := it.next c
  if it ≠ SplitIterator.tail then (first, ⟨it.deref.data, s.size - first.size - 1⟩)
  else (first, .null)

/-- `keys` and `values`: the parameters that are numbers. -/
def numbers : List (Bytes × (Query → ℕ → Query)) :=
  [(lit "w", fun r value => { r with width := value }),
   (lit "h", fun r value => { r with height := value })]

/-- The inner loop: store the value if the key is one of `numbers`; `none` if converting throws. -/
def store (key value : StringPiece) (r : Query) : Option Query :=
  numbers.foldlM (fun r entry =>
    if stringEqualsIgnoreCaseASCII key.bytes entry.1 then
      value.asString.map fun text =>
        match tryConvertUnsignedInt text with
        | some n => entry.2 r n
        | none => r
    else some r) r

/-- The loop over the parameters. -/
def parameters : List StringPiece → Query → Option Query
  | [], r => some r
  | it :: its, r =>
      if stringEqualsIgnoreCaseASCII (lit "info") it.bytes then some { r with json := true }
      else
        let (key, value) := splitPair it (asc '=')
        if value.size ≠ 0 then (store key value r).bind (parameters its) else parameters its r

/-- `Connection::GetQuery`; `none` is a `std::logic_error`. -/
def get (uri : Bytes) : Option Query :=
  let url := (httpParserParseUrl uri).2
  if url.fieldSet .path then
    let r := { empty with requestPath := url.piece .path uri }
    if url.fieldSet .query then parameters (splitPieces (url.piece .query uri) (asc '&')) r
    else some r
  else some empty

/-! ## The path comes out as it went in -/

theorem store_requestPath {key value : StringPiece} {r r' : Query} (h : store key value r = some r') :
    r'.requestPath = r.requestPath := by
  simp only [store, numbers, List.foldlM_cons, List.foldlM_nil, Option.bind_eq_bind] at h
  obtain ⟨r₁, h₁, h⟩ := Option.bind_eq_some_iff.1 h
  obtain ⟨r₂, h₂, h⟩ := Option.bind_eq_some_iff.1 h
  have hkeep : ∀ {a b : Query} (set : Query → ℕ → Query) (c : Bool),
      (∀ n, (set a n).requestPath = a.requestPath) →
      (if c then value.asString.map fun text =>
          match tryConvertUnsignedInt text with
          | some n => set a n
          | none => a
        else some a) = some b → b.requestPath = a.requestPath := by
    intro a b set c hset hb
    split at hb
    · obtain ⟨text, -, rfl⟩ := Option.map_eq_some_iff.1 hb
      split
      · exact hset _
      · rfl
    · cases hb
      rfl
  cases h
  exact (hkeep (fun r value => { r with height := value }) _ (fun _ => rfl) h₂).trans
    (hkeep (fun r value => { r with width := value }) _ (fun _ => rfl) h₁)

theorem parameters_requestPath (its : List StringPiece) {r r' : Query}
    (h : parameters its r = some r') : r'.requestPath = r.requestPath := by
  induction its generalizing r with
  | nil =>
      cases h
      rfl
  | cons it its ih =>
      simp only [parameters] at h
      split at h
      · cases h
        rfl
      · split at h
        · obtain ⟨r₁, h₁, h⟩ := Option.bind_eq_some_iff.1 h
          exact (ih h).trans (store_requestPath h₁)
        · exact ih h

/-- The path of the query is the path the record names. -/
theorem get_requestPath {uri : Bytes} {r : Query} (h : get uri = some r) :
    r.requestPath = if (httpParserParseUrl uri).2.fieldSet .path
      then (httpParserParseUrl uri).2.piece .path uri else [] := by
  simp only [get] at h
  split at h
  · next hset =>
      rw [if_pos hset]
      split at h
      · exact parameters_requestPath _ h
      · cases h
        rfl
  · next hset =>
      rw [if_neg hset]
      cases h
      rfl

end Query

end ImageProxy
