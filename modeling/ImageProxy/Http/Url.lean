import Mathlib.Data.Nat.Notation
import Mathlib.Logic.Function.Basic
import Mathlib.Tactic.SplitIfs
import ImageProxy.Cpcl.StringUtil
import ImageProxy.Http.Parser

set_option autoImplicit false

/-! # Splitting a URL (`http_parser_parse_url`)

The offsets and lengths of the parts are `uint16_t`. `narrow` is what storing a number in such a
field does to it: `u16` in the source, `id` in the reference that has room for every URL. -/

namespace ImageProxy.Http

open Ascii

/-! ## The source -/

/-- `enum http_parser_url_fields`. -/
inductive UrlPart where
  | schema | host | port | path | query | fragment | userinfo
deriving DecidableEq, Repr

/-- An element of `field_data`. -/
structure UrlField where
  off : ℕ
  len : ℕ
deriving DecidableEq, Repr

/-- `http_parser_url`. The elements of `field_data` that are not set are not initialised in the
source; they are 0 here. Only the host of a URL that has a schema and no host is ever read so, and
nothing but the return value depends on it. -/
structure Url where
  fieldSet : UrlPart → Bool
  port : ℕ
  fieldData : UrlPart → UrlField

/-- Conversion to `uint16_t`. -/
def u16 (n : ℕ) : ℕ := n % 2 ^ 16

namespace Url

def empty : Url := ⟨fun _ => false, 0, fun _ => ⟨0, 0⟩⟩

/-- `field_data[part].off = pos; field_data[part].len = len; field_set |= (1 << part)`. -/
def start (narrow : ℕ → ℕ) (u : Url) (part : UrlPart) (pos len : ℕ) : Url :=
  { u with
    fieldSet := Function.update u.fieldSet part true
    fieldData := Function.update u.fieldData part ⟨narrow pos, len⟩ }

/-- `field_data[part].off = pos`. -/
def setOff (narrow : ℕ → ℕ) (u : Url) (part : UrlPart) (pos : ℕ) : Url :=
  { u with fieldData := Function.update u.fieldData part ⟨narrow pos, (u.fieldData part).len⟩ }

/-- `field_data[part].len = len`. -/
def setLen (u : Url) (part : UrlPart) (len : ℕ) : Url :=
  { u with fieldData := Function.update u.fieldData part ⟨(u.fieldData part).off, len⟩ }

/-- `field_data[part].len++`. -/
def more (narrow : ℕ → ℕ) (u : Url) (part : UrlPart) : Url :=
  u.setLen part (narrow ((u.fieldData part).len + 1))

/-- The bytes of a part. -/
def piece (u : Url) (part : UrlPart) (buf : Bytes) : Bytes :=
  (buf.drop (u.fieldData part).off).take (u.fieldData part).len

end Url

/-- The part a state of the URL automaton is in: `some none` at a delimiter, `none` outside of the
automaton. -/
def State.urlPart : State → Option (Option UrlPart)
  | .reqSchemaSlash | .reqSchemaSlashSlash | .reqServerStart | .reqQueryStringStart
  | .reqFragmentStart => some none
  | .reqSchema => some (some .schema)
  | .reqServerWithAt | .reqServer => some (some .host)
  | .reqPath => some (some .path)
  | .reqQueryString => some (some .query)
  | .reqFragment => some (some .fragment)
  | _ => none

/-- The locals of the loop of `http_parser_parse_url`. -/
structure UrlScan where
  state : State
  oldUf : Option UrlPart
  foundAt : Bool
  u : Url

/-- One turn of the loop; `none` is `return 1`, which leaves `u` as it was. -/
def urlTurn (narrow : ℕ → ℕ) (pos : ℕ) (ch : UInt8) (sc : UrlScan) : Option UrlScan :=
  let s := parseUrlChar sc.state ch
  match s.urlPart with
  | none => none
  | some none => some { sc with state := s }
  | some (some uf) =>
      let sc := { sc with state := s, foundAt := sc.foundAt || decide (s = State.reqServerWithAt) }
      if sc.oldUf = some uf then some { sc with u := sc.u.more narrow uf }
      else some { sc with oldUf := some uf, u := sc.u.start narrow uf pos 1 }

/-- The loop from `p = buf + pos` on: what it leaves, and whether it reached the end. -/
def urlLoop (narrow : ℕ → ℕ) : (pos : ℕ) → UrlScan → Bytes → Bool × UrlScan
  | _, sc, [] => (true, sc)
  | pos, sc, ch :: p =>
      match urlTurn narrow pos ch sc with
      | none => (false, sc)
      | some sc' => urlLoop narrow (pos + 1) sc' p

/-- `enum http_host_state`. -/
inductive HostState where
  | dead | userinfoStart | userinfo | hostStart | hostV6Start | host | hostV6 | hostV6End
  | hostPortStart | hostPort
deriving DecidableEq, Repr

/-- `http_parse_host_char`. -/
def parseHostChar (s : HostState) (ch : UInt8) : HostState :=
  match s with
  | .userinfo | .userinfoStart =>
      if ch = asc '@' then .hostStart else if isUserinfoChar ch then .userinfo else .dead
  | .hostStart =>
      if ch = asc '[' then .hostV6Start else if isHostChar ch then .host else .dead
  | .host => if isHostChar ch then .host else afterHost ch
  | .hostV6End => afterHost ch
  | .hostV6 => if ch = asc ']' then .hostV6End else insideV6 ch
  | .hostV6Start => insideV6 ch
  | .hostPort | .hostPortStart => if isNum ch then .hostPort else .dead
  | .dead => .dead
where
  /-- The case of `s_http_host_v6_end`, into which `s_http_host` falls through. -/
  afterHost (ch : UInt8) : HostState := if ch = asc ':' then .hostPortStart else .dead
  /-- The case of `s_http_host_v6_start`, into which `s_http_host_v6` falls through. -/
  insideV6 (ch : UInt8) : HostState :=
    if isHex ch ∨ ch = asc ':' ∨ ch = asc '.' then .hostV6 else .dead

/-- The body of the loop of `http_parse_host`: the record after a character led from `s` to
`newS`. -/
def hostTurn (narrow : ℕ → ℕ) (pos : ℕ) (s newS : HostState) (u : Url) : Url :=
  match newS with
  | .host => (if s ≠ .host then u.setOff narrow .host pos else u).more narrow .host
  | .hostV6 => (if s ≠ .hostV6 then u.setOff narrow .host pos else u).more narrow .host
  | .hostPort => (if s ≠ .hostPort then u.start narrow .port pos 0 else u).more narrow .port
  | .userinfo => (if s ≠ .userinfo then u.start narrow .userinfo pos 0 else u).more narrow .userinfo
  | _ => u

/-- The loop of `http_parse_host` from `p = buf + pos` on. -/
def hostLoop (narrow : ℕ → ℕ) : (pos : ℕ) → HostState → Url → Bytes → HostState × Url
  | _, s, u, [] => (s, u)
  | pos, s, u, ch :: p =>
      let newS := parseHostChar s ch
      if newS = .dead then (.dead, u)
      else hostLoop narrow (pos + 1) newS (hostTurn narrow pos s newS u) p

/-- The states `http_parse_host` may end in. -/
def HostState.final : HostState → Bool
  | .host | .hostV6End | .hostPort => true
  | _ => false

/-- `http_parse_host`: whether it returned 0, and the record. -/
def parseHost (narrow : ℕ → ℕ) (buf : Bytes) (u : Url) (foundAt : Bool) : Bool × Url :=
  let r := hostLoop narrow (u.fieldData .host).off
    (if foundAt then .userinfoStart else .hostStart) (u.setLen .host 0) (u.piece .host buf)
  (r.1.final, r.2)

/-- `http_parser_parse_url`: whether it returned 0, and the record. -/
def parseUrl (narrow : ℕ → ℕ) (buf : Bytes) (isConnect : Bool) : Bool × Url :=
  let (ended, sc) := urlLoop narrow 0
    ⟨if isConnect then .reqServerStart else .reqSpacesBeforeUrl, none, false, Url.empty⟩ buf
  if !ended then (false, sc.u)
  else
    let (hostOk, u) :=
      if sc.u.fieldSet .schema || sc.u.fieldSet .host then parseHost narrow buf sc.u sc.foundAt
      else (true, sc.u)
    if !hostOk then (false, u)
    else if isConnect && !(u.fieldSet .host && u.fieldSet .port
        && [.schema, .path, .query, .fragment, .userinfo].all fun part => !u.fieldSet part) then
      (false, u)
    else if u.fieldSet .port then
      let v := (Cpcl.strtoul (buf.drop (u.fieldData .port).off)).1
      if v > 0xffff then (false, u) else (true, { u with port := v })
    else (true, u)

/-- `http_parser_parse_url(uri.data(), uri.size(), 0, &url)`. -/
def httpParserParseUrl (uri : Bytes) : Bool × Url := parseUrl u16 uri false

end ImageProxy.Http
