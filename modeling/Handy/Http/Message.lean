import Handy.Http.Text

/-! # HTTP messages and their decoder

`HttpMsg`, `HttpRequest` and `HttpResponse` with `tryDecode`, which is called
again on a longer buffer until the message is complete. A header name is put in
lower case where it stands in the buffer, so a call returns the buffer as it
leaves it, and `body.assign` throws `std::length_error` on a length no string
can have. Log lines are not modelled.
-/

namespace Handy

/-- `std::map<std::string, std::string>`. -/
abbrev Dict := Std.ExtTreeMap Bytes Bytes

/-- `HttpMsg::getValueFromMap_`. -/
def Dict.getValue (m : Dict) (n : Bytes) : Bytes := m.getD n []

namespace HttpMsg

inductive Result where
  | error
  | complete
  | notComplete
  | continue100
deriving DecidableEq, Repr

/-- How a call of `tryDecode` ends. -/
inductive Outcome where
  | returned (r : Result)
  /-- `std::length_error`, which nothing in the repository catches -/
  | lengthError
deriving DecidableEq, Repr

/-- `HttpMsg::getBody`: the copy in `body`, or the slice `body2`. -/
inductive Body where
  | copied (bytes : Bytes)
  | inBuffer (s : Slice)
deriving DecidableEq, Repr

end HttpMsg

structure HttpMsg where
  headers : Dict
  version : Bytes
  body : Bytes
  body2 : Slice
  complete : Bool
  contentLen : Nat
  scanned : Nat
deriving DecidableEq

structure HttpRequest extends HttpMsg where
  args : Dict
  method : Bytes
  uri : Bytes
  queryUri : Bytes
deriving DecidableEq

structure HttpResponse extends HttpMsg where
  statusWord : Bytes
  status : Int
deriving DecidableEq

/-- What a call of `tryDecode` leaves: the message, the bytes of the buffer, and
as bookkeeping the range of the buffer it made a body of. -/
structure Decoded (M : Type) where
  msg : M
  outcome : HttpMsg.Outcome
  memory : Bytes
  range : Option Slice

namespace HttpMsg

/-- `HttpMsg::clear`. -/
def cleared : HttpMsg where
  headers := ∅
  version := [0x48, 0x54, 0x54, 0x50, 0x2f, 0x31, 0x2e, 0x31]
  body := []
  body2 := .unset
  complete := false
  contentLen := 0
  scanned := 0

def getHeader (m : HttpMsg) (n : Bytes) : Bytes := m.headers.getValue n

def getBody (m : HttpMsg) : Body :=
  if m.body2.pe = m.body2.pb then .copied m.body else .inBuffer m.body2

def getByte (m : HttpMsg) : Int := toInt32 m.scanned

/-- `"\r\n\r\n"`. -/
def blank : Bytes := [0x0d, 0x0a, 0x0d, 0x0a]

/-- `"content-length"`. -/
def contentLength : Bytes :=
  [0x63, 0x6f, 0x6e, 0x74, 0x65, 0x6e, 0x74, 0x2d, 0x6c, 0x65, 0x6e, 0x67, 0x74, 0x68]

/-- `"Expect"`. -/
def expect : Bytes := [0x45, 0x78, 0x70, 0x65, 0x63, 0x74]

/-- The `while` loop that looks for the blank line. The list is the buffer from
`scanned_` on; the result is `scanned_` and whether the loop was left by
`break`. -/
def findBlank : Bytes → Nat → Nat × Bool
  | [], scanned => (scanned, false)
  | c :: rest, scanned =>
      if rest.length < 3 then (scanned, false)
      else if (c :: rest).take 4 = blank then (scanned, true)
      else findBlank rest (scanned + 1)

/-- The `while` loop over the header lines, from the end of a line on: the
headers, whether no line was bad, and the text as the loop leaves it. -/
def headerLines (headers : Dict) (req : Bytes) : Dict × Bool × Bytes :=
  match req with
  | [] => (headers, true, [])
  -- `eat(2)` goes past the end, so `req` is not empty afterwards
  | [c] => (headers, false, [c])
  | c :: d :: rest =>
      let ln := Slice.eatLine rest
      let k := Slice.eatWord ln.1
      let value := Slice.trimSpace k.2
      if k.1 ≠ [] ∧ value ≠ [] ∧ k.1.getLast? = some 0x3a then
        let name := k.1.map tolower
        let next := headerLines (headers.insert name.dropLast value) ln.2
        (next.1, next.2.1, c :: d :: ln.1.takeWhile isspace ++ name ++ k.2 ++ next.2.2)
      else if k.1 = [] ∧ value = [] ∧ ln.2 = [] then (headers, true, req)
      else (headers, false, req)
termination_by req.length
decreasing_by
  have h := Slice.length_eatLine rest
  simp only [List.length_cons]
  omega

/-- `std::string::max_size()`. -/
def maxSize : Nat := 2 ^ 63 - 1

/-- The end of `tryDecode_`, once the header block has been parsed. -/
def takeBody (m : HttpMsg) (buf : Bytes) (copyBody : Bool) : Decoded HttpMsg :=
  let range := Slice.ofLen m.scanned (toDiff m.contentLen)
  let done := { m with complete := true, scanned := (m.scanned + m.contentLen) % 2 ^ 64 }
  if (m.contentLen + m.scanned) % 2 ^ 64 ≤ buf.length then
    if copyBody then
      if maxSize < m.contentLen then ⟨m, .lengthError, buf, none⟩
      else
        ⟨{ done with body := (buf.drop m.scanned).take m.contentLen }, .returned .complete, buf,
          some range⟩
    else ⟨{ done with body2 := range }, .returned .complete, buf, some range⟩
  else ⟨m, .returned .notComplete, buf, none⟩

/-- `tryDecode_` from the end of the search for the blank line on, with
`*line1`. -/
def parseHeaders (m : HttpMsg) (buf : Bytes) (copyBody : Bool) (scanned : Nat) (found : Bool) :
    Decoded HttpMsg × Bytes :=
  let req := if found then buf.take scanned else []
  let m := { m with scanned := scanned }
  if req = [] then (⟨m, .returned .notComplete, buf, none⟩, [])
  else
    let (line1, rest) := Slice.eatLine req
    let (headers, ok, left) := headerLines m.headers rest
    let memory := line1 ++ left ++ buf.drop scanned
    let m := { m with headers := headers }
    if ok then
      let m := { m with
        scanned := scanned + 4
        contentLen := toSize (atoi (m.getHeader contentLength)) }
      if buf.length < (m.contentLen + m.scanned) % 2 ^ 64 ∧ m.getHeader expect ≠ [] then
        (⟨m, .returned .continue100, memory, none⟩, line1)
      else (m.takeBody memory copyBody, line1)
    else (⟨m, .returned .error, memory, none⟩, line1)

/-- `HttpMsg::tryDecode_`, with `*line1`. -/
def tryDecode_ (m : HttpMsg) (buf : Bytes) (copyBody : Bool) : Decoded HttpMsg × Bytes :=
  if m.complete then (⟨m, .returned .complete, buf, none⟩, [])
  else if m.contentLen = 0 then
    let (scanned, found) := findBlank (buf.drop m.scanned) m.scanned
    m.parseHeaders buf copyBody scanned found
  else (m.takeBody buf copyBody, [])

end HttpMsg

namespace HttpRequest

/-- `HttpRequest::clear`. -/
def cleared : HttpRequest :=
  { HttpMsg.cleared with args := ∅, method := [0x47, 0x45, 0x54], uri := [], queryUri := [] }

/-- One round of the loop over the query string: key, value, and what is left. -/
def nextArg (qs : Bytes) : Bytes × Bytes × Bytes :=
  let key := qs.takeWhile fun c => c != 0x3d && c != 0x26
  let qs := qs.dropWhile fun c => c != 0x3d && c != 0x26
  let qs := if qs.head? = some 0x3d then qs.tail else qs
  let value := qs.takeWhile (· != 0x26)
  -- past the `&`, if there is one
  (key, value, (qs.dropWhile (· != 0x26)).tail)

theorem length_nextArg (c : UInt8) (qs : Bytes) :
    (nextArg (c :: qs)).2.2.length < (c :: qs).length := by
  have hkey := ((c :: qs).dropWhile_suffix fun c => c != 0x3d && c != 0x26).length_le
  have hskip : ∀ s : Bytes, (if s.head? = some 0x3d then s.tail else s).length ≤ s.length := by
    intro s
    split <;> simp
  have hvalue : ∀ s : Bytes, (s.dropWhile (· != 0x26)).tail.length ≤ s.length - 1 := by
    intro s
    have h := (s.dropWhile_suffix (· != 0x26)).length_le
    simp only [List.length_tail]
    omega
  refine Nat.lt_of_le_of_lt (hvalue _) ?_
  have h := Nat.le_trans (hskip _) hkey
  simp only [List.length_cons] at h ⊢
  omega

/-- The loop over the query string. -/
def queryArgs (args : Dict) (qs : Bytes) : Dict :=
  match qs with
  | [] => args
  | c :: tail =>
      let arg := nextArg (c :: tail)
      queryArgs (if arg.1 = [] then args else args.insert arg.1 arg.2.1) arg.2.2
termination_by qs.length
decreasing_by exact length_nextArg c tail

/-- What `tryDecode` does with a first line that is not empty; whether it goes
on. -/
def startLine (req : HttpRequest) (ln1 : Bytes) : HttpRequest × Bool :=
  let (method, ln1) := Slice.eatWord ln1
  let (queryUri, ln1) := Slice.eatWord ln1
  let (version, _) := Slice.eatWord ln1
  let req := { req with method := method, queryUri := queryUri, version := version }
  if queryUri.head? = some 0x2f then
    match queryUri.dropWhile (· != 0x3f) with
    | [] => ({ req with uri := queryUri }, true)
    | _ :: qs =>
        ({ req with uri := queryUri.takeWhile (· != 0x3f), args := queryArgs req.args qs }, true)
  else (req, false)

/-- `tryDecode` behind `tryDecode_`. -/
def finish (req : HttpRequest) (d : Decoded HttpMsg) (ln1 : Bytes) : Decoded HttpRequest :=
  let req := { req with toHttpMsg := d.msg }
  match d.outcome with
  | .lengthError => ⟨req, .lengthError, d.memory, d.range⟩
  | .returned r =>
      if ln1 = [] then ⟨req, .returned r, d.memory, d.range⟩
      else
        let (req, ok) := req.startLine ln1
        ⟨req, .returned (if ok then r else .error), d.memory, d.range⟩

/-- `HttpRequest::tryDecode`. -/
def tryDecode (req : HttpRequest) (buf : Bytes) (copyBody : Bool) : Decoded HttpRequest :=
  let (d, ln1) := req.toHttpMsg.tryDecode_ buf copyBody
  req.finish d ln1

end HttpRequest

namespace HttpResponse

/-- `HttpResponse::clear`. -/
def cleared : HttpResponse :=
  { HttpMsg.cleared with statusWord := [0x4f, 0x4b], status := 200 }

/-- What `tryDecode` does with a first line that is not empty. `atoi` is given a
pointer and reads on behind the line, through `memory`. -/
def startLine (resp : HttpResponse) (ln1 memory : Bytes) : HttpResponse :=
  let (version, rest) := Slice.eatWord ln1
  let pos := ln1.length - (rest.dropWhile isspace).length
  let (_, rest) := Slice.eatWord rest
  { resp with
    version := version
    status := atoi (memory.drop pos)
    statusWord := Slice.trimSpace rest }

/-- `tryDecode` behind `tryDecode_`; `behind` is what the memory behind the buffer
holds. -/
def finish (resp : HttpResponse) (d : Decoded HttpMsg) (ln1 behind : Bytes) :
    Decoded HttpResponse :=
  let resp := { resp with toHttpMsg := d.msg }
  match d.outcome with
  | .lengthError => ⟨resp, .lengthError, d.memory, d.range⟩
  | .returned r =>
      if ln1 = [] then ⟨resp, .returned r, d.memory, d.range⟩
      else ⟨resp.startLine ln1 (d.memory ++ behind), .returned r, d.memory, d.range⟩

/-- `HttpResponse::tryDecode`. -/
def tryDecode (resp : HttpResponse) (buf behind : Bytes) (copyBody : Bool) :
    Decoded HttpResponse :=
  let (d, ln1) := resp.toHttpMsg.tryDecode_ buf copyBody
  resp.finish d ln1 behind

end HttpResponse

end Handy
