import Handy.Http.HeaderLines

/-! # Where an encoded message is cut

A receiver cuts the head of a message into lines up to the first empty one and
takes what follows for the body. A line ends with CR LF, or for a lenient receiver
with LF alone. Every response is cut behind its headers, and its length is counted
right unless its headers have a `content-length` of their own with another value:
`encode` writes that one too. `HttpRequest::encode` ends the request line with two
line feeds, so for such a receiver a request has no headers, whatever its fields
are.
-/

namespace Handy

/-- The first line, and what stands behind its end. -/
def cutLine : Bytes → Option (Bytes × Bytes)
  | [] => none
  | c :: rest =>
      if c = 0x0a then some ([], rest)
      else if c = 0x0d ∧ rest.head? = some 0x0a then some ([], rest.tail)
      else (cutLine rest).map fun cut => (c :: cut.1, cut.2)

theorem length_cutLine {text : Bytes} {cut : Bytes × Bytes} (h : cutLine text = some cut) :
    cut.2.length < text.length := by
  induction text generalizing cut with
  | nil => cases h
  | cons c rest ih =>
      rw [cutLine] at h
      split at h
      · cases h
        exact Nat.lt_succ_self _
      · split at h
        · cases h
          rw [List.length_tail, List.length_cons]
          omega
        · obtain ⟨cut', hcut, rfl⟩ := Option.map_eq_some_iff.mp h
          have hrest := ih hcut
          exact Nat.lt_succ_of_lt hrest

/-- The lines in front of the first empty one, and what stands behind that. -/
def splitHead (text : Bytes) : Option (List Bytes × Bytes) :=
  match _h : cutLine text with
  | none => none
  | some ([], rest) => some ([], rest)
  | some (line, rest) => (splitHead rest).map fun head => (line :: head.1, head.2)
termination_by text.length
decreasing_by exact length_cutLine _h

/-! ## Lines -/

/-- What ends a line: CR LF, or LF alone. -/
def IsLineEnd (e : Bytes) : Prop := e = crlf ∨ e = [0x0a]

theorem cutLine_line {ln : Bytes} (hln : ∀ c ∈ ln, inLine c = true) {e : Bytes} (he : IsLineEnd e)
    (t : Bytes) : cutLine (ln ++ (e ++ t)) = some (ln, t) := by
  induction ln with
  | nil =>
      rcases he with rfl | rfl
      · rfl
      · rfl
  | cons c ln ih =>
      have hc := hln c List.mem_cons_self
      simp only [inLine, Bool.and_eq_true, bne_iff_ne, ne_eq] at hc
      rw [List.cons_append, cutLine, if_neg hc.1, if_neg fun h => hc.2 h.1,
        ih fun x hx => hln x (List.mem_cons_of_mem _ hx)]
      rfl

theorem splitHead_empty {e : Bytes} (he : IsLineEnd e) (t : Bytes) :
    splitHead (e ++ t) = some ([], t) := by
  have hcut : cutLine ([] ++ (e ++ t)) = some ([], t) :=
    cutLine_line (fun c hc => absurd hc List.not_mem_nil) he t
  rw [List.nil_append] at hcut
  unfold splitHead
  split
  · next h =>
      rw [hcut] at h
      cases h
  · next h =>
      rw [hcut] at h
      cases h
      rfl
  · next hne h =>
      rw [hcut] at h
      cases h
      exact (hne rfl).elim

theorem splitHead_line {ln : Bytes} (hne : ln ≠ []) (hln : ∀ c ∈ ln, inLine c = true) {e : Bytes}
    (he : IsLineEnd e) (t : Bytes) :
    splitHead (ln ++ (e ++ t)) = (splitHead t).map fun head => (ln :: head.1, head.2) := by
  have hcut := cutLine_line hln he t
  conv_lhs => unfold splitHead
  split
  · next h =>
      rw [hcut] at h
      cases h
  · next h =>
      rw [hcut] at h
      cases h
      exact absurd rfl hne
  · next h =>
      rw [hcut] at h
      cases h
      rfl

theorem splitHead_lines {lines : List Bytes}
    (h : ∀ ln ∈ lines, ln ≠ [] ∧ ∀ c ∈ ln, inLine c = true) (body : Bytes) :
    splitHead (lines.flatMap (fun ln => ln ++ crlf) ++ (crlf ++ body)) = some (lines, body) := by
  induction lines with
  | nil => exact splitHead_empty (Or.inl rfl) body
  | cons ln lines ih =>
      have hln := h ln List.mem_cons_self
      rw [List.flatMap_cons, List.append_assoc, List.append_assoc,
        splitHead_line hln.1 hln.2 (Or.inl rfl), ih fun x hx => h x (List.mem_cons_of_mem _ hx)]
      rfl

/-- The name of a header line in lower case. -/
def lineName (ln : Bytes) : Bytes := (HttpMsg.fieldValue (ln.takeWhile (· != 0x3a))).map tolower

/-- What stands behind its colon, without the blanks around it. -/
def lineValue (ln : Bytes) : Bytes := HttpMsg.fieldValue (ln.dropWhile (· != 0x3a)).tail

/-- A `content-length` line, its name in any case, gives `n` in decimal. -/
def Counts (n : Nat) (ln : Bytes) : Prop :=
  lineName ln = HttpMsg.contentLength →
    lineValue ln ≠ [] ∧ (∀ c ∈ lineValue ln, isdigit c = true) ∧ digits (lineValue ln) = n

instance (n : Nat) (ln : Bytes) : Decidable (Counts n ln) :=
  inferInstanceAs (Decidable (_ → _))

theorem fieldValue_word {w : Bytes} (h : ∀ c ∈ w, HttpMsg.isOws c = false) :
    HttpMsg.fieldValue w = w := by
  unfold HttpMsg.fieldValue
  rw [List.dropWhile_eq_self_iff.mpr fun hl => by simp [h _ (List.getElem_mem hl)],
    List.rdropWhile_eq_self_iff.mpr fun hne => by simp [h _ (List.getLast_mem hne)]]

/-- A header line whose name has no colon, cut at the colon behind it. -/
theorem cut_field {name : Bytes} (h : ∀ c ∈ name, c ≠ 0x3a) (value : Bytes) :
    (HttpMsg.field name value).takeWhile (· != 0x3a) = name ∧
      (HttpMsg.field name value).dropWhile (· != 0x3a) = 0x3a :: 0x20 :: value := by
  have hname : ∀ c ∈ name, (c != 0x3a) = true := fun c hc => by simpa using h c hc
  rw [HttpMsg.field_eq, List.takeWhile_append_of_pos hname, List.dropWhile_append_of_pos hname]
  simp

/-- The length `encode` writes itself is right. -/
theorem counts_contentLengthName (n : Nat) :
    Counts n (HttpMsg.field HttpMsg.contentLengthName (decimal n)) := by
  have hcolon : ∀ c ∈ HttpMsg.contentLengthName, c ≠ 0x3a := by decide +kernel
  have hcut := cut_field hcolon (decimal n)
  have hvalue : lineValue (HttpMsg.field HttpMsg.contentLengthName (decimal n)) = decimal n := by
    have hword : HttpMsg.fieldValue (decimal n) = decimal n := by
      refine fieldValue_word fun c hc => eq_false_of_ne_true fun hows => ?_
      have hspace := HttpMsg.isspace_of_isOws hows
      rw [isspace_of_isdigit (isdigit_decimal n c hc)] at hspace
      cases hspace
    have hblank : HttpMsg.fieldValue (0x20 :: decimal n) = HttpMsg.fieldValue (decimal n) := rfl
    rw [lineValue, hcut.2, List.tail_cons, hblank, hword]
  intro _
  rw [hvalue]
  refine ⟨decimal_ne_nil n, isdigit_decimal n, ?_⟩
  have hdigits := digits_decimal n (t := []) nofun
  rwa [List.append_nil] at hdigits

/-! ## Encoded messages -/

inductive Outgoing where
  | request (req : HttpRequest)
  | response (resp : HttpResponse)

namespace Outgoing

open HttpMsg

def msg : Outgoing → HttpMsg
  | request req => req.toHttpMsg
  | response resp => resp.toHttpMsg

def encode (memory : Bytes) (buf : Buffer UInt8) : Outgoing → Buffer UInt8 × Int
  | request req => req.encode memory buf
  | response resp => resp.encode memory buf

/-- The fields of the start line that are strings. -/
def startFields : Outgoing → List Bytes
  | request req => [req.method, req.queryUri, req.version]
  | response resp => [resp.version, resp.statusWord]

/-- The start line as it is formatted, without its end. -/
def startText : Outgoing → Bytes
  | request req => cStr req.method ++ [0x20] ++ cStr req.queryUri ++ [0x20] ++ cStr req.version
  | response resp =>
      cStr resp.version ++ [0x20] ++ signedDecimal resp.status ++ [0x20] ++ cStr resp.statusWord

/-- What `encode` formats behind it. -/
def startEnd : Outgoing → Bytes
  | request _ => [0x0a, 0x0a]
  | response _ => crlf

/-- The array `encode` formats the start line in. -/
def lineSize : Outgoing → Nat
  | request _ => 4096
  | response _ => 1024

/-- Fields that are not empty and hold no line end, a start line that fits, and a
body that is in memory. -/
structure Plain (m : Outgoing) (memory : Bytes) : Prop where
  start : ∀ s ∈ m.startFields, s ≠ [] ∧ ∀ c ∈ s, inLine c = true
  header : ∀ k v : Bytes, m.msg.headers[k]? = some v →
    (k ≠ [] ∧ ∀ c ∈ k, inLine c = true) ∧ v ≠ [] ∧ ∀ c ∈ v, inLine c = true
  fits : (m.startText ++ m.startEnd).length < m.lineSize
  lies : m.msg.getBody.Lies memory
  size : (m.msg.getBody.read memory).length < 2 ^ 64

/-- The header lines of a message with `n` bytes behind its head. -/
def headLines (m : Outgoing) (n : Nat) : List Bytes :=
  (m.msg.headers.toList ++ [(connection, keepAlive), (contentLengthName, decimal n)]).map
    fun hd => field hd.1 hd.2

/-- A receiver cuts the text into one start line, the header lines, each of which
that is named `content-length` counts what stands behind the empty line, and the
body. -/
def Framed (m : Outgoing) (memory text : Bytes) : Prop :=
  ∃ start rest, splitHead text = some (start :: m.headLines rest.length, rest) ∧
    rest = m.msg.getBody.read memory ∧ ∀ ln ∈ m.headLines rest.length, Counts rest.length ln

/-- No header of the message is a `content-length` with another value than the length
of its body. -/
def AgreesOnLength (m : Outgoing) (memory : Bytes) : Prop :=
  ∀ k v : Bytes, m.msg.headers[k]? = some v →
    Counts (m.msg.getBody.read memory).length (field k v)

section Encoded

variable {m : Outgoing} {memory : Bytes}

theorem Plain.inLine_startText (h : m.Plain memory) : ∀ c ∈ m.startText, inLine c = true := by
  have hfield : ∀ s ∈ m.startFields, ∀ c ∈ cStr s, inLine c = true := fun s hs c hc =>
    (h.start s hs).2 c ((List.takeWhile_prefix _).subset hc)
  cases m with
  | request req =>
      intro c hc
      simp only [startText, List.mem_append, List.mem_singleton] at hc
      rcases hc with (((hc | rfl) | hc) | rfl) | hc
      · exact hfield req.method (by simp [startFields]) c hc
      · decide
      · exact hfield req.queryUri (by simp [startFields]) c hc
      · decide
      · exact hfield req.version (by simp [startFields]) c hc
  | response resp =>
      intro c hc
      simp only [startText, List.mem_append, List.mem_singleton] at hc
      rcases hc with (((hc | rfl) | hc) | rfl) | hc
      · exact hfield resp.version (by simp [startFields]) c hc
      · decide
      · exact (isWord_signedDecimal resp.status).inLine c hc
      · decide
      · exact hfield resp.statusWord (by simp [startFields]) c hc

theorem startText_ne_nil (m : Outgoing) : m.startText ≠ [] := by
  cases m with
  | request req => simp [startText]
  | response resp => simp [startText]

/-- The bytes `encode` appends. -/
theorem Plain.encoded (h : m.Plain memory) (buf : Buffer UInt8) :
    (m.encode memory buf).1.contents.drop buf.size =
      m.startText ++ (m.startEnd ++ m.msg.sentText (m.msg.getBody.read memory)) := by
  have hfits := h.fits
  have hline : snprintf m.lineSize (m.startText ++ m.startEnd) = m.startText ++ m.startEnd :=
    List.take_of_length_le (by omega)
  have hall : (m.encode memory buf).1.contents =
      buf.contents ++ (m.startText ++ m.startEnd ++ m.msg.sentText (m.msg.getBody.read memory)) := by
    rw [← hline]
    cases m with
    | request req => exact (req.encodeWith_eq _ buf h.lies h.size).1
    | response resp => exact (resp.encodeWith_eq _ buf h.lies h.size).1
  rw [hall, ← Buffer.contents_length, List.drop_left, List.append_assoc]

theorem Plain.headLines_ok (h : m.Plain memory) (n : Nat) :
    ∀ ln ∈ m.headLines n, ln ≠ [] ∧ ∀ c ∈ ln, inLine c = true := by
  have hfield : ∀ k v : Bytes, (∀ c ∈ k, inLine c = true) → (∀ c ∈ v, inLine c = true) →
      field k v ≠ [] ∧ ∀ c ∈ field k v, inLine c = true := by
    intro k v hk hv
    constructor
    · simp [field]
    · intro c hc
      simp only [field, List.mem_append, List.mem_cons, List.not_mem_nil, or_false] at hc
      rcases hc with (hc | rfl | rfl) | hc
      · exact hk c hc
      · decide
      · decide
      · exact hv c hc
  intro ln hln
  obtain ⟨hd, hmem, rfl⟩ := List.mem_map.mp hln
  rcases List.mem_append.mp hmem with hmem | hmem
  · have hget := Std.ExtTreeMap.mem_toList_iff_getElem?_eq_some.mp hmem
    obtain ⟨hk, hv⟩ := h.header hd.1 hd.2 hget
    exact hfield hd.1 hd.2 hk.2 hv.2
  · rcases List.mem_cons.mp hmem with rfl | hmem
    · exact hfield connection keepAlive (by decide +kernel) (by decide +kernel)
    · rw [List.mem_singleton.mp hmem]
      exact hfield contentLengthName (decimal n) (by decide +kernel) fun c hc =>
        inLine_of_not_isspace (isspace_of_isdigit (isdigit_decimal n c hc))

/-- Behind its start line a message is cut where its body begins. -/
theorem Plain.splitHead_sentText (h : m.Plain memory) (body : Bytes) :
    splitHead (m.msg.sentText body) = some (m.headLines body.length, body) := by
  have htext : m.msg.sentText body =
      (m.headLines body.length).flatMap (fun ln => ln ++ crlf) ++ (crlf ++ body) := by
    rw [sentText, headerText, headLines, List.flatMap_map, List.append_assoc]
    rfl
  rw [htext]
  exact splitHead_lines (h.headLines_ok body.length) body

/-- The header lines count the body exactly as far as the message's own headers do. -/
theorem counts_headLines (m : Outgoing) (memory : Bytes) :
    (∀ ln ∈ m.headLines (m.msg.getBody.read memory).length,
      Counts (m.msg.getBody.read memory).length ln) ↔ m.AgreesOnLength memory := by
  constructor
  · intro hlines k v hget
    refine hlines _ (List.mem_map.mpr ⟨(k, v), List.mem_append_left _ ?_, rfl⟩)
    exact Std.ExtTreeMap.mem_toList_iff_getElem?_eq_some.mpr hget
  · intro hagrees ln hln
    obtain ⟨hd, hmem, rfl⟩ := List.mem_map.mp hln
    rcases List.mem_append.mp hmem with hmem | hmem
    · exact hagrees hd.1 hd.2 (Std.ExtTreeMap.mem_toList_iff_getElem?_eq_some.mp hmem)
    · rcases List.mem_cons.mp hmem with rfl | hmem
      · intro hname
        exact absurd hname (by decide +kernel)
      · rw [List.mem_singleton.mp hmem]
        exact counts_contentLengthName _

/-- A receiver cuts an encoded response behind its headers. -/
theorem splitHead_response {resp : HttpResponse} (h : (response resp).Plain memory)
    (buf : Buffer UInt8) :
    splitHead ((resp.encode memory buf).1.contents.drop buf.size) =
      some ((response resp).startText ::
        (response resp).headLines (resp.getBody.read memory).length, resp.getBody.read memory) := by
  have hbytes := h.encoded buf
  rw [encode, startEnd] at hbytes
  rw [hbytes, splitHead_line (startText_ne_nil _) h.inLine_startText (Or.inl rfl),
    h.splitHead_sentText]
  rfl

theorem framed_response {resp : HttpResponse} (h : (response resp).Plain memory)
    (buf : Buffer UInt8) :
    (response resp).Framed memory ((resp.encode memory buf).1.contents.drop buf.size) ↔
      (response resp).AgreesOnLength memory := by
  rw [← counts_headLines]
  constructor
  · rintro ⟨start, rest, -, rfl, hcounts⟩
    exact hcounts
  · intro hcounts
    exact ⟨_, _, splitHead_response h buf, rfl, hcounts⟩

/-- The second line feed is the empty line. -/
theorem splitHead_request {req : HttpRequest} (h : (request req).Plain memory) (buf : Buffer UInt8) :
    splitHead ((req.encode memory buf).1.contents.drop buf.size) =
      some ([(request req).startText], req.sentText (req.getBody.read memory)) := by
  have hbytes := h.encoded buf
  have hends : ∀ t : Bytes, ([0x0a, 0x0a] : Bytes) ++ t = [0x0a] ++ ([0x0a] ++ t) := fun _ => rfl
  rw [encode, startEnd, hends] at hbytes
  rw [hbytes, splitHead_line (startText_ne_nil _) h.inLine_startText (Or.inr rfl),
    splitHead_empty (Or.inr rfl)]
  rfl

theorem not_framed_request {req : HttpRequest} (h : (request req).Plain memory)
    (buf : Buffer UInt8) :
    ¬ (request req).Framed memory ((req.encode memory buf).1.contents.drop buf.size) := by
  intro ⟨start, rest, hcut, _⟩
  rw [splitHead_request h buf] at hcut
  have hlines := congrArg (fun head => head.1.length) (Option.some.inj hcut)
  simp [headLines] at hlines

end Encoded

def isResponse : Outgoing → Bool
  | request _ => false
  | response _ => true

/-- An encoded message is cut where its body begins, with its header lines in front
of the cut and its length counted right, exactly when it is a response whose own
headers count it right too. -/
theorem framed_iff (m : Outgoing) (memory : Bytes) (h : m.Plain memory) (buf : Buffer UInt8) :
    m.Framed memory ((m.encode memory buf).1.contents.drop buf.size) ↔
      m.isResponse = true ∧ m.AgreesOnLength memory := by
  cases m with
  | request req =>
      constructor
      · exact fun hframed => absurd hframed (not_framed_request h buf)
      · rintro ⟨hno, -⟩
        cases hno
  | response resp =>
      have hframed := framed_response h buf
      constructor
      · exact fun h => ⟨rfl, hframed.mp h⟩
      · exact fun h => hframed.mpr h.2

/-- `404 Not Found` with a header and the body `hi`. -/
def notFoundHi (name value : Bytes) : HttpResponse :=
  { HttpResponse.cleared with
    status := 404
    statusWord := [0x4e, 0x6f, 0x74, 0x20, 0x46, 0x6f, 0x75, 0x6e, 0x64]
    headers := Std.ExtTreeMap.insert ∅ name value
    body := [0x68, 0x69] }

theorem header_notFoundHi {name value k v : Bytes}
    (h : (response (notFoundHi name value)).msg.headers[k]? = some v) : k = name ∧ v = value := by
  have hget : (Std.ExtTreeMap.insert (∅ : Dict) name value)[k]? = some v := h
  rw [Std.ExtTreeMap.getElem?_insert] at hget
  split at hget
  · next heq => exact ⟨(Std.LawfulEqCmp.eq_of_compare heq).symm, (Option.some.inj hget).symm⟩
  · rw [Std.ExtTreeMap.getElem?_empty] at hget
    cases hget

theorem plain_notFoundHi {name value : Bytes} (hname : name ≠ [] ∧ ∀ c ∈ name, inLine c = true)
    (hvalue : value ≠ [] ∧ ∀ c ∈ value, inLine c = true) :
    (response (notFoundHi name value)).Plain [] where
  start := by
    show ∀ s ∈ [HttpResponse.cleared.version, [0x4e, 0x6f, 0x74, 0x20, 0x46, 0x6f, 0x75, 0x6e, 0x64]],
      s ≠ [] ∧ ∀ c ∈ s, inLine c = true
    decide +kernel
  header k v hget := by
    obtain ⟨rfl, rfl⟩ := header_notFoundHi hget
    exact ⟨hname, hvalue⟩
  fits := by
    show (cStr HttpResponse.cleared.version ++ [0x20] ++ signedDecimal 404 ++ [0x20] ++
      cStr [0x4e, 0x6f, 0x74, 0x20, 0x46, 0x6f, 0x75, 0x6e, 0x64] ++ crlf).length < 1024
    decide +kernel
  lies := trivial
  size := by
    show ([0x68, 0x69] : Bytes).length < 2 ^ 64
    decide

/-- With the header `x: hi` the message is framed. -/
theorem framed_iff_notFoundHi :
    let m := response (notFoundHi [0x78] [0x68, 0x69])
    (m.Framed [] ((m.encode [] .new).1.contents.drop 0) ↔
      m.isResponse = true ∧ m.AgreesOnLength []) ∧
      m.isResponse = true ∧ m.AgreesOnLength [] := by
  intro m
  have hplain : m.Plain [] := plain_notFoundHi (by decide +kernel) (by decide +kernel)
  refine ⟨framed_iff m [] hplain .new, rfl, ?_⟩
  intro k v hget
  obtain ⟨rfl, rfl⟩ := header_notFoundHi hget
  intro hname
  exact absurd hname (by decide +kernel)

/-- `GET /` without headers: everything behind its first line is taken for the body.
And a response with the header `content-length: 5` and a body of two bytes. -/
theorem request_cut_at_once :
    (¬ ∀ (m : Outgoing) (memory : Bytes), m.Plain memory → ∀ buf,
      m.Framed memory ((m.encode memory buf).1.contents.drop buf.size)) ∧
      ¬ (response (notFoundHi contentLength [0x35])).Framed []
        (((response (notFoundHi contentLength [0x35])).encode [] .new).1.contents.drop 0) := by
  constructor
  · intro hall
    let req : HttpRequest := { HttpRequest.cleared with queryUri := [0x2f] }
    have hplain : (request req).Plain [] :=
      { start := by decide +kernel
        header := by
          intro k v hk
          have hget : (∅ : Dict)[k]? = some v := hk
          rw [Std.ExtTreeMap.getElem?_empty] at hget
          cases hget
        fits := by decide
        lies := trivial
        size := by decide }
    exact not_framed_request hplain .new (hall (request req) [] hplain .new)
  · have hplain : (response (notFoundHi contentLength [0x35])).Plain [] :=
      plain_notFoundHi (by decide +kernel) (by decide +kernel)
    intro hframed
    have hagrees := (framed_response hplain .new).mp hframed
    have hget : (response (notFoundHi contentLength [0x35])).msg.headers[contentLength]? =
        some [0x35] := Std.ExtTreeMap.getElem?_insert_self
    have hcounts := (hagrees contentLength [0x35] hget (by decide +kernel)).2.2
    exact absurd hcounts (by decide +kernel)

end Outgoing

end Handy
