import Handy.Http.SentBlock

/-! # Requests are read back

`HttpRequest::encode` ends the request line with two line feeds, which the
decoder takes for the two bytes of a line end. The line is formatted into an
array of 4096 bytes; a longer one loses its end, and the header behind it is
read as something else or not at all. So the length of the request line decides
the round trip, whatever the rest of the request.
-/

namespace Handy

namespace HttpRequest

open HttpMsg

/-- A request that can be sent: a start line of three words, the second a path. -/
structure Sendable (req : HttpRequest) (memory : Bytes) : Prop where
  method : IsWord req.method
  queryUri : IsWord req.queryUri
  path : req.queryUri.head? = some 0x2f
  version : IsWord req.version
  msg : req.toHttpMsg.Sendable memory

/-- What a decoder has to find in an encoded request: `body` is its body, `ret` what
`encode` returned. -/
structure ReadsBack (req : HttpRequest) (body : Bytes) (ret : Int) (d : Decoded HttpRequest) :
    Prop where
  outcome : d.outcome = .returned .complete
  method : d.msg.method = req.method
  queryUri : d.msg.queryUri = req.queryUri
  version : d.msg.version = req.version
  headers : d.msg.headers = req.arrivedHeaders body.length
  body : d.msg.getBody.read d.memory = body
  byte : d.msg.getByte = ret

/-- The request line with its two line feeds fits the array of `encode`, terminator
included. -/
def Fits (req : HttpRequest) : Prop :=
  req.method.length + req.queryUri.length + req.version.length + 4 < 4096

instance (req : HttpRequest) : Decidable req.Fits := inferInstanceAs (Decidable (_ < _))

def requestLine (req : HttpRequest) : Bytes :=
  req.method ++ 0x20 :: (req.queryUri ++ 0x20 :: req.version)

section Encoded

variable {req : HttpRequest} {memory : Bytes}

theorem inLine_requestLine (h : req.Sendable memory) : ∀ c ∈ req.requestLine, inLine c = true := by
  intro c hc
  simp only [requestLine, List.mem_append, List.mem_cons] at hc
  rcases hc with hc | rfl | hc | rfl | hc
  · exact h.method.inLine c hc
  · decide
  · exact h.queryUri.inLine c hc
  · decide
  · exact h.version.inLine c hc

/-- The three words come back. -/
theorem started_requestLine (h : req.Sendable memory) :
    (started req.requestLine).2 = true ∧ (started req.requestLine).1.method = req.method ∧
      (started req.requestLine).1.queryUri = req.queryUri ∧
      (started req.requestLine).1.version = req.version := by
  have hne : req.requestLine ≠ [] := by simp [requestLine]
  unfold started
  rw [if_neg hne]
  unfold startLine
  simp only [requestLine, h.method.eatWord, eatWord_blank, h.queryUri.eatWord, h.version.eatWord_end,
    h.path, if_true]
  split
  · exact ⟨rfl, rfl, rfl, rfl⟩
  · exact ⟨rfl, rfl, rfl, rfl⟩

theorem encode_eq (h : req.Sendable memory) (buf : Buffer UInt8) :
    let text := (req.requestLine ++ [0x0a, 0x0a]).take 4095 ++
      req.sentText (req.getBody.read memory)
    (req.encode memory buf).1.contents = buf.contents ++ text ∧
      (req.encode memory buf).2 = toInt32 text.length := by
  have hline : snprintf 4096 (cStr req.method ++ [0x20] ++ cStr req.queryUri ++ [0x20] ++
      cStr req.version ++ [0x0a, 0x0a]) = (req.requestLine ++ [0x0a, 0x0a]).take 4095 := by
    rw [cStr_word h.method, cStr_word h.queryUri, cStr_word h.version, snprintf, requestLine]
    simp
  unfold encode
  rw [hline]
  exact req.encodeWith_eq _ buf h.msg.lies (Nat.lt_trans h.msg.size (by decide))

theorem headers_tryDecode {b block : Bytes} (h : headerBlock b = some block)
    (hok : (parseHead block).ok = true) (copyBody : Bool) :
    (cleared.tryDecode b copyBody).msg.headers = (parseHead block).headers := by
  have hbody : ((parseHead block).msg.takeBody (rewritten b block) copyBody).msg.headers =
      (parseHead block).headers := takeBody_keeps_headers _ _ _
  have hversion := takeBody_keeps_version (parseHead block).msg (rewritten b block) copyBody
  rw [tryDecode_some h hok, ← hbody]
  cases hout : ((parseHead block).msg.takeBody (rewritten b block) copyBody).outcome with
  | returned r =>
      rw [finish_returned hout hversion]
      rfl
  | lengthError =>
      unfold finish
      rw [hout]

/-- An encoded request begins with its whole request line if that fits. -/
theorem readsBack_of_fits (h : req.Sendable memory) (hfits : req.Fits) (buf : Buffer UInt8)
    (t : Bytes) (copyBody : Bool) :
    ReadsBack req (req.getBody.read memory) (req.encode memory buf).2
      (cleared.tryDecode ((req.encode memory buf).1.contents.drop buf.size ++ t) copyBody) := by
  obtain ⟨hcontents, hret⟩ := encode_eq h buf
  obtain ⟨hd, hds, hcons, hsplit⟩ := req.sentText_eq (req.getBody.read memory)
  have hall : (req.requestLine ++ [0x0a, 0x0a]).take 4095 = req.requestLine ++ [0x0a, 0x0a] := by
    refine List.take_of_length_le ?_
    have hlen : req.method.length + req.queryUri.length + req.version.length + 4 < 4096 := hfits
    simp only [requestLine, List.length_append, List.length_cons, List.length_nil]
    omega
  have htext : (req.requestLine ++ [0x0a, 0x0a]).take 4095 ++ req.sentText (req.getBody.read memory) =
      blockOf req.requestLine 0x0a 0x0a hd hds ++ (blank ++ req.getBody.read memory) := by
    rw [hall, List.append_assoc]
    exact hsplit req.requestLine 0x0a 0x0a
  rw [htext] at hcontents hret
  have hbytes : (req.encode memory buf).1.contents.drop buf.size ++ t =
      blockOf req.requestLine 0x0a 0x0a hd hds ++ (blank ++ (req.getBody.read memory ++ t)) := by
    rw [hcontents, ← Buffer.contents_length, List.drop_left]
    simp only [List.append_assoc]
  have hends : EndsLine 0x0a 0x0a := ⟨by decide, by decide⟩
  have hok : ∀ x ∈ hd :: hds, HeaderOk x := by
    rw [← hcons]
    exact headerOk_sent h.msg _
  have hline := inLine_requestLine h
  have hblock := headerBlock_blockOf hline hends hok (req.getBody.read memory ++ t)
  obtain ⟨hline1, hheaders, hgood⟩ := parseHead_blockOf hline hends hok
  rw [← hcons, insertAll_sent h.msg] at hheaders
  have harrived := takeBody_arrived (declared_arrived h.msg.size hheaders) h.msg.size t copyBody
  obtain ⟨hstarted, hmethod, huri, hversion⟩ := started_requestLine h
  rw [hbytes, tryDecode_some hblock hgood, hline1]
  -- from here on it does not matter where the message and its body came from
  generalize htaken : HttpMsg.takeBody _ _ _ = d at harrived ⊢
  obtain ⟨hout, hmap, hbody, hbyte⟩ := harrived
  have hkeeps : d.msg.version = HttpMsg.cleared.version := by
    rw [← htaken]
    exact takeBody_keeps_version _ _ _
  rw [finish_returned hout hkeeps, hstarted, if_pos rfl]
  refine ⟨rfl, hmethod, huri, hversion, hmap.trans hheaders, hbody, hbyte.trans ?_⟩
  rw [hret]
  simp only [List.length_append, blank, List.length_cons, List.length_nil]
  congr 1
  omega

/-- A header that is missing from the block is missing from what is read back. -/
theorem not_readsBack_of_absent {body t : Bytes} {ret : Int} {line : Bytes} {c d : UInt8}
    {hd : Bytes × Bytes} {hds : List (Bytes × Bytes)} (hline : ∀ x ∈ line, inLine x = true)
    (hends : EndsLine c d) (hok : ∀ x ∈ hd :: hds, HeaderOk x) {k : Bytes}
    (hsent : (req.arrivedHeaders body.length)[k]? ≠ none)
    (habsent : ∀ x ∈ hd :: hds, x.1.map tolower ≠ k) (copyBody : Bool) :
    ¬ ReadsBack req body ret
      (cleared.tryDecode (blockOf line c d hd hds ++ (blank ++ (body ++ t))) copyBody) := by
  intro hback
  have hblock := headerBlock_blockOf hline hends hok (body ++ t)
  obtain ⟨-, hheaders, hgood⟩ := parseHead_blockOf hline hends hok
  have hmap := hback.headers
  rw [headers_tryDecode hblock hgood, hheaders] at hmap
  rw [← hmap, insertAll_absent habsent] at hsent
  exact hsent rfl

/-- The first header of an encoded message is found, unless its line is damaged. -/
theorem arrivedHeaders_first (h : req.toHttpMsg.Sendable memory) {n : Nat} {hd : Bytes × Bytes}
    {hds : List (Bytes × Bytes)} (hcons : req.sentHeaders n = hd :: hds) :
    (req.arrivedHeaders n)[hd.1.map tolower]? ≠ none := by
  have hmem : hd ∈ req.sentHeaders n := by
    rw [hcons]
    exact List.mem_cons_self
  have hfound := insertAll_present (distinct_sent h n) hmem ∅
  rw [insertAll_sent h n] at hfound
  rw [hfound]
  exact Option.some_ne_none hd.2

/-- One byte too many: the second line feed is gone and the decoder takes the first
byte of the first header for it. -/
theorem encode_one_over (hlen : req.requestLine.length = 4094) {n : UInt8} {name value : Bytes}
    {hds : List (Bytes × Bytes)} (body : Bytes)
    (hcons : req.sentHeaders body.length = (n :: name, value) :: hds) :
    (req.requestLine ++ [0x0a, 0x0a]).take 4095 ++ req.sentText body =
      blockOf req.requestLine 0x0a n (name, value) hds ++ (blank ++ body) := by
  have htake : (req.requestLine ++ [0x0a, 0x0a]).take 4095 = req.requestLine ++ [0x0a] := by
    have hline : req.requestLine.take 4095 = req.requestLine := List.take_of_length_le (by omega)
    rw [List.take_append, hline, hlen]
    rfl
  rw [htake, sentText, hcons, headerText_cons]
  simp [blockOf, field]

/-- More than one: the first header goes on where the request line was cut off. -/
theorem encode_cut (hlen : 4095 ≤ req.requestLine.length) {hd hd' : Bytes × Bytes}
    {hds : List (Bytes × Bytes)} (body : Bytes)
    (hcons : req.sentHeaders body.length = hd :: hd' :: hds) :
    (req.requestLine ++ [0x0a, 0x0a]).take 4095 ++ req.sentText body =
      blockOf (req.requestLine.take 4095 ++ field hd.1 hd.2) 0x0d 0x0a hd' hds ++
        (blank ++ body) := by
  rw [List.take_append_of_le_length hlen, sentText, hcons, headerText_cons]
  simp [blockOf, laterLines, crlf]

theorem not_readsBack_of_cut (h : req.Sendable memory) (hcut : ¬ req.Fits) (buf : Buffer UInt8)
    (t : Bytes) (copyBody : Bool) :
    ¬ ReadsBack req (req.getBody.read memory) (req.encode memory buf).2
      (cleared.tryDecode ((req.encode memory buf).1.contents.drop buf.size ++ t) copyBody) := by
  obtain ⟨hcontents, -⟩ := encode_eq h buf
  have hbytes : (req.encode memory buf).1.contents.drop buf.size =
      (req.requestLine ++ [0x0a, 0x0a]).take 4095 ++ req.sentText (req.getBody.read memory) := by
    rw [hcontents, ← Buffer.contents_length, List.drop_left]
  have hlong : 4094 ≤ req.requestLine.length := by
    have hsum : ¬ req.method.length + req.queryUri.length + req.version.length + 4 < 4096 := hcut
    simp only [requestLine, List.length_append, List.length_cons]
    omega
  have hsent := headerOk_sent h.msg (req.getBody.read memory).length
  have hdistinct := distinct_sent h.msg (req.getBody.read memory).length
  obtain ⟨⟨name, value⟩, hd', hds, hcons⟩ := req.two_le_sentHeaders (req.getBody.read memory).length
  have hfirst := arrivedHeaders_first h.msg hcons
  have hline := inLine_requestLine h
  rw [hcons] at hsent hdistinct
  obtain ⟨hne, -⟩ := List.pairwise_cons.mp hdistinct
  have hlater : ∀ x ∈ hd' :: hds, HeaderOk x := fun x hx => hsent x (List.mem_cons_of_mem _ hx)
  rcases Nat.eq_or_lt_of_le hlong with hlen | hlen
  · obtain ⟨n, name, rfl⟩ := List.exists_cons_of_ne_nil (sent_name_ne_nil h.msg hcons)
    have hhead := hsent _ List.mem_cons_self
    have hshort : HeaderOk (name, value) :=
      ⟨fun c hc => hhead.name c (List.mem_cons_of_mem _ hc), hhead.value, hhead.trimmed, hhead.line⟩
    have hn : n ≠ 0x0d :=
      ne_cr_of_inLine (inLine_of_not_isspace (hhead.name n List.mem_cons_self))
    rw [hbytes, encode_one_over hlen.symm _ hcons, List.append_assoc, List.append_assoc]
    refine not_readsBack_of_absent hline ⟨by decide, hn⟩ ?_ hfirst ?_ copyBody
    · intro x hx
      rcases List.mem_cons.mp hx with rfl | hx
      · exact hshort
      · exact hlater x hx
    · intro x hx heq
      rcases List.mem_cons.mp hx with rfl | hx
      · have hsize := congrArg List.length heq
        simp at hsize
      · exact hne x hx heq.symm
  · have hpart : ∀ c ∈ req.requestLine.take 4095 ++ field name value, inLine c = true := by
      intro c hc
      rcases List.mem_append.mp hc with hc | hc
      · exact hline c (List.mem_of_mem_take hc)
      · exact (hsent _ List.mem_cons_self).field_line c hc
    rw [hbytes, encode_cut (by omega) _ hcons, List.append_assoc, List.append_assoc]
    exact not_readsBack_of_absent hpart ⟨by decide, by decide⟩ hlater hfirst
      (fun x hx heq => hne x hx heq.symm) copyBody

end Encoded

/-- An encoded request is read back, whatever follows it, exactly when its request
line fits the array `encode` formats it in. -/
theorem round_trip_iff (req : HttpRequest) (memory : Bytes) (h : req.Sendable memory)
    (buf : Buffer UInt8) (t : Bytes) (copyBody : Bool) :
    ReadsBack req (req.getBody.read memory) (req.encode memory buf).2
      (cleared.tryDecode ((req.encode memory buf).1.contents.drop buf.size ++ t) copyBody) ↔
        req.Fits := by
  constructor
  · intro hback
    by_contra hcut
    exact not_readsBack_of_cut h hcut buf t copyBody hback
  · exact fun hfits => readsBack_of_fits h hfits buf t copyBody

/-- `GET / HTTP/1.1` with the header `host: a`. -/
def getRoot : HttpRequest :=
  { cleared with
    queryUri := [0x2f]
    headers := Std.ExtTreeMap.insert ∅ [0x68, 0x6f, 0x73, 0x74] [0x61] }

theorem isWord_get : IsWord cleared.method := ⟨by decide, by decide +kernel⟩

theorem getRoot_sendable : getRoot.Sendable [] where
  method := isWord_get
  queryUri := ⟨by decide, by decide +kernel⟩
  path := rfl
  version := isWord_version
  msg := by
    refine ⟨fun k v hk => ?_, trivial, by decide⟩
    have hget : (Std.ExtTreeMap.insert (∅ : Dict) [0x68, 0x6f, 0x73, 0x74] [0x61])[k]? = some v :=
      hk
    rw [Std.ExtTreeMap.getElem?_insert] at hget
    split at hget
    · next heq =>
        rw [← Std.LawfulEqCmp.eq_of_compare heq, ← Option.some.inj hget]
        have hname : IsName [0x68, 0x6f, 0x73, 0x74] :=
          ⟨by decide, by decide +kernel, by decide, by decide⟩
        exact ⟨hname, ⟨by decide, by decide, by decide +kernel⟩⟩
    · rw [Std.ExtTreeMap.getElem?_empty] at hget
      cases hget

theorem round_trip_iff_getRoot :
    ReadsBack getRoot [] (getRoot.encode [] .new).2
      (cleared.tryDecode ((getRoot.encode [] .new).1.contents.drop 0 ++ []) true) ↔ getRoot.Fits :=
  round_trip_iff getRoot [] getRoot_sendable .new [] true

/-- A path of 4097 bytes. -/
def longRequest : HttpRequest := { cleared with queryUri := 0x2f :: List.replicate 4096 0x61 }

theorem longRequest_not_read_back :
    ¬ ∀ (req : HttpRequest) (memory : Bytes), req.Sendable memory → ∀ buf copyBody,
      ReadsBack req (req.getBody.read memory) (req.encode memory buf).2
        (cleared.tryDecode ((req.encode memory buf).1.contents.drop buf.size ++ []) copyBody) := by
  intro hall
  have hword : IsWord longRequest.queryUri := by
    refine ⟨List.cons_ne_nil _ _, fun c hc => ?_⟩
    rcases List.mem_cons.mp hc with rfl | hc
    · decide
    · rw [List.eq_of_mem_replicate hc]
      decide
  have hsend : longRequest.Sendable [] :=
    ⟨isWord_get, hword, rfl, isWord_version, .of_no_headers rfl trivial (by decide)⟩
  have hlong : ¬ longRequest.Fits := by
    have hlen : longRequest.queryUri.length = 4097 := by
      simp only [longRequest, List.length_cons, List.length_replicate]
    simp only [Fits, hlen]
    omega
  exact not_readsBack_of_cut hsend hlong .new [] true (hall longRequest [] hsend .new true)

end HttpRequest

end Handy
