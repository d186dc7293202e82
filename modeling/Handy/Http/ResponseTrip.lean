import Handy.Http.SentBlock

/-! # Responses are read back

The status is printed and converted back between two blanks, so the conversion
ends inside the status line whatever the reason phrase is. The body is the one
in `body2` if that is not empty and is found again in either form.
-/

namespace Handy

namespace HttpResponse

open HttpMsg

def statusLine (resp : HttpResponse) : Bytes :=
  resp.version ++ 0x20 :: (signedDecimal resp.status ++ 0x20 :: resp.statusWord)

structure Sendable (resp : HttpResponse) (memory : Bytes) : Prop where
  version : IsWord resp.version
  status : -2 ^ 31 ≤ resp.status ∧ resp.status < 2 ^ 31
  trimmed : Slice.trimSpace resp.statusWord = resp.statusWord
  word : ∀ c ∈ resp.statusWord, inLine c = true ∧ c ≠ 0
  fits : (resp.statusLine ++ crlf).length ≤ 1023
  msg : resp.toHttpMsg.Sendable memory

/-- What a decoder has to find in an encoded response. -/
structure ReadsBack (resp : HttpResponse) (body : Bytes) (ret : Int) (d : Decoded HttpResponse) :
    Prop where
  outcome : d.outcome = .returned .complete
  version : d.msg.version = resp.version
  status : d.msg.status = resp.status
  statusWord : d.msg.statusWord = resp.statusWord
  headers : d.msg.headers = resp.arrivedHeaders body.length
  body : d.msg.getBody.read d.memory = body
  byte : d.msg.getByte = ret

section Encoded

variable {resp : HttpResponse} {memory : Bytes}

theorem inLine_statusLine (h : resp.Sendable memory) : ∀ c ∈ resp.statusLine, inLine c = true := by
  intro c hc
  simp only [statusLine, List.mem_append, List.mem_cons] at hc
  rcases hc with hc | rfl | hc | rfl | hc
  · exact h.version.inLine c hc
  · decide
  · exact (isWord_signedDecimal _).inLine c hc
  · decide
  · exact (h.word c hc).1

/-- The conversion of the status ends at the blank behind it. -/
theorem startLine_statusLine (h : resp.Sendable memory) (old : HttpResponse) (t : Bytes) :
    old.startLine resp.statusLine (resp.statusLine ++ t) =
      { old with version := resp.version, status := resp.status, statusWord := resp.statusWord } := by
  have hsigned := isWord_signedDecimal resp.status
  have hskip : (0x20 :: (signedDecimal resp.status ++ 0x20 :: resp.statusWord)).dropWhile isspace =
      signedDecimal resp.status ++ 0x20 :: resp.statusWord := by
    rw [List.dropWhile_cons_of_pos (by decide), hsigned.dropWhile]
  have hpos : resp.statusLine.length -
      (signedDecimal resp.status ++ 0x20 :: resp.statusWord).length = resp.version.length + 1 := by
    simp only [statusLine, List.length_append, List.length_cons]
    omega
  have hdrop : (resp.statusLine ++ t).drop (resp.version.length + 1) =
      signedDecimal resp.status ++ 0x20 :: (resp.statusWord ++ t) := by
    rw [← List.drop_drop]
    simp [statusLine]
  have hend : EndsDigits (0x20 :: (resp.statusWord ++ t)) := by
    rintro c ⟨⟩
    decide
  have hcut : Slice.eatWord resp.statusLine =
      (resp.version, 0x20 :: (signedDecimal resp.status ++ 0x20 :: resp.statusWord)) :=
    h.version.eatWord _
  unfold startLine
  simp only [hcut, hskip, hpos, hdrop, atoi_signedDecimal h.status.1 h.status.2 hend, eatWord_blank,
    hsigned.eatWord, trimSpace_blank, h.trimmed]

theorem encode_eq (h : resp.Sendable memory) (buf : Buffer UInt8) :
    let text := resp.statusLine ++ crlf ++ resp.sentText (resp.getBody.read memory)
    (resp.encode memory buf).1.contents = buf.contents ++ text ∧
      (resp.encode memory buf).2 = toInt32 text.length := by
  have hword : cStr resp.statusWord = resp.statusWord :=
    List.takeWhile_eq_self_iff.mpr fun c hc => by simpa using (h.word c hc).2
  have hline : snprintf 1024 (cStr resp.version ++ [0x20] ++ signedDecimal resp.status ++ [0x20] ++
      cStr resp.statusWord ++ crlf) = resp.statusLine ++ crlf := by
    have htext : resp.version ++ [0x20] ++ signedDecimal resp.status ++ [0x20] ++
        resp.statusWord ++ crlf = resp.statusLine ++ crlf := by
      simp [statusLine]
    rw [cStr_word h.version, hword, htext, snprintf]
    exact List.take_of_length_le h.fits
  unfold encode
  rw [hline]
  exact resp.encodeWith_eq _ buf h.msg.lies (Nat.lt_trans h.msg.size (by decide))

/-- A complete response with a first line, behind `tryDecode_`. -/
theorem finish_of_line {b block : Bytes} (h : headerBlock b = some block)
    (hok : (parseHead block).ok = true) (hline : (parseHead block).line1 ≠ []) {copyBody : Bool}
    {r : Result}
    (hout : ((parseHead block).msg.takeBody (rewritten b block) copyBody).outcome = .returned r)
    (behind : Bytes) :
    cleared.tryDecode b behind copyBody =
      let d := (parseHead block).msg.takeBody (rewritten b block) copyBody
      ⟨{ cleared with toHttpMsg := d.msg }.startLine (parseHead block).line1
          (rewritten b block ++ behind), .returned r, rewritten b block, d.range⟩ := by
  have hmsg : cleared.toHttpMsg = HttpMsg.cleared := rfl
  unfold tryDecode
  rw [hmsg, HttpMsg.tryDecode_some h, hok, if_pos rfl]
  unfold finish
  simp only [hout, hline, if_false, takeBody_memory]

theorem line1_isPrefix (block : Bytes) :
    ∃ left, (parseHead block).line1 ++ left = (parseHead block).text :=
  ⟨_, rfl⟩

end Encoded

/-- An encoded response is read back whatever follows it, its body copied or left in
the buffer. -/
theorem round_trip (resp : HttpResponse) (memory : Bytes) (h : resp.Sendable memory)
    (buf : Buffer UInt8) (t behind : Bytes) (copyBody : Bool) :
    ReadsBack resp (resp.getBody.read memory) (resp.encode memory buf).2
      (cleared.tryDecode ((resp.encode memory buf).1.contents.drop buf.size ++ t) behind copyBody) := by
  obtain ⟨hcontents, hret⟩ := encode_eq h buf
  obtain ⟨hd, hds, hcons, hsplit⟩ := resp.sentText_eq (resp.getBody.read memory)
  have htext : resp.statusLine ++ crlf ++ resp.sentText (resp.getBody.read memory) =
      blockOf resp.statusLine 0x0d 0x0a hd hds ++ (blank ++ resp.getBody.read memory) := by
    rw [List.append_assoc]
    exact hsplit resp.statusLine 0x0d 0x0a
  rw [htext] at hcontents hret
  have hbytes : (resp.encode memory buf).1.contents.drop buf.size ++ t =
      blockOf resp.statusLine 0x0d 0x0a hd hds ++ (blank ++ (resp.getBody.read memory ++ t)) := by
    rw [hcontents, ← Buffer.contents_length, List.drop_left]
    simp only [List.append_assoc]
  have hends : EndsLine 0x0d 0x0a := ⟨by decide, by decide⟩
  have hok : ∀ x ∈ hd :: hds, HeaderOk x := by
    rw [← hcons]
    exact headerOk_sent h.msg _
  have hline := inLine_statusLine h
  have hblock := headerBlock_blockOf hline hends hok (resp.getBody.read memory ++ t)
  obtain ⟨hline1, hheaders, hgood⟩ := parseHead_blockOf hline hends hok
  rw [← hcons, insertAll_sent h.msg] at hheaders
  have harrived := takeBody_arrived (declared_arrived h.msg.size hheaders) h.msg.size t copyBody
  rw [hbytes, finish_of_line hblock hgood (by rw [hline1]; simp [statusLine]) harrived.1]
  obtain ⟨left, hleft⟩ := line1_isPrefix (blockOf resp.statusLine 0x0d 0x0a hd hds)
  rw [hline1] at hleft
  have hmemory : rewritten (blockOf resp.statusLine 0x0d 0x0a hd hds ++
      (blank ++ (resp.getBody.read memory ++ t))) (blockOf resp.statusLine 0x0d 0x0a hd hds) ++ behind =
      resp.statusLine ++ (left ++ (blank ++ (resp.getBody.read memory ++ t)) ++ behind) := by
    rw [rewritten, ← hleft, List.drop_left]
    simp only [List.append_assoc]
  rw [hline1, hmemory]
  simp only [startLine_statusLine h]
  -- from here on it does not matter where the message and its body came from
  generalize htaken : HttpMsg.takeBody _ _ _ = d at harrived ⊢
  obtain ⟨-, hmap, hbody, hbyte⟩ := harrived
  have hbuffer := congrArg Decoded.memory htaken
  rw [takeBody_memory] at hbuffer
  rw [← hbuffer] at hbody
  refine ⟨rfl, rfl, rfl, rfl, hmap.trans hheaders, ?_, hbyte.trans ?_⟩
  · exact hbody
  · rw [hret]
    simp only [List.length_append, blank, List.length_cons, List.length_nil]
    congr 1
    omega

/-- `404 Not Found` with the body `hi`, which `body2` points to. -/
def notFound : HttpResponse :=
  { cleared with
    status := 404
    statusWord := [0x4e, 0x6f, 0x74, 0x20, 0x46, 0x6f, 0x75, 0x6e, 0x64]
    body2 := ⟨1, 3⟩ }

theorem round_trip_notFound :
    ReadsBack notFound [0x68, 0x69] (notFound.encode [0x2e, 0x68, 0x69, 0x2e] .new).2
      (cleared.tryDecode ((notFound.encode [0x2e, 0x68, 0x69, 0x2e] .new).1.contents.drop 0 ++ [0x35])
        [] true) := by
  have hsend : notFound.Sendable [0x2e, 0x68, 0x69, 0x2e] :=
    { version := isWord_version
      status := ⟨by decide, by decide⟩
      trimmed := by decide
      word := by decide +kernel
      fits := by decide
      msg := .of_no_headers rfl (by decide : Slice.Within ⟨1, 3⟩ 4) (by decide) }
  exact round_trip notFound [0x2e, 0x68, 0x69, 0x2e] hsend .new [0x35] [] true

end HttpResponse

end Handy
