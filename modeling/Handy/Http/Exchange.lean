import Handy.Http.Client
import Handy.Http.Expect
import Handy.Http.Query
import Handy.Http.RequestTrip

/-! # Requests and responses over one connection

An HTTP client and an HTTP server keep one connection alive: `sendRequest` and
`sendResponse` encode into `output_`, the streams are cut anyhow, and each callback
answers in the call or later. As long as the client asks one thing at a time, the
`n`-th request served is the `n`-th one asked, and the `n`-th response handed to the
client the one the server gave to it.
-/

namespace Handy

/-- What `encode` appends to `output_`. -/
def HttpRequest.text (req : HttpRequest) (memory : Bytes) : Bytes :=
  (req.encode memory .new).1.contents

/-- What `encode` appends to `output_`. -/
def HttpResponse.text (resp : HttpResponse) (memory : Bytes) : Bytes :=
  (resp.encode memory .new).1.contents

/-- A client and a server; `up` and `down` count what the server and the client have read of
the other's output. The messages given to `sendRequest` and `sendResponse`, each with the memory
its `body2` points into, are bookkeeping. -/
structure HttpExchange where
  client : HttpClient
  server : HttpConn
  up : Nat
  down : Nat
  asked : List (HttpRequest × Bytes)
  answered : List (HttpResponse × Bytes)

/-- A call outside of the callbacks, or a read of `n` bytes, with what the callback sends if it
is called and does not leave it for later. -/
inductive ExchangeChoice where
  | sendRequest (req : HttpRequest × Bytes)
  | serve (n : Nat) (answer : Option (HttpResponse × Bytes))
  | sendResponse (resp : HttpResponse × Bytes)
  | receive (n : Nat) (behind : Bytes) (next : Option (HttpRequest × Bytes))

namespace HttpExchange

def fresh : HttpExchange := ⟨.fresh, .fresh, 0, 0, [], []⟩

/-- The next `n` bytes the server reads. -/
def arriving (x : HttpExchange) (n : Nat) : Bytes := (x.client.output.drop x.up).take n

/-- The next `n` bytes the client reads. -/
def returning (x : HttpExchange) (n : Nat) : Bytes := (x.server.output.drop x.down).take n

def step (x : HttpExchange) : ExchangeChoice → HttpExchange
  | .sendRequest req =>
      { x with
        client := x.client.sendRequest (req.1.text req.2)
        asked := x.asked ++ [req] }
  | .serve n answer =>
      let server := x.server.readAll (x.arriving n) (answer.map fun resp => resp.1.text resp.2)
      { x with
        server := server
        up := x.up + n
        answered := x.answered ++
          if x.server.served.length < server.served.length then answer.toList else [] }
  | .sendResponse resp =>
      { x with
        server := x.server.sendResponse (resp.1.text resp.2)
        answered := x.answered ++ [resp] }
  | .receive n behind next =>
      let client := x.client.readAll (x.returning n) behind (next.map fun req => req.1.text req.2)
      { x with
        client := client
        down := x.down + n
        asked := x.asked ++
          if x.client.got.length < client.got.length then next.toList else [] }

/-- A request that can be sent, whole. -/
structure Asks (req : HttpRequest × Bytes) : Prop where
  sendable : req.1.Sendable req.2
  fits : req.1.Fits
  size : (req.1.text req.2).length < 2 ^ 31

structure Answers (resp : HttpResponse × Bytes) : Prop where
  sendable : resp.1.Sendable resp.2
  size : (resp.1.text resp.2).length < 2 ^ 31

/-- The client asks one thing at a time, the server answers what it was asked, and a socket is
readable when something has arrived. -/
def Lockstep (x : HttpExchange) : ExchangeChoice → Prop
  | .sendRequest req => x.client.got.length = x.asked.length ∧ Asks req
  | .serve n answer =>
      0 < n ∧ x.up + n ≤ x.client.output.length ∧ ∀ resp ∈ answer, Answers resp
  | .sendResponse resp => 0 < x.server.unanswered ∧ Answers resp
  | .receive n _ next =>
      0 < n ∧ x.down + n ≤ x.server.output.length ∧ ∀ req ∈ next, Asks req

/-- Nothing is on its way, and no response is owed. -/
structure Settled (x : HttpExchange) : Prop where
  up : x.up = x.client.output.length
  down : x.down = x.server.output.length
  unanswered : x.server.unanswered = 0

end HttpExchange

/-! ## What is read of a message -/

namespace HttpMsg

theorem takeBody_body2 (m : HttpMsg) (buf : Bytes) : (m.takeBody buf true).msg.body2 = m.body2 := by
  rcases takeBody_cases m buf true with ⟨-, h⟩ | ⟨-, ⟨-, -, h⟩ | ⟨-, h⟩⟩
  · rw [h]
  · rw [h]
  · rw [h]
    rfl

theorem body2_tryDecode_ (buf : Bytes) : (cleared.tryDecode_ buf true).1.msg.body2 = .unset := by
  cases hblock : headerBlock buf with
  | none =>
      rw [tryDecode_none hblock]
      rfl
  | some block =>
      rw [tryDecode_some hblock]
      split
      · exact takeBody_body2 _ _
      · rfl

theorem getBody_copied {m : HttpMsg} (h : m.body2 = .unset) {memory body : Bytes}
    (hread : m.getBody.read memory = body) : m.getBody = .copied body := by
  have hcopied : m.getBody = .copied m.body := by
    unfold getBody
    rw [h]
    rfl
  rw [hcopied] at hread ⊢
  exact congrArg Body.copied hread

end HttpMsg

namespace HttpRequest

open HttpMsg

/-- What the server's callback finds of a request. -/
structure Carries (req : HttpRequest × Bytes) (got : HttpRequest) : Prop where
  method : got.method = req.1.method
  uri : got.uri = pathOf req.1.queryUri
  args : got.args = argsOf (queryOf req.1.queryUri)
  version : got.version = req.1.version
  headers : got.headers = req.1.arrivedHeaders (req.1.getBody.read req.2).length
  body : got.getBody = .copied (req.1.getBody.read req.2)

theorem body2_finish (req : HttpRequest) (d : Decoded HttpMsg) (ln1 : Bytes) :
    (req.finish d ln1).msg.body2 = d.msg.body2 := by
  unfold finish
  cases d.outcome with
  | lengthError => rfl
  | returned r =>
      simp only
      split
      · rfl
      · simp only [startLine_msg req d.msg ln1]

theorem body2_tryDecode (buf : Bytes) : (cleared.tryDecode buf true).msg.body2 = .unset :=
  (body2_finish cleared _ _).trans (body2_tryDecode_ buf)

/-- A path in the request decides the resource and the arguments. -/
theorem split_of_path {buf : Bytes} (hpath : (cleared.tryDecode buf true).msg.queryUri.head? = some 0x2f) :
    (cleared.tryDecode buf true).msg.uri = pathOf (cleared.tryDecode buf true).msg.queryUri ∧
      (cleared.tryDecode buf true).msg.args =
        argsOf (queryOf (cleared.tryDecode buf true).msg.queryUri) := by
  unfold tryDecode finish at hpath ⊢
  simp only at hpath ⊢
  cases hout : (cleared.toHttpMsg.tryDecode_ buf true).1.outcome with
  | lengthError =>
      rw [hout] at hpath
      cases hpath
  | returned r =>
      simp only [hout] at hpath ⊢
      split
      · next hnil =>
          rw [if_pos hnil] at hpath
          cases hpath
      · next hne =>
          rw [if_neg hne] at hpath
          exact startLine_split rfl _ hpath

theorem text_whole {req : HttpRequest × Bytes} (h : HttpExchange.Asks req) :
    HttpConn.Whole (req.1.text req.2) ∧
      Carries req (cleared.tryDecode (req.1.text req.2) true).msg := by
  have hback := readsBack_of_fits h.sendable h.fits .new [] true
  have htext : (req.1.encode req.2 .new).1.contents.drop (Buffer.new (α := UInt8)).size ++ [] =
      req.1.text req.2 := by
    rw [List.append_nil]
    rfl
  rw [htext] at hback
  have hret : (req.1.encode req.2 .new).2 = (req.1.text req.2).length := by
    obtain ⟨hcontents, hret⟩ := encode_eq h.sendable .new
    have hsize := h.size
    rw [Buffer.contents_new, List.nil_append] at hcontents
    rw [hret, ← hcontents]
    exact toInt32_of_lt hsize
  have hpath : (cleared.tryDecode (req.1.text req.2) true).msg.queryUri.head? = some 0x2f := by
    rw [hback.queryUri]
    exact h.sendable.path
  have hsplit := split_of_path hpath
  rw [hback.queryUri] at hsplit
  refine ⟨⟨hback.outcome, hback.byte.trans hret⟩, hback.method, hsplit.1, hsplit.2, hback.version,
    hback.headers, ?_⟩
  exact getBody_copied (body2_tryDecode _) hback.body

end HttpRequest

namespace HttpResponse

open HttpMsg hiding cleared tryDecode_none tryDecode_some

/-- What the client's callback finds of a response. -/
structure Carries (resp : HttpResponse × Bytes) (got : HttpResponse) : Prop where
  version : got.version = resp.1.version
  status : got.status = resp.1.status
  statusWord : got.statusWord = resp.1.statusWord
  headers : got.headers = resp.1.arrivedHeaders (resp.1.getBody.read resp.2).length
  body : got.getBody = .copied (resp.1.getBody.read resp.2)

theorem words_statusLine {resp : HttpResponse} {memory : Bytes} (h : resp.Sendable memory) :
    (Slice.eatWord resp.statusLine).1 = resp.version ∧
      secondWord resp.statusLine = signedDecimal resp.status ∧
      Slice.trimSpace (Slice.eatWord (Slice.eatWord resp.statusLine).2).2 = resp.statusWord := by
  have hsigned := isWord_signedDecimal resp.status
  have hcut : Slice.eatWord resp.statusLine =
      (resp.version, 0x20 :: (signedDecimal resp.status ++ 0x20 :: resp.statusWord)) :=
    h.version.eatWord _
  unfold secondWord
  simp only [hcut, eatWord_blank, hsigned.eatWord, trimSpace_blank, h.trimmed, and_self]

theorem text_whole {resp : HttpResponse × Bytes} (h : HttpExchange.Answers resp) :
    Whole (resp.1.text resp.2) ∧
      Carries resp (cleared.tryDecode (resp.1.text resp.2) [] true).msg := by
  obtain ⟨resp, memory⟩ := resp
  have hsend : resp.Sendable memory := h.sendable
  obtain ⟨hcontents, -⟩ := encode_eq hsend .new
  obtain ⟨hd, hds, hcons, hsplit⟩ := resp.sentText_eq (resp.getBody.read memory)
  have htext : resp.text memory =
      blockOf resp.statusLine 0x0d 0x0a hd hds ++ (blank ++ resp.getBody.read memory) := by
    rw [text, hcontents, Buffer.contents_new, List.nil_append, List.append_assoc]
    exact hsplit resp.statusLine 0x0d 0x0a
  have hends : EndsLine 0x0d 0x0a := ⟨by decide, by decide⟩
  have hok : ∀ x ∈ hd :: hds, HeaderOk x := by
    rw [← hcons]
    exact headerOk_sent hsend.msg _
  have hline := inLine_statusLine hsend
  obtain ⟨hline1, hheaders, hgood⟩ := parseHead_blockOf hline hends hok
  rw [← hcons, insertAll_sent hsend.msg] at hheaders
  have hblock := headerBlock_blockOf hline hends hok (resp.getBody.read memory)
  have harrived := takeBody_arrived (declared_arrived hsend.msg.size hheaders) hsend.msg.size [] true
  rw [List.append_nil] at harrived
  have hlen : (resp.text memory).length =
      (blockOf resp.statusLine 0x0d 0x0a hd hds).length + 4 + (resp.getBody.read memory).length := by
    rw [htext]
    simp only [List.length_append, blank, List.length_cons, List.length_nil]
    omega
  rw [← htext] at hblock harrived
  obtain ⟨hversion, hstatus, hword⟩ := words_statusLine hsend
  have hfirst : (Slice.eatLine (resp.text memory)).1 = resp.statusLine := by
    rw [← line1_eq hblock, hline1]
  have hworded : Worded (resp.text memory) := by
    refine Or.inr ?_
    rw [hfirst, hstatus]
    exact (isWord_signedDecimal _).1
  have hne : resp.statusLine ≠ [] := by simp [statusLine]
  have hvalue : atoi (signedDecimal resp.status) = resp.status := by
    have hread := atoi_signedDecimal hsend.status.1 hsend.status.2 (t := []) (by rintro c ⟨⟩)
    rwa [List.append_nil] at hread
  have hcall := tryDecode_some hblock hgood hworded harrived.1 []
  have hcopies := takeBody_body2 (parseHead (blockOf resp.statusLine 0x0d 0x0a hd hds)).msg
    (rewritten (resp.text memory) (blockOf resp.statusLine 0x0d 0x0a hd hds))
  have hsize : (resp.text memory).length < 2 ^ 31 := h.size
  -- from here on it does not matter where the message and its body came from
  generalize htaken : HttpMsg.takeBody _ _ _ = d at harrived hcall hcopies
  obtain ⟨-, hmap, hbody, hbyte⟩ := harrived
  have hmsg : (cleared.tryDecode (resp.text memory) [] true).msg =
      { cleared with
        toHttpMsg := { d.msg with version := resp.version }
        status := resp.status
        statusWord := resp.statusWord } := by
    rw [hcall, hline1, withLine, started, if_neg hne, hversion, hstatus, hword,
      hvalue]
  simp only [hmsg]
  refine ⟨⟨congrArg Decoded.outcome hcall, ?_, hworded⟩, rfl, rfl, rfl, hmap.trans hheaders, ?_⟩
  · rw [hmsg]
    refine hbyte.trans ?_
    rw [← hlen, toInt32_of_lt hsize]
  · exact getBody_copied hcopies hbody

end HttpResponse

namespace HttpConn

open HttpMsg hiding cleared tryDecode_none tryDecode_some
open HttpRequest

theorem sendResponse_rest (c : HttpConn) (resp : Bytes) :
    (c.sendResponse resp).output = c.output ++ resp ∧
      (c.sendResponse resp).closing = c.closing ∧
      (c.sendResponse resp).unanswered = c.unanswered - 1 := by
  unfold HttpConn.sendResponse clearData consume
  simp only
  split <;> simp

/-- A response sent in the callback is sent when the callback has returned. -/
theorem readAll_some (c : HttpConn) (new resp : Bytes) :
    c.readAll new (some resp) =
      if c.served.length < (c.readAll new none).served.length then
        (c.readAll new none).sendResponse resp
      else c.readAll new none := by
  unfold readAll
  simp only
  split
  · rw [if_neg (Nat.lt_irrefl _)]
  · unfold handleRead
    simp only
    split
    · rw [if_neg (Nat.lt_irrefl _)]
    · rw [if_neg (Nat.lt_irrefl _)]
    · rw [if_neg (Nat.lt_irrefl _)]
    · unfold callback
      simp only
      rw [if_pos (by simp)]
    · rw [if_neg (Nat.lt_irrefl _)]

theorem Waiting.quiet {c : HttpConn} {b new : Bytes} (h : Waiting c b)
    (hready : HttpRequest.Readable (b ++ new))
    (hgoes : settled (cleared.tryDecode (b ++ new) true).outcome = false) :
    (c.readAll new none).output = c.output ∧ (c.readAll new none).closing = c.closing := by
  have hcall := h.decodes hready
  have hout : (c.req.tryDecode (c.input ++ new) true).outcome =
      (cleared.tryDecode (b ++ new) true).outcome := congrArg (·.result) hcall
  have hno := tryDecode_ne_continue (b ++ new)
  unfold readAll handleRead
  simp only [hout]
  generalize (cleared.tryDecode (b ++ new) true).outcome = out at hgoes hno
  split
  · exact ⟨rfl, rfl⟩
  · cases out with
    | lengthError => cases hgoes
    | returned r =>
        cases r with
        | error => cases hgoes
        | complete => cases hgoes
        | notComplete => exact ⟨rfl, rfl⟩
        | continue100 => exact absurd rfl hno

/-- When a request is whole the callback has the word. -/
theorem Waiting.called {c : HttpConn} {b new : Bytes} (h : Waiting c b) (hf : Whole (b ++ new)) :
    (c.readAll new none).output = c.output ∧ (c.readAll new none).closing = c.closing ∧
      (c.readAll new none).unanswered = 1 := by
  have hready := hf.parsed.readable []
  rw [List.append_nil] at hready
  have hcall := h.decodes hready
  have hout : (c.req.tryDecode (c.input ++ new) true).outcome = .returned .complete :=
    (congrArg (·.result) hcall).trans hf.1
  have hne : c.input ++ new ≠ [] := by
    intro hnil
    have hzero := congrArg List.length hnil
    have hpos := List.length_pos_of_ne_nil hf.parsed.nonempty
    rw [List.length_append, h.length, List.length_nil] at hzero
    rw [List.length_append] at hpos
    omega
  unfold readAll handleRead
  simp only [if_neg hne, hout]
  exact ⟨rfl, rfl, by rw [callback]; simp [h.unanswered]⟩

end HttpConn

namespace HttpClient

/-- A request sent in the callback is sent when the callback has returned. -/
theorem readAll_some (c : HttpClient) (new behind req : Bytes) :
    c.readAll new behind (some req) =
      if c.got.length < (c.readAll new behind none).got.length then
        (c.readAll new behind none).sendRequest req
      else c.readAll new behind none := by
  unfold readAll
  simp only
  split
  · rw [if_neg (Nat.lt_irrefl _)]
  · unfold handleRead
    simp only
    split
    · rw [if_neg (Nat.lt_irrefl _)]
    · rw [if_neg (Nat.lt_irrefl _)]
    · unfold callback
      simp only
      rw [if_pos (by simp)]
    · rw [if_neg (Nat.lt_irrefl _)]
    · rw [if_neg (Nat.lt_irrefl _)]

@[simp] theorem sendRequest_got (c : HttpClient) (req : Bytes) : (c.sendRequest req).got = c.got := by
  unfold HttpClient.sendRequest clearData consume
  simp only
  split <;> rfl

end HttpClient

namespace HttpExchange

open HttpConn (OnTime Waiting)

/-- The requests and the responses as they were encoded. -/
def askedText (x : HttpExchange) : List Bytes := x.asked.map fun req => req.1.text req.2

def answeredText (x : HttpExchange) : List Bytes := x.answered.map fun resp => resp.1.text resp.2

/-- What holds whoever has the word; `old` are the requests served. -/
structure Progress (x : HttpExchange) (old : List Bytes) : Prop where
  asks : ∀ req ∈ x.asked, Asks req
  answers : ∀ resp ∈ x.answered, Answers resp
  output : x.client.output = x.askedText.flatten
  replies : x.server.output = x.answeredText.flatten
  onTime : OnTime old (x.client.output.take x.up) x.server
  closing : x.server.closing = false
  got : x.client.got = (x.answeredText.take x.client.got.length).map fun g =>
    (HttpResponse.cleared.tryDecode g [] true).msg

inductive Stage (x : HttpExchange) : Prop
  | resting (progress : x.Progress x.askedText) (client : x.client.Rested)
      (up : x.up = x.client.output.length) (down : x.down = x.server.output.length)
      (unanswered : x.server.unanswered = 0) (answered : x.answered.length = x.asked.length)
      (got : x.client.got.length = x.asked.length)
  /-- the last request is on its way -/
  | asking {old : List (HttpRequest × Bytes)} {last : HttpRequest × Bytes}
      (asked : x.asked = old ++ [last])
      (progress : x.Progress (old.map fun req => req.1.text req.2)) (client : x.client.Awaiting [])
      (up : x.up < x.client.output.length) (down : x.down = x.server.output.length)
      (unanswered : x.server.unanswered = 0) (answered : x.answered.length = old.length)
      (got : x.client.got.length = old.length)
  /-- the server owes a response -/
  | serving (progress : x.Progress x.askedText) (client : x.client.Awaiting [])
      (up : x.up = x.client.output.length) (down : x.down = x.server.output.length)
      (unanswered : x.server.unanswered = 1) (answered : x.answered.length + 1 = x.asked.length)
      (got : x.client.got.length = x.answered.length)
  /-- the last response is on its way, `b` of it has arrived -/
  | answering {past : List (HttpResponse × Bytes)} {last : HttpResponse × Bytes} {b later : Bytes}
      (replied : x.answered = past ++ [last]) (text : last.1.text last.2 = b ++ later)
      (more : later ≠ []) (progress : x.Progress x.askedText) (client : x.client.Awaiting b)
      (up : x.up = x.client.output.length)
      (down : x.down = (past.map fun resp => resp.1.text resp.2).flatten.length + b.length)
      (unanswered : x.server.unanswered = 0) (answered : x.answered.length = x.asked.length)
      (got : x.client.got.length = past.length)

theorem Asks.whole {req : HttpRequest × Bytes} (h : Asks req) : HttpConn.Whole (req.1.text req.2) :=
  (HttpRequest.text_whole h).1

theorem Answers.whole {resp : HttpResponse × Bytes} (h : Answers resp) :
    HttpResponse.Whole (resp.1.text resp.2) :=
  (HttpResponse.text_whole h).1

theorem Answers.nonempty {resp : HttpResponse × Bytes} (h : Answers resp) :
    resp.1.text resp.2 ≠ [] := by
  intro hnil
  have hout := h.whole.outcome
  rw [hnil] at hout
  exact absurd hout (by decide +kernel)

theorem Stage.sendRequest {x : HttpExchange} (h : x.Stage) {req : HttpRequest × Bytes}
    (hrest : x.client.got.length = x.asked.length) (hreq : Asks req) :
    (x.step (.sendRequest req)).Stage := by
  cases h with
  | asking asked progress client up down unanswered answered got =>
      rw [asked, List.length_append, List.length_singleton] at hrest
      omega
  | serving progress client up down unanswered answered got => omega
  | answering replied text more progress client up down unanswered answered got =>
      rw [replied, List.length_append, List.length_singleton] at answered
      omega
  | resting progress client up down unanswered answered got =>
      obtain ⟨hawaits, hgot, hout⟩ := client.sendRequest (req.1.text req.2)
      have htake : (x.client.output ++ req.1.text req.2).take x.up = x.client.output := by
        rw [up, List.take_left]
      have hpos := List.length_pos_of_ne_nil hreq.whole.parsed.nonempty
      have hasked : (x.step (.sendRequest req)).asked = x.asked ++ [req] := rfl
      refine .asking hasked ?_ hawaits ?_ down unanswered answered (hgot ▸ got)
      · refine ⟨?_, progress.answers, ?_, progress.replies, ?_, progress.closing, ?_⟩
        · intro q hq
          rcases List.mem_append.mp hq with hq | hq
          · exact progress.asks q hq
          · rw [List.mem_singleton.mp hq]
            exact hreq
        · show (x.client.sendRequest _).output = _
          rw [hout, progress.output]
          simp [askedText, step]
        · show OnTime _ ((x.client.sendRequest _).output.take x.up) x.server
          have hserved := progress.onTime
          rw [hout, htake]
          rwa [up, List.take_length] at hserved
        · have hsame : (x.step (.sendRequest req)).client.got = x.client.got := hgot
          rw [hsame]
          exact progress.got
      · show x.up < (x.client.sendRequest _).output.length
        rw [hout, List.length_append, up]
        omega

theorem Stage.sendResponse {x : HttpExchange} (h : x.Stage) {resp : HttpResponse × Bytes}
    (howed : 0 < x.server.unanswered) (hresp : Answers resp) :
    (x.step (.sendResponse resp)).Stage := by
  cases h with
  | resting progress client up down unanswered answered got => omega
  | asking asked progress client up down unanswered answered got => omega
  | answering replied text more progress client up down unanswered answered got => omega
  | serving progress client up down unanswered answered got =>
      obtain ⟨hout, hclosing, hleft⟩ := x.server.sendResponse_rest (resp.1.text resp.2)
      have hold : ∀ f ∈ x.askedText, HttpConn.Whole f := by
        intro f hf
        obtain ⟨req, hreq, rfl⟩ := List.mem_map.mp hf
        exact (progress.asks req hreq).whole
      have hanswered : (x.step (.sendResponse resp)).answered = x.answered ++ [resp] := rfl
      have htext : resp.1.text resp.2 = [] ++ resp.1.text resp.2 := rfl
      refine .answering hanswered htext hresp.nonempty ?_ client up ?_ ?_ ?_ got
      · refine ⟨progress.asks, ?_, progress.output, ?_,
          progress.onTime.sendResponse hold howed _, hclosing.trans progress.closing, ?_⟩
        · intro r hr
          rcases List.mem_append.mp hr with hr | hr
          · exact progress.answers r hr
          · rw [List.mem_singleton.mp hr]
            exact hresp
        · show (x.server.sendResponse _).output = _
          rw [hout, progress.replies]
          simp [answeredText, step]
        · have htext : (x.step (.sendResponse resp)).answeredText =
              x.answeredText ++ [resp.1.text resp.2] := by
            simp [answeredText, step]
          have hlen : x.client.got.length ≤ x.answeredText.length := by
            rw [got, answeredText, List.length_map]
          rw [htext]
          show x.client.got = ((x.answeredText ++ [_]).take x.client.got.length).map _
          rw [List.take_append_of_le_length hlen]
          exact progress.got
      · show x.down = _
        rw [down, progress.replies]
        rfl
      · show (x.server.sendResponse _).unanswered = 0
        rw [hleft, unanswered]
      · show (x.answered ++ [resp]).length = x.asked.length
        rw [List.length_append, List.length_singleton]
        exact answered

theorem cut (xs : Bytes) (k n : Nat) : xs.take k ++ ((xs.drop k).take n ++ xs.drop (k + n)) = xs := by
  rw [← List.drop_drop, List.take_append_drop, List.take_append_drop]

theorem Stage.serve {x : HttpExchange} (h : x.Stage) {n : Nat} (hpos : 0 < n)
    (hin : x.up + n ≤ x.client.output.length) :
    (x.step (.serve n none)).Stage ∧
      (x.server.served.length < (x.server.readAll (x.arriving n) none).served.length →
        0 < (x.step (.serve n none)).server.unanswered) := by
  cases h with
  | resting progress client up down unanswered answered got => omega
  | serving progress client up down unanswered answered got => omega
  | answering replied text more progress client up down unanswered answered got => omega
  | @asking old last asked progress client up down unanswered answered got =>
      have hreq : Asks last := progress.asks last (by simp [asked])
      have hold : ∀ g ∈ (old.map fun req => req.1.text req.2) ++ [last.1.text last.2],
          HttpConn.Whole g := by
        intro g hg
        have hmem : g ∈ x.askedText := by simpa [askedText, asked] using hg
        obtain ⟨req, hreq, rfl⟩ := List.mem_map.mp hmem
        exact (progress.asks req hreq).whole
      have htext : x.askedText = (old.map fun req => req.1.text req.2) ++ [last.1.text last.2] := by
        simp [askedText, asked]
      rcases progress.onTime.place with ⟨hat, b, hgot, hwait⟩ | ⟨_, _, _, -, -, -, howing⟩
      · -- what has arrived, what arrives now, and what comes later make the last request
        have hsplit : (b ++ x.arriving n) ++ x.client.output.drop (x.up + n) = last.1.text last.2 := by
          have hall : x.client.output.take x.up ++
              (x.arriving n ++ x.client.output.drop (x.up + n)) =
                (old.map fun req => req.1.text req.2).flatten ++ last.1.text last.2 := by
            rw [arriving, cut, progress.output, htext, List.flatten_append, List.flatten_singleton]
          rw [hgot, List.append_assoc] at hall
          rw [List.append_assoc]
          exact List.append_cancel_left hall
        have hgoing := progress.onTime
        rw [hgot] at hgoing
        have hread : x.client.output.take (x.up + n) =
            (old.map fun req => req.1.text req.2).flatten ++ b ++ x.arriving n := by
          rw [List.take_add, hgot]
          rfl
        have hanswered : (x.step (.serve n none)).answered = x.answered := by
          simp [step]
        have htexts : (x.step (.serve n none)).answeredText = x.answeredText := by
          simp [answeredText, step]
        by_cases hlater : x.client.output.drop (x.up + n) = []
        · rw [hlater, List.append_nil] at hsplit
          have hend : x.up + n = x.client.output.length := by
            have hlen := List.drop_eq_nil_iff.mp hlater
            omega
          obtain ⟨hout, hclosing, hone⟩ := hwait.called (hsplit ▸ hreq.whole)
          have hserved := hgoing.serves hat hwait hold
            (hsplit.trans (List.append_nil _).symm) none
          rw [← hread, ← htext] at hserved
          refine ⟨.serving ⟨progress.asks, ?_, progress.output, ?_, hserved,
            hclosing.trans progress.closing, ?_⟩ client hend ?_ hone ?_ ?_, fun _ => ?_⟩
          · rw [hanswered]
            exact progress.answers
          · rw [htexts]
            exact hout.trans progress.replies
          · rw [htexts]
            exact progress.got
          · show x.down = (x.server.readAll _ none).output.length
            rw [hout, down]
          · rw [hanswered]
            show x.answered.length + 1 = x.asked.length
            rw [asked, List.length_append, List.length_singleton, answered]
          · rw [hanswered]
            exact got.trans answered.symm
          · show 0 < (x.server.readAll _ none).unanswered
            rw [hone]
            exact Nat.one_pos
        · have hready : HttpRequest.Readable (b ++ x.arriving n) := by
            have hwhole := hreq.whole.parsed.readable []
            rw [List.append_nil, ← hsplit] at hwhole
            exact hwhole.shorter
          have hgoes := hreq.whole.parsed.waits _ _ hsplit hlater
          obtain ⟨hout, hclosing⟩ := hwait.quiet hready hgoes
          obtain ⟨hwait', -, -, hserved'⟩ := hwait.waits hready hgoes none
          have hserved := hgoing.waits hat hwait hready hgoes none
          rw [← hread] at hserved
          have hmore : x.up + n < x.client.output.length := by
            by_contra hnot
            exact hlater (List.drop_eq_nil_iff.mpr (Nat.le_of_not_lt hnot))
          refine ⟨.asking asked ⟨progress.asks, ?_, progress.output, ?_, hserved,
            hclosing.trans progress.closing, ?_⟩ client hmore ?_ hwait'.unanswered ?_ got,
            fun hcalled => ?_⟩
          · rw [hanswered]
            exact progress.answers
          · rw [htexts]
            exact hout.trans progress.replies
          · rw [htexts]
            exact progress.got
          · show x.down = (x.server.readAll _ none).output.length
            rw [hout, down]
          · rw [hanswered]
            exact answered
          · rw [hserved'] at hcalled
            exact absurd hcalled (Nat.lt_irrefl _)
      · have hone := howing.unanswered
        omega

theorem Stage.receive {x : HttpExchange} (h : x.Stage) {n : Nat} (hpos : 0 < n)
    (hin : x.down + n ≤ x.server.output.length) (behind : Bytes) :
    (x.step (.receive n behind none)).Stage ∧
      (x.client.got.length < (x.client.readAll (x.returning n) behind none).got.length →
        (x.step (.receive n behind none)).client.got.length =
          (x.step (.receive n behind none)).asked.length) := by
  cases h with
  | resting progress client up down unanswered answered got => omega
  | asking asked progress client up down unanswered answered got => omega
  | serving progress client up down unanswered answered got => omega
  | @answering past last b later replied text more progress client up down unanswered answered got =>
      have hresp : Answers last := progress.answers last (by simp [replied])
      have htext : x.answeredText =
          (past.map fun resp => resp.1.text resp.2) ++ [last.1.text last.2] := by
        simp [answeredText, replied]
      have hsplit : (b ++ x.returning n) ++ x.server.output.drop (x.down + n) =
          last.1.text last.2 := by
        have hout : x.server.output =
            (past.map fun resp => resp.1.text resp.2).flatten ++ (b ++ later) := by
          rw [progress.replies, htext, List.flatten_append, List.flatten_singleton, text]
        have hbefore : x.server.output.take x.down =
            (past.map fun resp => resp.1.text resp.2).flatten ++ b := by
          rw [hout, down, ← List.append_assoc, ← List.length_append, List.take_left]
        have hall : x.server.output.take x.down ++
            (x.returning n ++ x.server.output.drop (x.down + n)) =
              (past.map fun resp => resp.1.text resp.2).flatten ++ last.1.text last.2 := by
          rw [returning, cut, hout, text]
        rw [hbefore, List.append_assoc] at hall
        rw [List.append_assoc]
        exact List.append_cancel_left hall
      have hasked : (x.step (.receive n behind none)).asked = x.asked := by
        simp [step]
      have htexts : (x.step (.receive n behind none)).askedText = x.askedText := by
        simp [askedText, step]
      have hwhole := hresp.whole
      rw [← hsplit] at hwhole
      by_cases hlater : x.server.output.drop (x.down + n) = []
      · rw [hlater, List.append_nil] at hsplit hwhole
        have hend : x.down + n = x.server.output.length := by
          have hlen := List.drop_eq_nil_iff.mp hlater
          omega
        obtain ⟨c', hcall, hrested, hgot', hout', hresp'⟩ := client.completes hwhole behind none
        have hread : x.client.readAll (x.returning n) behind none =
            { c' with got := x.client.got ++ [c'.resp] } := by
          rw [hcall, ← hgot']
          rfl
        have hcount : (x.client.readAll (x.returning n) behind none).got.length = x.asked.length := by
          rw [hread, ← answered, replied, List.length_append, List.length_append, got]
          rfl
        have hall : (x.step (.receive n behind none)).client.got.length = x.asked.length := hcount
        refine ⟨.resting ⟨?_, progress.answers, ?_, progress.replies, ?_, progress.closing, ?_⟩
          ?_ ?_ hend unanswered ?_ ?_, fun _ => ?_⟩
        · rw [hasked]
          exact progress.asks
        · rw [htexts]
          show (x.client.readAll _ _ none).output = _
          rw [hread]
          exact hout'.trans progress.output
        · show OnTime _ ((x.client.readAll _ _ none).output.take x.up) x.server
          rw [hread, htexts]
          show OnTime _ (c'.output.take x.up) x.server
          rw [hout']
          exact progress.onTime
        · have hlen : x.answeredText.length = x.asked.length := by
            rw [answeredText, List.length_map, answered]
          have hpast : x.client.got = (past.map fun resp => resp.1.text resp.2).map fun g =>
              (HttpResponse.cleared.tryDecode g [] true).msg := by
            have hprefix := progress.got
            rwa [htext, got, ← List.length_map (f := fun resp => resp.1.text resp.2),
              List.take_left] at hprefix
          rw [hall]
          show (x.client.readAll _ _ none).got = (x.answeredText.take x.asked.length).map _
          rw [hread, ← hlen, List.take_length, htext, List.map_append]
          show x.client.got ++ [c'.resp] = _
          rw [hpast, hresp', hsplit]
          rfl
        · show (x.client.readAll _ _ none).Rested
          rw [hread]
          exact ⟨hrested.fault, hrested.closing, hrested.held⟩
        · show x.up = (x.client.readAll _ _ none).output.length
          rw [hread]
          show x.up = c'.output.length
          rw [hout', up]
        · rw [hasked]
          exact answered
        · rw [hasked]
          exact hall
        · rw [hasked]
          exact hall
      · obtain ⟨hawaits, hgot', hout'⟩ := client.waits hwhole hlater behind none
        refine ⟨.answering replied hsplit.symm hlater ⟨?_, progress.answers, ?_, progress.replies, ?_,
          progress.closing, ?_⟩ hawaits ?_ ?_ unanswered ?_ ?_, fun hcalled => ?_⟩
        · rw [hasked]
          exact progress.asks
        · rw [htexts]
          exact hout'.trans progress.output
        · show OnTime _ ((x.client.readAll _ _ none).output.take x.up) x.server
          rw [htexts, hout']
          exact progress.onTime
        · show (x.client.readAll _ _ none).got =
            (x.answeredText.take (x.client.readAll _ _ none).got.length).map _
          rw [hgot']
          exact progress.got
        · show x.up = (x.client.readAll _ _ none).output.length
          rw [hout', up]
        · show x.down + n = _
          have hlen : (x.returning n).length = n := by
            rw [returning, List.length_take, List.length_drop]
            omega
          rw [down, List.length_append, hlen, Nat.add_assoc]
        · rw [hasked]
          exact answered
        · show (x.client.readAll _ _ none).got.length = past.length
          rw [hgot', got]
        · rw [hgot'] at hcalled
          exact absurd hcalled (Nat.lt_irrefl _)

theorem step_serve_some (x : HttpExchange) (n : Nat) (resp : HttpResponse × Bytes) :
    x.step (.serve n (some resp)) =
      if x.server.served.length < (x.server.readAll (x.arriving n) none).served.length then
        (x.step (.serve n none)).step (.sendResponse resp)
      else x.step (.serve n none) := by
  have hread := x.server.readAll_some (x.arriving n) (resp.1.text resp.2)
  by_cases hcalled : x.server.served.length < (x.server.readAll (x.arriving n) none).served.length
  · rw [if_pos hcalled] at hread ⊢
    simp [step, hread, hcalled]
  · rw [if_neg hcalled] at hread ⊢
    simp [step, hread, hcalled]

theorem step_receive_some (x : HttpExchange) (n : Nat) (behind : Bytes)
    (req : HttpRequest × Bytes) :
    x.step (.receive n behind (some req)) =
      if x.client.got.length < (x.client.readAll (x.returning n) behind none).got.length then
        (x.step (.receive n behind none)).step (.sendRequest req)
      else x.step (.receive n behind none) := by
  have hread := x.client.readAll_some (x.returning n) behind (req.1.text req.2)
  by_cases hcalled :
      x.client.got.length < (x.client.readAll (x.returning n) behind none).got.length
  · rw [if_pos hcalled] at hread ⊢
    simp [step, hread, hcalled]
  · rw [if_neg hcalled] at hread ⊢
    simp [step, hread, hcalled]

theorem Stage.step {x : HttpExchange} (h : x.Stage) (e : ExchangeChoice) (he : x.Lockstep e) :
    (x.step e).Stage := by
  cases e with
  | sendRequest req => exact h.sendRequest he.1 he.2
  | sendResponse resp => exact h.sendResponse he.1 he.2
  | serve n answer =>
      obtain ⟨hpos, hin, hanswer⟩ := he
      obtain ⟨hnext, howed⟩ := h.serve hpos hin
      cases answer with
      | none => exact hnext
      | some resp =>
          rw [step_serve_some]
          split
          · next hcalled => exact hnext.sendResponse (howed hcalled) (hanswer resp rfl)
          · exact hnext
  | receive n behind next =>
      obtain ⟨hpos, hin, hreq⟩ := he
      obtain ⟨hnext, hrest⟩ := h.receive hpos hin behind
      cases next with
      | none => exact hnext
      | some req =>
          rw [step_receive_some]
          split
          · next hcalled => exact hnext.sendRequest (hrest hcalled) (hreq req rfl)
          · exact hnext

/-! ## Whole runs -/

theorem snd_requests (pos : Nat) (fs : List Bytes) :
    (HttpConn.requests pos fs).map Prod.snd =
      fs.map fun f => (HttpRequest.cleared.tryDecode f true).msg := by
  induction fs generalizing pos with
  | nil => rfl
  | cons f fs ih =>
      rw [HttpConn.requests, List.map_cons, List.map_cons, ih]

/-- What was served is what was asked. -/
theorem Progress.served {x : HttpExchange} {old : List Bytes} (h : x.Progress old)
    (hold : old <+: x.askedText) {i : Nat} {s : Nat × HttpRequest}
    (hs : x.server.served[i]? = some s) :
    ∃ req, x.asked[i]? = some req ∧ HttpRequest.Carries req s.2 := by
  obtain ⟨rest, hrest⟩ := hold
  have hmsg : (x.server.served.map Prod.snd)[i]? = some s.2 := by
    rw [List.getElem?_map, hs]
    rfl
  rw [h.onTime.served, snd_requests, List.getElem?_map] at hmsg
  obtain ⟨f, hf, hdecoded⟩ := Option.map_eq_some_iff.mp hmsg
  have hfs : x.askedText[i]? = some f := by
    rw [← hrest]
    exact List.getElem?_append_left (List.getElem?_eq_some_iff.mp hf).1 |>.trans hf
  rw [askedText, List.getElem?_map] at hfs
  obtain ⟨req, hreq, rfl⟩ := Option.map_eq_some_iff.mp hfs
  refine ⟨req, hreq, ?_⟩
  rw [← hdecoded]
  exact (HttpRequest.text_whole (h.asks req (List.mem_of_getElem? hreq))).2

/-- What the client got is what was answered. -/
theorem Progress.received {x : HttpExchange} {old : List Bytes} (h : x.Progress old) {i : Nat}
    {r : HttpResponse} (hr : x.client.got[i]? = some r) :
    ∃ resp, x.answered[i]? = some resp ∧ HttpResponse.Carries resp r := by
  rw [h.got, List.getElem?_map] at hr
  obtain ⟨g, hg, rfl⟩ := Option.map_eq_some_iff.mp hr
  have hgs : x.answeredText[i]? = some g := by
    rw [List.getElem?_take] at hg
    split at hg
    · exact hg
    · cases hg
  rw [answeredText, List.getElem?_map] at hgs
  obtain ⟨resp, hresp, rfl⟩ := Option.map_eq_some_iff.mp hgs
  exact ⟨resp, hresp, (HttpResponse.text_whole (h.answers resp (List.mem_of_getElem? hresp))).2⟩

end HttpExchange

end Handy
